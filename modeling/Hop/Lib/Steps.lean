import Mathlib

/-!
# A relation so many times

`Times R k` relates what `k` steps of `R` lead from and to.
-/

namespace Hop

variable {α : Type} {R S : α → α → Prop} {k l : ℕ} {a b c : α}

/-- `k` steps. -/
def Times (R : α → α → Prop) : ℕ → α → α → Prop
  | 0, a, b => b = a
  | k + 1, a, b => ∃ m, R a m ∧ Times R k m b

theorem times_zero : Times R 0 a b ↔ b = a := Iff.rfl

theorem Times.cons (h : R a b) (hrest : Times R k b c) : Times R (k + 1) a c := ⟨b, h, hrest⟩

theorem Times.append (h : Times R k a b) (hrest : Times R l b c) : Times R (k + l) a c := by
  induction k generalizing a with
  | zero =>
    rw [times_zero] at h
    subst h
    rwa [Nat.zero_add]
  | succ k ih =>
    obtain ⟨m, hm, h⟩ := h
    rw [Nat.succ_add]
    exact ⟨m, hm, ih h⟩

/-- So many steps and some more, cut in two. -/
theorem Times.split (h : Times R (k + l) a c) : ∃ b, Times R k a b ∧ Times R l b c := by
  induction k generalizing a with
  | zero =>
    rw [Nat.zero_add] at h
    exact ⟨a, rfl, h⟩
  | succ k ih =>
    rw [Nat.succ_add] at h
    obtain ⟨m, hm, h⟩ := h
    obtain ⟨b, hfirst, hrest⟩ := ih h
    exact ⟨b, ⟨m, hm, hfirst⟩, hrest⟩

theorem reflTransGen_iff_times : Relation.ReflTransGen R a b ↔ ∃ k, Times R k a b := by
  constructor
  · intro h
    induction h using Relation.ReflTransGen.head_induction_on with
    | refl => exact ⟨0, rfl⟩
    | head hstep _ ih =>
      obtain ⟨k, hk⟩ := ih
      exact ⟨k + 1, hk.cons hstep⟩
  · rintro ⟨k, h⟩
    induction k generalizing a with
    | zero =>
      rw [times_zero] at h
      rw [h]
    | succ k ih =>
      obtain ⟨m, hm, h⟩ := h
      exact Relation.ReflTransGen.head hm (ih h)

end Hop
