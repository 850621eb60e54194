import Mathlib

/-!
# Computations that can fail

What a run of reads that can each fail has met when it succeeds: `Except` with any kind of error.
-/

namespace Hop

variable {ε α β σ : Type}

theorem bind_eq_ok {x : Except ε α} {f : α → Except ε β} {b : β} (h : (x >>= f) = .ok b) :
    ∃ a, x = .ok a ∧ f a = .ok b := by
  rcases x with e | a
  · cases h
  · exact ⟨a, rfl, h⟩

/-- A check that was passed. -/
theorem guard_eq_ok {c : Prop} [Decidable c] {e : ε} {x : Except ε α} {a : α}
    (h : (if c then .error e else x) = .ok a) : ¬ c ∧ x = .ok a := by
  split_ifs at h with hc
  exact ⟨hc, h⟩

/-- What every step keeps holds at the end of a run of steps. -/
theorem foldlM_invariant {step : σ → α → Except ε σ} {P : σ → Prop}
    (hstep : ∀ st a st', P st → step st a = .ok st' → P st') {as : List α} {st st' : σ}
    (h : as.foldlM step st = .ok st') (hst : P st) : P st' := by
  induction as generalizing st with
  | nil =>
    cases h
    exact hst
  | cons a as ih =>
    rw [List.foldlM_cons] at h
    obtain ⟨mid, hmid, h⟩ := bind_eq_ok h
    exact ih h (hstep st a mid hst hmid)

theorem mapM_invariant {read : α → Except ε β} {P : β → Prop}
    (hread : ∀ v a, read v = .ok a → P a) {vs : List α} {as : List β}
    (h : vs.mapM read = .ok as) : as.length = vs.length ∧ ∀ a ∈ as, P a := by
  induction vs generalizing as with
  | nil =>
    cases h
    exact ⟨rfl, fun _ ha => absurd ha List.not_mem_nil⟩
  | cons v vs ih =>
    rw [List.mapM_cons] at h
    obtain ⟨a, ha, h⟩ := bind_eq_ok h
    obtain ⟨rest, hrest, h⟩ := bind_eq_ok h
    cases h
    obtain ⟨hlen, hall⟩ := ih hrest
    refine ⟨by rw [List.length_cons, List.length_cons, hlen], fun b hb => ?_⟩
    rcases List.mem_cons.mp hb with rfl | hb
    · exact hread v b ha
    · exact hall b hb

end Hop
