import Mathlib

/-!
# Computations that ask for memory

An allocator is a stream of answers. A computation that cannot do without the memory it asks for
fails with the first no. `Meets` says what holds of every result, whatever the answers were, and that
there is one if they are all yes.
-/

namespace Hop

variable {α β σ τ : Type}

/-- A computation that asks for memory; what is left of the answers is its state. -/
abbrev Alloc (α : Type) : Type := StateT (ℕ → Bool) Option α

namespace Alloc

/-- An allocator that always says yes. -/
def always : ℕ → Bool := fun _ => true

/-- Asks for memory and fails without. -/
def reserve : Alloc Unit := fun room => if room 0 then some ((), fun n => room (n + 1)) else none

/-- Every result is one of these, and there is one if the allocator always says yes. -/
structure Meets (x : Alloc α) (P : α → Prop) : Prop where
  sound : ∀ room a room', x room = some (a, room') → P a
  complete : ∃ a, x always = some (a, always)

variable {x : Alloc α} {P Q : α → Prop} {a : α}

theorem Meets.pure (h : P a) : Meets (pure a) P where
  sound _ _ _ hx := by
    cases hx
    exact h
  complete := ⟨a, rfl⟩

theorem Meets.mono (h : Meets x P) (hPQ : ∀ a, P a → Q a) : Meets x Q :=
  ⟨fun room a room' hx => hPQ a (h.sound room a room' hx), h.complete⟩

theorem Meets.bind {f : α → Alloc β} {R : β → Prop} (h : Meets x P)
    (hf : ∀ a, P a → Meets (f a) R) : Meets (x >>= f) R := by
  constructor
  · intro room b room' hb
    obtain ⟨⟨a, mid⟩, ha, hrest⟩ := Option.bind_eq_some_iff.mp hb
    exact (hf a (h.sound room a mid ha)).sound mid b room' hrest
  · obtain ⟨a, ha⟩ := h.complete
    obtain ⟨b, hb⟩ := (hf a (h.sound _ _ _ ha)).complete
    exact ⟨b, Option.bind_eq_some_iff.mpr ⟨_, ha, hb⟩⟩

theorem meets_reserve : Meets reserve fun _ => True where
  sound _ _ _ _ := trivial
  complete := ⟨(), rfl⟩

/-- A loop goes along with one that asks for nothing. -/
theorem Meets.foldlM {f : σ → α → Alloc σ} {g : τ → α → τ} {R : σ → τ → Prop}
    (hstep : ∀ s t a, R s t → Meets (f s a) fun s' => R s' (g t a)) (as : List α) {s : σ} {t : τ}
    (h : R s t) : Meets (as.foldlM f s) fun s' => R s' (as.foldl g t) := by
  induction as generalizing s t with
  | nil => exact .pure h
  | cons a as ih =>
    rw [List.foldlM_cons]
    exact (hstep s t a h).bind fun s' hs' => ih hs'

/-- A loop of which only its end matters. -/
theorem Meets.foldlM_true {f : σ → α → Alloc σ} (hstep : ∀ s a, Meets (f s a) fun _ => True)
    (as : List α) (s : σ) : Meets (as.foldlM f s) fun _ => True :=
  Meets.foldlM (g := fun (_ : Unit) _ => ()) (R := fun _ _ => True) (fun s _ a _ => hstep s a)
    as (t := ()) trivial

theorem meets_forM {f : α → Alloc Unit} (as : List α) (hf : ∀ a, Meets (f a) fun _ => True) :
    Meets (as.forM f) fun _ => True := by
  induction as with
  | nil => exact .pure trivial
  | cons a as ih => exact (hf a).bind fun _ _ => ih

end Alloc

end Hop
