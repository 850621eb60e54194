import Mathlib

/-!
# Reading a stream in pieces

A reader keeps what came in and takes the first unit off it once it is whole. What it takes does
not depend on how the stream was cut into pieces, if a unit is known from its own bytes: more input
neither changes it (`Cutter.append`) nor is needed for it (`Cutter.early`).
-/

namespace Hop

universe u

/-- A way to take the first unit off an input, with the rest. -/
structure Cutter (α : Type u) where
  cut : List α → Option (List α × List α)
  nil : cut [] = none
  suffix : ∀ {b u r : List α}, cut b = some (u, r) → r <:+ b
  append : ∀ {b u r : List α}, cut b = some (u, r) → ∀ c, cut (b ++ c) = some (u, r ++ c)
  early : ∀ {b c u r : List α}, cut (b ++ c) = some (u, r ++ c) → cut b = some (u, r)

namespace Cutter

variable {α : Type u} (C : Cutter α)

/-- The input is these units, one after the other. -/
def Cuts : List (List α) → List α → Prop
  | [], b => b = []
  | u :: us, b => ∃ r, C.cut b = some (u, r) ∧ Cuts us r

variable {C} {us : List (List α)} {rest later u r : List α}

/-- A unit that is taken off is the first one, whatever comes later. -/
theorem Cuts.take (h : C.Cuts us (rest ++ later)) (hcut : C.cut rest = some (u, r)) :
    ∃ us', us = u :: us' ∧ C.Cuts us' (r ++ later) := by
  rcases us with _ | ⟨u', us'⟩
  · obtain ⟨rfl, rfl⟩ := List.append_eq_nil_iff.mp h
    rw [C.nil] at hcut
    cases hcut
  · obtain ⟨r', hcut', hrest⟩ := h
    rw [C.append hcut later] at hcut'
    cases hcut'
    exact ⟨us', rfl, hrest⟩

/-- As long as no unit is whole, the input is shorter than the first one. -/
theorem Cuts.wait (h : C.Cuts (u :: us) (rest ++ later)) (hcut : C.cut rest = none) :
    ∃ r, C.cut (rest ++ later) = some (u, r) ∧ C.Cuts us r ∧ r.length < later.length := by
  obtain ⟨r, hwhole, hrest⟩ := h
  refine ⟨r, hwhole, hrest, ?_⟩
  by_contra hle
  obtain ⟨front, hfront⟩ : later <:+ r :=
    List.suffix_of_suffix_length_le (List.suffix_append rest later) (C.suffix hwhole) (Nat.not_lt.mp hle)
  rw [← hfront] at hwhole
  rw [C.early hwhole] at hcut
  cases hcut

/-- At the end of the stream, everything was taken. -/
theorem Cuts.done (h : C.Cuts us rest) (hcut : C.cut rest = none) : us = [] := by
  rcases us with _ | ⟨u, us'⟩
  · rfl
  · obtain ⟨r, hwhole, -⟩ := h
    rw [hcut] at hwhole
    cases hwhole

end Cutter

end Hop
