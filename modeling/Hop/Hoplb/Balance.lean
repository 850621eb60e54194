import Hop.Hoplb.Route
import Hop.Lib.RoundRobin

/-!
# A healthy backend

`apps/hoplb/src/route.rs`, `Route::healthy_backend`: every call moves the counter of the route up
by one and takes the first healthy backend from there on. The counter is a `u64` that wraps.
-/

namespace Hop.Hoplb

open RoundRobin

namespace Route

/-- The backend at an index, if it is healthy. -/
def healthyAt (r : Route) (idx : ℕ) : Option Backend := r.backends[idx]?.filter Backend.healthy

/-- A healthy backend, round robin; returns the route with its counter moved up. -/
def healthyBackend (r : Route) : Option Backend × Route :=
  let n := r.backends.length
  if n = 0 then (none, r)
  else
    let start := (r.next + 1) % 2 ^ 64
    ((List.range n).findSome? fun i => r.healthyAt ((start + i) % 2 ^ 64 % n),
      { r with next := start })

/-- What so many consecutive calls return. -/
def healthyBackends : ℕ → Route → List (Option Backend)
  | 0, _ => []
  | k + 1, r => r.healthyBackend.1 :: healthyBackends k r.healthyBackend.2

variable {r : Route} {k i : ℕ}

theorem healthyAt_eq_some {b : Backend} :
    r.healthyAt i = some b ↔ r.backends[i]? = some b ∧ b.healthy = true :=
  Option.filter_eq_some_iff

theorem healthyAt_eq_none {b : Backend} (hb : r.backends[i]? = some b) (h : r.healthyAt i = none) :
    b.healthy = false := by
  by_contra hhealthy
  have hsome : r.healthyAt i = some b :=
    healthyAt_eq_some.mpr ⟨hb, Bool.eq_true_of_not_eq_false hhealthy⟩
  rw [h] at hsome
  cases hsome

theorem healthyBackend_eq (h : r.backends.length ≠ 0) : r.healthyBackend =
    ((List.range r.backends.length).findSome? fun i =>
      r.healthyAt (turn (2 ^ 64) r.backends.length ((r.next + 1) % 2 ^ 64) i),
      { r with next := (r.next + 1) % 2 ^ 64 }) := if_neg h

/-- What is returned is a healthy backend of the route. -/
theorem healthyBackend_sound {b : Backend} (h : r.healthyBackend.1 = some b) :
    b ∈ r.backends ∧ b.healthy = true := by
  by_cases h0 : r.backends.length = 0
  · rw [healthyBackend, if_pos h0] at h
    cases h
  · rw [healthyBackend_eq h0] at h
    obtain ⟨i, -, hat⟩ := List.exists_of_findSome?_eq_some h
    obtain ⟨hget, hhealthy⟩ := healthyAt_eq_some.mp hat
    exact ⟨List.mem_of_getElem? hget, hhealthy⟩

/-- The backend whose turn comes next is the one that is returned if it is healthy. -/
theorem healthyBackend_of_healthy (h : ∀ b ∈ r.backends, b.healthy = true)
    (h0 : r.backends.length ≠ 0) (hnext : r.next + 1 < 2 ^ 64) : r.healthyBackend =
      (r.backends[turn (2 ^ 64) r.backends.length (r.next + 1) 0]?,
        { r with next := r.next + 1 }) := by
  obtain ⟨n, hn⟩ := Nat.exists_eq_succ_of_ne_zero h0
  have hlt := turn_lt (w := 2 ^ 64) (c := r.next + 1) (Nat.pos_of_ne_zero h0) 0
  have hget := List.getElem?_eq_getElem hlt
  have hat : r.healthyAt (turn (2 ^ 64) r.backends.length (r.next + 1) 0) =
      some r.backends[turn (2 ^ 64) r.backends.length (r.next + 1) 0] :=
    healthyAt_eq_some.mpr ⟨hget, h _ (List.getElem_mem hlt)⟩
  have hrange : List.range r.backends.length = 0 :: (List.range n).map Nat.succ := by
    rw [hn, List.range_succ_eq_map]
  rw [healthyBackend_eq h0, Nat.mod_eq_of_lt hnext, hget]
  refine Prod.ext ?_ rfl
  dsimp only
  rw [hrange, List.findSome?_cons, hat]

/-- Where all are healthy, the calls return the backends in turn. -/
theorem healthyBackends_eq (h : ∀ b ∈ r.backends, b.healthy = true) (h0 : r.backends.length ≠ 0)
    (hnext : r.next + k < 2 ^ 64) : healthyBackends k r =
      (List.range k).map fun i => r.backends[turn (2 ^ 64) r.backends.length (r.next + 1) i]? := by
  induction k generalizing r with
  | zero => rfl
  | succ k ih =>
    have hcall := healthyBackend_of_healthy h h0 (by omega)
    have hrest := ih (r := { r with next := r.next + 1 }) h h0
      (show r.next + 1 + k < 2 ^ 64 by omega)
    rw [healthyBackends, hcall, hrest, List.range_succ_eq_map, List.map_cons, List.map_map]
    congr 1
    refine List.map_congr_left fun i _ => ?_
    have hmove : turn (2 ^ 64) r.backends.length (r.next + 1 + 1) i =
        turn (2 ^ 64) r.backends.length (r.next + 1) (i + 1) := by
      rw [turn, turn, Nat.add_assoc (r.next + 1), Nat.add_comm 1]
    dsimp only [Function.comp]
    rw [hmove]

/-- As many calls as there are backends, all of them healthy, return each of them once. -/
theorem healthyBackends_perm (h : ∀ b ∈ r.backends, b.healthy = true)
    (hnext : r.next + r.backends.length < 2 ^ 64) :
    (healthyBackends r.backends.length r).Perm (r.backends.map some) := by
  by_cases h0 : r.backends.length = 0
  · rw [List.length_eq_zero_iff.mp h0]
    exact List.Perm.refl _
  · have hturns := (map_turn_perm (Nat.pos_of_ne_zero h0) (show r.next + 1 < 2 ^ 64 by omega)
      (show r.next + 1 + r.backends.length ≤ 2 ^ 64 by omega)).map fun i => r.backends[i]?
    have hall : (List.range r.backends.length).map (fun i => r.backends[i]?) =
        r.backends.map some := by
      refine List.ext_getElem (by simp) fun i hi _ => ?_
      rw [List.length_map, List.length_range] at hi
      simp [hi]
    rw [healthyBackends_eq h h0 hnext, ← hall]
    rw [List.map_map] at hturns
    exact hturns

/-- Whatever the health of so many backends, a call finds a healthy one where there is one. -/
def Finds (n next : ℕ) : Prop :=
  ∀ r : Route, r.backends.length = n → r.next = next →
    (r.healthyBackend.1 = none ↔ ∀ b ∈ r.backends, b.healthy = false)

/-- A call misses no healthy backend if and only if its counter does not wrap within the search, or
the number of backends divides `2 ^ 64`. -/
theorem finds_iff {n next : ℕ} : Finds n next ↔
    n = 0 ∨ (next + 1) % 2 ^ 64 + n ≤ 2 ^ 64 ∨ n ∣ 2 ^ 64 := by
  rcases Nat.eq_zero_or_pos n with rfl | hn
  · simp only [true_or, iff_true]
    intro r hr _
    rw [healthyBackend, if_pos hr, List.length_eq_zero_iff.mp hr]
    simp
  · have hc : (next + 1) % 2 ^ 64 < 2 ^ 64 := Nat.mod_lt _ (by decide)
    rw [← covers_iff hn hc, or_iff_right hn.ne']
    constructor
    · -- the route with one healthy backend, the one that would have no turn
      intro h m hm
      by_contra hnone
      let r : Route := ⟨[], (List.range n).map fun i => ⟨[], i = m⟩, next⟩
      have hlen : r.backends.length = n := by simp [r]
      have hget : ∀ i < n, r.backends[i]? = some ⟨[], i = m⟩ := by
        intro i hi
        simp [r, hi]
      have hmissed : r.healthyBackend.1 = none := by
        rw [healthyBackend_eq (by omega), List.findSome?_eq_none_iff]
        intro i hi
        rw [List.mem_range, hlen] at hi
        rw [hlen, healthyAt, hget _ (turn_lt hn i)]
        refine Option.filter_eq_none_iff.mpr fun b hb => ?_
        cases hb
        have hne : turn (2 ^ 64) n ((next + 1) % 2 ^ 64) i ≠ m := fun heq => hnone ⟨i, hi, heq⟩
        simpa using hne
      have hall := (h r hlen rfl).mp hmissed _ (List.mem_of_getElem? (hget m hm))
      simp at hall
    · intro hcovers r hr hnext
      constructor
      · intro hnone b hb
        obtain ⟨m, hm, hget⟩ := List.getElem_of_mem hb
        rw [healthyBackend_eq (by omega), List.findSome?_eq_none_iff, hr, hnext] at hnone
        obtain ⟨i, hi, hturn⟩ := hcovers m (hr ▸ hm)
        have hat := hnone i (List.mem_range.mpr hi)
        rw [hturn] at hat
        exact healthyAt_eq_none (List.getElem?_eq_some_iff.mpr ⟨hm, hget⟩) hat
      · intro hall
        rcases hfound : r.healthyBackend.1 with - | b
        · rfl
        · obtain ⟨hmem, hhealthy⟩ := healthyBackend_sound hfound
          rw [hall b hmem] at hhealthy
          cases hhealthy

end Route

end Hop.Hoplb
