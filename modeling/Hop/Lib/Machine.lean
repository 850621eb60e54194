import Mathlib

/-!
# Machines: partial step functions and what holds along their runs

A `Machine` is a set of initial states and a partial step function: `step s e = none` says
that event `e` cannot happen in state `s`. A run is a list of events, so a run is a value
that can be evaluated (`Machine.run`), and a statement about every run is a statement about
every list.

Two notions carry the results of this development:

* `Machine.Always P s es`: `P` holds in every state that the run `es` from `s` passes;
* `Machine.Along ok s es`: every step of the run meets the step condition `ok`, which reads
  the state before the step and the event.

`Machine.Along.always` is the invariant rule for runs whose steps meet a condition, and
`Machine.always_iff_along` its exact form. Both are stated with an inductive strengthening
`K` of the property `P`: a step that meets the condition keeps `K`, and (for the exact form)
a step from a `K`-state that ends in `P` meets the condition.
-/

namespace Hop

universe u v

variable {σ : Type u} {ε : Type v}
variable {s : σ} {es : List ε}

/-- A machine: which states a run may start in, and what one event does. -/
structure Machine (σ : Type u) (ε : Type v) where
  /-- The states a run may start in. -/
  Init : σ → Prop
  /-- The state after an event; `none` if the event cannot happen here. -/
  step : σ → ε → Option σ

namespace Machine

variable (M : Machine σ ε)

/-- The state after a list of events, if each of them can happen in its turn. -/
def run : σ → List ε → Option σ
  | s, [] => some s
  | s, e :: es => (M.step s e).bind fun s' => run s' es

/-- `P` holds in every state that the run passes, the first and the last included. -/
def Always (P : σ → Prop) : σ → List ε → Prop
  | s, [] => P s
  | s, e :: es => P s ∧ ∀ s', M.step s e = some s' → Always P s' es

/-- Every step of the run meets `ok`, a condition on the state before it and the event. -/
def Along (ok : σ → ε → Prop) : σ → List ε → Prop
  | _, [] => True
  | s, e :: es => ∀ s', M.step s e = some s' → ok s e ∧ Along ok s' es

/-- Whether what an event leads to satisfies `P` can be decided if `P` can. -/
instance decidableNext (P : σ → Prop) [DecidablePred P] (s : σ) (e : ε) :
    Decidable (∀ s', M.step s e = some s' → P s') :=
  match M.step s e with
  | none => isTrue fun s' hs' => by cases hs'
  | some t => decidable_of_iff (P t)
      ⟨fun ht s' hs' => Option.some.inj hs' ▸ ht, fun hall => hall t rfl⟩

instance decidableAlong (ok : σ → ε → Prop) [∀ s e, Decidable (ok s e)] :
    (s : σ) → (es : List ε) → Decidable (M.Along ok s es)
  | _, [] => isTrue trivial
  | s, e :: es =>
    match h : M.step s e with
    | none => isTrue fun s' hs' => by cases h.symm.trans hs'
    | some t =>
      have := decidableAlong ok t es
      decidable_of_iff (ok s e ∧ M.Along ok t es)
        ⟨fun ht s' hs' => Option.some.inj (h.symm.trans hs') ▸ ht, fun hall => hall t h⟩

/-- `s` is reached by some run. -/
def Reachable (s : σ) : Prop := ∃ s₀ es, M.Init s₀ ∧ M.run s₀ es = some s

variable {M} {P K : σ → Prop} {ok : σ → ε → Prop}

theorem Always.head (h : M.Always P s es) : P s := by
  cases es with
  | nil => exact h
  | cons e es => exact h.1

/-- What holds along a run holds in the state it ends in. -/
theorem Always.last {s' : σ} (h : M.Always P s es) (hr : M.run s es = some s') : P s' := by
  induction es generalizing s with
  | nil =>
    obtain rfl : s = s' := by simpa [run] using hr
    exact h
  | cons e es ih =>
    obtain ⟨t, ht, htr⟩ : ∃ t, M.step s e = some t ∧ M.run t es = some s' := by
      simpa [run, Option.bind_eq_some_iff] using hr
    exact ih (h.2 t ht) htr

/-- A step that meets the condition, in front of a run whose steps meet it. -/
theorem along_cons {s' : σ} {e : ε} (hs : M.step s e = some s') (he : ok s e)
    (h : M.Along ok s' es) : M.Along ok s (e :: es) := by
  intro t ht
  obtain rfl : s' = t := Option.some.inj (hs.symm.trans ht)
  exact ⟨he, h⟩

/-- **The invariant rule for conditioned runs**: what a step keeps whenever it meets the
condition holds in every state of a run whose steps all meet it. -/
theorem Along.always (h : M.Along ok s es) (hP : ∀ s, K s → P s)
    (hkeep : ∀ s e s', K s → M.step s e = some s' → ok s e → K s') (hs : K s) :
    M.Always P s es := by
  induction es generalizing s with
  | nil => exact hP s hs
  | cons e es ih =>
    refine ⟨hP s hs, fun s' hs' => ?_⟩
    obtain ⟨hok, hrest⟩ := h s' hs'
    exact ih hrest (hkeep s e s' hs hs' hok)

theorem Along.and {ok' : σ → ε → Prop} (h : M.Along ok s es) (h' : M.Along ok' s es) :
    M.Along (fun s e => ok s e ∧ ok' s e) s es := by
  induction es generalizing s with
  | nil => trivial
  | cons e es ih =>
    intro s' hs'
    obtain ⟨hok, hrest⟩ := h s' hs'
    obtain ⟨hok', hrest'⟩ := h' s' hs'
    exact ⟨⟨hok, hok'⟩, ih hrest hrest'⟩

/-- What a step does from a state that meets the invariant, it does along the run. -/
theorem Along.imp_of_invariant {ok' : σ → ε → Prop} (h : M.Along ok s es)
    (hkeep : ∀ s e s', K s → M.step s e = some s' → ok s e → K s')
    (hgive : ∀ s e, K s → ok s e → ok' s e) (hs : K s) : M.Along ok' s es := by
  induction es generalizing s with
  | nil => trivial
  | cons e es ih =>
    intro s' hs'
    obtain ⟨hok, hrest⟩ := h s' hs'
    exact ⟨hgive s e hs hok, ih hrest (hkeep s e s' hs hs' hok)⟩

/-- **The exact rule**: if moreover a step that ends in `P` meets the condition, then a run
keeps `P` exactly when all its steps meet it. -/
theorem always_iff_along (hP : ∀ s, K s → P s)
    (hkeep : ∀ s e s', K s → M.step s e = some s' → ok s e → K s')
    (hneed : ∀ s e s', K s → M.step s e = some s' → P s' → ok s e) (hs : K s) :
    M.Always P s es ↔ M.Along ok s es := by
  refine ⟨fun h => ?_, fun h => h.always hP hkeep hs⟩
  induction es generalizing s with
  | nil => trivial
  | cons e es ih =>
    intro s' hs'
    have hrest := h.2 s' hs'
    have hok := hneed s e s' hs hs' hrest.head
    exact ⟨hok, ih (hkeep s e s' hs hs' hok) hrest⟩

theorem Reachable.init (h : M.Init s) : M.Reachable s := ⟨s, [], h, rfl⟩

theorem run_append {t : σ} (h : M.run s es = some t) (ds : List ε) :
    M.run s (es ++ ds) = M.run t ds := by
  induction es generalizing s with
  | nil =>
    obtain rfl : s = t := by simpa [run] using h
    rfl
  | cons e es ih =>
    obtain ⟨u, hu, hrest⟩ : ∃ u, M.step s e = some u ∧ M.run u es = some t := by
      simpa [run, Option.bind_eq_some_iff] using h
    simp only [List.cons_append, run, hu, Option.bind_some]
    exact ih hrest

/-- What a step leads to from a reachable state is reachable. -/
theorem Reachable.next {s' : σ} {e : ε} (h : M.Reachable s) (hstep : M.step s e = some s') :
    M.Reachable s' := by
  obtain ⟨s₀, es, h₀, hr⟩ := h
  refine ⟨s₀, es ++ [e], h₀, ?_⟩
  rw [run_append hr, run, hstep]
  rfl

/-- What every step keeps holds in every reachable state. -/
theorem Reachable.invariant (h : M.Reachable s) (hinit : ∀ s, M.Init s → P s)
    (hstep : ∀ s e s', P s → M.step s e = some s' → P s') : P s := by
  obtain ⟨s₀, es, h₀, hr⟩ := h
  have halong : M.Along (fun _ _ => True) s₀ es := by
    clear h₀ hr
    induction es generalizing s₀ with
    | nil => trivial
    | cons e es ih => exact fun s' _ => ⟨trivial, ih s'⟩
  exact (halong.always (fun _ h => h) (fun s e s' hs hs' _ => hstep s e s' hs hs')
    (hinit s₀ h₀)).last hr

end Machine

end Hop
