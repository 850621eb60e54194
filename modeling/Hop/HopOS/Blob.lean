import Hop.HopOS.Terms

/-!
# The committed state of a fleet

The state of the cluster is one blob that the leader overwrites without a condition: only the lease
is fenced. A snapshot waits in the queue of the node that took it, and nothing takes it out when the
node steps down, so it may land when another node has long read the state and leads.

A `Fleet` is any number of nodes over one blob. It writes down which snapshots took effect, when the
state was read, which leader halves opened and which terms ended. `blob_kept` says when no snapshot
of a term that was over spoils the state of a later leader: if none is under way when a leader half
opens.
-/

namespace Hop.HopOS

/-- What a step of a node does at the state store. -/
inductive Access
  | idle
  /-- It reads the committed state for a load of this term. -/
  | read (term : ℕ) (got : Except String (Option Bytes))
  /-- It overwrites the committed state with a snapshot of this term. -/
  | write (term : ℕ) (snapshot : Bytes) (result : Except String Unit)

/-- A node that takes part in the election and has its own queue to the state store. -/
class StateNode (N : Type) (E : outParam Type) where
  /-- The node after an event; `next` is the number of a win, if the event is one. -/
  step : N → (next : ℕ) → E → Option N
  access : N → E → Access
  wins : N → E → Bool
  leading : N → Bool
  /-- The leader half is open. -/
  live : N → Bool
  /-- The number of the last win. -/
  term : N → ℕ
  /-- The terms of the snapshots that are queued or under way. -/
  saves : N → List ℕ
  Fresh : N → Prop
  Sound : N → Prop
  fresh_sound : ∀ p, Fresh p → Sound p
  fresh_term : ∀ p, Fresh p → term p = 0
  fresh_leading : ∀ p, Fresh p → leading p = false
  step_sound : ∀ p next e p', Sound p → step p next e = some p' → Sound p'
  step_term : ∀ p next e p', Sound p → step p next e = some p' →
    term p' = if wins p e then next else term p
  step_leading : ∀ p next e p', Sound p → step p next e = some p' → leading p' = true →
    leading p = true ∨ wins p e = true
  wins_leading : ∀ p e, wins p e = true → leading p = false
  live_leading : ∀ p, Sound p → live p = true → leading p = true
  /-- New snapshots are of the term of a leader whose half is open. -/
  step_saves : ∀ p next e p' t, Sound p → step p next e = some p' → t ∈ saves p' →
    t ∈ saves p ∨ (t = term p' ∧ live p' = true)
  write_saves : ∀ p e t s result, access p e = .write t s result → t ∈ saves p

/-- Nodes over one blob. -/
structure Fleet (ι N : Type) where
  nodes : ι → N
  /-- How many elections were won. -/
  wins : ℕ
  /-- The committed state at the start. -/
  start : Option Bytes
  /-- The snapshots that took effect, oldest first, with their terms. -/
  writes : List (ℕ × Bytes)
  /-- The terms of the loads that were carried out, with the number of writes before them. -/
  reads : List (ℕ × ℕ)
  /-- The terms whose leader half opened, with the number of writes before that. -/
  opens : List (ℕ × ℕ)
  /-- The terms that ended, with the number of wins before that. -/
  ended : List (ℕ × ℕ)

namespace Fleet

variable {ι N E : Type} [StateNode N E]

open StateNode (leading live)

/-- The committed state after the first `i` writes. -/
def stateAt (f : Fleet ι N) (i : ℕ) : Option Bytes :=
  ((f.writes.take i).getLast?.map Prod.snd).or f.start

/-- The committed state. -/
def blob (f : Fleet ι N) : Option Bytes := f.stateAt f.writes.length

/-- What the store does; `took` says whether a write took effect, which it may have done even if it
was answered with an error. -/
def reach (f : Fleet ι N) (took : Bool) : Access → Option (Fleet ι N)
  | .idle => some f
  | .read t (.ok got) =>
    if got = f.blob then some { f with reads := f.reads ++ [(t, f.writes.length)] } else none
  | .read _ (.error _) => some f
  | .write t s result =>
    if took then some { f with writes := f.writes ++ [(t, s)] }
    else match result with
      | .ok () => none
      | .error _ => some f

/-- Node `i` becomes `p` by an event that is a win or not. -/
def become [DecidableEq ι] (f : Fleet ι N) (i : ι) (p : N) (won : Bool) : Fleet ι N :=
  let old := f.nodes i
  { f with
    nodes := Function.update f.nodes i p
    wins := if won then f.wins + 1 else f.wins
    opens := if live p && !live old then f.opens ++ [(StateNode.term p, f.writes.length)]
      else f.opens
    ended := if leading old && !leading p then f.ended ++ [(StateNode.term old, f.wins)]
      else f.ended }

/-- An event of one of the nodes. -/
structure Event (ι E : Type) where
  node : ι
  event : E
  took : Bool

def step [DecidableEq ι] (f : Fleet ι N) (e : Event ι E) : Option (Fleet ι N) :=
  (StateNode.step (f.nodes e.node) (f.wins + 1) e.event).bind fun p =>
    (f.reach e.took (StateNode.access (f.nodes e.node) e.event)).map fun g =>
      g.become e.node p (StateNode.wins (f.nodes e.node) e.event)

/-- No node has led yet. -/
structure Fresh (f : Fleet ι N) : Prop where
  nodes : ∀ i, StateNode.Fresh (f.nodes i)
  wins : f.wins = 0
  writes : f.writes = []
  reads : f.reads = []
  opens : f.opens = []
  ended : f.ended = []

/-- Term `k` ended before the win of term `t`. -/
def EndedBefore (f : Fleet ι N) (k t : ℕ) : Prop := ∃ x ∈ f.ended, x.1 = k ∧ x.2 < t

instance (f : Fleet ι N) (k t : ℕ) : Decidable (f.EndedBefore k t) :=
  inferInstanceAs (Decidable (∃ x ∈ f.ended, x.1 = k ∧ x.2 < t))

/-- The state that a leader of term `t` is answerable for stands from here on: the load of its term
was carried out, or its leader half opened. -/
def Stands (f : Fleet ι N) (t i : ℕ) : Prop :=
  (t, i) ∈ f.opens ∨ ((t, i) ∈ f.reads ∧ ∃ j, (t, j) ∈ f.opens)

/-- **An ex-leader does not overwrite the state of its successor**: once a node has read the
committed state and opened its leader half, no snapshot takes effect of a term that ended before its
win. What is read later is what this leader read, or was written in a term that was not over. -/
structure Kept (f : Fleet ι N) : Prop where
  writes : ∀ t i, f.Stands t i → ∀ w ∈ f.writes.drop i, ¬ f.EndedBefore w.1 t
  later : ∀ t i, f.Stands t i → ∀ t' j, (t', j) ∈ f.reads → i ≤ j →
    f.stateAt j = f.stateAt i ∨
      ∃ w ∈ f.writes, f.stateAt j = some w.2 ∧ ¬ f.EndedBefore w.1 t

/-- When the leader half of a node opens, no snapshot of a term that ended before its win is queued
or under way at any node, and none took effect since the load of its term was carried out. -/
def Drained (f : Fleet ι N) (e : Event ι E) : Prop :=
  ∀ p ∈ StateNode.step (f.nodes e.node) (f.wins + 1) e.event,
    live p = true → live (f.nodes e.node) = false →
    (∀ i, ∀ k ∈ StateNode.saves (f.nodes i), ¬ f.EndedBefore k (StateNode.term p)) ∧
    ∀ r ∈ f.reads, r.1 = StateNode.term p → ∀ w ∈ f.writes.drop r.2,
      ¬ f.EndedBefore w.1 (StateNode.term p)

instance [Fintype ι] (f : Fleet ι N) (e : Event ι E) : Decidable (f.Drained e) :=
  inferInstanceAs (Decidable (∀ p ∈ StateNode.step (f.nodes e.node) (f.wins + 1) e.event,
    live p = true → live (f.nodes e.node) = false →
    (∀ i, ∀ k ∈ StateNode.saves (f.nodes i), ¬ f.EndedBefore k (StateNode.term p)) ∧
    ∀ r ∈ f.reads, r.1 = StateNode.term p → ∀ w ∈ f.writes.drop r.2,
      ¬ f.EndedBefore w.1 (StateNode.term p)))

/-! ### What a step leaves -/

variable {f g : Fleet ι N}

/-- What was read later is the state that stood, or a snapshot that landed since. -/
theorem stateAt_later {i j : ℕ} (hij : i ≤ j) :
    f.stateAt j = f.stateAt i ∨ ∃ w ∈ f.writes.drop i, f.stateAt j = some w.2 := by
  have hsplit : f.writes.take j = f.writes.take i ++ (f.writes.drop i).take (j - i) := by
    conv_lhs => rw [← Nat.add_sub_cancel' hij, List.take_add]
  cases hlast : ((f.writes.drop i).take (j - i)).getLast? with
  | none =>
    left
    rw [stateAt, hsplit, List.getLast?_eq_none_iff.mp hlast, List.append_nil, stateAt]
  | some w =>
    right
    refine ⟨w, List.mem_of_mem_take (List.mem_of_getLast? hlast), ?_⟩
    rw [stateAt, hsplit, List.getLast?_append, hlast]
    rfl

theorem Kept.of_writes (h : ∀ t i, f.Stands t i → ∀ w ∈ f.writes.drop i, ¬ f.EndedBefore w.1 t) :
    f.Kept := by
  refine ⟨h, fun t i hstands t' j _ hij => ?_⟩
  rcases f.stateAt_later hij with hsame | ⟨w, hw, hstate⟩
  · exact .inl hsame
  · exact .inr ⟨w, List.mem_of_mem_drop hw, hstate, h t i hstands w hw⟩

/-- What the store does leaves the nodes, the wins and the terms alone. -/
structure Reaches (f g : Fleet ι N) (saves : List ℕ) : Prop where
  nodes : g.nodes = f.nodes
  wins : g.wins = f.wins
  opens : g.opens = f.opens
  ended : g.ended = f.ended
  writes : ∃ ws : List (ℕ × Bytes), g.writes = f.writes ++ ws ∧ ∀ w ∈ ws, w.1 ∈ saves
  reads : ∀ t i, (t, i) ∈ g.reads → (t, i) ∈ f.reads ∨ i = g.writes.length

theorem reaches_reach {took : Bool} {p : N} {e : E}
    (h : f.reach took (StateNode.access p e) = some g) : f.Reaches g (StateNode.saves p) := by
  have hsame : f.Reaches f (StateNode.saves p) :=
    ⟨rfl, rfl, rfl, rfl, ⟨[], by simp, by simp⟩, fun _ _ hmem => .inl hmem⟩
  cases hacc : StateNode.access p e with
  | idle =>
    rw [hacc] at h
    cases h
    exact hsame
  | read t got =>
    rw [hacc] at h
    cases got with
    | ok got =>
      simp only [reach] at h
      split_ifs at h
      cases h
      refine ⟨rfl, rfl, rfl, rfl, ⟨[], by simp, by simp⟩, fun t' i hmem => ?_⟩
      rcases List.mem_append.mp hmem with hmem | hmem
      · exact .inl hmem
      · exact .inr (Prod.ext_iff.mp (List.mem_singleton.mp hmem)).2
    | error why =>
      cases h
      exact hsame
  | write t s result =>
    rw [hacc] at h
    have hsaves := StateNode.write_saves p e t s result hacc
    cases took with
    | true =>
      cases h
      refine ⟨rfl, rfl, rfl, rfl, ⟨[(t, s)], rfl, ?_⟩, fun _ _ hmem => .inl hmem⟩
      intro w hw
      rw [List.mem_singleton.mp hw]
      exact hsaves
    | false =>
      cases result with
      | ok u => cases h
      | error why =>
        cases h
        exact hsame

/-- The invariant: terms are not shared, a term that ended is not led, and at no node a snapshot
waits of a term that ended before the win of a leader whose half opened. -/
structure Steady (f : Fleet ι N) : Prop where
  sound : ∀ i, StateNode.Sound (f.nodes i)
  term_le : ∀ i, StateNode.term (f.nodes i) ≤ f.wins
  own : ∀ i, leading (f.nodes i) = true → ∀ j, StateNode.term (f.nodes j) =
    StateNode.term (f.nodes i) → j = i
  ended : ∀ k m, (k, m) ∈ f.ended → k ≤ f.wins ∧
    ∀ i, leading (f.nodes i) = true → StateNode.term (f.nodes i) ≠ k
  opens_le : ∀ t i, (t, i) ∈ f.opens → t ≤ f.wins
  index_le : ∀ t i, (t, i) ∈ f.opens ∨ (t, i) ∈ f.reads → i ≤ f.writes.length
  saves : ∀ t i, (t, i) ∈ f.opens → ∀ j, ∀ k ∈ StateNode.saves (f.nodes j), ¬ f.EndedBefore k t
  writes : ∀ t i, f.Stands t i → ∀ w ∈ f.writes.drop i, ¬ f.EndedBefore w.1 t

theorem Fresh.steady (h : f.Fresh) : f.Steady where
  sound i := StateNode.fresh_sound _ (h.nodes i)
  term_le i := by simp [StateNode.fresh_term _ (h.nodes i)]
  own i hlead := by simp [StateNode.fresh_leading _ (h.nodes i)] at hlead
  ended k m hmem := by simp [h.ended] at hmem
  opens_le t i hmem := by simp [h.opens] at hmem
  index_le t i hmem := by simp [h.opens, h.reads] at hmem
  saves t i hmem := by simp [h.opens] at hmem
  writes t i hstands := by simp [Stands, h.opens] at hstands

variable [DecidableEq ι]

theorem nodes_become (g : Fleet ι N) (i : ι) (p : N) (won : Bool) (j : ι) :
    (g.become i p won).nodes j = if j = i then p else g.nodes j := by
  simp [become, Function.update_apply]

theorem mem_opens_become {i : ι} {p : N} {won : Bool} {t j : ℕ} :
    (t, j) ∈ (g.become i p won).opens ↔ (t, j) ∈ g.opens ∨
      (live p = true ∧ live (g.nodes i) = false ∧ t = StateNode.term p ∧
        j = g.writes.length) := by
  simp only [become]
  split_ifs with hopen
  · simp only [Bool.and_eq_true, Bool.not_eq_true'] at hopen
    simp [hopen.1, hopen.2]
  · have hnot : ¬ (live p = true ∧ live (g.nodes i) = false) := by simpa using hopen
    constructor
    · exact .inl
    · rintro (hmem | ⟨hlive, hold, -⟩)
      · exact hmem
      · exact absurd ⟨hlive, hold⟩ hnot

theorem mem_ended_become {i : ι} {p : N} {won : Bool} {k m : ℕ} :
    (k, m) ∈ (g.become i p won).ended ↔ (k, m) ∈ g.ended ∨
      (leading (g.nodes i) = true ∧ leading p = false ∧ k = StateNode.term (g.nodes i) ∧
        m = g.wins) := by
  simp only [become]
  split_ifs with hend
  · simp only [Bool.and_eq_true, Bool.not_eq_true'] at hend
    simp [hend.1, hend.2]
  · have hnot : ¬ (leading (g.nodes i) = true ∧ leading p = false) := by simpa using hend
    constructor
    · exact .inl
    · rintro (hmem | ⟨hlead, hnew, -⟩)
      · exact hmem
      · exact absurd ⟨hlead, hnew⟩ hnot

/-- A term that ends now did not end before an earlier win, nor before a win of this node. -/
theorem endedBefore_become {i : ι} {p : N} {won : Bool} {k t : ℕ}
    (hwon : won = true → leading (g.nodes i) = false) (ht : t ≤ g.wins ∨ won = true)
    (hend : (g.become i p won).EndedBefore k t) : g.EndedBefore k t := by
  obtain ⟨⟨k, m⟩, hmem, rfl, hlt⟩ := hend
  rcases mem_ended_become.mp hmem with hmem | ⟨hlead, -, -, rfl⟩
  · exact ⟨(k, m), hmem, rfl, hlt⟩
  · rcases ht with ht | ht
    · omega
    · rw [hwon ht] at hlead
      cases hlead

/-- What a step of node `i`, which becomes `p`, does to the fleet. -/
structure Moved (f g : Fleet ι N) (i : ι) (p : N) (won : Bool) : Prop where
  nodes : ∀ j, g.nodes j = if j = i then p else f.nodes j
  wins : g.wins = if won then f.wins + 1 else f.wins
  term : StateNode.term p = if won then f.wins + 1 else StateNode.term (f.nodes i)
  idle : won = true → leading (f.nodes i) = false
  leads : leading p = true → leading (f.nodes i) = true ∨ won = true
  sound : StateNode.Sound p
  opens : ∀ t j, (t, j) ∈ g.opens → (t, j) ∈ f.opens ∨
    (live p = true ∧ live (f.nodes i) = false ∧ t = StateNode.term p ∧ j = g.writes.length)
  ended : ∀ k m, (k, m) ∈ g.ended → (k, m) ∈ f.ended ∨
    (leading (f.nodes i) = true ∧ leading p = false ∧ k = StateNode.term (f.nodes i) ∧ m = f.wins)
  before : ∀ k t, t ≤ f.wins ∨ won = true → g.EndedBefore k t → f.EndedBefore k t
  saves : ∀ k ∈ StateNode.saves p, k ∈ StateNode.saves (f.nodes i) ∨
    (k = StateNode.term p ∧ leading p = true)
  writes : ∃ ws : List (ℕ × Bytes), g.writes = f.writes ++ ws ∧
    ∀ w ∈ ws, w.1 ∈ StateNode.saves (f.nodes i)
  reads : ∀ t j, (t, j) ∈ g.reads → (t, j) ∈ f.reads ∨ j = g.writes.length

theorem Steady.moved (h : f.Steady) {e : Event ι E} (hstep : f.step e = some g) :
    ∃ p, StateNode.step (f.nodes e.node) (f.wins + 1) e.event = some p ∧
      f.Moved g e.node p (StateNode.wins (f.nodes e.node) e.event) := by
  obtain ⟨p, hp, hstep⟩ := Option.bind_eq_some_iff.mp hstep
  obtain ⟨r, hr, rfl⟩ := Option.map_eq_some_iff.mp hstep
  have hreach := reaches_reach hr
  have hold := h.sound e.node
  have hidle := StateNode.wins_leading (f.nodes e.node) e.event
  have hsound := StateNode.step_sound _ _ _ _ hold hp
  refine ⟨p, hp, ?_⟩
  exact
    { nodes := fun j => by rw [nodes_become, hreach.nodes]
      wins := by simp only [become, hreach.wins]
      term := StateNode.step_term _ _ _ _ hold hp
      idle := hidle
      leads := StateNode.step_leading _ _ _ _ hold hp
      sound := hsound
      opens := fun t j hmem => by
        have := mem_opens_become.mp hmem
        rwa [hreach.opens, hreach.nodes] at this
      ended := fun k m hmem => by
        have := mem_ended_become.mp hmem
        rwa [hreach.ended, hreach.nodes, hreach.wins] at this
      before := fun k t ht hend => by
        have := endedBefore_become (by rwa [hreach.nodes]) (by rwa [hreach.wins]) hend
        rwa [EndedBefore, hreach.ended] at this
      saves := fun k hk => by
        refine (StateNode.step_saves _ _ _ _ k hold hp hk).imp_right fun hnew => ?_
        exact ⟨hnew.1, StateNode.live_leading p hsound hnew.2⟩
      writes := hreach.writes
      reads := hreach.reads }

variable {i : ι} {p : N} {won : Bool}

theorem Moved.wins_le (hm : f.Moved g i p won) : f.wins ≤ g.wins := by
  rw [hm.wins]
  split_ifs <;> omega

theorem Steady.term_le_step (h : f.Steady) (hm : f.Moved g i p won) (j : ι) :
    StateNode.term (g.nodes j) ≤ g.wins := by
  rw [hm.nodes]
  split_ifs with hj
  · rw [hm.term, hm.wins]
    split_ifs
    · rfl
    · exact h.term_le i
  · exact (h.term_le j).trans hm.wins_le

theorem Steady.own_step (h : f.Steady) (hm : f.Moved g i p won) (j : ι)
    (hlead : leading (g.nodes j) = true) (j' : ι)
    (hsame : StateNode.term (g.nodes j') = StateNode.term (g.nodes j)) : j' = j := by
  have hterm := hm.term
  rw [hm.nodes] at hlead hsame
  rw [hm.nodes] at hsame
  by_cases hj : j = i <;> by_cases hj' : j' = i
  · exact hj'.trans hj.symm
  · rw [if_pos hj] at hlead hsame
    rw [if_neg hj'] at hsame
    cases hw : won
    · rw [hw] at hterm
      have hled := (hm.leads hlead).resolve_right (by simp [hw])
      exact (h.own i hled j' (hsame.trans hterm)).trans hj.symm
    · rw [hw, if_pos rfl] at hterm
      have := h.term_le j'
      omega
  · rw [if_neg hj] at hlead hsame
    rw [if_pos hj'] at hsame
    cases hw : won
    · rw [hw] at hterm
      exact hj'.trans (h.own j hlead i (hterm.symm.trans hsame))
    · rw [hw, if_pos rfl] at hterm
      have := h.term_le j
      omega
  · rw [if_neg hj] at hlead hsame
    rw [if_neg hj'] at hsame
    exact h.own j hlead j' hsame

theorem Steady.ended_step (h : f.Steady) (hm : f.Moved g i p won) (k m : ℕ)
    (hmem : (k, m) ∈ g.ended) : k ≤ g.wins ∧
      ∀ j, leading (g.nodes j) = true → StateNode.term (g.nodes j) ≠ k := by
  have hterm := hm.term
  rcases hm.ended k m hmem with hmem | ⟨hled, hnew, rfl, -⟩
  · obtain ⟨hle, hne⟩ := h.ended k m hmem
    refine ⟨hle.trans hm.wins_le, fun j hlead => ?_⟩
    rw [hm.nodes] at hlead ⊢
    by_cases hj : j = i
    · rw [if_pos hj] at hlead ⊢
      cases hw : won
      · rw [hterm, hw]
        exact hne i ((hm.leads hlead).resolve_right (by simp [hw]))
      · rw [hw, if_pos rfl] at hterm
        omega
    · rw [if_neg hj] at hlead ⊢
      exact hne j hlead
  · refine ⟨(h.term_le i).trans hm.wins_le, fun j hlead hsame => ?_⟩
    rw [hm.nodes] at hlead hsame
    by_cases hj : j = i
    · rw [if_pos hj, hnew] at hlead
      cases hlead
    · rw [if_neg hj] at hlead hsame
      exact hj (h.own j hlead i hsame.symm).symm

/-- The terms of the leader halves that opened are not later than the last win. -/
theorem Steady.opens_step (h : f.Steady) (hm : f.Moved g i p won) (t j : ℕ)
    (hmem : (t, j) ∈ g.opens) : t ≤ g.wins := by
  rcases hm.opens t j hmem with hmem | ⟨-, -, rfl, -⟩
  · exact (h.opens_le t j hmem).trans hm.wins_le
  · have := h.term_le_step hm i
    rwa [hm.nodes, if_pos rfl] at this

theorem Steady.index_step (h : f.Steady) (hm : f.Moved g i p won) (t j : ℕ)
    (hmem : (t, j) ∈ g.opens ∨ (t, j) ∈ g.reads) : j ≤ g.writes.length := by
  obtain ⟨ws, hws, -⟩ := hm.writes
  have hlen : f.writes.length ≤ g.writes.length := by simp [hws]
  rcases hmem with hmem | hmem
  · rcases hm.opens t j hmem with hmem | ⟨-, -, -, rfl⟩
    · exact (h.index_le t j (.inl hmem)).trans hlen
    · exact le_rfl
  · rcases hm.reads t j hmem with hmem | rfl
    · exact (h.index_le t j (.inr hmem)).trans hlen
    · exact le_rfl

/-- What a leader half that opens finds, on a drained fleet. -/
theorem Steady.drained (h : f.Steady) {e : Event ι E} (hdrained : f.Drained e)
    (hp : StateNode.step (f.nodes e.node) (f.wins + 1) e.event = some p)
    (hm : f.Moved g e.node p won) {t j : ℕ} (hmem : (t, j) ∈ g.opens) :
    (∀ i, ∀ k ∈ StateNode.saves (f.nodes i), ¬ g.EndedBefore k t) ∧
      ∀ i, (t, i) ∈ f.reads → ∀ w ∈ f.writes.drop i, ¬ g.EndedBefore w.1 t := by
  rcases hm.opens t j hmem with hmem | ⟨hlive, hold, rfl, -⟩
  · have hbefore : ∀ k, g.EndedBefore k t → f.EndedBefore k t :=
      fun k => hm.before k t (.inl (h.opens_le t j hmem))
    refine ⟨fun i k hk hend => h.saves t j hmem i k hk (hbefore k hend), fun i hi w hw hend => ?_⟩
    exact h.writes t i (.inr ⟨hi, j, hmem⟩) w hw (hbefore w.1 hend)
  · have hbefore : ∀ k, g.EndedBefore k (StateNode.term p) → f.EndedBefore k (StateNode.term p) := by
      refine fun k => hm.before k _ ?_
      cases hw : won
      · rw [hm.term, hw]
        exact .inl (h.term_le e.node)
      · exact .inr rfl
    obtain ⟨hsaves, hwrites⟩ := hdrained p hp hlive hold
    exact ⟨fun i k hk hend => hsaves i k hk (hbefore k hend),
      fun i hi w hw hend => hwrites (_, i) hi rfl w hw (hbefore w.1 hend)⟩

theorem Steady.step (h : f.Steady) {e : Event ι E} (hstep : f.step e = some g)
    (hdrained : f.Drained e) : g.Steady := by
  obtain ⟨p, hp, hm⟩ := h.moved hstep
  refine ⟨fun j => ?_, h.term_le_step hm, h.own_step hm, h.ended_step hm, h.opens_step hm,
    h.index_step hm, fun t j hmem j' k hk hend => ?_, fun t j hstands w hw hend => ?_⟩
  · rw [hm.nodes]
    split_ifs
    · exact hm.sound
    · exact h.sound j
  · obtain ⟨hsaves, -⟩ := h.drained hdrained hp hm hmem
    rw [hm.nodes] at hk
    split_ifs at hk
    · rcases hm.saves k hk with hk | ⟨rfl, hlead⟩
      · exact hsaves e.node k hk hend
      · -- a snapshot of a leader is not of a term that ended
        obtain ⟨⟨k, m⟩, hmem, hk, -⟩ := hend
        refine (h.ended_step hm k m hmem).2 e.node ?_ ?_ <;> rw [hm.nodes, if_pos rfl]
        · exact hlead
        · exact hk.symm
    · exact hsaves j' k hk hend
  · obtain ⟨ws, hws, hsaved⟩ := hm.writes
    obtain ⟨j', hopen⟩ : ∃ j', (t, j') ∈ g.opens := hstands.elim (fun hmem => ⟨j, hmem⟩) And.right
    obtain ⟨hsaves, hreads⟩ := h.drained hdrained hp hm hopen
    -- the write is the one of this step, or it landed before
    have hsplit : j ≤ f.writes.length → w ∈ f.writes.drop j ∨ w ∈ ws := by
      intro hle
      rw [hws, List.drop_append_of_le_length hle] at hw
      exact List.mem_append.mp hw
    have hnew : w ∉ ws := fun hmem => hsaves e.node w.1 (hsaved w hmem) hend
    have hlast : j ≠ g.writes.length := by
      rintro rfl
      simp at hw
    rcases hstands with hmem | ⟨hmem, -⟩
    · have hmem := (hm.opens t j hmem).resolve_right fun hnow => hlast hnow.2.2.2
      have hw := (hsplit (h.index_le t j (.inl hmem))).resolve_right hnew
      exact h.writes t j (.inl hmem) w hw (hm.before _ _ (.inl (h.opens_le t j hmem)) hend)
    · have hmem := (hm.reads t j hmem).resolve_right hlast
      exact hreads j hmem w ((hsplit (h.index_le t j (.inr hmem))).resolve_right hnew) hend

end Fleet

/-- Nodes over one blob, as a machine. -/
def fleetMachine (ι N : Type) {E : Type} [DecidableEq ι] [StateNode N E] :
    Machine (Fleet ι N) (Fleet.Event ι E) where
  Init := Fleet.Fresh
  step := Fleet.step

/-- **An ex-leader does not overwrite the state of its successor**, for any number of nodes and
every order of their steps, in a run in which each leader half that opens finds the snapshots of
the terms that ended before its win carried out. -/
theorem blob_kept {ι N E : Type} [DecidableEq ι] [StateNode N E] {f : Fleet ι N}
    {es : List (Fleet.Event ι E)} (hinit : (fleetMachine ι N).Init f)
    (hdrained : (fleetMachine ι N).Along Fleet.Drained f es) :
    (fleetMachine ι N).Always Fleet.Kept f es :=
  hdrained.always (fun _ h => .of_writes h.writes)
    (fun _ _ _ h hstep hok => h.step hstep hok) hinit.steady

/-! ### A node of HopOS -/

namespace Post

/-- The terms of the snapshots that are queued or under way. -/
def saves (p : Post) : List ℕ :=
  (p.orders.filter fun o => o.1 ≠ .load).map Prod.snd ++ p.task.saving

theorem mem_saves {p : Post} {t : ℕ} :
    t ∈ p.saves ↔ (∃ s, (StateOp.save s, t) ∈ p.orders) ∨ t ∈ p.task.saving := by
  simp only [saves, List.mem_append, List.mem_map, List.mem_filter, decide_eq_true_eq, Prod.exists]
  refine or_congr ⟨?_, ?_⟩ Iff.rfl
  · rintro ⟨op, s, ⟨hmem, hop⟩, rfl⟩
    cases op with
    | load => exact absurd rfl hop
    | save snapshot => exact ⟨snapshot, hmem⟩
  · rintro ⟨s, hmem⟩
    exact ⟨.save s, t, ⟨hmem, by simp⟩, rfl⟩

/-- What an event does at the state store. -/
def access (p : Post) : Event → Access
  | .read got =>
    match p.task with
    | .reads t _ => .read t got
    | _ => .idle
  | .wrote result =>
    match p.task with
    | .writes s t => .write t s result
    | _ => .idle
  | _ => .idle

variable {p p' : Post} {t : ℕ}

theorem saves_step (h : p.Sound) {next : ℕ} {e : Event} (hstep : p.step next e = some p')
    (ht : t ∈ p'.saves) : t ∈ p.saves ∨ (t = p'.term ∧ p'.node.live = true) := by
  cases htask : e.isTask
  · have hadds := adds_step h htask hstep
    rcases mem_saves.mp ht with ⟨s, hmem⟩ | ht
    · exact (hadds.orders _ hmem).imp (fun hmem => mem_saves.mpr (.inl ⟨s, hmem⟩))
        fun hnew => ⟨hnew.1, hnew.2 s rfl⟩
    · exact .inl (mem_saves.mpr (.inr (hadds.task ▸ ht)))
  · have hp := passes_step htask hstep
    refine .inl (mem_saves.mpr ?_)
    rcases mem_saves.mp ht with ⟨s, hmem⟩ | ht
    · exact .inl ⟨s, hp.orders _ hmem⟩
    · exact (hp.saving t ht).symm

end Post

instance : StateNode Post Post.Event where
  step := Post.step
  access := Post.access
  wins := Post.wins
  leading p := p.node.loop.el.leading
  live p := p.node.live
  term := Post.term
  saves := Post.saves
  Fresh := Post.Fresh
  Sound := Post.Sound
  fresh_sound _ h := h.sound
  fresh_term _ h := h.term
  fresh_leading p h := by
    obtain ⟨ip, port, wallMs, ttlMs, initJobs, nodeDead, now, half, -, -, hnode⟩ := h.node
    rw [hnode]
    rfl
  step_sound _ _ _ _ h hstep := (Post.turns_step h hstep).sound
  step_term _ _ _ _ h hstep := (Post.turns_step h hstep).term
  step_leading _ _ _ _ h hstep := (Post.turns_step h hstep).leads
  wins_leading p e hw := by
    cases e with
    | node e =>
      simp only [Post.wins, Node.wins, Bool.and_eq_true, Bool.not_eq_true'] at hw
      exact hw.1
    | _ => cases hw
  live_leading p h hlive := h.sober (by simp [Node.opens, hlive])
  step_saves _ _ _ _ _ h hstep ht := Post.saves_step h hstep ht
  write_saves p e t s result hacc := by
    refine Post.mem_saves.mpr (.inr ?_)
    cases e <;> simp only [Post.access, reduceCtorEq] at hacc
    · split at hacc <;> cases hacc
    · split at hacc
      · rename_i htask
        cases hacc
        simp [htask, StateTask.saving]
      · cases hacc

namespace Post

/-- A node that starts at `t` seconds. -/
def startAt (ip : String) (t : ℕ) : Post :=
  { postNode with
    node := .newClustered ip 8080 (1000 * t) 30000 none (30 * second) (t * second) twoNodes }

end Post

/-- Three nodes that start one after the other. -/
def threeNodes : Fleet (Fin 3) Post where
  nodes
    | 0 => .startAt "10.0.0.1" 0
    | 1 => .startAt "10.0.0.2" 33
    | 2 => .startAt "10.0.0.3" 41
  wins := 0
  start := none
  writes := []
  reads := []
  opens := []
  ended := []

theorem threeNodes_init : (fleetMachine (Fin 3) Post).Init threeNodes := by
  refine ⟨fun i => ?_, rfl, rfl, rfl, rfl, rfl⟩
  match i with
  | 0 => exact ⟨⟨_, _, _, _, _, _, _, _, rfl, rfl, rfl⟩, rfl, rfl, rfl, rfl, rfl⟩
  | 1 => exact ⟨⟨_, _, _, _, _, _, _, _, rfl, rfl, rfl⟩, rfl, rfl, rfl, rfl, rfl⟩
  | 2 => exact ⟨⟨_, _, _, _, _, _, _, _, rfl, rfl, rfl⟩, rfl, rfl, rfl, rfl, rfl⟩

namespace Fleet

/-- The events of one node; its writes take effect. -/
def at' (i : Fin 3) (es : List Post.Event) : List (Event (Fin 3) Post.Event) :=
  es.map fun e => ⟨i, e, true⟩

/-- The first node leads, and its renewals fail until its lease is over. The second node claims the
lease at 34 s, cannot read the committed state and gives the lease back. The first node queues a
snapshot at 39 s, and hears that it was displaced and steps down at 40 s. -/
def displaced : List (Event (Fin 3) Post.Event) :=
  at' 0 (Post.claimAtBoot ++ Post.loadedAt 2 ++ Post.tickAt 10 ++
      Post.leaseAt 11 (.renewed false false) ++ Post.tickAt 20 ++
      Post.leaseAt 21 (.renewed false false) ++ Post.tickAt 30) ++
    at' 1 (.node (.boot (33 * second)) :: Post.leaseAt 34 (.claimed true) ++ [.takeOrder]) ++
    at' 0 (Post.leaseAt 35 (.renewed false true) ++
      [.lead (.dispatchJob { name := "web", command := "serve" }) (36 * second)] ++
      Post.tickAt 36 ++ Post.tickAt 39 ++ [.takeOrder, .write]) ++
    at' 1 [.read (.error "timeout"), .deliver 0 (39 * second)] ++ at' 0 (Post.tickAt 40)

/-- The third node wins the lease at 42 s, reads the committed state and opens its leader half. -/
def succeeded : List (Event (Fin 3) Post.Event) :=
  at' 2 (.node (.boot (41 * second)) :: Post.leaseAt 42 (.claimed true) ++ .takeOrder ::
    Post.loadedAt 43)

end Fleet

theorem blob_kept_failed_write : (fleetMachine (Fin 3) Post).Init threeNodes ∧
    (fleetMachine (Fin 3) Post).Always Fleet.Kept threeNodes
      (Fleet.displaced ++ ⟨0, .wrote (.error "timeout"), false⟩ :: Fleet.succeeded) :=
  ⟨threeNodes_init, blob_kept threeNodes_init (by decide)⟩

/-- The snapshot of the first node, whose term ended before the third node won, takes effect after
that node read the committed state and opened its leader half. -/
theorem ex_leader_overwrites : (fleetMachine (Fin 3) Post).Init threeNodes ∧
    ((fleetMachine (Fin 3) Post).run threeNodes
        (Fleet.displaced ++ Fleet.succeeded ++ Fleet.at' 0 [.wrote (.ok ())])).map (fun f =>
          (f.writes.map Prod.fst, f.reads, f.opens, f.ended)) =
      some ([1], [(1, 0), (3, 0)], [(1, 0), (3, 0)], [(2, 2), (1, 2)]) ∧
    ¬ (fleetMachine (Fin 3) Post).Always Fleet.Kept threeNodes
      (Fleet.displaced ++ Fleet.succeeded ++ Fleet.at' 0 [.wrote (.ok ())]) := by
  have hrun : ((fleetMachine (Fin 3) Post).run threeNodes
      (Fleet.displaced ++ Fleet.succeeded ++ Fleet.at' 0 [.wrote (.ok ())])).map (fun f =>
        (f.writes.map Prod.fst, f.reads, f.opens, f.ended)) =
      some ([1], [(1, 0), (3, 0)], [(1, 0), (3, 0)], [(2, 2), (1, 2)]) := by decide
  refine ⟨threeNodes_init, hrun, fun h => ?_⟩
  obtain ⟨f, hf, heq⟩ := Option.map_eq_some_iff.mp hrun
  obtain ⟨hwrites, -, hopens, hended⟩ : f.writes.map Prod.fst = [1] ∧ f.reads = [(1, 0), (3, 0)] ∧
      f.opens = [(1, 0), (3, 0)] ∧ f.ended = [(2, 2), (1, 2)] := by simpa using heq
  obtain ⟨w, hw, hterm⟩ : ∃ w ∈ f.writes, w.1 = 1 := by
    have : 1 ∈ f.writes.map Prod.fst := by simp [hwrites]
    simpa using this
  refine (h.last hf).writes 3 0 (.inl (by simp [hopens])) w (by simpa using hw) ?_
  exact ⟨(1, 2), by simp [hended], hterm.symm, by decide⟩

end Hop.HopOS
