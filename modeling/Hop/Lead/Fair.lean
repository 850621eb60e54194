import Hop.Hoplb.Balance
import Hop.Lead.Converge

/-!
# Round robin over the agents

`leader/src/dispatch.rs`: the placements of one dispatch on agents that all accept.
`roundRobin_fair` has both schedulers of Hop, this one and the one of `hoplb`: how fair they are,
and that a counter that wraps is what it takes for them to be less.
-/

namespace Hop.Lead

open Hop.Types (Agent Job)
open RoundRobin

namespace Leader

variable {N : Type} [Transport N]

/-- The agent that the placement `i` of a dispatch asks first. -/
def agentAt (l : Leader) (i : ℕ) : Option Agent :=
  l.agents[turn (2 ^ 64) l.agents.length l.roundRobin i]?

/-- The calls of placements that are all accepted. -/
def asked (job : Job) (k : ℕ) (l : Leader) : List Call :=
  (List.range k).filterMap fun i => (l.agentAt i).map fun a => .run a job false .accepted

theorem agentAt_zero {l : Leader} (ha : l.agents ≠ []) (hr : l.roundRobin < 2 ^ 64) :
    l.agentAt 0 = l.nextAgent.1 := by
  rw [agentAt, turn_of_lt (by omega), Nat.add_zero, nextAgent,
    if_neg (List.length_pos_iff.mpr ha).ne']

/-- After a placement the turns are those after its own. -/
theorem agentAt_succ {l l' : Leader} (ha : l'.agents = l.agents)
    (hr : l'.roundRobin = (l.roundRobin + 1) % 2 ^ 64) (i : ℕ) :
    l'.agentAt i = l.agentAt (i + 1) := by
  rw [agentAt, agentAt, ha, hr, turn, turn, Nat.mod_add_mod, Nat.add_assoc, Nat.add_comm 1]

theorem nextAgent_roundRobin {l : Leader} (ha : l.agents ≠ []) :
    l.nextAgent.2.roundRobin = (l.roundRobin + 1) % 2 ^ 64 := by
  rw [nextAgent, if_neg (List.length_pos_iff.mpr ha).ne']

theorem nextAgent_agents (l : Leader) : l.nextAgent.2.agents = l.agents := by
  rw [nextAgent]
  split_ifs
  · rfl
  · rfl

/-- A dispatch whose every `run` is accepted asks the agents in turn. -/
theorem log_dispatchLoop {job : Job} {count k i : ℕ} {l : Leader} {net : Logged N}
    (ha : l.agents ≠ []) (hr : l.roundRobin < 2 ^ 64)
    (h : Accepted net (dispatchLoop job count k i l net).2.2) :
    (dispatchLoop job count k i l net).2.2.log = net.log ++ l.asked job k := by
  induction k generalizing i l net with
  | zero => exact (List.append_nil _).symm
  | succ k ih =>
    have hplace := @place_eq_of_accepted l job N _ net true ha
    have hmoves := moves_place l net job true
    rw [dispatchLoop] at h ⊢
    rcases heq : l.place net job true with ⟨why | _, l', net'⟩
    · rw [heq] at hplace h
      obtain ⟨_, _, _, heq', -⟩ := hplace h
      cases heq'
    · rw [heq] at hplace hmoves h
      dsimp only at hplace hmoves h ⊢
      obtain ⟨agent, -, net'', heq', hnext, hlog⟩ :=
        hplace (h.of_initial (moves_dispatchLoop _ _ _ _ _ _).log)
      cases heq'
      have hagents : (l.nextAgent.2.trackPlacement agent.id job.name).agents = l.agents :=
        l.nextAgent_agents
      have hmoved : (l.nextAgent.2.trackPlacement agent.id job.name).roundRobin =
          (l.roundRobin + 1) % 2 ^ 64 := nextAgent_roundRobin ha
      have hrest := ih (hagents ▸ ha) (hmoved ▸ Nat.mod_lt _ (by decide)) (h.of_suffix hmoves.log)
      have hasked : l.asked job (k + 1) = .run agent job false .accepted ::
          (l.nextAgent.2.trackPlacement agent.id job.name).asked job k := by
        rw [asked, List.range_succ_eq_map, List.filterMap_cons, agentAt_zero ha hr, hnext, asked,
          List.filterMap_map]
        dsimp only [Option.map_some]
        congr 1
        refine List.filterMap_congr fun i _ => ?_
        rw [Function.comp_apply, agentAt_succ hagents hmoved]
      rw [hrest, hlog, hasked, List.append_assoc]
      rfl

/-! ### How many instances an agent has -/

theorem count_window {α : Type} [DecidableEq α] {L : List α} {f : ℕ → α} {a k : ℕ} {x : α}
    (hget : ∀ i < L.length, L[i]? = some (f i)) (hle : a + k ≤ L.length) :
    ((L.drop a).take k).count x = Nat.count (fun i => f (a + i) = x) k := by
  induction k with
  | zero => rfl
  | succ k ih =>
    have hlast : (L.drop a)[k]? = some (f (a + k)) := by
      rw [List.getElem?_drop]
      exact hget _ (by omega)
    rw [List.take_add_one, hlast, Option.toList_some, List.count_append, ih (by omega),
      Nat.count_succ, List.count_singleton]
    simp only [beq_iff_eq]

theorem agentAt_isSome {l : Leader} (ha : l.agents ≠ []) (i : ℕ) : (l.agentAt i).isSome := by
  have hlt := turn_lt (w := 2 ^ 64) (c := l.roundRobin) (List.length_pos_iff.mpr ha) i
  rw [agentAt, List.getElem?_eq_getElem hlt]
  rfl

theorem asked_eq {l : Leader} (ha : l.agents ≠ []) (job : Job) (k : ℕ) : l.asked job k =
    (List.range k).map fun i => .run ((l.agentAt i).get (agentAt_isSome ha i)) job false .accepted := by
  rw [asked, ← List.filterMap_eq_map]
  refine List.filterMap_congr fun i _ => ?_
  conv_lhs => rw [← Option.some_get (agentAt_isSome ha i)]
  rfl

/-- Agents have different ids, so they are asked at different turns. -/
theorem get_agentAt_eq_iff {l : Leader} (ha : l.agents ≠ []) {r : ℕ} (hr : r < l.agents.length)
    (i : ℕ) : (l.agentAt i).get (agentAt_isSome ha i) = l.agents[r] ↔
      turn (2 ^ 64) l.agents.length l.roundRobin i = r := by
  have hlt := turn_lt (w := 2 ^ 64) (c := l.roundRobin) (List.length_pos_iff.mpr ha) i
  have hnodup : l.agents.Nodup := l.agents_id_nodup.of_map
  have hget : (l.agentAt i).get (agentAt_isSome ha i) =
      l.agents[turn (2 ^ 64) l.agents.length l.roundRobin i] := by
    apply Option.some_injective
    rw [Option.some_get, agentAt, List.getElem?_eq_getElem hlt]
  rw [hget]
  exact hnodup.getElem_inj_iff

/-- How many of `k` placements from the placement `a` on an agent has. -/
theorem count_asked {l : Leader} (ha : l.agents ≠ []) (job : Job) {a k m : ℕ} (hle : a + k ≤ m)
    {r : ℕ} (hr : r < l.agents.length) :
    (((l.asked job m).drop a).take k).count (.run l.agents[r] job false .accepted) =
      turns (2 ^ 64) l.agents.length l.roundRobin a k r := by
  have hlen : (l.asked job m).length = m := by
    rw [asked_eq ha, List.length_map, List.length_range]
  rw [count_window (f := fun i => .run ((l.agentAt i).get (agentAt_isSome ha i)) job false .accepted)
    _ (hlen.symm ▸ hle), turns]
  · simp only [Call.run.injEq, get_agentAt_eq_iff ha hr, and_true]
  · intro i hi
    rw [hlen] at hi
    simp only [asked_eq ha, List.getElem?_map, List.getElem?_range hi, Option.map_some]

/-- In each stretch of the calls, every agent gets as many instances as the others, up to one. -/
def Spreads (l : Leader) (job : Job) (calls : List Call) : Prop :=
  ∀ a k, a + k ≤ calls.length → ∀ agent ∈ l.agents,
    k / l.agents.length ≤ ((calls.drop a).take k).count (.run agent job false .accepted) ∧
      ((calls.drop a).take k).count (.run agent job false .accepted) ≤
        (k + l.agents.length - 1) / l.agents.length

theorem spreads_asked_iff {l : Leader} (ha : l.agents ≠ []) (job : Job) (m : ℕ) :
    l.Spreads job (l.asked job m) ↔ IsEven (2 ^ 64) l.agents.length l.roundRobin m := by
  have hlen : (l.asked job m).length = m := by
    rw [asked_eq ha, List.length_map, List.length_range]
  constructor
  · intro h a k hle r hr
    have hcount := h a k (hlen.symm ▸ hle) _ (List.getElem_mem hr)
    rw [count_asked ha job hle hr] at hcount
    exact hcount
  · intro h a k hle agent hagent
    obtain ⟨r, hr, rfl⟩ := List.getElem_of_mem hagent
    rw [hlen] at hle
    rw [count_asked ha job hle hr]
    exact h a k hle r hr

theorem since_dispatchCount {job : Job} {count : ℕ} {l : Leader} {net : Logged N}
    (ha : l.agents ≠ []) (hr : l.roundRobin < 2 ^ 64)
    (h : Accepted net (l.dispatchCount net job count).2.2) :
    (l.dispatchCount net job count).2.2.since net = l.asked job (max count 1) :=
  Logged.since_eq (log_dispatchLoop ha hr h)

end Leader

/-- Route by route, the calls of `healthyBackend` return every healthy backend in turn, never one
that is not healthy, and none only where there is none; and in every stretch of a dispatch that
all agents accept, each agent gets its share. Where a counter wraps on the way, the last two hold
if and only if the number of backends or agents divides `2 ^ 64`, or the placements are too few. -/
theorem roundRobin_fair :
    (∀ r : Hoplb.Route, (∀ b ∈ r.backends, b.healthy = true) →
      r.next + r.backends.length < 2 ^ 64 →
      (Hoplb.Route.healthyBackends r.backends.length r).Perm (r.backends.map some)) ∧
    (∀ (r : Hoplb.Route) (b : Hoplb.Backend), r.healthyBackend.1 = some b →
      b ∈ r.backends ∧ b.healthy = true) ∧
    (∀ n next : ℕ, Hoplb.Route.Finds n next ↔
      n = 0 ∨ (next + 1) % 2 ^ 64 + n ≤ 2 ^ 64 ∨ n ∣ 2 ^ 64) ∧
    ∀ (N : Type) [Transport N] (l : Leader) (net : Logged N) (job : Job) (count : ℕ),
      l.agents ≠ [] → l.roundRobin < 2 ^ 64 → Leader.Accepted net (l.dispatchCount net job count).2.2 →
      (l.Spreads job ((l.dispatchCount net job count).2.2.since net) ↔
        l.roundRobin + max count 1 ≤ 2 ^ 64 ∨ l.agents.length ∣ 2 ^ 64 ∨
          max count 1 ≤ 2 ^ 64 % l.agents.length) := by
  refine ⟨fun r => Hoplb.Route.healthyBackends_perm, fun r b => Hoplb.Route.healthyBackend_sound,
    fun n next => Hoplb.Route.finds_iff, fun N _ l net job count ha hr h => ?_⟩
  rw [Leader.since_dispatchCount ha hr h, Leader.spreads_asked_iff ha,
    isEven_iff (List.length_pos_iff.mpr ha) hr]

/-- Three backends of which one is healthy, and the last call before the counter wraps. -/
def oneOfThree : Hoplb.Route where
  pattern := []
  backends := [⟨['a'], false⟩, ⟨['b'], false⟩, ⟨['c'], true⟩]
  next := 2 ^ 64 - 2

/-- Three healthy backends. -/
def threeOfThree : Hoplb.Route where
  pattern := []
  backends := [⟨['a'], true⟩, ⟨['b'], true⟩, ⟨['c'], true⟩]
  next := 5

/-- Three agents, and the last turn before the counter wraps. -/
def threeAgents : Leader :=
  { Leader.new "a" ⟨[], 0, by decide, by decide⟩ with
    agents := [{ id := "a" }, { id := "b" }, { id := "c" }]
    roundRobin := 2 ^ 64 - 1
    agentsSorted := by decide }

/-- A dispatch of three that wraps. -/
def threeWebs : Job := { name := "web", count := 3 }

theorem roundRobin_fair_three :
    (Hoplb.Route.healthyBackends 3 threeOfThree).Perm (threeOfThree.backends.map some) ∧
    { threeAgents with roundRobin := 7 }.Spreads threeWebs
      (({ threeAgents with roundRobin := 7 }.dispatchCount willingNet threeWebs 3).2.2.since
        willingNet) :=
  ⟨roundRobin_fair.1 threeOfThree (by decide) (by decide),
    (roundRobin_fair.2.2.2 _ _ _ _ 3 (by decide) (by decide) (by decide)).mpr
      (.inl (by decide))⟩

/-- Where the counter wraps, the one healthy backend has no turn; and of two placements on three
agents both come on the first. -/
theorem roundRobin_wraps :
    (oneOfThree.healthyBackend.1 = none ∧ ⟨['c'], true⟩ ∈ oneOfThree.backends) ∧
      ((threeAgents.dispatchCount willingNet threeWebs 2).2.2.since willingNet).count
        (.run { id := "a" } threeWebs false .accepted) = 2 := by
  refine ⟨⟨by decide, by decide⟩, by decide⟩

end Hop.Lead
