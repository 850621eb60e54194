import Hop.Lead.Store
import Hop.Lead.Transport

/-!
# The state of the leader

`leader/src/state.rs` and `leader/src/events.rs`: the agents, the books of what is placed where,
the settle period, and the events for subscribers. The agents are sorted by id (the order of the
round robin), as a field of the type.

The books are known by `placedOn`: each operation on them has one lemma that says what it does
to every count.
-/

namespace Hop.Lead

open Hop.Types (Agent Job Map Task)

/-! ### Events -/

/-- What changed. -/
inductive Event
  | status
  | agent (id : String)
  | job (name : String)
deriving DecidableEq, Repr

/-- The largest number of events that wait. -/
def maxEvents : ℕ := 64

/-- The events that wait, without duplicates. -/
structure Events where
  queue : List Event
  overflowed : Bool
deriving DecidableEq

namespace Events

def push (es : Events) (e : Event) : Events :=
  if es.overflowed ∨ e ∈ es.queue then es
  else if maxEvents ≤ es.queue.length then { es with overflowed := true }
  else { es with queue := es.queue ++ [e] }

/-- Hand the events over; too many to name are one `status`. -/
def drain (es : Events) : List Event × Events :=
  (if es.overflowed then [.status] else es.queue, ⟨[], false⟩)

end Events

/-! ### The leader -/

/-- The leader: the only author of the desired state and the only one that places. -/
structure Leader where
  localAgentId : String
  store : MemStore
  agents : List Agent
  /-- Agent id to job name to number of instances. -/
  placed : Map (Map ℕ)
  settled : Bool
  settleAt : Option Nanos
  roundRobin : ℕ
  agentTimeout : Nanos
  ticks : ℕ
  events : Events
  /-- Whether the desired state changed since the last snapshot. -/
  dirty : Bool
  dirtySeen : Option Nanos
  agentsSorted : agents.Pairwise fun a b => a.id < b.id

namespace Leader

/-- A leader without a settle period. -/
def new (localAgentId : String) (store : MemStore) : Leader where
  localAgentId := localAgentId
  store := store
  agents := []
  placed := .empty
  settled := true
  settleAt := none
  roundRobin := 0
  agentTimeout := defaultAgentTimeout
  ticks := 0
  events := ⟨[], false⟩
  dirty := false
  dirtySeen := none
  agentsSorted := .nil

def setAgentTimeout (l : Leader) (d : Nanos) : Leader := { l with agentTimeout := d }

/-- Begin a settle period of `delay` at `now`: a new leader does not know what runs already,
so the agents first register with their counts. -/
def settle (l : Leader) (delay now : Nanos) : Leader :=
  if delay = 0 then { l with settled := true, settleAt := none }
  else { l with settled := false, settleAt := some (satAdd u64Max now delay) }

/-- The settle period of production: one agent timeout. -/
def enableSettle (l : Leader) (now : Nanos) : Leader := l.settle l.agentTimeout now

/-- The next free priority: the number of jobs. -/
def nextPriority (l : Leader) : ℤ := l.store.jobs.length

/-- The agent with this id. -/
def agent (l : Leader) (id : String) : Option Agent := l.agents.find? fun a => a.id = id

def emit (l : Leader) (e : Event) : Leader := { l with events := l.events.push e }

def drainEvents (l : Leader) : List Event × Leader :=
  (l.events.drain.1, { l with events := l.events.drain.2 })

/-- Change the agent with this id in fields other than its id. -/
def updateAgent (l : Leader) (id : String) (f : Agent → Agent) (hf : ∀ a, (f a).id = a.id) :
    Leader :=
  { l with
    agents := l.agents.map fun a => if a.id = id then f a else a
    agentsSorted := by
      refine List.pairwise_map.mpr (l.agentsSorted.imp fun {a b} h => ?_)
      have hid : ∀ a : Agent, (if a.id = id then f a else a).id = a.id := by
        intro a
        split_ifs
        · exact hf a
        · rfl
      rwa [hid, hid] }

/-- A sign of life of agent `id`; `false` if the leader does not know it. -/
def heartbeat (l : Leader) (id version : String) (now : Nanos) : Bool × Leader :=
  match l.agent id with
  | none => (false, l)
  | some _ =>
    (true, l.updateAgent id (fun a => { a with lastSeen := now, version := version }) fun _ => rfl)

/-- An agent at its place in the order of ids. -/
def insertSorted (agent : Agent) : List Agent → List Agent
  | [] => [agent]
  | a :: as => if agent.id < a.id then agent :: a :: as else a :: insertSorted agent as

theorem mem_insertSorted {agent a : Agent} {as : List Agent} :
    a ∈ insertSorted agent as ↔ a = agent ∨ a ∈ as := by
  induction as with
  | nil => simp [insertSorted]
  | cons b as ih =>
    unfold insertSorted
    split_ifs
    · simp
    · simp only [List.mem_cons, ih]
      tauto

theorem insertSorted_sorted {agent : Agent} {as : List Agent}
    (h : as.Pairwise fun a b => a.id < b.id) (hne : ∀ a ∈ as, a.id ≠ agent.id) :
    (insertSorted agent as).Pairwise fun a b => a.id < b.id := by
  induction as with
  | nil => exact List.pairwise_singleton _ _
  | cons b as ih =>
    obtain ⟨hb, has⟩ := List.pairwise_cons.mp h
    unfold insertSorted
    split_ifs with hlt
    · refine List.pairwise_cons.mpr ⟨fun a ha => ?_, h⟩
      rcases List.mem_cons.mp ha with rfl | ha
      · exact hlt
      · exact hlt.trans (hb a ha)
    · have hne' := hne b List.mem_cons_self
      refine List.pairwise_cons.mpr
        ⟨fun a ha => ?_, ih has fun a ha => hne a (List.mem_cons_of_mem b ha)⟩
      rcases mem_insertSorted.mp ha with rfl | ha
      · exact lt_of_le_of_ne (not_lt.mp hlt) hne'
      · exact hb a ha

def removeAgent (l : Leader) (id : String) : Leader :=
  { l with
    agents := l.agents.filter fun a => a.id ≠ id
    placed := l.placed.erase id
    agentsSorted := l.agentsSorted.filter _ }

/-- Put a new incarnation of the agent in, with what it runs already. -/
def insertAgent (l : Leader) (agent : Agent) (placed : Map ℕ) : Leader :=
  { l.removeAgent agent.id with
    agents := insertSorted agent (l.removeAgent agent.id).agents
    placed := (l.removeAgent agent.id).placed.insert agent.id placed
    agentsSorted := by
      refine insertSorted_sorted (l.removeAgent agent.id).agentsSorted fun a ha => ?_
      simpa using (List.mem_filter.mp ha).2 }

/-! ### The books -/

/-- The number of instances of `name` on the agent. -/
def placedOn (l : Leader) (agentId name : String) : ℕ :=
  ((l.placed.get? agentId).bind fun jobs => jobs.get? name).getD 0

/-- Book one instance. -/
def trackPlacement (l : Leader) (agentId name : String) : Leader :=
  let jobs := (l.placed.get? agentId).getD .empty
  let n := match jobs.get? name with
    | some n => satAdd u32Max n 1
    | none => 1
  { l with placed := l.placed.insert agentId (jobs.insert name n) }

/-- Book one instance off (not below zero). -/
def untrackOne (l : Leader) (agentId name : String) : Leader :=
  { l with placed := l.placed.modify agentId fun jobs => jobs.modify name (· - 1) }

/-- Book a job off on one agent. -/
def dropPlacement (l : Leader) (agentId name : String) : Leader :=
  { l with placed := l.placed.modify agentId fun jobs => jobs.erase name }

/-- Take the whole placement of a job out, with the agents that had it. -/
def takePlacement (l : Leader) (name : String) : List Agent × Leader :=
  (l.agents.filter fun a => 0 < l.placedOn a.id name,
    { l with placed := l.placed.mapVal fun _ jobs => jobs.erase name })

theorem placedOn_trackPlacement (l : Leader) (a n a' n' : String) :
    (l.trackPlacement a n).placedOn a' n' =
      if a = a' ∧ n = n' then satAdd u32Max (l.placedOn a n) 1 else l.placedOn a' n' := by
  unfold trackPlacement placedOn
  dsimp only
  rw [SortedMap.get?_insert]
  by_cases ha : a = a'
  · subst ha
    by_cases hn : n = n'
    · subst hn
      cases h : l.placed.get? a with
      | none => simp [satAdd, u32Max]
      | some jobs => cases h' : jobs.get? n <;> simp [h', satAdd, u32Max]
    · cases h : l.placed.get? a <;> simp [hn, SortedMap.get?_insert]
  · simp [ha]

theorem placedOn_untrackOne (l : Leader) (a n a' n' : String) :
    (l.untrackOne a n).placedOn a' n' =
      if a = a' ∧ n = n' then l.placedOn a n - 1 else l.placedOn a' n' := by
  unfold untrackOne placedOn
  dsimp only
  rw [SortedMap.get?_modify]
  by_cases ha : a = a'
  · subst ha
    by_cases hn : n = n'
    · subst hn
      cases h : l.placed.get? a with
      | none => simp
      | some jobs => cases h' : jobs.get? n <;> simp [SortedMap.get?_modify, h']
    · cases h : l.placed.get? a <;> simp [hn, SortedMap.get?_modify]
  · simp [ha]

theorem placedOn_dropPlacement (l : Leader) (a n a' n' : String) :
    (l.dropPlacement a n).placedOn a' n' =
      if a = a' ∧ n = n' then 0 else l.placedOn a' n' := by
  unfold dropPlacement placedOn
  dsimp only
  rw [SortedMap.get?_modify]
  by_cases ha : a = a'
  · subst ha
    by_cases hn : n = n'
    · subst hn
      cases h : l.placed.get? a <;> simp [SortedMap.get?_erase]
    · cases h : l.placed.get? a <;> simp [hn, SortedMap.get?_erase]
  · simp [ha]

theorem placedOn_takePlacement (l : Leader) (n a' n' : String) :
    (l.takePlacement n).2.placedOn a' n' = if n = n' then 0 else l.placedOn a' n' := by
  unfold takePlacement placedOn
  dsimp only
  rw [SortedMap.get?_mapVal]
  by_cases hn : n = n'
  · subst hn
    cases h : l.placed.get? a' <;> simp [SortedMap.get?_erase]
  · cases h : l.placed.get? a' <;> simp [hn, SortedMap.get?_erase]

theorem placedOn_removeAgent (l : Leader) (id a' n' : String) :
    (l.removeAgent id).placedOn a' n' = if id = a' then 0 else l.placedOn a' n' := by
  unfold removeAgent placedOn
  dsimp only
  rw [SortedMap.get?_erase]
  split_ifs <;> simp

theorem placedOn_insertAgent (l : Leader) (agent : Agent) (placed : Map ℕ) (a' n' : String) :
    (l.insertAgent agent placed).placedOn a' n' =
      if agent.id = a' then (placed.get? n').getD 0 else l.placedOn a' n' := by
  unfold insertAgent placedOn
  dsimp only [removeAgent]
  rw [SortedMap.get?_insert, SortedMap.get?_erase]
  split_ifs <;> simp

/-! ### The store -/

-- Every way to change the store makes the committed state dirty.

def storePut (l : Leader) (job : Job) : Except Error Leader :=
  match l.store.put job with
  | .ok store => .ok { l with store := store, dirty := true }
  | .error e => .error e

def storeRemove (l : Leader) (name : String) : Option Job × Leader :=
  match l.store.get name with
  | some j => (some j, { l with store := l.store.remove name, dirty := true })
  | none => (none, l)

theorem storeRemove_frame (l : Leader) (name : String) :
    (l.storeRemove name).2.agents = l.agents ∧ (l.storeRemove name).2.placed = l.placed ∧
      ∀ j ∈ (l.storeRemove name).2.store.jobs, j ∈ l.store.jobs := by
  unfold storeRemove
  split
  · exact ⟨rfl, rfl, fun j hj => (List.mem_filter.mp hj).1⟩
  · exact ⟨rfl, rfl, fun j hj => hj⟩

def storeSetPriority (l : Leader) (name : String) (p : ℤ) : Leader :=
  match l.store.get name with
  | some _ => { l with store := l.store.setPriority name p, dirty := true }
  | none => l

def storeSetDeploying (l : Leader) (name : String) (d : Bool) : Leader :=
  match l.store.get name with
  | some _ => { l with store := l.store.setDeploying name d, dirty := true }
  | none => l

end Leader

end Hop.Lead
