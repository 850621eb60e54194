import Hop.Lead.Steps

/-!
# What holds of the leader in every state

The books have a page for exactly the registered agents, the agents are sorted and bounded, and
the jobs are bounded and have different names (`represented_of_reachable`). So the two ways to
count a job, over the agents and over the books, are the same number.
-/

namespace Hop.Lead

open Hop.Types (Agent Job Map)

namespace Leader

/-! ### Ids -/

theorem map_id_updateAgent (l : Leader) (id : String) (f : Agent → Agent)
    (hf : ∀ a, (f a).id = a.id) :
    (l.updateAgent id f hf).agents.map Agent.id = l.agents.map Agent.id := by
  unfold updateAgent
  rw [List.map_map]
  refine List.map_congr_left fun a _ => ?_
  dsimp only [Function.comp]
  split_ifs
  · exact hf a
  · rfl

theorem heartbeat_frame (l : Leader) (id version : String) (now : Nanos) :
    (l.heartbeat id version now).2.agents.map Agent.id = l.agents.map Agent.id ∧
      (l.heartbeat id version now).2.placed = l.placed ∧
      (l.heartbeat id version now).2.store = l.store := by
  unfold heartbeat
  split
  · exact ⟨rfl, rfl, rfl⟩
  · refine ⟨map_id_updateAgent l id _ ?_, rfl, rfl⟩
    exact fun _ => rfl

theorem length_insertSorted (agent : Agent) (as : List Agent) :
    (insertSorted agent as).length = as.length + 1 := by
  induction as with
  | nil => rfl
  | cons a as ih =>
    unfold insertSorted
    split_ifs
    · rfl
    · rw [List.length_cons, ih, List.length_cons]

theorem mem_ids_removeAgent (l : Leader) (id id' : String) :
    id' ∈ (l.removeAgent id).agents.map Agent.id ↔ id' ∈ l.agents.map Agent.id ∧ id' ≠ id := by
  unfold removeAgent
  simp only [List.mem_map, List.mem_filter, decide_eq_true_eq]
  constructor
  · rintro ⟨a, ⟨ha, hne⟩, rfl⟩
    exact ⟨⟨a, ha, rfl⟩, hne⟩
  · rintro ⟨⟨a, ha, rfl⟩, hne⟩
    exact ⟨a, ⟨ha, hne⟩, rfl⟩

theorem mem_ids_insertAgent (l : Leader) (agent : Agent) (placed : Map ℕ) (id : String) :
    id ∈ (l.insertAgent agent placed).agents.map Agent.id ↔
      id = agent.id ∨ id ∈ l.agents.map Agent.id := by
  have hmem : id ∈ (l.insertAgent agent placed).agents.map Agent.id ↔
      id = agent.id ∨ id ∈ (l.removeAgent agent.id).agents.map Agent.id := by
    change id ∈ (insertSorted agent (l.removeAgent agent.id).agents).map Agent.id ↔ _
    simp only [List.mem_map, mem_insertSorted]
    constructor
    · rintro ⟨a, rfl | ha, rfl⟩
      · exact .inl rfl
      · exact .inr ⟨a, ha, rfl⟩
    · rintro (rfl | ⟨a, ha, rfl⟩)
      · exact ⟨agent, .inl rfl, rfl⟩
      · exact ⟨a, .inr ha, rfl⟩
  rw [hmem, mem_ids_removeAgent]
  by_cases h : id = agent.id
  · simp [h]
  · simp [h]

/-! ### The books have the pages of the agents -/

/-- The agents are bounded, and the books have a page for exactly them. -/
structure Represented (l : Leader) : Prop where
  bounded : l.agents.length ≤ maxAgents
  pages : ∀ id, l.placed.get? id ≠ none ↔ id ∈ l.agents.map Agent.id

namespace Represented

variable {l : Leader}

/-- A leader with the same agents and the same pages. -/
theorem congr {l' : Leader} (h : l.Represented)
    (hids : l'.agents.map Agent.id = l.agents.map Agent.id)
    (hpages : ∀ id, l'.placed.get? id ≠ none ↔ l.placed.get? id ≠ none) : l'.Represented := by
  refine ⟨?_, fun id => ?_⟩
  · have hlen := congrArg List.length hids
    rw [List.length_map, List.length_map] at hlen
    rw [hlen]
    exact h.bounded
  · rw [hids, hpages, h.pages]

theorem trackPlacement (h : l.Represented) {agent : Agent} (ha : agent ∈ l.agents) (name : String) :
    (l.trackPlacement agent.id name).Represented := by
  refine h.congr rfl fun id => ?_
  unfold Leader.trackPlacement
  dsimp only
  rw [SortedMap.get?_insert]
  split_ifs with hid
  · subst hid
    have hpage := (h.pages agent.id).mpr (List.mem_map_of_mem ha)
    simp [hpage]
  · rfl

theorem untrackOne (h : l.Represented) (id name : String) : (l.untrackOne id name).Represented := by
  refine h.congr rfl fun id' => ?_
  unfold Leader.untrackOne
  dsimp only
  rw [SortedMap.get?_modify]
  split_ifs
  · simp
  · rfl

theorem dropPlacement (h : l.Represented) (id name : String) :
    (l.dropPlacement id name).Represented := by
  refine h.congr rfl fun id' => ?_
  unfold Leader.dropPlacement
  dsimp only
  rw [SortedMap.get?_modify]
  split_ifs
  · simp
  · rfl

theorem takePlacement (h : l.Represented) (name : String) :
    (l.takePlacement name).2.Represented := by
  refine h.congr rfl fun id' => ?_
  unfold Leader.takePlacement
  dsimp only
  rw [SortedMap.get?_mapVal]
  simp

theorem removeAgent (h : l.Represented) (id : String) : (l.removeAgent id).Represented := by
  refine ⟨(List.length_filter_le _ _).trans h.bounded, fun id' => ?_⟩
  rw [mem_ids_removeAgent, ← h.pages]
  unfold Leader.removeAgent
  dsimp only
  rw [SortedMap.get?_erase]
  by_cases hid : id = id'
  · simp [hid]
  · simp [hid, Ne.symm hid]

theorem insertAgent (h : l.Represented) {agent : Agent} (placed : Map ℕ)
    (hroom : (l.removeAgent agent.id).agents.length < maxAgents) :
    (l.insertAgent agent placed).Represented := by
  refine ⟨?_, fun id' => ?_⟩
  · change (insertSorted agent (l.removeAgent agent.id).agents).length ≤ maxAgents
    rw [length_insertSorted]
    exact hroom
  · rw [mem_ids_insertAgent, ← h.pages]
    unfold Leader.insertAgent Leader.removeAgent
    dsimp only
    rw [SortedMap.get?_insert, SortedMap.get?_erase]
    by_cases hid : agent.id = id'
    · simp [hid]
    · simp [hid, Ne.symm hid]

/-- The ids in the order of the agents are the keys of the books. -/
theorem keys (h : l.Represented) : l.placed.keys = l.agents.map Agent.id := by
  have hsorted : (l.agents.map Agent.id).Pairwise (· < ·) := List.pairwise_map.mpr l.agentsSorted
  have hkeys : l.placed.keys.Pairwise (· < ·) := List.pairwise_map.mpr l.placed.sorted
  refine List.Perm.eq_of_pairwise (fun a b _ _ hab hba => absurd hba (lt_asymm hab)) hkeys hsorted ?_
  refine (List.perm_ext_iff_of_nodup l.placed.keys_nodup (hsorted.imp fun h => h.ne)).mpr fun id => ?_
  rw [← h.pages id]
  constructor
  · intro hid
    obtain ⟨e, he, rfl⟩ := List.mem_map.mp hid
    rw [SortedMap.get?_eq_some_iff.mpr he]
    simp
  · intro hid
    obtain ⟨v, hv⟩ := Option.ne_none_iff_exists'.mp hid
    exact List.mem_map.mpr ⟨(id, v), SortedMap.get?_eq_some_iff.mp hv, rfl⟩

/-- **Both counts agree**: the number of instances over the books is the one over the agents. -/
theorem sum_placed (h : l.Represented) (name : String) :
    (l.placed.entries.map fun p => (p.2.get? name).getD 0).sum = l.totalPlaced name := by
  have hentries : (l.placed.entries.map fun p => (p.2.get? name).getD 0) =
      l.placed.keys.map fun id => l.placedOn id name := by
    unfold SortedMap.keys
    rw [List.map_map]
    refine List.map_congr_left fun p hp => ?_
    dsimp only [Function.comp]
    unfold placedOn
    rw [SortedMap.get?_eq_some_iff.mpr hp]
    rfl
  rw [hentries, h.keys, List.map_map]
  rfl

variable {N : Type} [Transport N]

theorem placing {s s' : Sys N} (hstep : Placing s s') (h : s.leader.Represented) :
    s'.leader.Represented := by
  cases hstep with
  | run => exact h
  | call => exact h
  | track l net agent job ha hj => exact h.trackPlacement ha job.name
  | untrack l net id name hname => exact h.untrackOne id name
  | drop l net id name hname => exact h.dropPlacement id name
  | note l l' net hnote => exact h.congr (by rw [hnote.agents]) fun id => by rw [hnote.placed]
  | rank l net name i hi =>
    obtain ⟨hplaced, hagents⟩ := (renumbers_storeSetPriority l name i).books
    exact h.congr (by rw [hagents]) fun id => by rw [hplaced]

theorem step {J : Job → Prop} {o : Logged N} {s s' : Sys N} (hstep : Step J o s s')
    (h : s.leader.Represented) :
    s'.leader.Represented := by
  cases hstep with
  | placing hplacing => exact h.placing hplacing
  | ask => exact h
  | untrack l net id name => exact h.untrackOne id name
  | take l net name => exact h.takePlacement name
  | put l l' net job hj hput =>
    obtain ⟨hplaced, hagents, -⟩ := storePut_frame hput
    exact h.congr (by rw [hagents]) fun id => by rw [hplaced]
  | deploy l net name d =>
    have hsame : (l.storeSetDeploying name d).agents = l.agents ∧
        (l.storeSetDeploying name d).placed = l.placed := by
      unfold storeSetDeploying
      split
      · exact ⟨rfl, rfl⟩
      · exact ⟨rfl, rfl⟩
    exact h.congr (by rw [hsame.1]) fun id => by rw [hsame.2]
  | delete l net name =>
    obtain ⟨hagents, hplaced, -⟩ := l.storeRemove_frame name
    have hremoved : (l.storeRemove name).2.Represented :=
      h.congr (by rw [hagents]) fun id => by rw [hplaced]
    exact hremoved.takePlacement name
  | leave l net id => exact h.removeAgent id
  | beat l net id version now =>
    obtain ⟨hids, hplaced, -⟩ := l.heartbeat_frame id version now
    exact h.congr hids fun id => by rw [hplaced]

theorem serve {s : Sys N} (h : s.leader.Represented) (r : Request) :
    (s.serve r).leader.Represented := by
  rcases serve_cases s r with ⟨op, rfl⟩ | ⟨snapshot, rfl⟩ | ⟨l', hserve, hnotes⟩
  · exact apply_invariant (P := fun s => s.leader.Represented) (op.stores_true s.leader)
      (fun _ _ _ hstep hs => hs.step hstep)
      (fun _ placed _ _ htakes => h.insertAgent placed (room_of_takes htakes)) h
  · obtain ⟨hagents, hplaced, -⟩ := s.leader.loadCommittedState_frame snapshot
    exact h.congr (congrArg _ hagents) fun id => by rw [Sys.serve, hplaced]
  · rw [hserve]
    exact h.congr (congrArg _ hnotes.agents) fun id => by rw [hnotes.placed]

end Represented

theorem represented_new (id : String) (store : MemStore) : (Leader.new id store).Represented :=
  ⟨Nat.zero_le _, fun _ => by simp [Leader.new, SortedMap.get?, SortedMap.empty, SortedMap.lookup]⟩

end Leader

variable {N : Type} [Transport N]

/-- **The representation of a leader**: in every state that requests lead to, with any replies of
the agents and also after requests that failed, the agents are strictly sorted and bounded, the
books have exactly their pages, and the jobs are bounded and have different names. So the count of
a job over the books is the one over the agents. -/
theorem represented_of_reachable {s : Sys N} (h : requests.Reachable s) :
    (s.leader.agents.map Agent.id).Pairwise (· < ·) ∧ s.leader.agents.length ≤ maxAgents ∧
      s.leader.placed.keys = s.leader.agents.map Agent.id ∧
      s.leader.store.jobs.length ≤ maxJobs ∧ (s.leader.store.jobs.map Job.name).Nodup ∧
      ∀ name, (s.leader.placed.entries.map fun p => (p.2.get? name).getD 0).sum =
        s.leader.totalPlaced name := by
  have hrep : s.leader.Represented := by
    refine h.invariant (P := fun s => s.leader.Represented) ?_ ?_
    · rintro s ⟨id, hl, -⟩
      rw [hl]
      exact Leader.represented_new id .new
    · intro s r s' hs hstep
      cases hstep
      exact hs.serve r
  exact ⟨List.pairwise_map.mpr s.leader.agentsSorted, hrep.bounded, hrep.keys, s.leader.store.bounded,
    s.leader.store.nodup, hrep.sum_placed⟩

/-- Two agents register with a job that the leader does not know. -/
def twoRegister : List Request :=
  [.op (.registerAgent { id := "b" } (SortedMap.empty.insert "web" 2) 5),
    .op (.registerAgent { id := "c" } (SortedMap.empty.insert "web" 1) 6)]

/-- One of them is unregistered: its page goes, and that of the other stays. -/
theorem represented_register_unregister :
    let s := (twoRegister ++ [Request.op (.unregisterAgent "b")]).foldl Sys.serve emptyLeader
    s.leader.placed.keys = s.leader.agents.map Agent.id ∧
      s.leader.agents.map Agent.id = ["c"] ∧ s.leader.totalPlaced "web" = 1 :=
  ⟨(represented_of_reachable ⟨emptyLeader, twoRegister ++ [Request.op (.unregisterAgent "b")],
    ⟨"a", rfl, rfl⟩, rfl⟩).2.2.1, by decide, by decide⟩

end Hop.Lead
