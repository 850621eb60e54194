import Hop.Lead.Representation

/-!
# Absence is deletion

A job that is not stored should run nowhere, so the books should know stored jobs only. Placing
books what is stored, and a deletion takes a job from the store and from the books together. A
registering agent, however, reports what it runs: of the jobs that the leader knows it trims what
is too much, and the rest it books as reported. `known_always_iff` says that this is the only way
in which an unknown job comes into the books, and that it is never stopped there.
-/

namespace Hop.Lead

open Hop.Types (Agent Job Map)

namespace Leader

/-- The names of the stored jobs. -/
def names (l : Leader) : List String := l.store.jobs.map Job.name

/-- Every job with an instance on a registered agent is stored. -/
def Known (l : Leader) : Prop :=
  ∀ id ∈ l.agents.map Agent.id, ∀ name, 0 < l.placedOn id name → name ∈ l.names

/-! ### Names -/

theorem names_storeSetPriority (l : Leader) (name : String) (p : ℤ) :
    (l.storeSetPriority name p).names = l.names := (renumbers_storeSetPriority l name p).names

theorem names_storeSetDeploying (l : Leader) (name : String) (d : Bool) :
    (l.storeSetDeploying name d).names = l.names := by
  unfold storeSetDeploying
  split
  · refine MemStore.map_name_update l.store name _ ?_
    exact fun _ => rfl
  · rfl

theorem names_storePut {l l' : Leader} {job : Job} (h : l.storePut job = .ok l') {name : String}
    (hname : name ∈ l.names) : name ∈ l'.names := by
  unfold storePut MemStore.put at h
  split_ifs at h
  · cases h
    unfold names
    rwa [MemStore.map_name_replace]
  · cases h
    unfold names
    rw [List.map_append]
    exact List.mem_append_left _ hname

theorem names_storeRemove (l : Leader) {name n : String} (hname : n ∈ l.names) (hne : n ≠ name) :
    n ∈ (l.storeRemove name).2.names := by
  unfold storeRemove
  split
  · obtain ⟨j, hj, rfl⟩ := List.mem_map.mp hname
    exact List.mem_map.mpr ⟨j, List.mem_filter.mpr ⟨hj, by simpa using hne⟩, rfl⟩
  · exact hname

/-! ### Steps keep the books to stored jobs -/

namespace Known

variable {N : Type} [Transport N]

/-- Books that are not larger, of the same or fewer agents, over the same or more names. -/
theorem mono {l l' : Leader} (h : l.Known)
    (hids : ∀ id ∈ l'.agents.map Agent.id, id ∈ l.agents.map Agent.id)
    (hplaced : ∀ id name, 0 < l'.placedOn id name → 0 < l.placedOn id name)
    (hnames : ∀ name ∈ l.names, name ∈ l'.names) : l'.Known :=
  fun id hid name hpos => hnames name (h id (hids id hid) name (hplaced id name hpos))

theorem untrackOne {l : Leader} (h : l.Known) (id name : String) : (l.untrackOne id name).Known := by
  refine h.mono (fun _ hid => hid) (fun id' name' hpos => ?_) fun _ hn => hn
  rw [placedOn_untrackOne] at hpos
  split_ifs at hpos with hsame
  · obtain ⟨rfl, rfl⟩ := hsame
    exact Nat.lt_of_lt_of_le hpos (Nat.sub_le _ _)
  · exact hpos

theorem placing {s s' : Sys N} (hstep : Placing s s') (h : s.leader.Known) : s'.leader.Known := by
  cases hstep with
  | run => exact h
  | call => exact h
  | track l net agent job ha hj =>
    intro id hid name hpos
    change 0 < (l.trackPlacement agent.id job.name).placedOn id name at hpos
    rw [placedOn_trackPlacement] at hpos
    split_ifs at hpos with hsame
    · rw [← hsame.2]
      exact hj.name_mem
    · exact h id hid name hpos
  | untrack l net id name hname => exact h.untrackOne id name
  | drop l net id name hname =>
    refine h.mono (fun _ hid => hid) (fun id' name' hpos => ?_) fun _ hn => hn
    change 0 < (l.dropPlacement id name).placedOn id' name' at hpos
    rw [placedOn_dropPlacement] at hpos
    split_ifs at hpos
    · exact absurd hpos (Nat.lt_irrefl 0)
    · exact hpos
  | note l l' net hnote =>
    refine h.mono (fun id hid => ?_) (fun id name hpos => ?_) fun name hname => ?_
    · rwa [hnote.agents] at hid
    · unfold placedOn at hpos
      rwa [hnote.placed] at hpos
    · unfold names
      rwa [hnote.store]
  | rank l net name i hi =>
    obtain ⟨hplaced, hagents⟩ := (renumbers_storeSetPriority l name i).books
    refine h.mono (fun id hid => ?_) (fun id n hpos => ?_) fun n hn => ?_
    · rwa [hagents] at hid
    · unfold placedOn at hpos
      rwa [hplaced] at hpos
    · rwa [names_storeSetPriority]

theorem takePlacement {l : Leader} {name : String}
    (h : ∀ id ∈ l.agents.map Agent.id, ∀ n, n ≠ name → 0 < l.placedOn id n → n ∈ l.names) :
    (l.takePlacement name).2.Known := by
  intro id hid n hpos
  rw [placedOn_takePlacement] at hpos
  split_ifs at hpos with hn
  · exact absurd hpos (Nat.lt_irrefl 0)
  · exact h id hid n (Ne.symm hn) hpos

theorem step {J : Job → Prop} {o : Logged N} {s s' : Sys N} (hstep : Step J o s s') (h : s.leader.Known) :
    s'.leader.Known := by
  cases hstep with
  | placing hplacing => exact h.placing hplacing
  | ask => exact h
  | untrack l net id name => exact h.untrackOne id name
  | take l net name => exact takePlacement fun id hid n _ hpos => h id hid n hpos
  | put l l' net job hj hput =>
    obtain ⟨hplaced, hagents, -⟩ := storePut_frame hput
    refine h.mono (fun id hid => ?_) (fun id n hpos => ?_) fun n hn => names_storePut hput hn
    · rwa [hagents] at hid
    · unfold placedOn at hpos
      rwa [hplaced] at hpos
  | deploy l net name d =>
    refine h.mono (fun id hid => ?_) (fun id n hpos => ?_) fun n hn => ?_
    · unfold storeSetDeploying at hid
      split at hid <;> exact hid
    · unfold storeSetDeploying at hpos
      split at hpos <;> exact hpos
    · rwa [names_storeSetDeploying]
  | delete l net name =>
    obtain ⟨hagents, hplaced, -⟩ := l.storeRemove_frame name
    refine takePlacement fun id hid n hne hpos => ?_
    rw [hagents] at hid
    unfold placedOn at hpos
    rw [hplaced] at hpos
    exact names_storeRemove l (h id hid n hpos) hne
  | leave l net id =>
    refine h.mono (fun id' hid => ((mem_ids_removeAgent l id id').mp hid).1) (fun id' n hpos => ?_)
      fun _ hn => hn
    change 0 < (l.removeAgent id).placedOn id' n at hpos
    rw [placedOn_removeAgent] at hpos
    split_ifs at hpos
    · exact absurd hpos (Nat.lt_irrefl 0)
    · exact hpos
  | beat l net id version now =>
    obtain ⟨hids, hplaced, hstore⟩ := l.heartbeat_frame id version now
    refine h.mono (fun id' hid => ?_) (fun id' n hpos => ?_) fun n hn => ?_
    · rwa [hids] at hid
    · unfold placedOn at hpos
      rwa [hplaced] at hpos
    · unfold names
      rwa [hstore]

/-- A new incarnation that reports stored jobs only. -/
theorem insertAgent {l : Leader} (h : l.Known) {agent : Agent} {placed : Map ℕ}
    (hplaced : ∀ name, 0 < (placed.get? name).getD 0 → name ∈ l.names) :
    (l.insertAgent agent placed).Known := by
  intro id hid name hpos
  rw [placedOn_insertAgent] at hpos
  split_ifs at hpos with hsame
  · exact hplaced name hpos
  · rcases (mem_ids_insertAgent l agent placed id).mp hid with heq | hid
    · exact absurd heq.symm hsame
    · exact h id hid name hpos

end Known

/-! ### What is not stored is not stopped -/

/-- The leader has `n` instances of a job on a registered agent, and the job is not stored. -/
structure Stray (l : Leader) (id name : String) (n : ℕ) : Prop where
  registered : id ∈ l.agents.map Agent.id
  unknown : name ∉ l.names
  count : l.placedOn id name = n

/-- Placing leaves a stray job where it is. -/
theorem Stray.placing {N : Type} [Transport N] {s s' : Sys N} (hstep : Placing s s')
    {id name : String} {n : ℕ} (h : s.leader.Stray id name n) : s'.leader.Stray id name n := by
  cases hstep with
  | run => exact h
  | call => exact h
  | track l net agent job ha hj =>
    have hne : job.name ≠ name := fun heq => h.unknown (heq ▸ hj.name_mem)
    refine ⟨h.registered, h.unknown, ?_⟩
    change (l.trackPlacement agent.id job.name).placedOn id name = n
    rw [placedOn_trackPlacement, if_neg fun hsame => hne hsame.2]
    exact h.count
  | untrack l net id' name' hname =>
    have hne : name' ≠ name := fun heq => h.unknown (heq ▸ hname)
    refine ⟨h.registered, h.unknown, ?_⟩
    change (l.untrackOne id' name').placedOn id name = n
    rw [placedOn_untrackOne, if_neg fun hsame => hne hsame.2]
    exact h.count
  | drop l net id' name' hname =>
    have hne : name' ≠ name := fun heq => h.unknown (heq ▸ hname)
    refine ⟨h.registered, h.unknown, ?_⟩
    change (l.dropPlacement id' name').placedOn id name = n
    rw [placedOn_dropPlacement, if_neg fun hsame => hne hsame.2]
    exact h.count
  | note l l' net hnote =>
    refine ⟨?_, ?_, ?_⟩
    · rw [hnote.agents]
      exact h.registered
    · unfold names
      rw [hnote.store]
      exact h.unknown
    · unfold placedOn
      rw [hnote.placed]
      exact h.count
  | rank l net name' i hi =>
    obtain ⟨hplaced, hagents⟩ := (renumbers_storeSetPriority l name' i).books
    refine ⟨?_, ?_, ?_⟩
    · rw [hagents]
      exact h.registered
    · rw [names_storeSetPriority]
      exact h.unknown
    · unfold placedOn
      rw [hplaced]
      exact h.count

end Leader

open Leader

/-! ### Runs -/

variable {N : Type} [Transport N]

/-- A settled leader with its operations. -/
def settledOps : Machine (Sys N) Op where
  Init s := s.leader.settled = true ∧ s.leader.Known
  step s op := some (s.apply op)

/-- A registration that is taken reports instances of stored jobs only. -/
def Sys.ReportsKnown (s : Sys N) : Op → Prop
  | .registerAgent agent placed now => s.leader.takes agent now = true →
      ∀ name, 0 < (placed.get? name).getD 0 → name ∈ s.leader.names
  | _ => True

theorem known_apply {s : Sys N} {op : Op} (h : s.leader.Known) (hop : s.ReportsKnown op) :
    (s.apply op).leader.Known := by
  have hstores : op.Stores (fun _ => True) s.leader := by cases op <;> simp [Op.Stores]
  refine apply_invariant (P := fun s => s.leader.Known) hstores
    (fun _ _ _ hstep hs => hs.step hstep) (fun agent placed now heq htakes => ?_) h
  subst heq
  exact h.insertAgent (hop htakes)

/-- What a taken registration reports of other jobs stays in the books. -/
theorem stray_registerAgent {s : Sys N} {agent : Agent} (placed : Map ℕ) {now : Nanos}
    (htakes : s.leader.takes agent now = true) {name : String} (hname : name ∉ s.leader.names) :
    (s.apply (.registerAgent agent placed now)).leader.Stray agent.id name
      ((placed.get? name).getD 0) := by
  have hplaces := places_registerAgent s.net placed htakes
  refine hplaces.invariant
    (P := fun s => s.leader.Stray agent.id name ((placed.get? name).getD 0))
    (fun _ _ hstep hs => hs.placing hstep) ⟨?_, hname, ?_⟩
  · exact (mem_ids_insertAgent _ _ _ _).mpr (.inl rfl)
  · rw [placedOn_insertAgent, if_pos rfl]

/-- **The books know stored jobs only, exactly if every taken registration does**: in every run of
operations, with any replies of the agents, every job with an instance on a registered agent is
stored in every state if and only if no registration that is taken reports an instance of a job
that is not stored. -/
theorem known_always_iff (s : Sys N) (ops : List Op) (h : settledOps.Init s) :
    settledOps.Always (fun s => s.leader.Known) s ops ↔ settledOps.Along Sys.ReportsKnown s ops := by
  refine Machine.always_iff_along (K := fun s => s.leader.Known) (fun _ hs => hs) ?_ ?_ h.2
  · intro s op s' hs hstep hop
    cases hstep
    exact known_apply hs hop
  · intro s op s' hs hstep hs'
    cases hstep
    cases op with
    | registerAgent agent placed now =>
      intro htakes name hpos
      by_contra hname
      have hstray := stray_registerAgent placed htakes hname
      exact hstray.unknown (hs' agent.id hstray.registered name (hstray.count ▸ hpos))
    | _ => trivial

theorem emptyLeader_settled : settledOps.Init emptyLeader :=
  ⟨rfl, fun _ hid => absurd hid List.not_mem_nil⟩

/-- An agent registers, gets a job, dies, and comes back with it: the job is still wanted. -/
theorem known_return :
    settledOps.Always (fun s => s.leader.Known) emptyLeader
      [.registerAgent { id := "b" } .empty 5, .dispatchJob { name := "web" },
        .checkDeadAgents (40 * second),
        .registerAgent { id := "b" } (SortedMap.empty.insert "web" 1) (50 * second)] := by
  refine (known_always_iff emptyLeader _ emptyLeader_settled).mpr ?_
  intro s₁ h₁
  cases h₁
  refine ⟨fun _ name hpos => absurd hpos (Nat.lt_irrefl 0), fun s₂ h₂ => ?_⟩
  cases h₂
  refine ⟨trivial, fun s₃ h₃ => ?_⟩
  cases h₃
  refine ⟨trivial, fun s₄ h₄ => ⟨fun _ name hpos => ?_, trivial⟩⟩
  rw [SortedMap.get?_insert] at hpos
  split_ifs at hpos with hname
  · subst hname
    decide
  · exact absurd hpos (Nat.lt_irrefl 0)

/-- The same agent comes back after the job was deleted: the leader books the instance that it
reports, and asks it nothing. -/
theorem deleted_job_returns :
    settledOps.Init emptyLeader ∧
      ∃ s', settledOps.run emptyLeader
          [.registerAgent { id := "b" } .empty 5, .dispatchJob { name := "web" },
            .checkDeadAgents (40 * second), .deleteJob "web",
            .registerAgent { id := "b" } (SortedMap.empty.insert "web" 1) (50 * second)] = some s' ∧
        s'.leader.placedOn "b" "web" = 1 ∧ s'.leader.names = [] ∧
        s'.net.log = [.run { id := "b", lastSeen := 5 } { name := "web" } false .accepted] ∧
        ¬ s'.leader.Known := by
  refine ⟨emptyLeader_settled, _, rfl, ?_, ?_, ?_, fun h => ?_⟩
  · decide
  · decide
  · decide
  · have hmem := h "b" (by decide) "web" (by decide)
    revert hmem
    decide

end Hop.Lead
