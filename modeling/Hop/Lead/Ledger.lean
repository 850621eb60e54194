import Hop.Lead.Settle

/-!
# What the calls of the leader keep, its operations keep

An invariant of the leader together with its transport, stated with a list of what is booked off
in advance: between two calls of an operation the leader may have booked off what an agent still
has, and each call that stops it shortens the list. `Ledger` says what every call has to keep,
with the booking that belongs to it, and the lemmas follow the operations of `Place.lean` and
`Ops.lean`.

The old tasks of an update are stopped one by one. `Ledger.StopsTasks` is what that has to keep,
for the job of the update.
-/

namespace Hop.Lead

open Hop.Types (Agent Job Map Task)

variable {job : Job} {name : String}

/-- What is booked off in advance: agents with jobs. -/
abbrev Off : Type := List (String × String)

variable {N : Type} [Transport N]

/-- The calls of the leader keep an invariant, each with its booking. Only jobs with a good name
are stored and run; every name that is not empty is good. -/
structure Ledger (Good : String → Prop) (I : Off → Leader → N → Prop) : Prop where
  good : ∀ name, name ≠ "" → Good name
  named : ∀ {off l net}, I off l net → ∀ j ∈ l.store.jobs, Good j.name
  /-- A change of the leader that does not touch its books. -/
  congr : ∀ {off l l' net}, I off l net → l'.agents = l.agents → l'.placed = l.placed →
    (∀ j ∈ l'.store.jobs, Good j.name) → I off l' net
  /-- What is booked off in advance is a set, and only registered agents count. -/
  reorder : ∀ {off off' l net}, I off l net →
    (∀ a ∈ l.agents, ∀ job, (a.id, job) ∈ off' ↔ (a.id, job) ∈ off) → I off' l net
  refused : ∀ {off l net net' a job replace r}, I off l net → Good job.name → a ∈ l.agents →
    Transport.run net a job replace = (r, net') → r ≠ .accepted → I off l net'
  /-- A job that was accepted beside the others is booked. -/
  accepted : ∀ {l net net' a job}, I [] l net → Good job.name → a ∈ l.agents →
    Transport.run net a job false = (.accepted, net') →
    I [] (l.trackPlacement a.id job.name) net'
  dropPlacement : ∀ {off l net}, I off l net → ∀ id name,
    I ((id, name) :: off) (l.dropPlacement id name) net
  takePlacement : ∀ {l net}, I [] l net → ∀ name,
    I ((l.takePlacement name).1.map fun a => (a.id, name)) (l.takePlacement name).2 net
  /-- A stop clears what is booked off. -/
  stopJob : ∀ {off l net a name}, I ((a.id, name) :: off) l net → a ∈ l.agents →
    I off l (Transport.stopJob net a name).2
  /-- A stop that failed. -/
  stopFailed : ∀ {off l net net' a name}, I off l net →
    Transport.stopJob net a name = (false, net') → I off l net'
  deleteJob : ∀ {off l net a name}, I ((a.id, name) :: off) l net → a ∈ l.agents →
    I off l (Transport.deleteJob net a name)
  removeAgent : ∀ {l net}, I [] l net → ∀ id, I [] (l.removeAgent id) net
  heartbeat : ∀ {l net}, I [] l net → ∀ id version now, I [] (l.heartbeat id version now).2 net

namespace Ledger

variable {Good : String → Prop} {I : Off → Leader → N → Prop} {off : Off} {l l' : Leader} {net net' : N}

/-- A change of the leader that touches neither its books nor its store. -/
theorem notes (L : Ledger Good I) (h : I off l net) (hagents : l'.agents = l.agents)
    (hplaced : l'.placed = l.placed) (hstore : l'.store = l.store) : I off l' net :=
  L.congr h hagents hplaced (hstore ▸ L.named h)

theorem emit (L : Ledger Good I) (h : I off l net) (e : Event) : I off (l.emit e) net :=
  L.notes h rfl rfl rfl

/-! ### Placing and reconciling -/

theorem serves (L : Ledger Good I) (hgood : Good job.name) : Serves job (I []) where
  next {l _} h := L.notes h l.nextAgent_books.2.2 l.nextAgent_books.1 l.nextAgent_books.2.1
  refused h := L.refused h hgood
  accepted h := L.accepted h hgood
  unconfirmed h _ _ := L.stopFailed h
  confirmed {_ _ _ agent victim} h ha _ hstop := by
    have hstopped := L.stopJob (L.dropPlacement h agent.id victim) ha
    rwa [hstop] at hstopped
  emit := L.emit

theorem reconcileLoop (L : Ledger Good I) (names : List String) (h : I [] l net) :
    I [] (Leader.reconcileLoop names l net).1 (Leader.reconcileLoop names l net).2 :=
  reconcileLoop_keeps (fun _ job _ hname => L.serves (L.good job.name hname)) names h

/-- Renumbering keeps the names. -/
theorem renumbers (L : Ledger Good I) (h : I off l net) (hr : l.Renumbers l') : I off l' net := by
  refine L.congr h hr.books.2 hr.books.1 fun j hj => ?_
  have hname : j.name ∈ l.store.jobs.map Job.name := hr.names ▸ List.mem_map_of_mem hj
  obtain ⟨j', hj', heq⟩ := List.mem_map.mp hname
  exact heq ▸ L.named h j' hj'

theorem reconcileJobs (L : Ledger Good I) (h : I [] l net) :
    I [] (l.reconcileJobs net).1 (l.reconcileJobs net).2 := by
  unfold Leader.reconcileJobs
  dsimp only
  by_cases hc : l.store.jobs = [] ∨ l.agents = []
  · rw [if_pos hc]
    exact h
  · rw [if_neg hc]
    have hranked := L.renumbers h (Leader.renumbers_normalizePriorities l)
    exact L.reconcileLoop _ (L.notes hranked rfl rfl rfl)

/-! ### Jobs -/

theorem storePut (L : Ledger Good I) (h : I off l net) (hgood : Good job.name)
    (hput : l.storePut job = .ok l') : I off l' net := by
  unfold Leader.storePut at hput
  split at hput
  · rename_i store hstore
    cases hput
    refine L.congr h rfl rfl fun j hj => ?_
    unfold MemStore.put at hstore
    split_ifs at hstore
    · cases hstore
      obtain ⟨j', hj', rfl⟩ := List.mem_map.mp hj
      split_ifs
      · exact hgood
      · exact L.named h j' hj'
    · cases hstore
      rcases List.mem_append.mp hj with hj | hj
      · exact L.named h j hj
      · exact List.mem_singleton.mp hj ▸ hgood
  · cases hput

theorem dispatchJob (L : Ledger Good I) (h : I [] l net) (job : Job) :
    I [] (l.dispatchJob net job).2.1 (l.dispatchJob net job).2.2 := by
  unfold Leader.dispatchJob
  by_cases hname : job.name = ""
  · rw [if_pos hname]
    exact h
  rw [if_neg hname]
  have hgood := L.good job.name hname
  cases hput : l.storePut job with
  | error e => exact h
  | ok l' =>
    have hstored := L.storePut h hgood hput
    dsimp only
    by_cases hsettled : (!l'.settled) = true
    · rw [if_pos hsettled]
      exact hstored
    rw [if_neg hsettled]
    have hplaced : I [] (if job.isDaemon then l'.reconcileJob net job
        else l'.dispatchCount net job job.desired).2.1 (if job.isDaemon then
        l'.reconcileJob net job else l'.dispatchCount net job job.desired).2.2 := by
      split_ifs
      · exact (L.serves hgood).reconcileJob hstored
      · exact (L.serves hgood).dispatchLoop _ _ 0 hstored
    generalize ite (job.isDaemon = true) (l'.reconcileJob net job)
      (l'.dispatchCount net job job.desired) = r at hplaced ⊢
    obtain ⟨_ | _, l'', net''⟩ := r
    · exact hplaced
    · exact L.emit hplaced _

theorem seedInitJobs (L : Ledger Good I) (jobs : List Job) (h : I [] l net) :
    I [] (Leader.seedInitJobs jobs l net).1 (Leader.seedInitJobs jobs l net).2 := by
  induction jobs generalizing l net with
  | nil => exact h
  | cons job rest ih =>
    unfold Leader.seedInitJobs
    split
    · exact ih h
    · exact ih (L.dispatchJob h _)

theorem deleteEach (L : Ledger Good I) {agents : List Agent}
    (h : I (agents.map fun a => (a.id, name)) l net) (hin : ∀ a ∈ agents, a ∈ l.agents) :
    I [] l (Leader.deleteEach name agents net) := by
  unfold Leader.deleteEach
  induction agents generalizing net with
  | nil => exact h
  | cons a rest ih =>
    exact ih (L.deleteJob h (hin a List.mem_cons_self)) fun a' ha' =>
      hin a' (List.mem_cons_of_mem _ ha')

theorem mem_takePlacement {a : Agent} (ha : a ∈ (l.takePlacement name).1) :
    a ∈ (l.takePlacement name).2.agents := (List.mem_filter.mp ha).1

theorem storeRemove (L : Ledger Good I) (h : I off l net) (name : String) :
    I off (l.storeRemove name).2 net := by
  unfold Leader.storeRemove
  split
  · exact L.congr h rfl rfl fun j hj => L.named h j (List.mem_filter.mp hj).1
  · exact h

theorem removeJob (L : Ledger Good I) (h : I [] l net) (name : String) :
    I [] (l.deleteJob net name).1 (l.deleteJob net name).2 := by
  have hremoved := L.storeRemove h name
  unfold Leader.deleteJob
  split
  · rename_i l' heq
    rwa [heq] at hremoved
  · rename_i _ l' heq
    rw [heq] at hremoved
    have hoff := L.takePlacement hremoved name
    exact L.reconcileJobs (L.emit (L.deleteEach hoff fun a ha => mem_takePlacement ha) _)

theorem renumber (L : Ledger Good I) (names : List String) (i : ℕ) (h : I off l net) :
    I off (Leader.renumber names i l) net := by
  induction names generalizing i l with
  | nil => exact h
  | cons name rest ih =>
    exact ih _ (L.renumbers h (Leader.renumbers_storeSetPriority l name i))

theorem patchJobPriority (L : Ledger Good I) (h : I [] l net) (name : String) (target : ℤ) :
    I [] (l.patchJobPriority net name target).2.1 (l.patchJobPriority net name target).2.2 := by
  unfold Leader.patchJobPriority
  split
  · exact h
  · exact L.reconcileJobs (L.emit (L.renumber _ 0 h) _)

/-! ### Agents -/

/-- Jobs are booked off on one agent, in advance. -/
theorem dropEach (L : Ledger Good I) (names : List String) (id : String) (h : I off l net) :
    I (names.map (fun name => (id, name)) ++ off)
      (names.foldl (fun l name => l.dropPlacement id name) l) net := by
  induction names generalizing l off with
  | nil => exact h
  | cons name rest ih =>
    refine L.reorder (ih (L.dropPlacement h id name)) fun a _ job => ?_
    simp only [List.map_cons, List.cons_append, List.mem_cons, List.mem_append]
    tauto

theorem stopEach (L : Ledger Good I) {a : Agent} {names : List String}
    (h : I (names.map fun name => (a.id, name)) l net) (ha : a ∈ l.agents) :
    I [] (Leader.stopEach (some a) names l net).1 (Leader.stopEach (some a) names l net).2 := by
  induction names generalizing l net with
  | nil => exact h
  | cons name rest ih => exact ih (L.emit (L.stopJob h ha) _) ha

theorem stopEach_none (L : Ledger Good I) (names : List String) (h : I off l net) :
    I off (Leader.stopEach none names l net).1 (Leader.stopEach none names l net).2 := by
  induction names generalizing l net with
  | nil => exact h
  | cons name rest ih => exact ih (L.emit h _)

theorem trimReturningAgentSurplus (L : Ledger Good I) (h : I [] l net) (id : String) :
    I [] (l.trimReturningAgentSurplus net id).1 (l.trimReturningAgentSurplus net id).2 := by
  have hdrop := L.dropEach (l.redundant id) id h
  unfold Leader.trimReturningAgentSurplus
  dsimp only
  generalize (l.redundant id).foldl _ l = l' at hdrop ⊢
  rw [List.append_nil] at hdrop
  cases hagent : l'.agent id with
  | none =>
    have hnone := List.find?_eq_none.mp hagent
    refine L.stopEach_none _ (L.reorder hdrop fun a ha job => ?_)
    have hid : a.id ≠ id := by simpa using hnone a ha
    simp [Ne.symm hid]
  | some a =>
    obtain ⟨ha, rfl⟩ := Leader.mem_of_agent hagent
    exact L.stopEach hdrop ha

/-- An agent registers, if the entry of the agent keeps the invariant. -/
theorem registerAgent (L : Ledger Good I) (h : I [] l net) (agent : Agent) (placed : Map ℕ)
    (now : Nanos) (hin : I [] (l.insertAgent { agent with lastSeen := now } placed) net) :
    I [] (l.registerAgent net agent placed now).2.1
      (l.registerAgent net agent placed now).2.2 := by
  unfold Leader.registerAgent
  dsimp only
  generalize Option.any _ (l.agent agent.id) = duplicate
  cases duplicate with
  | true => exact h
  | false =>
    by_cases hmax : maxAgents ≤ (l.removeAgent agent.id).agents.length
    · simp only [Bool.false_eq_true, if_false, if_pos hmax]
      exact L.removeAgent h agent.id
    · simp only [Bool.false_eq_true, if_false, if_neg hmax]
      split_ifs
      · exact L.emit (L.reconcileJobs (L.trimReturningAgentSurplus hin agent.id)) _
      · exact L.emit hin _

theorem unregisterAgent (L : Ledger Good I) (h : I [] l net) (id : String) :
    I [] (l.unregisterAgent net id).1 (l.unregisterAgent net id).2 :=
  L.reconcileJobs (L.removeAgent h id)

theorem removeEach (L : Ledger Good I) (ids : List String) (h : I [] l net) :
    I [] (ids.foldl (fun l id => (l.removeAgent id).emit (.agent id)) l) net := by
  induction ids generalizing l with
  | nil => exact h
  | cons id rest ih => exact ih (L.emit (L.removeAgent h id) _)

theorem checkDeadAgents (L : Ledger Good I) (h : I [] l net) (now : Nanos) :
    I [] (l.checkDeadAgents net now).1 (l.checkDeadAgents net now).2 := by
  unfold Leader.checkDeadAgents
  dsimp only
  split_ifs
  · exact h
  · exact h
  · exact L.reconcileJobs (L.removeEach _ h)

theorem tick (L : Ledger Good I) (h : I [] l net) (now : Nanos) :
    I [] (l.tick net now).1 (l.tick net now).2 := by
  have hsettle : I []
      (({ l with settled := true, settleAt := none }.emit .status).reconcileJobs net).1
      (({ l with settled := true, settleAt := none }.emit .status).reconcileJobs net).2 :=
    L.reconcileJobs (L.notes h rfl rfl rfl)
  unfold Leader.tick
  dsimp only
  by_cases hc : (!l.settled) = true ∧ l.settleAt.any (fun t => decide (t ≤ now)) = true
  · rw [if_pos hc]
    have hdead := L.checkDeadAgents hsettle now
    split_ifs
    · exact L.reconcileJobs (L.notes hdead rfl rfl rfl)
    · exact L.notes hdead rfl rfl rfl
  · rw [if_neg hc]
    have hdead := L.checkDeadAgents h now
    split_ifs
    · exact L.reconcileJobs (L.notes hdead rfl rfl rfl)
    · exact L.notes hdead rfl rfl rfl

/-! ### Updates -/

theorem stopAgents (L : Ledger Good I) {agents : List Agent}
    (h : I (agents.map fun a => (a.id, name)) l net) (hin : ∀ a ∈ agents, a ∈ l.agents) :
    I [] l (agents.foldl (fun net a => (Transport.stopJob net a name).2) net) := by
  induction agents generalizing net with
  | nil => exact h
  | cons a rest ih =>
    exact ih (L.stopJob h (hin a List.mem_cons_self)) fun a' ha' =>
      hin a' (List.mem_cons_of_mem _ ha')

theorem updateRecreate (L : Ledger Good I) (h : I [] l net) (job : Job) :
    I [] (l.updateRecreate net job).2.1 (l.updateRecreate net job).2.2 :=
  L.dispatchJob (L.stopAgents (L.takePlacement h job.name) fun _ ha => mem_takePlacement ha) job

theorem storeSetDeploying (L : Ledger Good I) (h : I [] l net) (name : String) (d : Bool) :
    I [] (l.storeSetDeploying name d) net := by
  unfold Leader.storeSetDeploying
  split
  · refine L.congr h rfl rfl fun j hj => ?_
    have hmem : j.name ∈ l.store.jobs.map Job.name := by
      rw [← l.store.map_name_update name (fun j => { j with deploying := d }) fun _ => rfl]
      exact List.mem_map_of_mem hj
    obtain ⟨j', hj', heq⟩ := List.mem_map.mp hmem
    exact heq ▸ L.named h j' hj'
  · exact h

/-- The end of an update. -/
theorem finished (L : Ledger Good I) {r : Except Error Unit × Leader × N} (h : I [] r.2.1 r.2.2)
    (name : String) :
    I [] (Leader.normalizePriorities (match r.1 with
      | .ok () => r.2.1.storeSetDeploying name false
      | .error _ => r.2.1)) r.2.2 := by
  obtain ⟨_ | _, l', net'⟩ := r
  · exact L.renumbers h (Leader.renumbers_normalizePriorities _)
  · exact L.renumbers (L.storeSetDeploying h name false) (Leader.renumbers_normalizePriorities _)

/-- An update, by what its policies keep. -/
theorem updateJob (L : Ledger Good I) (h : I [] l net) (job : Job)
    (hrolling : ∀ job' : Job, job'.name = job.name → Good job'.name →
      I [] (l.updateRolling net job').2.1 (l.updateRolling net job').2.2)
    (hblueGreen : ∀ job' : Job, job'.name = job.name → Good job'.name →
      I [] (l.updateBlueGreen net job').2.1 (l.updateBlueGreen net job').2.2) :
    I [] (l.updateJob net job).2.1 (l.updateJob net job).2.2 := by
  unfold Leader.updateJob
  cases hget : l.store.get job.name with
  | none => exact h
  | some old =>
    dsimp only
    cases job.checkRollable with
    | error e => exact h
    | ok u =>
      dsimp only
      obtain ⟨hmem, hname⟩ := MemStore.get_eq_some_iff.mp hget
      have hgood : Good (Leader.updated old job).name := by
        have := L.named h old hmem
        rwa [hname] at this
      have hsame : (Leader.updated old job).name = job.name := rfl
      generalize Leader.updated old job = job' at hgood hsame ⊢
      cases job'.policy with
      | rolling => exact L.finished (hrolling job' hsame hgood) job'.name
      | recreate => exact L.finished (L.updateRecreate h job') job'.name
      | blueGreen => exact L.finished (hblueGreen job' hsame hgood) job'.name

end Ledger

/-! ### Updates that stop their old tasks one by one -/

/-- What an update of the job `name` does besides: it replaces in place, it stops single tasks,
each with its booking, it asks for task lists and it pauses. -/
structure StopsTasks (Good : String → Prop) (I : Off → Leader → N → Prop) (name : String) : Prop
    where
  replaced : ∀ {l net net' a job}, I [] l net → Good job.name → job.name = name → a ∈ l.agents →
    Transport.run net a job true = (.accepted, net') → I [] l net'
  stopTask : ∀ {l net a}, I [] l net → a ∈ l.agents → ∀ taskId,
    I [] (l.untrackOne a.id name) (Transport.stopTask net a taskId)
  tasks : ∀ {l net}, I [] l net → ∀ a, I [] l (Transport.tasks net a).2
  pause : ∀ {l net}, I [] l net → ∀ d, I [] l (Transport.pause net d)

namespace StopsTasks

variable {Good : String → Prop} {I : Off → Leader → N → Prop} {l : Leader} {net : N} {name : String}

theorem jobStatusLoop (S : StopsTasks Good I name) (agents : List Agent) (h : I [] l net)
    (name' : String) : I [] l (l.jobStatusLoop name' agents net).2 := by
  induction agents generalizing net with
  | nil => exact h
  | cons a rest ih =>
    unfold Leader.jobStatusLoop
    split_ifs
    · exact ih h
    · have htasks := S.tasks h a
      split
      · rename_i net' heq
        rw [heq] at htasks
        exact ih htasks
      · rename_i tasks net' heq
        rw [heq] at htasks
        exact ih htasks

theorem snapshotJobTasks (S : StopsTasks Good I name) (h : I [] l net) (name' : String) :
    I [] l (l.snapshotJobTasks net name').2 := by
  unfold Leader.snapshotJobTasks Leader.jobStatus
  dsimp only
  split
  · exact h
  · exact S.jobStatusLoop _ h name'

theorem advances (S : StopsTasks Good I name) (L : Ledger Good I) (hgood : Good job.name)
    (hname : job.name = name) : Advances job (I []) where
  toTries := (L.serves hgood).toTries
  emit := L.emit
  replaced {_ _ _ _ r} h ha hrun := by
    by_cases hr : r = .accepted
    · subst hr
      exact S.replaced h hgood hname ha hrun
    · exact L.refused h hgood ha hrun hr
  stopTask h ha taskId := hname ▸ S.stopTask h ha taskId
  pause := S.pause

theorem updateRolling (S : StopsTasks Good I name) (L : Ledger Good I) (hgood : Good job.name)
    (hname : job.name = name) (h : I [] l net) :
    I [] (l.updateRolling net job).2.1 (l.updateRolling net job).2.2 := by
  have hsnap := S.snapshotJobTasks h job.name
  unfold Leader.updateRolling
  generalize l.snapshotJobTasks net job.name = r at hsnap ⊢
  obtain ⟨olds, net'⟩ := r
  dsimp only at hsnap ⊢
  cases hput : l.storePut job with
  | error e => exact hsnap
  | ok l' =>
    have hloop := (S.advances L hgood hname).rollLoop olds 0 (L.storePut hsnap hgood hput)
    dsimp only
    generalize Leader.rollLoop job olds 0 l' net' = r at hloop ⊢
    obtain ⟨_ | _, l'', net''⟩ := r
    · exact hloop
    · exact L.reconcileJobs hloop

theorem updateBlueGreen (S : StopsTasks Good I name) (L : Ledger Good I) (hgood : Good job.name)
    (hname : job.name = name) (h : I [] l net) :
    I [] (l.updateBlueGreen net job).2.1 (l.updateBlueGreen net job).2.2 := by
  have hsnap := S.snapshotJobTasks h job.name
  unfold Leader.updateBlueGreen
  generalize l.snapshotJobTasks net job.name = r at hsnap ⊢
  obtain ⟨olds, net'⟩ := r
  dsimp only at hsnap ⊢
  cases hput : l.storePut job with
  | error e => exact hsnap
  | ok l' =>
    have hloop := (S.advances L hgood hname).blueGreenLoop job.desired job.desired 0
      (L.storePut hsnap hgood hput)
    dsimp only
    generalize Leader.blueGreenLoop job job.desired job.desired 0 l' net' = r at hloop ⊢
    obtain ⟨_ | _, l'', net''⟩ := r
    · exact hloop
    · exact L.emit ((S.advances L hgood hname).stopOldTasks olds hloop) _

/-- An update of the job. -/
theorem updateJob (S : StopsTasks Good I name) (L : Ledger Good I) (h : I [] l net)
    (hname : job.name = name) : I [] (l.updateJob net job).2.1 (l.updateJob net job).2.2 :=
  L.updateJob h job (fun _ hsame hgood => S.updateRolling L hgood (hsame.trans hname) h)
    fun _ hsame hgood => S.updateBlueGreen L hgood (hsame.trans hname) h

end StopsTasks

/-! ### Every operation -/

/-- A ledger of a transport is a ledger of the transport that writes its calls down. -/
theorem Ledger.logged {Good : String → Prop} {I : Off → Leader → N → Prop} (L : Ledger Good I) :
    Ledger Good fun off l (net : Logged N) => I off l net.net where
  good := L.good
  named h := L.named h
  congr h := L.congr h
  reorder h := L.reorder h
  refused h hgood ha hrun hr := by
    cases hrun
    exact L.refused h hgood ha rfl hr
  accepted h hgood ha hrun := by
    obtain ⟨hreply, rfl⟩ := Prod.ext_iff.mp hrun
    exact L.accepted h hgood ha (Prod.ext hreply rfl)
  dropPlacement h := L.dropPlacement h
  takePlacement h := L.takePlacement h
  stopJob h ha := L.stopJob h ha
  stopFailed h hfalse := by
    obtain ⟨hreply, rfl⟩ := Prod.ext_iff.mp hfalse
    exact L.stopFailed h (Prod.ext hreply rfl)
  deleteJob h ha := L.deleteJob h ha
  removeAgent h := L.removeAgent h
  heartbeat h := L.heartbeat h

theorem StopsTasks.logged {Good : String → Prop} {I : Off → Leader → N → Prop}
    (S : StopsTasks Good I name) :
    StopsTasks Good (fun off l (net : Logged N) => I off l net.net) name where
  replaced h hgood hname ha hrun := by
    obtain ⟨hreply, rfl⟩ := Prod.ext_iff.mp hrun
    exact S.replaced h hgood hname ha (Prod.ext hreply rfl)
  stopTask h ha := S.stopTask h ha
  tasks h := S.tasks h
  pause h := S.pause h

/-- **What the calls keep, every operation keeps**, if the entry of an agent and the booking of a
hand-back keep it. -/
theorem Ledger.apply {Good : String → Prop} {I : Off → Leader → N → Prop} (L : Ledger Good I)
    {s : Sys N} (op : Op) (h : I [] s.leader s.net.net)
    (hupdate : ∀ job, op = .updateJob job → StopsTasks Good I job.name)
    (hregister : ∀ agent placed now, op = .registerAgent agent placed now →
      I [] (s.leader.insertAgent { agent with lastSeen := now } placed) s.net.net)
    (hunplaced : ∀ id name, op = .markUnplaced id name →
      I [] (s.leader.untrackOne id name) s.net.net) :
    I [] (s.apply op).leader (s.apply op).net.net := by
  have L' := L.logged
  cases op with
  | dispatchJob job => exact L'.dispatchJob h job
  | updateJob job => exact (hupdate job rfl).logged.updateJob L' h rfl
  | deleteJob name => exact L'.removeJob h name
  | patchJobPriority name target => exact L'.patchJobPriority h name target
  | seedInitJobs jobs => exact L'.seedInitJobs jobs h
  | registerAgent agent placed now =>
    exact L'.registerAgent h agent placed now (hregister agent placed now rfl)
  | unregisterAgent id => exact L'.unregisterAgent h id
  | markUnplaced id name => exact L'.reconcileJobs (hunplaced id name rfl)
  | heartbeat id version now => exact L'.heartbeat h id version now
  | checkDeadAgents now => exact L'.checkDeadAgents h now
  | tick now => exact L'.tick h now

end Hop.Lead
