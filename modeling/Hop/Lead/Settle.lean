import Hop.Lib.Machine
import Hop.Lead.Quiet

/-!
# The settle period

A new leader does not know what runs already, so for one agent timeout it should ask nobody to
run anything. Submitting a job and registering an agent look at the settle flag; a hand-back, an
agent that leaves, a deletion, a change of priority and an update do not: they reconcile, or
place, at once. `Asks` says of each operation when it asks an agent to run something, and
`settling_silent_iff` that a run of operations during the settle period is silent exactly if none
of them asks.
-/

namespace Hop.Lead

open Hop.Types (Agent Job Map UpdatePolicy)

namespace Leader

variable {l : Leader}

variable {N : Type}

/-! ### Calls that are no placement -/

/-- Calls were made between the two states, and none of them asks to run a job. -/
structure Silent (net net' : Logged N) : Prop where
  log : net.log <+: net'.log
  none : ¬ Ran net net'

namespace Silent

variable {net net' net'' : Logged N}

theorem refl (net : Logged N) : Silent net net := ⟨List.prefix_rfl, not_ran_refl net⟩

theorem of_append {c : Call} (h : net'.log = net.log ++ [c]) (hc : c.isRun = false) :
    Silent net net' := by
  refine ⟨h ▸ List.prefix_append _ _, ?_⟩
  rintro ⟨c', hc', hrun⟩
  rw [Logged.since_eq h, List.mem_singleton] at hc'
  rw [hc', hc] at hrun
  cases hrun

/-- A silent beginning does not count. -/
theorem ran_iff (h : Silent net net') (hlog : net'.log <+: net''.log) :
    Ran net net'' ↔ Ran net' net'' := by
  refine ⟨?_, fun hr => hr.mono_left h.log⟩
  rintro ⟨c, hc, hrun⟩
  obtain ⟨cs, hcs⟩ := h.log
  obtain ⟨cs', hcs'⟩ := hlog
  have hsince : net''.since net = cs ++ cs' :=
    Logged.since_eq (by rw [← hcs', ← hcs, List.append_assoc])
  rw [hsince, List.mem_append] at hc
  rcases hc with hc | hc
  · exact absurd ⟨c, (Logged.since_eq hcs.symm).symm ▸ hc, hrun⟩ h.none
  · exact ⟨c, (Logged.since_eq hcs'.symm).symm ▸ hc, hrun⟩

theorem trans (h : Silent net net') (h' : Silent net' net'') : Silent net net'' :=
  ⟨h.log.trans h'.log, fun hr => h'.none ((h.ran_iff h'.log).mp hr)⟩

end Silent

theorem silent_foldl {α : Type} (f : Logged N → α → Logged N)
    (hf : ∀ net a, Silent net (f net a)) (as : List α) (net : Logged N) :
    Silent net (as.foldl f net) := by
  induction as generalizing net with
  | nil => exact .refl net
  | cons a as ih => exact (hf net a).trans (ih _)

variable [Transport N]

theorem silent_deleteEach (name : String) (agents : List Agent) (net : Logged N) :
    Silent net (deleteEach name agents net) :=
  silent_foldl _ (fun _ a => .of_append (c := .deleteJob a name) rfl rfl) agents net

theorem silent_jobStatusLoop (l : Leader) (name : String) (agents : List Agent)
    (net : Logged N) : Silent net (l.jobStatusLoop name agents net).2 := by
  induction agents generalizing net with
  | nil => exact .refl net
  | cons a rest ih =>
    unfold jobStatusLoop
    split_ifs
    · exact ih net
    · have htasks : Silent net (Transport.tasks net a).2 :=
        .of_append (c := .tasks a (Transport.tasks net a).1) rfl rfl
      split
      · rename_i net' heq
        rw [heq] at htasks
        exact htasks.trans (ih net')
      · rename_i tasks net' heq
        rw [heq] at htasks
        exact htasks.trans (ih net')

theorem silent_snapshotJobTasks (l : Leader) (net : Logged N) (name : String) :
    Silent net (l.snapshotJobTasks net name).2 := by
  have hstatus : Silent net (l.jobStatus net name).2 := by
    unfold jobStatus
    split
    · exact .refl net
    · exact silent_jobStatusLoop l name l.agents net
  exact hstatus

/-- Only an agent can report a task. -/
theorem agents_of_snapshot (l : Leader) (net : Logged N) (name : String)
    (h : (l.snapshotJobTasks net name).1 ≠ []) : l.agents ≠ [] := by
  intro hnil
  have hstatus : (l.jobStatus net name).1 = [] := by
    unfold jobStatus
    split
    · rfl
    · rw [hnil]
      rfl
  exact h (by simp [snapshotJobTasks, hstatus])

/-! ### When an operation asks -/

omit [Transport N] in
theorem storePut_frame {l' : Leader} {job : Job} (h : l.storePut job = .ok l') :
    l'.placed = l.placed ∧ l'.agents = l.agents ∧ l'.settled = l.settled := by
  unfold storePut at h
  split at h
  · cases h
    exact ⟨rfl, rfl, rfl⟩
  · cases h

/-- What an operation during the settle period did: the period goes on, calls were only added,
and an agent was asked to run something exactly if `asks`. -/
structure Outcome (net : Logged N) (l' : Leader) (net' : Logged N) (asks : Prop) : Prop where
  settled : l'.settled = false
  log : net.log <+: net'.log
  ran : Ran net net' ↔ asks

omit [Transport N] in
theorem Silent.outcome {net net' : Logged N} (h : Silent net net') {l' : Leader}
    (hl' : l'.settled = false) : Outcome net l' net' False :=
  ⟨hl', h.log, iff_false_intro h.none⟩

theorem outcome_reconcileJobs {net net' : Logged N} (h : Silent net net') (hl : l.settled = false) :
    Outcome net (l.reconcileJobs net').1 (l.reconcileJobs net').2 (¬ l.Quiet) := by
  obtain ⟨hlog, -, hsettled, -⟩ := reconcileJobs_frame l net'
  refine ⟨hsettled.trans hl, h.log.trans hlog, ?_⟩
  rw [h.ran_iff hlog, ran_reconcileJobs_iff]

/-- During the settle period a job is only stored. -/
theorem outcome_dispatchJob {net net' : Logged N} (h : Silent net net') (hl : l.settled = false)
    (job : Job) :
    Outcome net (l.dispatchJob net' job).2.1 (l.dispatchJob net' job).2.2 False := by
  unfold dispatchJob
  by_cases hname : job.name = ""
  · rw [if_pos hname]
    exact h.outcome hl
  · rw [if_neg hname]
    split
    · exact h.outcome hl
    · rename_i l' hput
      have hl' : l'.settled = false := (storePut_frame hput).2.2.trans hl
      simp only [hl', Bool.not_false, if_true]
      exact h.outcome hl'

theorem outcome_seedInitJobs (jobs : List Job) {net net' : Logged N} (h : Silent net net')
    (hl : l.settled = false) :
    Outcome net (seedInitJobs jobs l net').1 (seedInitJobs jobs l net').2 False := by
  induction jobs generalizing l net' with
  | nil => exact h.outcome hl
  | cons job rest ih =>
    unfold seedInitJobs
    split
    · exact ih h hl
    · have hd := outcome_dispatchJob h hl
        { job with priority := some (job.priority.getD l.nextPriority) }
      exact ih ⟨hd.log, hd.ran.mp⟩ hd.settled

/-- A job that exists can be stored anew. -/
theorem exists_storePut (job : Job) {old : Job} (h : l.store.get job.name = some old) :
    ∃ l', l.storePut job = .ok l' := by
  have hmem : job.name ∈ l.store.jobs.map Job.name := by
    by_contra hne
    rw [MemStore.get_eq_none_iff.mpr hne] at h
    cases h
  unfold storePut MemStore.put
  rw [dif_pos hmem]
  exact ⟨_, rfl⟩

/-- A deletion reconciles if there was something to delete. -/
theorem outcome_deleteJob (net : Logged N) (hl : l.settled = false) (name : String) :
    Outcome net (l.deleteJob net name).1 (l.deleteJob net name).2
      (l.store.get name ≠ none ∧ ¬ ((l.storeRemove name).2.takePlacement name).2.Quiet) := by
  unfold deleteJob storeRemove
  cases hget : l.store.get name with
  | none => simpa using (Silent.refl net).outcome hl
  | some old =>
    have h := outcome_reconcileJobs (silent_deleteEach name
      ({ l with store := l.store.remove name, dirty := true }.takePlacement name).1 net)
      (l := ({ l with store := l.store.remove name, dirty := true }.takePlacement name).2.emit
        (.job name)) hl
    refine ⟨h.settled, h.log, h.ran.trans ?_⟩
    simp only [ne_eq, reduceCtorEq, not_false_eq_true, true_and]
    exact not_congr (quiet_congr rfl rfl rfl)

omit [Transport N] in
theorem renumbers_renumber (names : List String) (i : ℕ) (l : Leader) :
    Renumbers l (renumber names i l) := by
  induction names generalizing i l with
  | nil => exact .refl l
  | cons name rest ih => exact (renumbers_storeSetPriority l name i).trans (ih _ _)

theorem outcome_patchJobPriority (net : Logged N) (hl : l.settled = false) (name : String)
    (target : ℤ) :
    Outcome net (l.patchJobPriority net name target).2.1 (l.patchJobPriority net name target).2.2
      (l.store.get name ≠ none ∧ ¬ l.Quiet) := by
  unfold patchJobPriority
  cases hget : l.store.get name with
  | none => simpa using (Silent.refl net).outcome hl
  | some old =>
    dsimp only
    set order := (l.priorityOrder.filter fun n => n ≠ name).insertIdx
      (min target.toNat (l.priorityOrder.filter fun n => n ≠ name).length) name
    have hren := renumbers_renumber order 0 l
    have h := outcome_reconcileJobs (Silent.refl net)
      (l := (renumber order 0 l).emit (.job name)) (hren.settled.1.trans hl)
    refine ⟨h.settled, h.log, h.ran.trans ?_⟩
    simp only [ne_eq, reduceCtorEq, not_false_eq_true, true_and]
    exact not_congr (quiet_congr hren.books.1 hren.books.2 hren.jobs)

/-- During the settle period an agent is only registered. -/
theorem outcome_registerAgent (net : Logged N) (hl : l.settled = false) (agent : Agent)
    (placed : Map ℕ) (now : Nanos) :
    Outcome net (l.registerAgent net agent placed now).2.1
      (l.registerAgent net agent placed now).2.2 False := by
  have hins : (l.insertAgent { agent with lastSeen := now } placed).settled = false := hl
  unfold registerAgent
  dsimp only
  simp only [hins, Bool.false_eq_true, if_false]
  split_ifs
  · exact (Silent.refl net).outcome hl
  · exact (Silent.refl net).outcome hl
  · exact (Silent.refl net).outcome hins

theorem outcome_checkDeadAgents (net : Logged N) (hl : l.settled = false) (now : Nanos) :
    Outcome net (l.checkDeadAgents net now).1 (l.checkDeadAgents net now).2 False := by
  simp only [checkDeadAgents, hl, Bool.not_false, if_true]
  exact (Silent.refl net).outcome hl

/-- A tick before the deadline does nothing but count. -/
theorem outcome_tick (net : Logged N) (hl : l.settled = false) (now : Nanos)
    (hnow : l.settleAt.any (fun t => decide (t ≤ now)) = false) :
    Outcome net (l.tick net now).1 (l.tick net now).2 False := by
  simp only [tick, hnow, Bool.false_eq_true, and_false, if_false, checkDeadAgents, hl,
    Bool.not_false, if_true, false_and]
  exact (Silent.refl net).outcome rfl

/-! ### Updates -/

theorem ran_rollOne (net : Logged N) (job : Job) (old : TaskRef) (h : l.agents ≠ []) :
    Ran net (l.rollOne net job old).2.2 := by
  have hplace := ran_place net job false h
  unfold rollOne
  split
  · rename_i l' net' heq
    rwa [heq] at hplace
  · rename_i k l' net' heq
    rw [heq] at hplace
    split
    · exact hplace
    · split
      · rename_i net'' hrun
        exact hplace.mono_right (moves_run l' hrun).log
      · rename_i r net'' _ hrun
        exact hplace.mono_right (moves_run l' hrun).log
  · rename_i why l' net' _ heq
    rwa [heq] at hplace

/-- The first old task gets its successor placed. -/
theorem ran_rollLoop (net : Logged N) (job : Job) (old : TaskRef) (rest : List TaskRef)
    (h : l.agents ≠ []) :
    Ran net (rollLoop job (old :: rest) 0 l net).2.2 := by
  have hone := ran_rollOne net job old h
  unfold rollLoop
  rw [if_pos (Nat.lt_of_lt_of_le Nat.one_pos job.one_le_desired)]
  split
  · rename_i why l' net' heq
    rwa [heq] at hone
  · rename_i replaced l' net' heq
    rw [heq] at hone
    exact hone.mono_right ((moves_rollAfter l' net' job 0 old replaced).trans
      (moves_rollLoop _ _ _ _ _)).log

/-- A rolling update places at once if a task of the job is reported, and reconciles. -/
theorem outcome_updateRolling {l₁ : Leader} (net : Logged N) (hl : l.settled = false) {job : Job}
    (hput : l.storePut job = .ok l₁) :
    Outcome net (l.updateRolling net job).2.1 (l.updateRolling net job).2.2
      ((l.snapshotJobTasks net job.name).1 ≠ [] ∨ ¬ l₁.Quiet) := by
  have hsnap := silent_snapshotJobTasks l net job.name
  have hagents := agents_of_snapshot l net job.name
  obtain ⟨-, ha₁, hs₁⟩ := storePut_frame hput
  unfold updateRolling
  generalize l.snapshotJobTasks net job.name = snap at hsnap hagents ⊢
  obtain ⟨olds, net₁⟩ := snap
  simp only [hput]
  cases olds with
  | nil =>
    have h := outcome_reconcileJobs hsnap (hs₁.trans hl)
    simpa [rollLoop] using h
  | cons old rest =>
    have hmoves := moves_rollLoop job (old :: rest) 0 l₁ net₁
    have hran := ran_rollLoop net₁ job old rest (l := l₁) (ha₁ ▸ hagents (by simp))
    -- the loop asked already, so it does not matter what the reconcile after it does
    have hout : ∀ (l' : Leader) (net' : Logged N), l'.settled = l₁.settled →
        (rollLoop job (old :: rest) 0 l₁ net₁).2.2.log <+: net'.log →
        Outcome net l' net' (old :: rest ≠ [] ∨ ¬ l₁.Quiet) := by
      intro l' net' hset hlog
      refine ⟨hset.trans (hs₁.trans hl), (hsnap.log.trans hmoves.log).trans hlog, ?_⟩
      exact iff_of_true ((hran.mono_right hlog).mono_left hsnap.log) (Or.inl (by simp))
    split
    · rename_i e l' net' heq
      rw [heq] at hmoves hout
      exact hout l' net' hmoves.settled.1 List.prefix_rfl
    · rename_i l' net' heq
      rw [heq] at hmoves hout
      obtain ⟨hlog, -, hset, -⟩ := reconcileJobs_frame l' net'
      exact hout _ _ (hset.trans hmoves.settled.1) hlog

/-- During the settle period a recreate only stops. -/
theorem outcome_updateRecreate (net : Logged N) (hl : l.settled = false) (job : Job) :
    Outcome net (l.updateRecreate net job).2.1 (l.updateRecreate net job).2.2 False :=
  outcome_dispatchJob (silent_foldl _ (fun net a =>
    .of_append (c := .stopJob a job.name (Transport.stopJob net a job.name).1) rfl rfl) _ net)
    (l := (l.takePlacement job.name).2) hl job

theorem ran_blueGreenLoop (net : Logged N) (job : Job) (count k i : ℕ) (h : l.agents ≠ []) :
    Ran net (blueGreenLoop job count (k + 1) i l net).2.2 := by
  have hplace := ran_place net job false h
  unfold blueGreenLoop
  split
  · rename_i why l' net' heq
    rwa [heq] at hplace
  · rename_i l' net' heq
    rw [heq] at hplace
    exact hplace.mono_right (moves_blueGreenLoop _ _ _ _ _ _).log

/-- A blue-green update places at once if there is an agent. -/
theorem outcome_updateBlueGreen {l₁ : Leader} (net : Logged N) (hl : l.settled = false) {job : Job}
    (hput : l.storePut job = .ok l₁) :
    Outcome net (l.updateBlueGreen net job).2.1 (l.updateBlueGreen net job).2.2
      (l.agents ≠ []) := by
  have hsnap := silent_snapshotJobTasks l net job.name
  obtain ⟨-, ha₁, hs₁⟩ := storePut_frame hput
  obtain ⟨k, hk⟩ : ∃ k, job.desired = k + 1 :=
    Nat.exists_eq_succ_of_ne_zero (Nat.ne_of_gt job.one_le_desired)
  unfold updateBlueGreen
  generalize l.snapshotJobTasks net job.name = snap at hsnap ⊢
  obtain ⟨olds, net₁⟩ := snap
  simp only [hput]
  by_cases ha : l.agents = []
  · have hloop : blueGreenLoop job job.desired job.desired 0 l₁ net₁ =
        (.error (.blueGreen (.new job.name) 1 job.desired .noAgents), l₁, net₁) := by
      rw [hk, blueGreenLoop]
      simp [place, ha₁, ha]
    rw [hloop]
    simpa [ha] using hsnap.outcome (hs₁.trans hl)
  · have hmoves := moves_blueGreenLoop job job.desired job.desired 0 l₁ net₁
    have hran : Ran net₁ (blueGreenLoop job job.desired job.desired 0 l₁ net₁).2.2 := by
      have := ran_blueGreenLoop net₁ job job.desired k 0 (l := l₁) (ha₁ ▸ ha)
      rwa [← hk] at this
    split
    · rename_i e l' net' heq
      rw [heq] at hmoves hran
      exact ⟨hmoves.settled.1.trans (hs₁.trans hl), hsnap.log.trans hmoves.log,
        iff_of_true (hran.mono_left hsnap.log) ha⟩
    · rename_i l' net' heq
      rw [heq] at hmoves hran
      have hstop := moves_stopOldTasks job.name olds l' net'
      exact ⟨(hmoves.trans hstop).settled.1.trans (hs₁.trans hl),
        hsnap.log.trans (hmoves.trans hstop).log,
        iff_of_true ((hran.mono_right hstop.log).mono_left hsnap.log) ha⟩

/-- The leader with the job in its store, if there is room for it. -/
def stored (l : Leader) (job : Job) : Leader :=
  match l.storePut job with
  | .ok l => l
  | .error _ => l

/-- Whether an update of the old definition asks an agent to run something. -/
def UpdateAsks (l : Leader) (net : Logged N) (old job : Job) : Prop :=
  match job.policy with
  | .rolling => (l.snapshotJobTasks net job.name).1 ≠ [] ∨ ¬ (l.stored (updated old job)).Quiet
  | .recreate => False
  | .blueGreen => l.agents ≠ []

/-- The rollout of an update, by its policy. -/
theorem outcome_rollout (net : Logged N) (hl : l.settled = false) {old job : Job}
    (hget : l.store.get job.name = some old) :
    let r := match (updated old job).policy with
      | .rolling => l.updateRolling net (updated old job)
      | .recreate => l.updateRecreate net (updated old job)
      | .blueGreen => l.updateBlueGreen net (updated old job)
    Outcome net r.2.1 r.2.2 (l.UpdateAsks net old job) := by
  obtain ⟨l₁, hput⟩ := exists_storePut (updated old job) hget
  have hstored : l.stored (updated old job) = l₁ := by rw [stored, hput]
  have hpolicy : (updated old job).policy = job.policy := rfl
  unfold UpdateAsks
  rw [hpolicy]
  cases job.policy with
  | rolling =>
    rw [hstored]
    exact outcome_updateRolling net hl hput
  | recreate => exact outcome_updateRecreate net hl (updated old job)
  | blueGreen => exact outcome_updateBlueGreen net hl hput

omit [Transport N] in
theorem settled_storeSetDeploying (l : Leader) (name : String) (d : Bool) :
    (l.storeSetDeploying name d).settled = l.settled := by
  unfold storeSetDeploying
  split <;> rfl

theorem outcome_updateJob (net : Logged N) (hl : l.settled = false) (job : Job) :
    Outcome net (l.updateJob net job).2.1 (l.updateJob net job).2.2
      (∃ old, l.store.get job.name = some old ∧ job.checkRollable = .ok () ∧
        l.UpdateAsks net old job) := by
  have hrefl := (Silent.refl net).outcome hl
  unfold updateJob
  cases hget : l.store.get job.name with
  | none => simpa using hrefl
  | some old =>
    cases hroll : job.checkRollable with
    | error e => simpa using hrefl
    | ok u =>
      have hout := outcome_rollout net hl hget
      simp only [Option.some.injEq, exists_eq_left', true_and]
      refine ⟨(renumbers_normalizePriorities _).settled.1.trans ?_, hout.log, hout.ran⟩
      split
      · exact (settled_storeSetDeploying _ _ _).trans hout.settled
      · exact hout.settled

end Leader

/-! ### Runs of the settle period -/

open Leader

variable {N : Type} [Transport N]

/-- An operation on the leader. -/
inductive Op
  | dispatchJob (job : Job)
  | updateJob (job : Job)
  | deleteJob (name : String)
  | patchJobPriority (name : String) (target : ℤ)
  | seedInitJobs (jobs : List Job)
  | registerAgent (agent : Agent) (placed : Map ℕ) (now : Nanos)
  | unregisterAgent (id : String)
  | markUnplaced (id name : String)
  | heartbeat (id version : String) (now : Nanos)
  | checkDeadAgents (now : Nanos)
  | tick (now : Nanos)

/-- A leader with the transport to its agents. -/
structure Sys (N : Type) where
  leader : Leader
  net : Logged N

/-- The leader and its transport after an operation. -/
def Sys.apply (s : Sys N) : Op → Sys N
  | .dispatchJob job =>
    let (_, l, net) := s.leader.dispatchJob s.net job
    ⟨l, net⟩
  | .updateJob job =>
    let (_, l, net) := s.leader.updateJob s.net job
    ⟨l, net⟩
  | .deleteJob name =>
    let (l, net) := s.leader.deleteJob s.net name
    ⟨l, net⟩
  | .patchJobPriority name target =>
    let (_, l, net) := s.leader.patchJobPriority s.net name target
    ⟨l, net⟩
  | .seedInitJobs jobs =>
    let (l, net) := Leader.seedInitJobs jobs s.leader s.net
    ⟨l, net⟩
  | .registerAgent agent placed now =>
    let (_, l, net) := s.leader.registerAgent s.net agent placed now
    ⟨l, net⟩
  | .unregisterAgent id =>
    let (l, net) := s.leader.unregisterAgent s.net id
    ⟨l, net⟩
  | .markUnplaced id name =>
    let (l, net) := s.leader.markUnplaced s.net id name
    ⟨l, net⟩
  | .heartbeat id version now => ⟨(s.leader.heartbeat id version now).2, s.net⟩
  | .checkDeadAgents now =>
    let (l, net) := s.leader.checkDeadAgents s.net now
    ⟨l, net⟩
  | .tick now =>
    let (l, net) := s.leader.tick s.net now
    ⟨l, net⟩

/-- A leader that began a settle period; the clock of its ticks is before the deadline. -/
def settling : Machine (Sys N) Op where
  Init s := ∃ l delay now, delay ≠ 0 ∧ s.leader = Leader.settle l delay now ∧ s.net.log = []
  step s op :=
    match op with
    | .tick now =>
      if s.leader.settleAt.any (fun t => decide (t ≤ now)) = true then none
      else some (s.apply (.tick now))
    | op => some (s.apply op)

/-- While the period lasts, no agent was asked to run anything. -/
def Sys.Silent (s : Sys N) : Prop :=
  s.leader.settled = false → ∀ c ∈ s.net.log, c.isRun = false

/-- Whether the operation asks an agent to run something during the settle period: it reconciles
a state that is not quiet, or it is an update that places beside the old tasks. -/
def Sys.Asks (s : Sys N) : Op → Prop
  | .unregisterAgent id => ¬ (s.leader.removeAgent id).Quiet
  | .markUnplaced id name => ¬ (s.leader.untrackOne id name).Quiet
  | .deleteJob name => s.leader.store.get name ≠ none ∧
      ¬ ((s.leader.storeRemove name).2.takePlacement name).2.Quiet
  | .patchJobPriority name _ => s.leader.store.get name ≠ none ∧ ¬ s.leader.Quiet
  | .updateJob job => ∃ old, s.leader.store.get job.name = some old ∧
      job.checkRollable = .ok () ∧ s.leader.UpdateAsks s.net old job
  | _ => False

/-- The step: what each operation does to the period and to the log. -/
theorem outcome_step {s s' : Sys N} {op : Op} (hs : s.leader.settled = false)
    (h : settling.step s op = some s') :
    Outcome s.net s'.leader s'.net (s.Asks op) := by
  have hrefl := Silent.refl s.net
  cases op with
  | dispatchJob job =>
    cases h
    exact outcome_dispatchJob hrefl hs job
  | updateJob job =>
    cases h
    exact outcome_updateJob s.net hs job
  | deleteJob name =>
    cases h
    exact outcome_deleteJob s.net hs name
  | patchJobPriority name target =>
    cases h
    exact outcome_patchJobPriority s.net hs name target
  | seedInitJobs jobs =>
    cases h
    exact outcome_seedInitJobs jobs hrefl hs
  | registerAgent agent placed now =>
    cases h
    exact outcome_registerAgent s.net hs agent placed now
  | unregisterAgent id =>
    cases h
    exact outcome_reconcileJobs (l := s.leader.removeAgent id) hrefl hs
  | markUnplaced id name =>
    cases h
    exact outcome_reconcileJobs (l := s.leader.untrackOne id name) hrefl hs
  | heartbeat id version now =>
    cases h
    have hbeat : (s.leader.heartbeat id version now).2.settled = s.leader.settled := by
      unfold heartbeat
      split <;> rfl
    exact hrefl.outcome (hbeat.trans hs)
  | checkDeadAgents now =>
    cases h
    exact outcome_checkDeadAgents s.net hs now
  | tick now =>
    unfold settling at h
    dsimp only at h
    split_ifs at h with hnow
    cases h
    exact outcome_tick s.net hs now (Bool.eq_false_iff.mpr hnow)

omit [Transport N] in
/-- The log stays free of `run` calls exactly if none is added. -/
theorem Leader.Outcome.silent_iff {net net' : Logged N} {l' : Leader} {asks : Prop}
    (h : Outcome net l' net' asks) (hnet : ∀ c ∈ net.log, c.isRun = false) :
    (∀ c ∈ net'.log, c.isRun = false) ↔ ¬ asks := by
  obtain ⟨cs, hcs⟩ := h.log
  rw [← h.ran, Ran, Logged.since_eq hcs.symm, ← hcs]
  simp only [List.mem_append]
  constructor
  · rintro hall ⟨c, hc, hrun⟩
    rw [hall c (Or.inr hc)] at hrun
    cases hrun
  · intro hnone c hc
    rcases hc with hc | hc
    · exact hnet c hc
    · exact Bool.eq_false_iff.mpr fun hrun => hnone ⟨c, hc, hrun⟩

/-- **The settle period is silent exactly if no operation asks**: a run of operations during the
settle period makes no `run` call if and only if each operation finds nothing to place. -/
theorem settling_silent_iff (s : Sys N) (ops : List Op) (h : settling.Init s) :
    settling.Always Sys.Silent s ops ↔ settling.Along (fun s op => ¬ s.Asks op) s ops := by
  obtain ⟨l, delay, now, hdelay, hl, hlog⟩ := h
  have hinit : s.leader.settled = false := by
    rw [hl, settle, if_neg hdelay]
  refine Machine.always_iff_along
    (K := fun s => s.leader.settled = false ∧ ∀ c ∈ s.net.log, c.isRun = false)
    (fun s hs _ => hs.2) ?_ ?_ ⟨hinit, by simp [hlog]⟩
  · intro s op s' hs hstep hok
    have hout := outcome_step hs.1 hstep
    exact ⟨hout.settled, (hout.silent_iff hs.2).mpr hok⟩
  · intro s op s' hs hstep hsilent
    have hout := outcome_step hs.1 hstep
    exact (hout.silent_iff hs.2).mp (hsilent hout.settled)

theorem nodup_web : (List.map Job.name [{ name := "web" }]).Nodup := by decide

theorem length_web : [({ name := "web" } : Job)].length ≤ maxJobs := by decide

/-- A leader that just took over a store with one job. -/
def freshLeader : Sys WillingAgents where
  leader := (Leader.new "a" ⟨[{ name := "web" }], 0, nodup_web, length_web⟩).settle (30 * second) 0
  net := ⟨⟨⟩, []⟩

theorem freshLeader_init : settling.Init freshLeader :=
  ⟨_, 30 * second, 0, by decide, rfl, rfl⟩

/-- An agent that has the job registers, and the leader ticks: nothing is asked. -/
theorem settling_silent_register :
    settling.Always Sys.Silent freshLeader
      [.registerAgent { id := "a" } (SortedMap.empty.insert "web" 1) 5, .markUnplaced "a" "old",
        .tick 7] := by
  refine (settling_silent_iff freshLeader _ freshLeader_init).mpr ?_
  intro s₁ h₁
  cases h₁
  refine ⟨id, fun s₂ h₂ => ?_⟩
  cases h₂
  refine ⟨not_not_intro (by decide), fun s₃ h₃ => ⟨id, trivial⟩⟩

/-- An agent registers that does not have the job, and hands another one back: the leader
places the job on it at once, although an agent that runs it may not have registered yet. -/
theorem settling_hand_back_places :
    settling.Init freshLeader ∧
      (∃ s', settling.run freshLeader
          [.registerAgent { id := "a" } .empty 5, .markUnplaced "a" "old"] = some s' ∧
        s'.leader.settled = false ∧
        s'.net.log = [.run { id := "a", lastSeen := 5 } { name := "web", priority := some 0 } false
          .accepted]) ∧
      ¬ settling.Always Sys.Silent freshLeader
        [.registerAgent { id := "a" } .empty 5, .markUnplaced "a" "old"] := by
  refine ⟨freshLeader_init, ⟨_, rfl, rfl, rfl⟩, fun h => ?_⟩
  have hlast := h.last rfl rfl _ (List.mem_singleton_self _)
  cases hlast

end Hop.Lead
