import Hop.Node.Atomic
import Hop.Types.TaskJson

/-!
# What the tables of an agent hold

A job is filed under its name and a task under its id, the tables keep to their bounds, and every
number is in the range of its type, as long as that holds of what the agent is told (`Call.InRange`).
`Typed` says so of an agent; every call keeps it (`typed_answer`), so it holds in every run
(`typed_of_run`).
-/

namespace Hop.Node

open Hop.Types (Driver InI64 Job Map Task TaskState)

variable {job : Job}

/-- A record is filed under the id of its task, whose numbers are in range. -/
structure Fair (id : String) (e : Entry) : Prop where
  key : e.task.id = id
  writable : e.task.Writable

namespace Agent

/-- The tables are filed by name and id, within their bounds, and their numbers are in range. -/
structure Typed (a : Agent) : Prop where
  job : ∀ {name job}, a.jobs.get? name = some job → job.name = name ∧ job.Writable
  task : ∀ {id e}, a.tasks.get? id = some e → Fair id e
  jobs : a.jobs.size ≤ maxJobs
  tasks : a.tasks.size ≤ maxTasks

theorem typed_new (settings : Settings) : (new settings).Typed where
  job h := by cases h
  task h := by cases h
  jobs := Nat.zero_le _
  tasks := Nat.zero_le _

variable {a a' : Agent} {id : String} {now : Nanos}

theorem Typed.congr (h : a.Typed) (hjobs : a'.jobs = a.jobs) (htasks : a'.tasks = a.tasks) :
    a'.Typed where
  job hjob := h.job (hjobs ▸ hjob)
  task htask := h.task (htasks ▸ htask)
  jobs := hjobs ▸ h.jobs
  tasks := htasks ▸ h.tasks

/-! ### The tables -/

/-- Editing a record in range. -/
theorem Typed.modify (h : a.Typed) {f : Entry → Entry} (hf : ∀ e, Fair id e → Fair id (f e)) :
    (a.modifyTask id f).Typed := by
  refine { h with task := fun {id' e'} he => ?_, tasks := (SortedMap.size_modify _ _ _).trans_le h.tasks }
  change (a.tasks.modify id f).get? id' = some e' at he
  rw [SortedMap.get?_modify] at he
  split_ifs at he with hid
  · obtain ⟨e, hget, rfl⟩ := Option.map_eq_some_iff.mp he
    rw [← hid] at hget ⊢
    exact hf e (h.task hget)
  · exact h.task he

theorem Typed.forget (h : a.Typed) (id : String) : (a.forget id).Typed :=
  { h with
    task := fun he => h.task (SortedMap.of_get?_erase he).2
    tasks := (SortedMap.size_erase_le _ _).trans h.tasks }

/-- A new record has room. -/
theorem Typed.insert (h : a.Typed) {task : Task} (htask : task.Writable)
    (hroom : a.tasks.size < maxTasks) (firstStart : Bool) : (a.insertEntry task firstStart).Typed := by
  refine { h with
    task := fun {id e} he => ?_, tasks := (SortedMap.size_insert_le _ _ _).trans hroom }
  rcases SortedMap.of_get?_insert he with ⟨-, he⟩ | ⟨rfl, rfl⟩
  · exact h.task he
  · exact ⟨rfl, htask⟩

/-- A job that has room. -/
theorem Typed.define (h : a.Typed) (hjob : job.Writable)
    (hroom : (a.jobs.get? job.name).isSome = true ∨ a.jobs.size < maxJobs) :
    ({ a with jobs := a.jobs.insert job.name job } : Agent).Typed := by
  refine { h with job := fun {name j} hget => ?_, jobs := ?_ }
  · rcases SortedMap.of_get?_insert hget with ⟨-, hget⟩ | ⟨rfl, rfl⟩
    · exact h.job hget
    · exact ⟨rfl, hjob⟩
  · rcases hroom with hknown | hroom
    · obtain ⟨old, hold⟩ := Option.isSome_iff_exists.mp hknown
      have hlt := SortedMap.size_erase_lt hold
      have hle := SortedMap.size_insert_le (a.jobs.erase job.name) job.name job
      rw [SortedMap.insert_erase_self] at hle
      exact (hle.trans hlt).trans h.jobs
    · exact (SortedMap.size_insert_le _ _ _).trans hroom

/-! ### The chain of a restart -/

theorem inI64_zero : InI64 0 := ⟨by decide, by decide⟩

theorem inI64_satI64 (x : ℤ) : InI64 (satI64 x) :=
  ⟨le_max_left _ _, max_le (by decide) (min_le_right _ _)⟩

theorem writable_newTask (a : Agent) (hjob : job.Writable) (hnow : now ≤ u64Max) :
    (a.newTask now job).1.Writable where
  port := fun e he => absurd he List.not_mem_nil
  pid := inI64_zero
  startedAt := hnow
  restartCount := inI64_zero
  lastFailedAt := Nat.zero_le _
  nextRestartAt := Nat.zero_le _
  cpuShares := hjob.cpuShares
  memoryLimit := hjob.memoryLimit
  cores := Nat.zero_le _
  core := fun c hc => by cases hc
  downloaded := Nat.zero_le _
  imageSize := Nat.zero_le _

theorem fair_failedNow {e : Entry} (h : Fair id e) (hnow : now ≤ u64Max) (window : Nanos)
    (ran : Bool) : Fair id (failedNow e now window ran) := by
  refine ⟨h.key, { h.writable with restartCount := ?_, lastFailedAt := hnow }⟩
  rw [failedNow]
  split_ifs
  · exact inI64_zero
  · exact h.writable.restartCount

section Chain

variable {begin' : Agent → Nanos → String → Agent}
  (hbegin : ∀ {a : Agent} {id : String}, a.Typed → (begin' a now id).Typed)
include hbegin

theorem typed_restartFire (h : a.Typed) (hnow : now ≤ u64Max) (id : String) :
    (restartFire begin' a now id).Typed := by
  rw [restartFire]
  split_ifs
  · exact h
  rcases hold : a.tasks.get? id with _ | old
  · exact h
  dsimp only
  rcases hjob : a.jobs.get? old.task.jobName with _ | job
  · exact h.forget id
  dsimp only
  rcases a.resolveJobForRun job with why | job'
  · exact h.modify fun e he => ⟨he.key, { he.writable with }⟩
  · -- the old record makes room for the new one
    have hids : ({ a with ids := a.ids.id.2 } : Agent).Typed := h.congr rfl rfl
    have hforget : (forget { a with ids := a.ids.id.2 } id).Typed := hids.forget id
    refine hbegin (hforget.insert ?_ ?_ false)
    · exact { writable_newTask a (h.job hjob).2 hnow with
        restartCount := inI64_satI64 _
        lastFailedAt := (h.task hold).writable.lastFailedAt }
    · exact (SortedMap.size_erase_lt hold).trans_le h.tasks

theorem typed_restartDecide (h : a.Typed) (hnow : now ≤ u64Max) (id : String) (ran : Bool) :
    (restartDecide begin' a now id ran).Typed := by
  rw [restartDecide]
  rcases he : a.tasks.get? id with _ | e
  · exact h
  dsimp only
  rcases hjob : a.jobs.get? e.task.jobName with _ | job
  · exact h.forget id
  dsimp only
  generalize (if 0 < job.restartWindow then job.restartWindow else defaultRestartWindow) = window
  have hfair := fair_failedNow (h.task he) hnow window ran
  have hids : ({ a with ids := a.ids.nextU64.2 } : Agent).Typed := h.congr rfl rfl
  split_ifs
  · exact hids.modify fun _ _ => ⟨hfair.key, { hfair.writable with }⟩
  · refine hids.modify fun _ _ => ⟨hfair.key, { hfair.writable with nextRestartAt := ?_ }⟩
    exact satAdd_le_max _ _ _
  · exact typed_restartFire hbegin (hids.modify fun _ _ => hfair) hnow id

theorem typed_scheduleRestart (h : a.Typed) (hnow : now ≤ u64Max) (id : String) (ran : Bool) :
    (scheduleRestart begin' a now id ran).Typed := by
  rw [scheduleRestart]
  rcases a.tasks.get? id with _ | e
  · exact typed_restartDecide hbegin h hnow id ran
  · have hpush : (a.push (stopAction e.task)).Typed := h.congr rfl rfl
    exact typed_restartDecide hbegin hpush hnow id ran

theorem typed_startFailed (h : a.Typed) (hnow : now ≤ u64Max) (id : String) :
    (startFailed begin' a now id).Typed := by
  rw [startFailed]
  rcases a.tasks.get? id with _ | e
  · exact h
  have hfailed : (a.modifyTask id fun e => { e with task := { e.task with state := .failed } }).Typed :=
    h.modify fun e he => ⟨he.key, { he.writable with }⟩
  dsimp only
  refine typed_scheduleRestart hbegin ?_ hnow id false
  split_ifs
  · exact hfailed.congr rfl rfl
  · exact hfailed

end Chain

theorem typed_beginStart (rounds : ℕ) (h : a.Typed) (hnow : now ≤ u64Max) (id : String) :
    (beginStart rounds a now id).Typed := by
  induction rounds generalizing a id with
  | zero => exact h
  | succ rounds ih =>
    rw [beginStart]
    rcases a.tasks.get? id with _ | e
    · exact h
    dsimp only
    split
    · have hstarting : (a.modifyTask id fun e => { e with starting := true }).Typed :=
        h.modify fun e he => ⟨he.key, he.writable⟩
      exact hstarting.congr rfl rfl
    · exact typed_startFailed (fun h => ih h _) h hnow id

theorem typed_begin (hnow : now ≤ u64Max) {a : Agent} {id : String} (h : a.Typed) :
    (beginStart startRounds a now id).Typed := typed_beginStart startRounds h hnow id

/-! ### What the agent is told -/

theorem typed_removeAndStop (h : a.Typed) (id : String) : (a.removeAndStop id).2.Typed := by
  rw [removeAndStop]
  rcases a.tasks.get? id with _ | e
  · exact h
  · exact (h.forget id).congr rfl rfl

theorem typed_stopEach (h : a.Typed) (ids : List String) : (a.stopEach ids).Typed := by
  induction ids generalizing a with
  | nil => exact h
  | cons id rest ih => exact ih (typed_removeAndStop h id)

theorem writable_roundForHopos (h : job.Writable) : (roundForHopos job).Writable := by
  refine { h with cpuShares := inI64_satI64 _, memoryLimit := ?_ }
  rw [roundForHopos]
  dsimp only
  split_ifs
  · exact (Nat.div_mul_le_self _ _).trans (satAdd_le_max _ _ _)
  · exact h.memoryLimit

theorem writable_normalized (h : job.Writable) : (normalized job).Writable := by
  rw [normalized]
  dsimp only
  split_ifs
  · exact writable_roundForHopos { h with }
  · exact { h with }

theorem writable_keepRolloutFlag (a : Agent) (h : job.Writable) :
    (a.keepRolloutFlag job).Writable := { h with }

theorem typed_cleared (h : a.Typed) (job : Job) (replace : Bool) : (a.cleared job replace).Typed := by
  have hrefused : ({ a with refused := a.refused.filter (· ≠ job.name) } : Agent).Typed :=
    h.congr rfl rfl
  rw [cleared]
  split_ifs
  · exact typed_stopEach hrefused _
  · exact hrefused

theorem cleared_jobs (a : Agent) (job : Job) (replace : Bool) : (a.cleared job replace).jobs = a.jobs := by
  rw [cleared]
  split_ifs
  · exact (stopEach_drops _ _).jobs
  · rfl

theorem prepared_size_le (a : Agent) (job : Job) (replace : Bool) :
    (a.prepared job replace).tasks.size ≤ a.tasks.size := by
  refine (SortedMap.entries_sublist fun id e he => ?_).length_le
  rw [prepared_get?] at he
  exact (Option.filter_eq_some_iff.mp he).1

theorem typed_takeOn (h : a.Typed) (hnow : now ≤ u64Max) (hjob : job.Writable) (replace : Bool)
    (htasks : a.tasks.size < maxTasks)
    (hjobs : (a.jobs.get? job.name).isSome = true ∨ a.jobs.size < maxJobs) :
    (a.takeOn now job replace).2.Typed := by
  have hprepared : (a.prepared job replace).Typed := by
    refine (typed_cleared h job replace).define (writable_keepRolloutFlag _ hjob) ?_
    rw [cleared_jobs]
    exact hjobs
  have hids : ({ a.prepared job replace with ids := a.ids.id.2 } : Agent).Typed :=
    hprepared.congr rfl rfl
  rw [takeOn_eq]
  refine typed_beginStart startRounds (hids.insert (writable_newTask a hjob hnow) ?_ true) hnow _
  exact (prepared_size_le a job replace).trans_lt htasks

theorem typed_refuse (h : a.Typed) (job why : String) : (a.refuse job why).Typed :=
  have hsame := unmoved_refuse a job why
  h.congr hsame.jobs hsame.tasks

theorem typed_run (h : a.Typed) (hnow : now ≤ u64Max) (hjob : job.Writable) (replace : Bool)
    (poolLargest : Option ℕ) : (a.run now job replace poolLargest).2.Typed := by
  rw [run]
  by_cases haffinity : (!a.matchesAffinity job.affinity) = true
  · rw [if_pos haffinity]
    exact h
  rw [if_neg haffinity]
  dsimp only
  by_cases htasks : maxTasks ≤ a.tasks.size
  · rw [if_pos htasks]
    exact h
  rw [if_neg htasks]
  by_cases hjobs : (a.jobs.get? (normalized job).name).isNone = true ∧ maxJobs ≤ a.jobs.size
  · rw [if_pos hjobs]
    exact h
  rw [if_neg hjobs]
  rcases a.admitJob (normalized job) replace poolLargest with why | ⟨⟩
  · exact typed_refuse h _ why
  · refine typed_takeOn h hnow (writable_normalized hjob) replace (not_le.mp htasks) ?_
    rcases hget : a.jobs.get? (normalized job).name with _ | old
    · exact .inr (not_le.mp fun hle => hjobs ⟨by rw [hget]; rfl, hle⟩)
    · exact .inl rfl

theorem typed_onProgress (h : a.Typed) {downloaded total : ℕ} (hdownloaded : downloaded ≤ u64Max)
    (htotal : total ≤ u64Max) (id : String) : (a.onProgress id downloaded total).Typed := by
  refine h.modify fun e he => ?_
  split_ifs
  · exact ⟨he.key, { he.writable with downloaded := hdownloaded, imageSize := htotal }⟩
  · exact he

theorem typed_started (h : a.Typed) (hnow : now ≤ u64Max) (id : String) (driver : Driver) {ok : StartOk}
    (hpid : InI64 ok.pid) (hports : ∀ e ∈ ok.ports.entries, e.2 ≤ u16Max) :
    (a.started now id driver ok).Typed := by
  rw [started]
  dsimp only
  split_ifs
  · exact (h.forget id).congr rfl rfl
  rcases a.tasks.get? id with _ | e
  · exact h
  · have hrunning : (a.modifyTask id fun e => { e with task := { e.task with
        state := .running, pid := ok.pid, ports := ok.ports, startedAt := now
        nextRestartAt := 0 } }).Typed :=
      h.modify fun e he => ⟨he.key, { he.writable with
        pid := hpid, port := hports, startedAt := hnow, nextRestartAt := Nat.zero_le _ }⟩
    exact hrunning.congr rfl rfl

theorem typed_onStarted (h : a.Typed) (hnow : now ≤ u64Max) (id : String) (driver : Driver)
    {result : Except StartError StartOk} (hok : ∀ ok, result = .ok ok →
      InI64 ok.pid ∧ ∀ e ∈ ok.ports.entries, e.2 ≤ u16Max) :
    (a.onStarted now id driver result).Typed := by
  have hidle : (a.modifyTask id fun e => { e with starting := false }).Typed :=
    h.modify fun e he => ⟨he.key, he.writable⟩
  simp only [onStarted]
  rcases result with (_ | _) | ok
  · dsimp only
    rw [releaseUnplaceable]
    split
    · exact (hidle.forget id).congr rfl rfl
    · exact hidle
  · exact typed_startFailed (typed_begin hnow) hidle hnow id
  · exact typed_started hidle hnow id driver (hok ok rfl).1 (hok ok rfl).2

/-- A task that crashed or is unhealthy begins its way to a restart. -/
theorem typed_crashed (h : a.Typed) (hnow : now ≤ u64Max) (st : TaskState) (x : Action) (id : String) :
    (scheduleRestart (beginStart startRounds) ((a.modifyTask id fun e => { e with
      task := { e.task with state := st }, check := {} }).push x) now id true).Typed := by
  have hstate : (a.modifyTask id fun e => { e with
      task := { e.task with state := st }, check := {} }).Typed :=
    h.modify fun e he => ⟨he.key, { he.writable with }⟩
  have hpush : ((a.modifyTask id fun e => { e with
      task := { e.task with state := st }, check := {} }).push x).Typed := hstate.congr rfl rfl
  exact typed_scheduleRestart (typed_begin hnow) hpush hnow id true

theorem typed_onProbe (h : a.Typed) (hnow : now ≤ u64Max) (id : String) (outcome : Outcome) :
    (a.onProbe now id outcome).Typed := by
  have hcheck : ∀ check, (a.modifyTask id fun e => { e with check := check }).Typed :=
    fun check => h.modify fun e he => ⟨he.key, he.writable⟩
  rw [onProbe]
  rcases a.tasks.get? id with _ | e
  · exact h
  dsimp only
  split_ifs
  · exact h
  split
  · exact typed_crashed h hnow .failed _ id
  · split_ifs
    · exact (hcheck _).congr rfl rfl
    · exact hcheck _

theorem typed_maybeProbe (h : a.Typed) (hnow : now ≤ u64Max) (id : String) :
    (a.maybeProbe now id).Typed := by
  rw [maybeProbe]
  rcases a.tasks.get? id with _ | e
  · exact h
  dsimp only
  rcases (a.jobs.get? e.task.jobName).bind fun j => j.healthCheck with _ | hc
  · exact h
  dsimp only
  split_ifs
  · exact h
  rcases probeFor e.task hc a.settings.probeTimeout with _ | probe
  · exact typed_onProbe h hnow id _
  · exact h.congr rfl rfl

theorem typed_onStatus (h : a.Typed) (hnow : now ≤ u64Max) (id : String) (status : Status) :
    (a.onStatus now id status).Typed := by
  rw [onStatus]
  rcases a.tasks.get? id with _ | e
  · exact h
  dsimp only
  split_ifs
  · exact h
  rcases status with _ | _
  · exact typed_maybeProbe h hnow id
  · exact typed_crashed h hnow .stopping _ id

theorem typed_recordUsage (h : a.Typed) (id : String) {cores : ℕ} {core : Option ℕ}
    (hcores : cores ≤ u64Max) (hcore : ∀ c ∈ core, c ≤ u64Max) :
    (a.recordUsage id cores core).Typed := by
  refine h.modify fun e he => ⟨he.key, { he.writable with cores := ?_, core := ?_ }⟩
  · dsimp only
    split_ifs
    · exact hcores
    · exact he.writable.cores
  · intro c hc
    rcases core with _ | c'
    · exact he.writable.core c hc
    · exact hcore c hc

theorem typed_fireDue (h : a.Typed) (hnow : now ≤ u64Max) (id : String) :
    (fireDue now a id).Typed := by
  have hedit : (a.modifyTask id fun e => { e with restartAt := none }).Typed :=
    h.modify fun e he => ⟨he.key, he.writable⟩
  exact typed_restartFire (typed_begin hnow) hedit hnow id

theorem typed_monitor (h : a.Typed) : a.monitor.Typed := by
  rw [monitor]
  generalize a.tasks.entries.filter _ = es
  induction es generalizing a with
  | nil => exact h
  | cons e es ih => exact ih (h.congr rfl rfl)

theorem typed_ticked (h : a.Typed) (hnow : now ≤ u64Max) : (a.ticked now).Typed := by
  have hfired : ∀ (ids : List String) {a : Agent}, a.Typed → (ids.foldl (fireDue now) a).Typed := by
    intro ids
    induction ids with
    | nil => exact fun h => h
    | cons id rest ih => exact fun h => ih (typed_fireDue h hnow id)
  have hdue := hfired (a.dueIds now) h
  rw [ticked, monitorDue]
  split_ifs
  · exact typed_monitor (hdue.congr rfl rfl)
  · exact hdue

/-! ### The job store -/

theorem Typed.eraseJob (h : a.Typed) (hjobs : a'.jobs = a.jobs.erase id) (htasks : a'.tasks = a.tasks) :
    a'.Typed where
  job hget := h.job (SortedMap.of_get?_erase (hjobs ▸ hget)).2
  task htask := h.task (htasks ▸ htask)
  jobs := hjobs ▸ (SortedMap.size_erase_le _ _).trans h.jobs
  tasks := htasks ▸ h.tasks

theorem hasRoomFor_iff {name : String} : a.hasRoomFor name = true ↔
    (a.jobs.get? name).isSome = true ∨ a.jobs.size < maxJobs := by
  rw [hasRoomFor, Bool.or_eq_true, decide_eq_true_iff]

theorem typed_storeJob (h : a.Typed) (hjob : job.Writable) (now : Nanos) :
    (a.storeJob now job).2.Typed := by
  rw [storeJob]
  split_ifs with hroom
  · exact (h.define hjob (hasRoomFor_iff.mp hroom)).congr rfl rfl
  · exact h

theorem typed_updateJob (h : a.Typed) (hjob : job.Writable) (now : Nanos) :
    (a.updateJob now job).2.Typed := by
  rw [updateJob]
  rcases hget : a.jobs.get? job.name with _ | old
  · exact h
  · exact (h.define hjob (.inl (by rw [hget]; rfl))).congr rfl rfl

theorem typed_rewriteJob (h : a.Typed) {f : Job → Job} (hname : ∀ j, (f j).name = j.name)
    (hf : ∀ j, j.Writable → (f j).Writable) (now : Nanos) (name : String) :
    (a.rewriteJob now name f).2.Typed := by
  rw [rewriteJob]
  rcases a.jobs.get? name with _ | old
  · exact h
  · refine { h with job := fun {name' j} hget => ?_, jobs := (SortedMap.size_modify _ _ _).trans_le h.jobs }
    dsimp only at hget
    rw [SortedMap.get?_modify] at hget
    split_ifs at hget
    · obtain ⟨old, hold, rfl⟩ := Option.map_eq_some_iff.mp hget
      exact ⟨(hname old).trans (h.job hold).1, hf old (h.job hold).2⟩
    · exact h.job hget

theorem typed_syncJobs (updated : Nanos) {jobs : List Job} (hjobs : ∀ job ∈ jobs, job.Writable)
    (h : a.Typed) : (syncJobs updated jobs a).2.Typed := by
  induction jobs generalizing a with
  | nil => exact h.congr rfl rfl
  | cons job rest ih =>
    obtain ⟨hjob, hrest⟩ := List.forall_mem_cons.mp hjobs
    rw [syncJobs]
    split_ifs with hroom
    · exact ih hrest (h.define hjob (hasRoomFor_iff.mp hroom))
    · exact h

theorem typed_adoptJobs {jobs : List Job} (hjobs : ∀ job ∈ jobs, job.Writable) (h : a.Typed) :
    (adoptJobs jobs a).Typed := by
  induction jobs generalizing a with
  | nil => exact h
  | cons job rest ih =>
    obtain ⟨hjob, hrest⟩ := List.forall_mem_cons.mp hjobs
    rw [adoptJobs]
    split_ifs with hroom
    · exact ih hrest (h.define hjob (hasRoomFor_iff.mp hroom))
    · exact h

theorem typed_adoptTasks {tasks : List Task} (htasks : ∀ task ∈ tasks, task.Writable) (h : a.Typed) :
    (adoptTasks tasks a).Typed := by
  induction tasks generalizing a with
  | nil => exact h
  | cons task rest ih =>
    obtain ⟨htask, hrest⟩ := List.forall_mem_cons.mp htasks
    rw [adoptTasks]
    split_ifs with hroom
    · exact ih hrest (h.insert htask hroom false)
    · exact h

end Agent

/-! ### Runs -/

/-- The jobs that an input brings are as `from_json` accepts them, and its numbers are in range. -/
def Input.InRange : Input → Prop
  | .run now job _ _ => now ≤ u64Max ∧ job.Writable
  | .onProgress _ downloaded total => downloaded ≤ u64Max ∧ total ≤ u64Max
  | .onStarted now _ _ result => now ≤ u64Max ∧
      ∀ ok, result = .ok ok → InI64 ok.pid ∧ ∀ e ∈ ok.ports.entries, e.2 ≤ u16Max
  | .onStatus now _ _ => now ≤ u64Max
  | .onProbe now _ _ => now ≤ u64Max
  | .recordUsage _ cores core => cores ≤ u64Max ∧ ∀ c ∈ core, c ≤ u64Max
  | .tick now => now ≤ u64Max
  | .storeJob _ job => job.Writable
  | .updateJob _ job => job.Writable
  | .setJobPriority _ _ priority => InI64 priority
  | .syncJobs jobs _ => ∀ job ∈ jobs, job.Writable
  | _ => True

/-- The same for a call; what is adopted was read from a hand-over. -/
def Call.InRange : Call → Prop
  | .input i => i.InRange
  | .adopt jobs tasks => (∀ job ∈ jobs, job.Writable) ∧ ∀ task ∈ tasks, task.Writable

namespace Agent

variable {a : Agent}

theorem typed_feed (h : a.Typed) {i : Input} (hi : i.InRange) : (a.feed i).Typed := by
  cases i with
  | run now job replace poolLargest => exact typed_run h hi.1 hi.2 replace poolLargest
  | onProgress id downloaded total => exact typed_onProgress h hi.1 hi.2 id
  | onStarted now id driver result => exact typed_onStarted h hi.1 id driver hi.2
  | onStatus now id status => exact typed_onStatus h hi id status
  | onProbe now id outcome => exact typed_onProbe h hi id outcome
  | recordUsage id cores core => exact typed_recordUsage h id hi.1 hi.2
  | tick now =>
    have hticked := typed_ticked h hi
    exact hticked.congr rfl rfl
  | takeActions => exact h.congr rfl rfl
  | stopTask id => exact typed_removeAndStop h id
  | stopJobTasks name => exact typed_stopEach h _
  | deleteJob now name =>
    have herased : ({ a with
        jobs := a.jobs.erase name
        refused := a.refused.filter (· ≠ name)
        stateTime := now } : Agent).Typed := h.eraseJob rfl rfl
    exact (typed_stopEach herased _).congr rfl rfl
  | stopAll => exact typed_stopEach h _
  | shutdown =>
    have hdown : ({ a with shuttingDown := true } : Agent).Typed := h.congr rfl rfl
    exact typed_stopEach hdown _
  | storeJob now job => exact typed_storeJob h hi now
  | updateJob now job => exact typed_updateJob h hi now
  | setJobPriority now name priority =>
    refine typed_rewriteJob (f := fun j => { j with priority := some priority }) h (fun _ => rfl)
      (fun j hj => { hj with priority := fun p hp => ?_ }) now name
    exact Option.some.inj hp ▸ hi
  | setJobDeploying now name deploying =>
    exact typed_rewriteJob (f := fun j => { j with deploying := deploying }) h (fun _ => rfl)
      (fun j hj => { hj with }) now name
  | deleteJobDefinition now name => exact h.eraseJob rfl rfl
  | syncJobs jobs updated => exact typed_syncJobs updated hi h
  | setLeaderAddr addr => exact h.congr rfl rfl
  | setLeaseExpiresAt t => exact h.congr rfl rfl
  | setSettings settings => exact h.congr rfl rfl

theorem typed_answer (h : a.Typed) {c : Call} (hc : c.InRange) : (a.answer c).Typed := by
  rcases c with i | ⟨jobs, tasks⟩
  · exact typed_feed h hc
  · exact typed_adoptTasks hc.2 (typed_adoptJobs hc.1 h)

/-- **Every run keeps the tables** within their bounds and ranges. -/
theorem typed_of_run {settings : Settings} {cs : List Call} (hcs : ∀ c ∈ cs, c.InRange)
    (hrun : calls.run (new settings) cs = some a) : a.Typed := by
  have hall : ∀ (cs : List Call) {b : Agent}, (∀ c ∈ cs, c.InRange) → b.Typed →
      calls.run b cs = some a → a.Typed := by
    intro cs
    induction cs with
    | nil =>
      intro b _ hb hrun
      exact Option.some.inj hrun ▸ hb
    | cons c rest ih =>
      intro b hcs hb hrun
      obtain ⟨hc, hrest⟩ := List.forall_mem_cons.mp hcs
      exact ih hrest (typed_answer hb hc) hrun
  exact hall cs hcs (typed_new settings) hrun

end Agent

end Hop.Node
