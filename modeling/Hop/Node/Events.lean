import Hop.Node.Ends

/-!
# The restarts of one event

What one event of the agent does up to its restarts (`Agent.opens`), and the chains of calls that
follow from it, one after the other. Every chain ends, whatever memory there is for its calls. No
count is negative in the life of an agent (`Lived.nonneg`), so a chain fires one restart at most, and
no two chains of one event are about the same task. With memory for everything the chains come to
what `Agent.feed` does with a bound on its rounds.
-/

namespace Hop.Node

open Hop.Types (Driver Job Task TaskState)

/-- An event up to the restarts that follow from it. -/
structure Opening where
  agent : Agent
  now : Nanos
  /-- The calls that the chains begin with. -/
  todo : List Todo

/-- An event with the chains that followed from it. -/
structure Played where
  agent : Agent
  chains : List Chain

/-- The chains of an event, one after the other; `mem` says what there is memory for, by the chains
that are left and the calls of the chain. -/
def playAll (now : Nanos) (mem : ℕ → ℕ → Memory) : List Todo → Agent → Played
  | [], a => ⟨a, []⟩
  | t :: ts, a =>
    let c := Chain.finish now (mem ts.length) a t
    let rest := playAll now mem ts c.agent
    ⟨rest.agent, c :: rest.chains⟩

namespace Agent

/-- A task that ran is down, and the leader is told so. -/
def crashed (a : Agent) (id : String) (e : Entry) (st : TaskState) : Agent :=
  (a.modifyTask id fun e => { e with task := { e.task with state := st }, check := {} }).push
    (.notify e.task.jobName .crash)

/-- `run`: what was admitted begins. -/
def runOpens (a : Agent) (now : Nanos) (job : Job) (replace : Bool) (poolLargest : Option ℕ) :
    Opening :=
  match a.run now job replace poolLargest with
  | (.error _, a') => ⟨a', now, []⟩
  | (.ok _, _) =>
    let job := normalized job
    let (task, _) := a.newTask now job
    ⟨insertEntry { a.prepared job replace with ids := a.ids.id.2 } task true, now,
      [.beginStart task.id]⟩

/-- `on_started`: a start that failed may be tried again. -/
def startedOpens (a : Agent) (now : Nanos) (id : String) (driver : Driver)
    (result : Except StartError StartOk) : Opening :=
  match result with
  | .error .failed => ⟨a.modifyTask id fun e => { e with starting := false }, now, [.startFailed id]⟩
  | _ => ⟨a.onStarted now id driver result, now, []⟩

/-- `on_probe`: a task that is unhealthy is restarted. -/
def probeOpens (a : Agent) (now : Nanos) (id : String) (outcome : Outcome) : Opening :=
  match a.tasks.get? id with
  | none => ⟨a, now, []⟩
  | some e =>
    if e.task.state ≠ .running then ⟨a, now, []⟩
    else
      let threshold := ((a.jobs.get? e.task.jobName).bind fun j => j.healthCheck).elim 0
        fun hc => hc.failureThreshold
      match e.check.apply (isHealthy outcome e.check) now threshold with
      | (.unhealthy, _) => ⟨a.crashed id e .failed, now, [.scheduleRestart id true]⟩
      | (.healthy _, _) => ⟨a.onProbe now id outcome, now, []⟩

/-- `maybe_probe`: a probe that cannot be made has failed. -/
def maybeProbeOpens (a : Agent) (now : Nanos) (id : String) : Opening :=
  match a.tasks.get? id with
  | none => ⟨a, now, []⟩
  | some e =>
    match (a.jobs.get? e.task.jobName).bind fun j => j.healthCheck with
    | none => ⟨a, now, []⟩
    | some hc =>
      if 0 < hc.initialTimeout ∧ now - e.task.startedAt < hc.initialTimeout then ⟨a, now, []⟩
      else match probeFor e.task hc a.settings.probeTimeout with
        | some probe => ⟨a.push (.probe id probe), now, []⟩
        | none => a.probeOpens now id (.tcp false)

/-- `on_status`: a task that is gone is restarted. -/
def statusOpens (a : Agent) (now : Nanos) (id : String) (status : Status) : Opening :=
  match a.tasks.get? id with
  | none => ⟨a, now, []⟩
  | some e =>
    if e.task.state ≠ .running then ⟨a, now, []⟩
    else match status with
      | .failed => ⟨a.crashed id e .stopping, now, [.scheduleRestart id true]⟩
      | .running => a.maybeProbeOpens now id

/-- An event up to its restarts. Only these five lead to any. -/
def opens (a : Agent) : Input → Opening
  | .run now job replace poolLargest => a.runOpens now job replace poolLargest
  | .onStarted now id driver result => a.startedOpens now id driver result
  | .onProbe now id outcome => a.probeOpens now id outcome
  | .onStatus now id status => a.statusOpens now id status
  | .tick now => ⟨a, now, (a.dueIds now).map .due⟩
  | i => ⟨a.feed i, 0, []⟩

/-- What an event does after its restarts. -/
def closes (a : Agent) : Input → Agent
  | .tick now => (a.monitorDue now).takeActions.2
  | _ => a

/-- An event with its restarts. -/
def feedIn (mem : ℕ → ℕ → Memory) (a : Agent) (i : Input) : Played :=
  let o := a.opens i
  let played := playAll o.now mem o.todo o.agent
  ⟨played.agent.closes i, played.chains⟩

end Agent

/-- The agents there can be: in any row of events, whatever memory there was for each, and after the
hand-over of tasks that another agent had. -/
inductive Lived : Agent → Prop
  | new (settings : Settings) : Lived (.new settings)
  | feed {a : Agent} (h : Lived a) (mem : ℕ → ℕ → Memory) (i : Input) : Lived (a.feedIn mem i).agent
  | adopt {a before : Agent} (h : Lived a) (hbefore : Lived before) (jobs : List Job)
      (tasks : List Task) (htasks : ∀ t ∈ tasks, ∃ t' ∈ before.taskList,
        t.restartCount = t'.restartCount) : Lived (a.adopt jobs tasks)

/-! ### No count is negative -/

namespace Agent.Nonneg

variable {a a' : Agent} {id : String}

theorem of_tasks (h : a.Nonneg) (htasks : a'.tasks = a.tasks) : a'.Nonneg := by
  rw [Agent.Nonneg, htasks]
  exact h

theorem push (h : a.Nonneg) (x : Action) : (a.push x).Nonneg := h

theorem modify (h : a.Nonneg) {f : Entry → Entry}
    (hf : ∀ e, 0 ≤ e.task.restartCount → 0 ≤ (f e).task.restartCount) :
    (a.modifyTask id f).Nonneg := by
  intro id' e' he'
  rw [modifyTask, SortedMap.get?_modify] at he'
  split_ifs at he'
  · obtain ⟨e, he, rfl⟩ := Option.map_eq_some_iff.mp he'
    exact hf e (h id' e he)
  · exact h id' e' he'

theorem forget (h : a.Nonneg) : (a.forget id).Nonneg := by
  intro id' e' he'
  rw [Agent.forget, SortedMap.get?_erase] at he'
  split_ifs at he'
  exact h id' e' he'

theorem insert (h : a.Nonneg) {task : Task} {firstStart : Bool} (htask : 0 ≤ task.restartCount) :
    (a.insertEntry task firstStart).Nonneg := by
  intro id' e' he'
  rw [insertEntry, SortedMap.get?_insert] at he'
  split_ifs at he'
  · rw [← Option.some.inj he']
    exact htask
  · exact h id' e' he'

theorem drops (h : a.Nonneg) {T : Set String} (hdrops : Drops T a a') : a'.Nonneg := by
  intro id' e' he'
  by_cases hid : id' ∈ T
  · rw [hdrops.gone hid] at he'
    cases he'
  · exact h id' e' (hdrops.kept hid ▸ he')

/-- A call of a chain makes no count negative. -/
theorem call (h : a.Nonneg) (now : Nanos) (mem : Memory) (t : Todo) :
    (a.call now mem t).1.Nonneg := by
  rcases t with id | id | id | ⟨id, ran⟩ | ⟨id, ran⟩ | id
  · exact h.modify fun _ he => he
  · rw [Agent.call]
    rcases a.tasks.get? id with - | e
    · exact h
    dsimp only
    rcases (a.jobs.get? e.task.jobName).bind (a.resolveIn mem) with - | job
    · exact h
    · dsimp only
      refine push (h.modify ?_) _
      exact fun _ he => he
  · rw [Agent.call]
    rcases a.tasks.get? id with - | e
    · exact h
    dsimp only
    split_ifs
    · refine push (h.modify ?_) _
      exact fun _ he => he
    · exact h.modify fun _ he => he
  · rw [Agent.call]
    rcases a.tasks.get? id with - | e
    · exact h
    · exact h.push _
  · rw [Agent.call]
    rcases hget : a.tasks.get? id with - | e
    · exact h
    dsimp only
    rcases a.jobs.get? e.task.jobName with - | job
    · exact h.forget
    dsimp only
    generalize (if 0 < job.restartWindow then job.restartWindow else defaultRestartWindow) = window
    generalize job.maxRestarts.getD defaultMaxRestarts = max₀
    -- the count of the record is the one before, or zero
    have hcount : 0 ≤ (failedNow e now window ran).task.restartCount := by
      rcases failedNow_count e now window ran with hcount | ⟨-, hcount⟩
      · rw [hcount]
        exact h id e hget
      · exact hcount.ge
    have hids : Agent.Nonneg { a with ids := a.ids.nextU64.2 } := h.of_tasks rfl
    split_ifs
    · exact hids.modify fun _ _ => hcount
    · exact hids.modify fun _ _ => hcount
    · exact hids.modify fun _ _ => hcount
  · rw [Agent.call]
    by_cases hdown : a.shuttingDown = true
    · rw [if_pos hdown]
      exact h
    rw [if_neg hdown]
    rcases hget : a.tasks.get? id with - | old
    · exact h
    dsimp only
    rcases a.jobs.get? old.task.jobName with - | job
    · exact h.forget
    dsimp only
    rcases a.resolveIn mem job with - | job'
    · exact h.modify fun _ he => he
    dsimp only
    have hids : (a.newTask now job).2.Nonneg := h.of_tasks rfl
    split_ifs
    · refine hids.forget.insert ?_
      have hold := h id old hget
      dsimp only
      rw [satI64, i64Min, i64Max]
      omega
    · exact hids
    · exact h

theorem finish (h : a.Nonneg) (now : Nanos) (mem : ℕ → Memory) (t : Todo) :
    (Chain.finish now mem a t).agent.Nonneg := by
  have hrun : ∀ n (c : Chain), c.agent.Nonneg → ((Chain.step now mem)^[n] c).agent.Nonneg := by
    intro n
    induction n with
    | zero => exact fun _ hc => hc
    | succ n ih =>
      intro c hc
      refine ih _ ?_
      rw [Chain.step]
      rcases c.todo with - | t
      · exact hc
      · exact hc.call now _ t
  exact hrun _ _ h

theorem playAll (h : a.Nonneg) (now : Nanos) (mem : ℕ → ℕ → Memory) (ts : List Todo) :
    (Node.playAll now mem ts a).agent.Nonneg := by
  induction ts generalizing a with
  | nil => exact h
  | cons t ts ih => exact ih (h.finish now _ t)

end Agent.Nonneg

namespace Agent

variable {a : Agent}

/-- The probe of a task that is not down after it. -/
theorem onProbe_nonneg (h : a.Nonneg) (now : Nanos) (id : String) (outcome : Outcome)
    {e : Entry} (hget : a.tasks.get? id = some e) {passed : Bool} {check : Check}
    (happly : e.check.apply (isHealthy outcome e.check) now
      (((a.jobs.get? e.task.jobName).bind fun j => j.healthCheck).elim 0
        fun hc => hc.failureThreshold) = (.healthy passed, check)) :
    (a.onProbe now id outcome).Nonneg := by
  rw [onProbe, hget]
  dsimp only
  split_ifs
  · exact h
  rw [happly]
  dsimp only
  split_ifs
  · refine Nonneg.push (h.modify ?_) _
    exact fun _ he => he
  · refine h.modify ?_
    exact fun _ he => he

theorem crashed_nonneg (h : a.Nonneg) (id : String) (e : Entry) (st : TaskState) :
    (a.crashed id e st).Nonneg := by
  refine Nonneg.push (h.modify ?_) _
  exact fun _ he => he

theorem probeOpens_nonneg (h : a.Nonneg) (now : Nanos) (id : String) (outcome : Outcome) :
    (a.probeOpens now id outcome).agent.Nonneg := by
  rw [probeOpens]
  rcases hget : a.tasks.get? id with - | e
  · exact h
  dsimp only
  split_ifs
  · exact h
  rcases happly : e.check.apply (isHealthy outcome e.check) now
    (((a.jobs.get? e.task.jobName).bind fun j => j.healthCheck).elim 0
      fun hc => hc.failureThreshold) with ⟨passed | -, check⟩
  · exact onProbe_nonneg h now id outcome hget happly
  · exact crashed_nonneg h id e .failed

theorem maybeProbeOpens_nonneg (h : a.Nonneg) (now : Nanos) (id : String) :
    (a.maybeProbeOpens now id).agent.Nonneg := by
  rw [maybeProbeOpens]
  rcases a.tasks.get? id with - | e
  · exact h
  dsimp only
  rcases (a.jobs.get? e.task.jobName).bind fun j => j.healthCheck with - | hc
  · exact h
  dsimp only
  split_ifs
  · exact h
  rcases probeFor e.task hc a.settings.probeTimeout with - | probe
  · exact probeOpens_nonneg h now id _
  · exact h.push _

theorem statusOpens_nonneg (h : a.Nonneg) (now : Nanos) (id : String) (status : Status) :
    (a.statusOpens now id status).agent.Nonneg := by
  rw [statusOpens]
  rcases a.tasks.get? id with - | e
  · exact h
  dsimp only
  split_ifs
  · exact h
  rcases status with - | -
  · exact maybeProbeOpens_nonneg h now id
  · exact crashed_nonneg h id e .stopping

theorem startedOpens_nonneg (h : a.Nonneg) (now : Nanos) (id : String) (driver : Driver)
    (result : Except StartError StartOk) :
    (a.startedOpens now id driver result).agent.Nonneg := by
  have hmark : (a.modifyTask id fun e => { e with starting := false }).Nonneg := by
    refine h.modify ?_
    exact fun _ he => he
  rcases result with (- | -) | ok
  · change (releaseUnplaceable _ id).Nonneg
    rw [releaseUnplaceable]
    rcases (a.modifyTask id fun e => { e with starting := false }).tasks.get? id with - | e
    · exact hmark
    · exact hmark.forget.push _
  · exact hmark
  · change (started _ now id driver ok).Nonneg
    rw [started]
    split_ifs
    · exact hmark.forget.push _
    rcases (a.modifyTask id fun e => { e with starting := false }).tasks.get? id with - | e
    · exact hmark
    · dsimp only
      refine Nonneg.push (hmark.modify ?_) _
      exact fun _ he => he

theorem prepared_nonneg (h : a.Nonneg) (job : Job) (replace : Bool) :
    (a.prepared job replace).Nonneg := by
  intro id e he
  rw [prepared_get?] at he
  obtain ⟨hget, -⟩ := Option.filter_eq_some_iff.mp he
  exact h id e hget

theorem runOpens_nonneg (h : a.Nonneg) (now : Nanos) (job : Job) (replace : Bool)
    (poolLargest : Option ℕ) : (a.runOpens now job replace poolLargest).agent.Nonneg := by
  rw [runOpens]
  rcases a.run_cases now job replace poolLargest with ⟨err, a', hrun, hsame⟩ | ⟨-, hrun⟩
  · rw [hrun]
    rcases hsame with rfl | ⟨why, rfl⟩
    · exact h
    · exact h.of_tasks (refuse_tasks a job.name why)
  · rw [hrun]
    refine Nonneg.insert ?_ le_rfl
    exact (prepared_nonneg h (normalized job) replace).of_tasks rfl

theorem rewriteJob_nonneg (h : a.Nonneg) (now : Nanos) (name : String) (f : Job → Job) :
    (a.rewriteJob now name f).2.Nonneg := by
  rw [rewriteJob]
  rcases a.jobs.get? name with - | old
  · exact h
  · exact h.of_tasks rfl

theorem syncJobs_tasks (updated : Nanos) (jobs : List Job) (a : Agent) :
    (syncJobs updated jobs a).2.tasks = a.tasks := by
  induction jobs generalizing a with
  | nil => rfl
  | cons job jobs ih =>
    rw [syncJobs]
    split_ifs
    · exact ih _
    · rfl

/-- The poll leaves the records alone. -/
theorem monitorDue_tasks (a : Agent) (now : Nanos) : (a.monitorDue now).tasks = a.tasks := by
  rw [monitorDue]
  split_ifs
  · obtain ⟨out, hout⟩ := monitor_eq { a with
      nextMonitor := satAdd u64Max now a.settings.monitorEvery }
    rw [hout]
  · rfl

/-- What an event does before its restarts makes no count negative. -/
theorem opens_nonneg (h : a.Nonneg) (i : Input) : (a.opens i).agent.Nonneg := by
  rcases i with ⟨now, job, replace, poolLargest⟩ | ⟨id, downloaded, total⟩ |
    ⟨now, id, driver, result⟩ | ⟨now, id, status⟩ | ⟨now, id, outcome⟩ | ⟨id, cores, core⟩ | now | - |
    id | name | ⟨now, name⟩ | - | - | ⟨now, job⟩ | ⟨now, job⟩ | ⟨now, name, priority⟩ |
    ⟨now, name, deploying⟩ | ⟨now, name⟩ | ⟨jobs, updated⟩ | addr | t | settings
  · exact runOpens_nonneg h now job replace poolLargest
  · refine h.modify fun e he => ?_
    split_ifs
    · exact he
    · exact he
  · exact startedOpens_nonneg h now id driver result
  · exact statusOpens_nonneg h now id status
  · exact probeOpens_nonneg h now id outcome
  · refine h.modify ?_
    exact fun _ he => he
  · exact h
  · exact h.of_tasks rfl
  · exact h.drops (removeAndStop_drops a id)
  · exact h.drops (stopEach_drops _ a)
  · refine Nonneg.push (Nonneg.drops ?_ (stopEach_drops _ _)) _
    exact h.of_tasks rfl
  · exact h.drops (stopEach_drops _ a)
  · refine Nonneg.drops ?_ (stopEach_drops _ _)
    exact h.of_tasks rfl
  · change (a.storeJob now job).2.Nonneg
    rw [storeJob]
    split_ifs
    · exact h.of_tasks rfl
    · exact h
  · change (a.updateJob now job).2.Nonneg
    rw [updateJob]
    rcases a.jobs.get? job.name with - | old
    · exact h
    · exact h.of_tasks rfl
  · exact rewriteJob_nonneg h now name _
  · exact rewriteJob_nonneg h now name _
  · exact h.of_tasks rfl
  · exact h.of_tasks (syncJobs_tasks updated jobs a)
  · exact h.of_tasks rfl
  · exact h.of_tasks rfl
  · exact h.of_tasks rfl

theorem closes_nonneg (h : a.Nonneg) (i : Input) : (a.closes i).Nonneg := by
  cases i with
  | tick now => exact Nonneg.of_tasks h (monitorDue_tasks a now)
  | _ => exact h

theorem feedIn_nonneg (h : a.Nonneg) (mem : ℕ → ℕ → Memory) (i : Input) :
    (a.feedIn mem i).agent.Nonneg :=
  closes_nonneg ((opens_nonneg h i).playAll _ mem _) i

theorem adopt_nonneg (h : a.Nonneg) (jobs : List Job) {tasks : List Task}
    (htasks : ∀ t ∈ tasks, 0 ≤ t.restartCount) : (a.adopt jobs tasks).Nonneg := by
  have hjobs : ∀ (jobs : List Job) (a : Agent), (adoptJobs jobs a).tasks = a.tasks := by
    intro jobs
    induction jobs with
    | nil => exact fun _ => rfl
    | cons job jobs ih =>
      intro a
      rw [adoptJobs]
      split_ifs
      · exact ih _
      · rfl
  have hall : ∀ a : Agent, a.Nonneg → (adoptTasks tasks a).Nonneg := by
    clear h
    induction tasks with
    | nil => exact fun _ h => h
    | cons task tasks ih =>
      intro a h
      rw [adoptTasks]
      split_ifs
      · exact ih (fun t ht => htasks t (List.mem_cons_of_mem _ ht)) _
          (h.insert (htasks task List.mem_cons_self))
      · exact h
  exact hall _ (h.of_tasks (hjobs jobs a))

end Agent

/-- **No count is negative**, in any life of an agent. -/
theorem Lived.nonneg {a : Agent} (h : Lived a) : a.Nonneg := by
  induction h with
  | new settings => exact fun _ _ he => nomatch he
  | feed h mem i ih => exact Agent.feedIn_nonneg ih mem i
  | adopt h hbefore jobs tasks htasks ih ihbefore =>
    refine Agent.adopt_nonneg ih jobs fun t ht => ?_
    obtain ⟨t', ht', hcount⟩ := htasks t ht
    obtain ⟨p, hp, rfl⟩ := List.mem_map.mp ht'
    rw [hcount]
    exact ihbefore p.1 p.2 (SortedMap.get?_eq_some_iff.mpr hp)

/-! ### What the chains of one event fire -/

/-- With no negative count a chain fires one restart at most. -/
theorem Todo.fires_le {a : Agent} (h : a.Nonneg) (t : Todo) : t.fires a ≤ 1 := by
  have htries : ∀ id, a.tries id ≤ 1 := by
    intro id
    rcases hget : a.tasks.get? id with - | e
    · rw [Agent.tries_of_none hget]
      exact Nat.zero_le 1
    · have hcount := h id e hget
      rw [Agent.tries_of_some hget]
      omega
  rcases t with id | id | id | ⟨id, ran⟩ | ⟨id, ran⟩ | id
  · exact max_le (htries id) le_rfl
  · exact htries id
  · exact htries id
  · rw [Todo.fires]
    split_ifs
    · exact max_le (htries id) le_rfl
    · exact htries id
  · rw [Todo.fires]
    split_ifs
    · exact max_le (htries id) le_rfl
    · exact htries id
  · exact max_le (htries id) le_rfl

/-- A call is about the task of the call before, or about the one that was put in its place. -/
theorem Agent.call_id (now : Nanos) (mem : Memory) (a : Agent) (t : Todo) :
    (∀ p, (a.call now mem t).2.2 = some p → p.1 = t.id) ∧
      ((a.call now mem t).2.2 = none → ∀ t', (a.call now mem t).2.1 = some t' → t'.id = t.id) := by
  have hend : (∀ p, (none : Option (String × String)) = some p → p.1 = t.id) ∧
      ((none : Option (String × String)) = none → ∀ t', (none : Option Todo) = some t' → t'.id = t.id) :=
    ⟨fun _ hp => (by cases hp), fun _ _ ht' => (by cases ht')⟩
  have hnext : ∀ u : Todo, u.id = t.id → (∀ p, (none : Option (String × String)) = some p → p.1 = t.id) ∧
      ((none : Option (String × String)) = none → ∀ t', some u = some t' → t'.id = t.id) :=
    fun u hu => ⟨fun _ hp => (by cases hp), fun _ t' ht' => Option.some.inj ht' ▸ hu⟩
  rcases t with id | id | id | ⟨id, ran⟩ | ⟨id, ran⟩ | id
  · exact hnext _ rfl
  · rw [Agent.call]
    rcases a.tasks.get? id with - | e
    · exact hend
    dsimp only
    rcases (a.jobs.get? e.task.jobName).bind (a.resolveIn mem) with - | job
    · exact hnext _ rfl
    · exact hend
  · rw [Agent.call]
    rcases a.tasks.get? id with - | e
    · exact hend
    · exact hnext _ rfl
  · exact hnext _ rfl
  · rw [Agent.call]
    rcases a.tasks.get? id with - | e
    · exact hend
    dsimp only
    rcases a.jobs.get? e.task.jobName with - | job
    · exact hend
    dsimp only
    generalize (if 0 < job.restartWindow then job.restartWindow else defaultRestartWindow) = window
    generalize job.maxRestarts.getD defaultMaxRestarts = max₀
    split_ifs
    · exact ⟨fun _ hp => (by cases hp), fun _ _ ht' => (by cases ht')⟩
    · exact ⟨fun _ hp => (by cases hp), fun _ _ ht' => (by cases ht')⟩
    · exact ⟨fun _ hp => (by cases hp), fun _ t' ht' => Option.some.inj ht' ▸ rfl⟩
  · rw [Agent.call]
    by_cases hdown : a.shuttingDown = true
    · rw [if_pos hdown]
      exact hend
    rw [if_neg hdown]
    rcases a.tasks.get? id with - | old
    · exact hend
    dsimp only
    rcases a.jobs.get? old.task.jobName with - | job
    · exact hend
    dsimp only
    rcases a.resolveIn mem job with - | job'
    · exact hend
    dsimp only
    split_ifs
    · exact ⟨fun p hp => Option.some.inj hp ▸ rfl, fun hnone => (by cases hnone)⟩
    · exact ⟨fun _ hp => (by cases hp), fun _ _ ht' => (by cases ht')⟩
    · exact ⟨fun _ hp => (by cases hp), fun _ _ ht' => (by cases ht')⟩

namespace Chain

/-- A chain is about one task until it fires that one. -/
def Rooted (id : String) (c : Chain) : Prop :=
  (c.fired = [] ∧ ∀ t, c.todo = some t → t.id = id) ∨ ∃ p ps, c.fired = p :: ps ∧ p.1 = id

theorem Rooted.step {id : String} {c : Chain} (h : c.Rooted id) (now : Nanos) (mem : ℕ → Memory) :
    (c.step now mem).Rooted id := by
  rcases htodo : c.todo with - | t
  · rw [step_of_none htodo]
    exact h
  obtain ⟨hfires, hnext⟩ := Agent.call_id now (mem c.calls) c.agent t
  rw [Chain.step, htodo]
  rcases h with ⟨hnil, hid⟩ | ⟨p, ps, hfired, hp⟩
  · have ht := hid t htodo
    dsimp only
    rcases hcall : (c.agent.call now (mem c.calls) t).2.2 with - | p
    · refine .inl ⟨?_, fun t' ht' => (hnext hcall t' ht').trans ht⟩
      rw [hnil]
      rfl
    · refine .inr ⟨p, [], ?_, (hfires p hcall).trans ht⟩
      rw [hnil]
      rfl
  · refine .inr ⟨p, ps ++ (c.agent.call now (mem c.calls) t).2.2.toList, ?_, hp⟩
    dsimp only
    rw [hfired, List.cons_append]

theorem finish_rooted (now : Nanos) (mem : ℕ → Memory) (a : Agent) (t : Todo) :
    (finish now mem a t).Rooted t.id := by
  have hrun : ∀ n (c : Chain), c.Rooted t.id → ((Chain.step now mem)^[n] c).Rooted t.id := by
    intro n
    induction n with
    | zero => exact fun _ hc => hc
    | succ n ih => exact fun c hc => ih _ (hc.step now mem)
  exact hrun _ _ (.inl ⟨rfl, fun t' ht' => Option.some.inj ht' ▸ rfl⟩)

/-- The tasks that a chain fires: its own, or none. -/
theorem finish_fired {a : Agent} (h : a.Nonneg) (now : Nanos) (mem : ℕ → Memory) (t : Todo) :
    ((finish now mem a t).fired.map Prod.fst).Sublist [t.id] := by
  have hlength := (finish_spec now mem a t).2.trans (Todo.fires_le h t)
  rcases finish_rooted now mem a t with ⟨hnil, -⟩ | ⟨p, ps, hfired, hp⟩
  · rw [hnil]
    exact List.nil_sublist _
  · rw [hfired, List.length_cons] at hlength
    obtain rfl : ps = [] := List.length_eq_zero_iff.mp (by omega)
    rw [hfired, List.map_singleton, hp]

end Chain

/-- Every chain of an event ends, and the tasks that they fire are among those they began with. -/
theorem playAll_spec {a : Agent} (h : a.Nonneg) (now : Nanos) (mem : ℕ → ℕ → Memory)
    (ts : List Todo) :
    (∀ c ∈ (playAll now mem ts a).chains, c.todo = none ∧ c.fired.length ≤ 1) ∧
      (((playAll now mem ts a).chains.flatMap Chain.fired).map Prod.fst).Sublist (ts.map Todo.id) := by
  induction ts generalizing a with
  | nil => exact ⟨nofun, List.Sublist.refl []⟩
  | cons t ts ih =>
    obtain ⟨hends, hfired⟩ := ih (h.finish now (mem ts.length) t)
    obtain ⟨hend, hlength⟩ := Chain.finish_spec now (mem ts.length) a t
    refine ⟨fun c hc => ?_, ?_⟩
    · rcases List.mem_cons.mp hc with rfl | hc
      · exact ⟨hend, hlength.trans (Todo.fires_le h t)⟩
      · exact hends c hc
    · rw [playAll, List.flatMap_cons, List.map_append]
      exact (Chain.finish_fired h now (mem ts.length) t).append hfired

/-- The chains of an event begin with different tasks. -/
theorem Agent.opens_nodup (a : Agent) (i : Input) : ((a.opens i).todo.map Todo.id).Nodup := by
  have hprobe : ∀ (now : Nanos) (id : String) (outcome : Outcome),
      ((a.probeOpens now id outcome).todo.map Todo.id).Nodup := by
    intro now id outcome
    rw [probeOpens]
    rcases a.tasks.get? id with - | e
    · exact List.nodup_nil
    dsimp only
    split_ifs
    · exact List.nodup_nil
    rcases e.check.apply (isHealthy outcome e.check) now _ with ⟨passed | -, check⟩
    · exact List.nodup_nil
    · exact List.nodup_singleton id
  cases i with
  | run now job replace poolLargest =>
    change ((a.runOpens now job replace poolLargest).todo.map Todo.id).Nodup
    rw [runOpens]
    rcases a.run now job replace poolLargest with ⟨err | id, a'⟩
    · exact List.nodup_nil
    · exact List.nodup_singleton _
  | onStarted now id driver result =>
    rcases result with (- | -) | ok
    · exact List.nodup_nil
    · exact List.nodup_singleton id
    · exact List.nodup_nil
  | onProbe now id outcome => exact hprobe now id outcome
  | onStatus now id status =>
    change ((a.statusOpens now id status).todo.map Todo.id).Nodup
    rw [statusOpens]
    rcases a.tasks.get? id with - | e
    · exact List.nodup_nil
    dsimp only
    split_ifs
    · exact List.nodup_nil
    rcases status with - | -
    · dsimp only
      rw [maybeProbeOpens]
      rcases a.tasks.get? id with - | e
      · exact List.nodup_nil
      dsimp only
      rcases (a.jobs.get? e.task.jobName).bind fun j => j.healthCheck with - | hc
      · exact List.nodup_nil
      dsimp only
      split_ifs
      · exact List.nodup_nil
      rcases probeFor e.task hc a.settings.probeTimeout with - | probe
      · exact hprobe now id _
      · exact List.nodup_nil
    · exact List.nodup_singleton id
  | tick now =>
    change (((a.dueIds now).map Todo.due).map Todo.id).Nodup
    rw [List.map_map]
    exact (List.map_id (a.dueIds now)).symm ▸ a.dueIds_nodup now
  | _ => exact List.nodup_nil

/-! ### With memory for everything -/

namespace Agent

open Chain (outcome)

variable {a : Agent}

theorem outcome_crash (h : a.Nonneg) (now : Nanos) (id : String) (ran : Bool) :
    outcome now a (.scheduleRestart id ran) =
      scheduleRestart (beginStart startRounds) a now id ran :=
  (outcome_scheduleRestart a now id ran).trans (scheduleRestart_begins (h id) ran 1)

/-- The restarts that are due, one after the other. -/
theorem playAll_due (h : a.Nonneg) (now : Nanos) (ids : List String) :
    (playAll now (fun _ _ => .plenty) (ids.map .due) a).agent = ids.foldl (fireDue now) a := by
  induction ids generalizing a with
  | nil => rfl
  | cons id ids ih =>
    have hmark : (a.modifyTask id fun e => { e with restartAt := none }).Nonneg := by
      refine h.modify ?_
      exact fun _ he => he
    have hone : outcome now a (.due id) = fireDue now a id :=
      (outcome_due a now id).trans (restartFire_begins (hmark id) 1)
    rw [List.foldl_cons, ← hone]
    exact ih (h.finish now _ (.due id))

theorem run_plenty (h : a.Nonneg) (now : Nanos) (job : Job) (replace : Bool)
    (poolLargest : Option ℕ) :
    (a.feedIn (fun _ _ => .plenty) (.run now job replace poolLargest)).agent =
      a.feed (.run now job replace poolLargest) := by
  have hopen := runOpens_nonneg h now job replace poolLargest
  rw [feedIn, opens, feed]
  rcases a.run_cases now job replace poolLargest with ⟨err, a', hrun, -⟩ | ⟨-, hrun⟩
  · rw [runOpens, hrun]
    rfl
  · rw [runOpens, hrun] at hopen ⊢
    rw [takeOn_eq]
    exact begins_eq_start (hopen _)

theorem onStarted_plenty (h : a.Nonneg) (now : Nanos) (id : String) (driver : Driver)
    (result : Except StartError StartOk) :
    (a.feedIn (fun _ _ => .plenty) (.onStarted now id driver result)).agent =
      a.feed (.onStarted now id driver result) := by
  have hopen := startedOpens_nonneg h now id driver result
  rcases result with (- | -) | ok
  · rfl
  · exact (outcome_startFailed _ now id).trans (startFailed_begins (hopen id) 1)
  · rfl

theorem onProbe_plenty (h : a.Nonneg) (now : Nanos) (id : String) (outcome : Outcome) :
    (playAll (a.probeOpens now id outcome).now (fun _ _ => .plenty)
      (a.probeOpens now id outcome).todo (a.probeOpens now id outcome).agent).agent =
      a.onProbe now id outcome := by
  rw [probeOpens, onProbe]
  rcases a.tasks.get? id with - | e
  · rfl
  dsimp only
  split_ifs
  · rfl
  rcases e.check.apply (isHealthy outcome e.check) now
    (((a.jobs.get? e.task.jobName).bind fun j => j.healthCheck).elim 0
      fun hc => hc.failureThreshold) with ⟨passed | -, check⟩
  · rfl
  · exact outcome_crash (crashed_nonneg h id e .failed) now id true

theorem maybeProbe_plenty (h : a.Nonneg) (now : Nanos) (id : String) :
    (playAll (a.maybeProbeOpens now id).now (fun _ _ => .plenty) (a.maybeProbeOpens now id).todo
      (a.maybeProbeOpens now id).agent).agent = a.maybeProbe now id := by
  rw [maybeProbeOpens, maybeProbe]
  rcases a.tasks.get? id with - | e
  · rfl
  dsimp only
  rcases (a.jobs.get? e.task.jobName).bind fun j => j.healthCheck with - | hc
  · rfl
  dsimp only
  split_ifs
  · rfl
  rcases probeFor e.task hc a.settings.probeTimeout with - | probe
  · exact onProbe_plenty h now id (.tcp false)
  · rfl

theorem onStatus_plenty (h : a.Nonneg) (now : Nanos) (id : String) (status : Status) :
    (a.feedIn (fun _ _ => .plenty) (.onStatus now id status)).agent =
      a.feed (.onStatus now id status) := by
  rw [feedIn, opens, feed, statusOpens, onStatus]
  rcases a.tasks.get? id with - | e
  · rfl
  dsimp only
  split_ifs
  · rfl
  rcases status with - | -
  · exact maybeProbe_plenty h now id
  · exact outcome_crash (crashed_nonneg h id e .stopping) now id true

/-- With memory for everything an event does what the model with its bounded rounds does. -/
theorem feedIn_plenty (h : a.Nonneg) (i : Input) :
    (a.feedIn (fun _ _ => .plenty) i).agent = a.feed i := by
  cases i with
  | run now job replace poolLargest => exact run_plenty h now job replace poolLargest
  | onStarted now id driver result => exact onStarted_plenty h now id driver result
  | onProbe now id outcome => exact onProbe_plenty h now id outcome
  | onStatus now id status => exact onStatus_plenty h now id status
  | tick now =>
    exact congrArg (fun b : Agent => (b.monitorDue now).takeActions.2)
      (playAll_due h now (a.dueIds now))
  | _ => rfl

end Agent

/-- **The restarts of an event end.** In any life of an agent, whatever the job, the event and the
memory there is for each call: every chain of calls comes to its end and fires one restart at most,
and no task is fired twice by one event. With memory for everything the event does what the agent
with a bound on its rounds does. -/
theorem restarts_end {a : Agent} (h : Lived a) (mem : ℕ → ℕ → Memory) (i : Input) :
    (∀ c ∈ (a.feedIn mem i).chains, c.todo = none ∧ c.fired.length ≤ 1) ∧
      (((a.feedIn mem i).chains.flatMap Chain.fired).map Prod.fst).Nodup ∧
      (a.feedIn (fun _ _ => .plenty) i).agent = a.feed i := by
  obtain ⟨hends, hfired⟩ := playAll_spec (Agent.opens_nonneg h.nonneg i) (a.opens i).now mem
    (a.opens i).todo
  exact ⟨hends, hfired.nodup (a.opens_nodup i), Agent.feedIn_plenty h.nonneg i⟩

/-- A node that starts a job without a limit to its restarts. -/
def hopeful : Agent :=
  (Agent.feedIn (fun _ _ => .plenty) (.new { id := "node" })
    (.run 0 { name := "web", command := "web", maxRestarts := some (-1) } false none)).agent

/-- Its command cannot start: one chain, with one restart at once. -/
theorem restarts_end_hopeful :
    ((hopeful.feedIn (fun _ _ => .plenty) (.onStarted 0 (Agent.new { id := "node" }).ids.id.1 .exec
      (.error .failed))).chains.map fun c => (c.fired.length, c.calls)) = [(1, 5)] ∧
    (((hopeful.feedIn (fun _ _ => .plenty) (.onStarted 0 (Agent.new { id := "node" }).ids.id.1 .exec
      (.error .failed))).chains.flatMap Chain.fired).map Prod.fst).Nodup :=
  ⟨by decide, (restarts_end (.feed (.new _) _ _) _ _).2.1⟩

end Hop.Node
