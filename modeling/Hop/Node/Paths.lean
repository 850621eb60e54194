import Hop.Node.Records
import Hop.Node.Turn

/-!
# Every input is a row of turns

The functions of the agent, one by one, as turns of its records (`path_feed`). A crash that
restarts at once is one turn: the chain of `begin_start`, `start_failed`, `schedule_restart`,
`restart_decide` and `restart_fire` is followed here and nowhere else.
-/

namespace Hop.Node

open SortedMap (get?_insert_self insert_insert_self erase_insert_self modify_of_some insert_erase_self)
open Hop.Types (Driver Job Map Task TaskState)

variable {a : Agent} {e : Entry} {kind : Kind} {acts : List Action}

/-! ### What a failure leaves -/

/-- How often the tasks of a job may be restarted; without a limit if negative. -/
def maxOf (job : Job) : ℤ := job.maxRestarts.getD defaultMaxRestarts

/-- The uptime after which a task has earned a new budget. -/
def windowOf (job : Job) : Nanos :=
  if 0 < job.restartWindow then job.restartWindow else defaultRestartWindow

/-- Whether a task with this count may be restarted. -/
def Allows (job : Job) (count : ℤ) : Prop := ¬ (0 ≤ maxOf job ∧ maxOf job ≤ count)

/-- The count that a failure is judged by. -/
def judged (job : Job) (now : Nanos) (ran : Bool) (e : Entry) : ℤ :=
  (Agent.failedNow e now (windowOf job) ran).task.restartCount

/-- The failure lowers the count only if the task ran for longer than the window. -/
theorem judged_cases (job : Job) (now : Nanos) (ran : Bool) (e : Entry) :
    judged job now ran e = e.task.restartCount ∨
    judged job now ran e = 0 ∧ ran = true ∧ windowOf job < now - e.task.startedAt := by
  rw [judged, Agent.failedNow]
  dsimp only
  split_ifs with hearned
  · rw [Bool.and_eq_true, Bool.and_eq_true, decide_eq_true_eq, decide_eq_true_eq] at hearned
    exact .inr ⟨rfl, hearned.1.1, hearned.2⟩
  · exact .inl rfl

/-- The record of a task that failed: it has failed for good, or waits for its restart. -/
structure Down (job : Job) (now : Nanos) (ran : Bool) (e e' : Entry) : Prop where
  jobName : e'.task.jobName = e.task.jobName
  count : e'.task.restartCount = judged job now ran e
  failedAt : e'.task.lastFailedAt = now
  state : e'.task.state ≠ .running
  restartAt : ∀ t, e'.restartAt = some t → Allows job (judged job now ran e) ∧
    if 0 < judged job now ran e then
      ∃ rand, t = satAdd u64Max now (restartDelay (judged job now ran e) rand)
    else e.restartAt = some t

/-- The record of a new task that takes the place of another. -/
structure Renewed (base : ℤ) (failedAt : Nanos) (e e' : Entry) : Prop where
  jobName : e'.task.jobName = e.task.jobName
  count : e'.task.restartCount = satI64 (base + 1)
  failedAt : e'.task.lastFailedAt = failedAt
  state : e'.task.state ≠ .running
  restartAt : e'.restartAt = none

namespace Agent

/-! ### The chain of a restart -/

/-- The start of a new record whose job can run here. -/
theorem beginStart_insertEntry (a : Agent) (task : Task) {job job' : Job} (firstStart : Bool)
    (hjob : a.jobs.get? task.jobName = some job) (hres : a.resolveJobForRun job = .ok job')
    (rounds : ℕ) (now : Nanos) :
    beginStart (rounds + 1) (a.insertEntry task firstStart) now task.id = { a with
      tasks := a.tasks.insert task.id { task := task, firstStart := firstStart, starting := true }
      out := a.out ++ [.start task.id job'] } := by
  have hget : (a.insertEntry task firstStart).tasks.get? task.id =
      some { task := task, firstStart := firstStart } := get?_insert_self _ _ _
  rw [beginStart_of_ready job job' hget hjob hres]
  unfold modifyTask push insertEntry
  dsimp only
  rw [modify_of_some (get?_insert_self _ _ _), insert_insert_self]

/-- What firing the restart of the record `e` does. -/
inductive Fired (a : Agent) (id : String) (e : Entry) : Agent → Prop
  | halted (h : a.shuttingDown = true) : Fired a id e a
  | lost (hjob : a.jobs.get? e.task.jobName = none) : Fired a id e (a.forget id)
  | failed : Fired a id e
      { a with tasks := a.tasks.insert id { e with task := { e.task with state := .failed } } }
  | again (job job' : Job) (task : Task) (hjob : a.jobs.get? e.task.jobName = some job)
      (hres : a.resolveJobForRun job = .ok job') (hnew : Newborn job a.ids.id.1 task)
      (hrenewed : Renewed e.task.restartCount e.task.lastFailedAt e
        { task := task, firstStart := false, starting := true }) :
      Fired a id e { a with
        ids := a.ids.id.2
        tasks := (a.tasks.erase id).insert a.ids.id.1
          { task := task, firstStart := false, starting := true }
        out := a.out ++ [.start a.ids.id.1 job'] }

theorem restartFire_fired (hk : a.Keyed) {id : String} (he : a.tasks.get? id = some e) (rounds : ℕ)
    (now : Nanos) :
    Fired a id e (restartFire (beginStart (rounds + 1)) a now id) := by
  unfold restartFire
  by_cases hdown : a.shuttingDown = true
  · rw [if_pos hdown]
    exact .halted hdown
  rw [if_neg hdown, he]
  dsimp only
  cases hjob : a.jobs.get? e.task.jobName with
  | none => exact .lost hjob
  | some job =>
    dsimp only
    cases hres : a.resolveJobForRun job with
    | error why =>
      dsimp only
      unfold modifyTask
      rw [modify_of_some he]
      exact .failed
    | ok job' =>
      have hborn : ∀ task : Task, Newborn job a.ids.id.1 task →
          task.restartCount = satI64 (e.task.restartCount + 1) →
          task.lastFailedAt = e.task.lastFailedAt → Fired a id e (beginStart (rounds + 1)
          (({ a with ids := a.ids.id.2 }.forget id).insertEntry task false) now task.id) := by
        intro task hnew hcount hfailed
        have hname : a.jobs.get? task.jobName = some job := by rw [hnew.jobName, hk _ _ hjob, hjob]
        rw [beginStart_insertEntry (forget { a with ids := a.ids.id.2 } id) task false hname hres,
          hnew.id]
        exact .again job job' task hjob hres hnew
          ⟨hnew.jobName.trans (hk _ _ hjob), hcount, hfailed, by simp [hnew.state], rfl⟩
      exact hborn _ ⟨rfl, rfl, rfl, rfl, rfl, rfl⟩ rfl rfl

/-- What becomes of a record that crashed: it is lost with its job, it stays (failed, or waiting
for its restart), or it is fired again. -/
inductive Decided (a : Agent) (id : String) (e : Entry) (now : Nanos) (ran : Bool) : Agent → Prop
  | lost (hjob : a.jobs.get? e.task.jobName = none) : Decided a id e now ran (a.forget id)
  | stays (job : Job) (st : TaskState) (nextAt : Nanos) (restartAt : Option Nanos)
      (hjob : a.jobs.get? e.task.jobName = some job)
      (hst : st = .failed ∨ st = e.task.state ∧ (restartAt.isSome = true ∨ a.shuttingDown = true))
      (hallows : restartAt.isSome = true → Allows job (judged job now ran e))
      (hat : restartAt = none ∨ if 0 < judged job now ran e then ∃ rand,
        restartAt = some (satAdd u64Max now (restartDelay (judged job now ran e) rand))
        else restartAt = e.restartAt) :
      Decided a id e now ran { a with
        ids := a.ids.nextU64.2
        tasks := a.tasks.insert id { e with
          task := { e.task with
            state := st, restartCount := judged job now ran e, lastFailedAt := now
            nextRestartAt := nextAt }
          restartAt := restartAt } }
  | again (job job' : Job) (task : Task) (hjob : a.jobs.get? e.task.jobName = some job)
      (hres : a.resolveJobForRun job = .ok job') (hnew : Newborn job a.ids.nextU64.2.id.1 task)
      (hzero : judged job now ran e ≤ 0) (hallows : Allows job (judged job now ran e))
      (hrenewed : Renewed (judged job now ran e) now e
        { task := task, firstStart := false, starting := true }) :
      Decided a id e now ran { a with
        ids := a.ids.nextU64.2.id.2
        tasks := (a.tasks.erase id).insert a.ids.nextU64.2.id.1
          { task := task, firstStart := false, starting := true }
        out := a.out ++ [.start a.ids.nextU64.2.id.1 job'] }

theorem restartDecide_decided (hk : a.Keyed) {id : String} (he : a.tasks.get? id = some e)
    (rounds : ℕ) (now : Nanos) (ran : Bool) :
    Decided a id e now ran (restartDecide (beginStart (rounds + 1)) a now id ran) := by
  unfold restartDecide
  rw [he]
  dsimp only
  cases hjob : a.jobs.get? e.task.jobName with
  | none => exact .lost hjob
  | some job =>
    dsimp only
    have hset : ∀ f : Entry, ({ a with ids := a.ids.nextU64.2 }.modifyTask id fun _ => f) =
        { a with ids := a.ids.nextU64.2, tasks := a.tasks.insert id f } := by
      intro f
      unfold modifyTask
      rw [modify_of_some he]
    rw [hset, hset, hset]
    change Decided a id e now ran (if 0 ≤ maxOf job ∧ maxOf job ≤ judged job now ran e then _
      else if 0 < judged job now ran e then _ else restartFire (beginStart (rounds + 1)) { a with
        ids := a.ids.nextU64.2
        tasks := a.tasks.insert id (failedNow e now (windowOf job) ran) } now id)
    by_cases hgive : 0 ≤ maxOf job ∧ maxOf job ≤ judged job now ran e
    · rw [if_pos hgive]
      exact .stays job .failed _ none hjob (.inl rfl) (fun h => nomatch h) (.inl rfl)
    rw [if_neg hgive]
    by_cases hwait : 0 < judged job now ran e
    · rw [if_pos hwait]
      refine .stays job e.task.state _ (some _) hjob (.inr ⟨rfl, .inl rfl⟩) (fun _ => hgive) (.inr ?_)
      rw [if_pos hwait]
      exact ⟨_, rfl⟩
    · rw [if_neg hwait]
      -- the restart is fired at once
      have hat : e.restartAt = none ∨ if 0 < judged job now ran e then ∃ rand,
          e.restartAt = some (satAdd u64Max now (restartDelay (judged job now ran e) rand))
          else e.restartAt = e.restartAt := .inr (by rw [if_neg hwait])
      have hfired := restartFire_fired (a := { a with
        ids := a.ids.nextU64.2, tasks := a.tasks.insert id (failedNow e now (windowOf job) ran) })
        (by exact hk) (get?_insert_self _ _ _) rounds now
      generalize restartFire (beginStart (rounds + 1)) _ now id = a' at hfired
      cases hfired with
      | halted h =>
        exact .stays job e.task.state _ e.restartAt hjob (.inr ⟨rfl, .inr h⟩) (fun _ => hgive) hat
      | lost hlost =>
        change a.jobs.get? e.task.jobName = none at hlost
        rw [hjob] at hlost
        cases hlost
      | failed =>
        dsimp only
        rw [insert_insert_self]
        exact .stays job .failed _ e.restartAt hjob (.inl rfl) (fun _ => hgive) hat
      | again job₁ job' task hjob₁ hres hnew hrenewed =>
        dsimp only
        rw [erase_insert_self]
        obtain rfl : job = job₁ := Option.some.inj (hjob.symm.trans hjob₁)
        exact .again job job' task hjob hres hnew (not_lt.mp hwait) hgive ⟨hrenewed.jobName,
          hrenewed.count, hrenewed.failedAt, hrenewed.state, hrenewed.restartAt⟩

/-- **A crash is one turn**: the record goes down, is fired again or is lost. -/
theorem crash_turns (Q : Prop) (hk : a.Keyed) {id : String} (he : a.tasks.get? id = some e)
    {st : TaskState} (hst : st = .failed ∨ st = .stopping) (check : Check) (starting : Bool)
    (hkind : GoesDown kind e starting) (quiet : List Action)
    (hquiet : ∀ x ∈ quiet, x.isOrder = false) (rounds : ℕ) (now : Nanos) (ran : Bool) :
    ∃ kind' post acts, kind' ∈ [kind, .again, .lost] ∧ TurnsAt Q id kind' a
      (scheduleRestart (beginStart (rounds + 1)) { a with
        tasks := a.tasks.insert id { e with
          task := { e.task with state := st }, check := check, starting := starting }
        out := a.out ++ quiet } now id ran) post acts := by
  unfold scheduleRestart
  dsimp only
  rw [get?_insert_self]
  dsimp only
  have hdecided := restartDecide_decided (a := push { a with
      tasks := a.tasks.insert id { e with
        task := { e.task with state := st }, check := check, starting := starting }
      out := a.out ++ quiet } (stopAction { e.task with state := st }))
    (by exact hk) (get?_insert_self _ _ _) rounds now ran
  have hstop : ∀ rest, Stops e.task (quiet ++ [stopAction { e.task with state := st }] ++ rest) := by
    intro rest
    refine ⟨driverOf e.task, List.mem_append_left _ (List.mem_append_right _ ?_)⟩
    exact List.mem_singleton_self _
  have hstart : startIds (quiet ++ [stopAction { e.task with state := st }]) = [] := by
    rw [startIds_append, startIds_of_quiet hquiet]
    rfl
  generalize restartDecide (beginStart (rounds + 1)) _ now id ran = a' at hdecided
  cases hdecided with
  | lost hjob =>
    refine ⟨.lost, none, quiet ++ [stopAction { e.task with state := st }], by simp, ?_, ?_,
      rfl, rfl, rfl, rfl, le_refl _, List.append_assoc _ _ _⟩
    · rw [he]
      exact .lost e _ hjob hstart (.inl (by simpa using hstop []))
    · exact erase_insert_self _ _ _
  | stays job st' nextAt restartAt hjob hst' hallows hat =>
    refine ⟨kind, ?post, quiet ++ [stopAction { e.task with state := st }], by simp, ?turn, ?tasks,
      rfl, rfl, rfl, rfl, Nat.le_succ _, List.append_assoc _ _ _⟩
    case turn =>
      rw [he]
      refine .down kind e st' (judged job now ran { e with
        task := { e.task with state := st }, check := check, starting := starting })
        now nextAt check restartAt starting _ hkind ?_
        (by simpa using hstop []) hstart
      rcases hst' with hst' | ⟨hst', hat'⟩
      · exact .inl hst'
      · rcases hst with rfl | rfl
        · exact .inl hst'
        · exact .inr ⟨hst', hat'⟩
    case tasks =>
      refine (insert_insert_self _ _ _ _).trans ?_
      exact (insert_erase_self _ _ _).symm
  | again job job' task hjob hres hnew =>
    refine ⟨.again, ?record, quiet ++ [stopAction { e.task with state := st }] ++
      [.start a.ids.nextU64.2.id.1 job'], by simp, ?turn, ?tasks, rfl, rfl, rfl, rfl,
      (Nat.le_succ _).trans (Nat.le_succ _), ?out⟩
    case turn =>
      rw [he]
      have hjob' : a.jobs.get? e.task.jobName = some job := hjob
      have hnew' : Newborn job a.ids.nextU64.2.id.1 task := hnew
      refine .again e job (a.ids.draws + 2) _ task _ hjob' ?_ hnew' ?_ (.inl (hstop _))
      · exact ⟨Nat.lt_add_of_pos_right (by decide), le_refl _, rfl⟩
      · rw [startIds_append, hstart]
        rfl
    case tasks => exact congrArg (fun m : Map Entry => m.insert _ _) (erase_insert_self _ _ _)
    case out => simp only [push, List.append_assoc]

/-! ### The answer to a start -/

section

variable {a : Agent} {id : String}

/-- A record is edited, and actions are asked for. -/
theorem turnsAt_insert {Q : Prop}
    (h : Turn Q a { a with tasks := a.tasks.insert id e, out := a.out ++ acts } id kind
      (a.tasks.get? id) (some (id, e)) acts) :
    TurnsAt Q id kind a { a with tasks := a.tasks.insert id e, out := a.out ++ acts }
      (some (id, e)) acts :=
  ⟨h, (insert_erase_self _ _ _).symm, rfl, rfl, rfl, rfl, le_refl _, rfl⟩

/-- A record is put in, ids are drawn, and actions are asked for. -/
theorem turnsAt_new {Q : Prop} {drawn : Ids} (hseed : drawn.seed = a.ids.seed)
    (hle : a.ids.draws ≤ drawn.draws)
    (h : Turn Q a { a with ids := drawn, tasks := a.tasks.insert id e, out := a.out ++ acts } id
      kind (a.tasks.get? id) (some (id, e)) acts) :
    TurnsAt Q id kind a { a with ids := drawn, tasks := a.tasks.insert id e, out := a.out ++ acts }
      (some (id, e)) acts :=
  ⟨h, (insert_erase_self _ _ _).symm, rfl, rfl, rfl, hseed, hle, rfl⟩

/-- A record is edited. -/
theorem turnsAt_edit {Q : Prop}
    (h : Turn Q a { a with tasks := a.tasks.insert id e } id kind (a.tasks.get? id) (some (id, e)) []) :
    TurnsAt Q id kind a { a with tasks := a.tasks.insert id e } (some (id, e)) [] :=
  ⟨h, (insert_erase_self _ _ _).symm, rfl, rfl, rfl, rfl, le_refl _,
    (List.append_nil _).symm⟩

/-- A record is taken away, and actions are asked for. -/
theorem turnsAt_erase {Q : Prop}
    (h : Turn Q a { a with tasks := a.tasks.erase id, out := a.out ++ acts } id kind
      (a.tasks.get? id) none acts) :
    TurnsAt Q id kind a { a with tasks := a.tasks.erase id, out := a.out ++ acts } none acts :=
  ⟨h, rfl, rfl, rfl, rfl, rfl, le_refl _, rfl⟩

theorem modifyTask_of_none (h : a.tasks.get? id = none) (f : Entry → Entry) :
    a.modifyTask id f = a := by
  unfold modifyTask
  rw [SortedMap.modify_of_none h]

theorem modifyTask_of_some (h : a.tasks.get? id = some e) (f : Entry → Entry) :
    a.modifyTask id f = { a with tasks := a.tasks.insert id (f e) } := by
  unfold modifyTask
  rw [modify_of_some h]

end

section

variable (Q : Prop) (a : Agent) (id : String)

/-- A start that worked: the task is up, or it is stopped at once. -/
theorem onStarted_ok_turns (now : Nanos) (driver : Driver) (ok : StartOk) :
    ∃ kind post acts, kind ∈ [Kind.up, .ghost, .dead] ∧
      TurnsAt Q id kind a (a.onStarted now id driver (.ok ok)) post acts ∧
      ((∃ e, post = some (id, e) ∧ e.task.state = .running ∧ e.task.pid = ok.pid) ∨
        .stop id driver ok.pid ∈ acts) := by
  unfold onStarted started
  dsimp only
  cases he : a.tasks.get? id with
  | none =>
    rw [modifyTask_of_none he, he]
    refine ⟨.ghost, none, [.stop id driver ok.pid], by decide, ?_, .inr (List.mem_singleton_self _)⟩
    refine turnsAt_erase ?_
    rw [he]
    exact .ghost driver ok.pid
  | some e =>
    rw [modifyTask_of_some he]
    dsimp only
    rw [get?_insert_self]
    by_cases halive : (decide (e.task.state ≠ .stopping) && (a.jobs.get? e.task.jobName).isSome) = true
    · simp only [Option.any_some, halive, Bool.not_true, Bool.false_eq_true, if_false]
      have hstate : e.task.state ≠ .stopping := by
        simpa using (Bool.and_eq_true_iff.mp halive).1
      rw [modifyTask_of_some (get?_insert_self _ _ _)]
      dsimp only [push]
      rw [insert_insert_self]
      refine ⟨.up, _, _, by decide, turnsAt_insert ?_, .inl ⟨_, rfl, rfl, rfl⟩⟩
      rw [he]
      refine .up e now ok _ hstate fun x hx => ?_
      rw [List.mem_singleton.mp hx]
      rfl
    · rw [Bool.not_eq_true] at halive
      simp only [Option.any_some, halive, Bool.not_false, if_true]
      have hdead : e.task.state = .stopping ∨ a.jobs.get? e.task.jobName = none := by
        refine or_iff_not_imp_left.mpr ?_
        simpa using halive
      dsimp only [push, forget]
      rw [erase_insert_self]
      refine ⟨.dead, none, [.stop id driver ok.pid], by decide, turnsAt_erase ?_,
        .inr (List.mem_singleton_self _)⟩
      rw [he]
      exact .dead e driver ok.pid hdead

/-- A start that did not work. -/
theorem onStarted_failed_turns (hk : a.Keyed) (now : Nanos) (driver : Driver) :
    a.onStarted now id driver (.error .failed) = a ∨ ∃ kind post acts,
      kind ∈ [Kind.down, .again, .lost] ∧
      TurnsAt Q id kind a (a.onStarted now id driver (.error .failed)) post acts := by
  unfold onStarted startFailed
  dsimp only
  cases he : a.tasks.get? id with
  | none =>
    rw [modifyTask_of_none he, he]
    exact .inl rfl
  | some e =>
    refine .inr ?_
    rw [modifyTask_of_some he]
    dsimp only
    rw [get?_insert_self, modifyTask_of_some (get?_insert_self _ _ _)]
    dsimp only
    rw [insert_insert_self]
    have hcrash := fun quiet hquiet => crash_turns Q hk he (.inl rfl) e.check false (.inl ⟨rfl, rfl⟩)
      quiet hquiet 1 now false
    by_cases hfirst : e.firstStart = true
    · rw [if_pos hfirst]
      refine hcrash [.notify e.task.jobName .crash] fun x hx => ?_
      rw [List.mem_singleton.mp hx]
      rfl
    · rw [if_neg hfirst]
      have hnone := hcrash [] fun x hx => absurd hx List.not_mem_nil
      rwa [List.append_nil] at hnone

theorem onStarted_noCapacity_turns (now : Nanos) (driver : Driver) :
    a.onStarted now id driver (.error .noCapacity) = a ∨ ∃ post acts,
      TurnsAt Q id .handBack a (a.onStarted now id driver (.error .noCapacity)) post acts := by
  unfold onStarted releaseUnplaceable
  dsimp only
  cases he : a.tasks.get? id with
  | none =>
    rw [modifyTask_of_none he, he]
    exact .inl rfl
  | some e =>
    refine .inr ⟨none, [.notify e.task.jobName .unplaceable], ?_⟩
    rw [modifyTask_of_some he]
    dsimp only
    rw [get?_insert_self]
    dsimp only [push, forget]
    rw [erase_insert_self]
    refine turnsAt_erase ?_
    rw [he]
    exact .handBack e

/-- The kinds of turns of an answer. -/
def answerKinds : Except StartError StartOk → List Kind
  | .error .noCapacity => [.handBack]
  | .error .failed => [.down, .again, .lost]
  | .ok _ => [.up, .ghost, .dead]

/-- An answer is a turn of the record it is for, or nothing. -/
theorem onStarted_turns (hk : a.Keyed) (now : Nanos) (driver : Driver)
    (result : Except StartError StartOk) :
    a.onStarted now id driver result = a ∨ ∃ kind post acts, kind ∈ answerKinds result ∧
      TurnsAt Q id kind a (a.onStarted now id driver result) post acts := by
  match result with
  | .error .noCapacity =>
    rcases onStarted_noCapacity_turns Q a id now driver with h | ⟨post, acts, h⟩
    · exact .inl h
    · exact .inr ⟨.handBack, post, acts, by decide, h⟩
  | .error .failed => exact onStarted_failed_turns Q a id hk now driver
  | .ok ok =>
    obtain ⟨kind, post, acts, hkind, hturn, -⟩ :=
      onStarted_ok_turns Q a id now driver ok
    exact .inr ⟨kind, post, acts, hkind, hturn⟩

/-! ### The other reports of the runner -/

theorem onProbe_turns (hk : a.Keyed) (now : Nanos) (outcome : Outcome) :
    a.onProbe now id outcome = a ∨ ∃ kind post acts, kind ∈ [Kind.check, .crash, .again, .lost] ∧
      TurnsAt Q id kind a (a.onProbe now id outcome) post acts := by
  unfold onProbe
  cases he : a.tasks.get? id with
  | none => exact .inl rfl
  | some e =>
    dsimp only
    by_cases hrun : e.task.state ≠ .running
    · rw [if_pos hrun]
      exact .inl rfl
    rw [if_neg hrun]
    refine .inr ?_
    have hcheck : ∀ (check : Check) (acts : List Action), (∀ x ∈ acts, x.isOrder = false) →
        ∃ kind post acts', kind ∈ [Kind.check, .crash, .again, .lost] ∧ TurnsAt Q id kind a
          { a with tasks := a.tasks.insert id { e with check := check }, out := a.out ++ acts }
          post acts' := by
      intro check acts hacts
      refine ⟨.check, _, acts, by decide, turnsAt_insert ?_⟩
      rw [he]
      exact .check e check acts hacts
    split
    · rw [modifyTask_of_some he]
      obtain ⟨kind, post, acts, hkind, hturn⟩ := crash_turns Q hk he (.inl rfl) {} e.starting
        (.inr ⟨rfl, rfl, not_not.mp hrun⟩) [.notify e.task.jobName .crash]
        (by simp [Action.isOrder]) 1 now true
      exact ⟨kind, post, acts, List.mem_cons_of_mem _ hkind, hturn⟩
    · rename_i passed check _
      split_ifs
      · rw [modifyTask_of_some he]
        exact hcheck { check with notifiedHealthy := true } [.notify e.task.jobName .started]
          (by simp [Action.isOrder])
      · rw [modifyTask_of_some he]
        have hnone := hcheck check [] (fun x hx => absurd hx List.not_mem_nil)
        rwa [List.append_nil] at hnone

/-- A step that changes nothing that the records depend on. -/
theorem move_note {a' : Agent} (hacts : ∀ x ∈ acts, x.isOrder = false) (htasks : a'.tasks = a.tasks)
    (hjobs : a'.jobs = a.jobs) (hids : a'.ids = a.ids) (hout : a'.out = a.out ++ acts)
    (hdown : a'.shuttingDown = a.shuttingDown) :
    Move Q .note a a' :=
  .note acts hacts htasks hjobs hdown ⟨by rw [hids], by rw [hids], hout⟩

/-- An action that is no order for a task. -/
theorem move_push {x : Action} (hx : x.isOrder = false) : Move Q .note a (a.push x) := by
  have hnote : ∀ y ∈ [x], y.isOrder = false := by
    intro y hy
    rw [List.mem_singleton.mp hy]
    exact hx
  exact move_note Q a hnote rfl rfl rfl rfl rfl

/-- What a poll leads to: a probe at most, or a turn of the record it is for. -/
theorem onStatus_turns (hk : a.Keyed) (now : Nanos) (status : Status) :
    a.onStatus now id status = a ∨
      (∃ x : Action, x.isOrder = false ∧ a.onStatus now id status = a.push x) ∨
      ∃ kind post acts, kind ∈ [Kind.check, .crash, .again, .lost] ∧
        TurnsAt Q id kind a (a.onStatus now id status) post acts := by
  unfold onStatus
  cases he : a.tasks.get? id with
  | none => exact .inl rfl
  | some e =>
    dsimp only
    by_cases hrun : e.task.state ≠ .running
    · rw [if_pos hrun]
      exact .inl rfl
    rw [if_neg hrun]
    cases status with
    | failed =>
      refine .inr (.inr ?_)
      dsimp only
      rw [modifyTask_of_some he]
      obtain ⟨kind, post, acts, hkind, hturn⟩ := crash_turns Q hk he (.inr rfl) {} e.starting
        (.inr ⟨rfl, rfl, not_not.mp hrun⟩) [.notify e.task.jobName .crash]
        (by simp [Action.isOrder]) 1 now true
      exact ⟨kind, post, acts, List.mem_cons_of_mem _ hkind, hturn⟩
    | running =>
      dsimp only
      unfold maybeProbe
      split
      · exact .inl rfl
      · split
        · exact .inl rfl
        · split_ifs
          · exact .inl rfl
          · split
            · exact .inr (.inl ⟨_, rfl, rfl⟩)
            · exact (onProbe_turns Q a id hk now _).imp_right .inr

/-- An action that is no order for a task. -/
theorem path_push {K : Kind → Prop} (hK : K .note) {x : Action} (hx : x.isOrder = false) :
    Path Q K a (a.push x) :=
  .one (move_push Q a hx) hK

theorem path_onProgress (downloaded total : ℕ) :
    Path Q (· ∈ [Kind.progress]) a (a.onProgress id downloaded total) := by
  unfold onProgress
  cases he : a.tasks.get? id with
  | none =>
    rw [modifyTask_of_none he]
    exact .refl a
  | some e =>
    rw [modifyTask_of_some he]
    split_ifs with hstate
    · refine .turn (turnsAt_edit ?_) (List.mem_singleton_self Kind.progress)
      rw [he]
      exact .progress e downloaded total hstate
    · have hsame : a.tasks.insert id e = a.tasks := by
        rw [← modify_of_some he fun v => v]
        exact SortedMap.modify_of_fixed fun _ _ => rfl
      rw [hsame]
      exact .refl a

theorem path_recordUsage (cores : ℕ) (core : Option ℕ) :
    Path Q (· ∈ [Kind.measure]) a (a.recordUsage id cores core) := by
  unfold recordUsage
  cases he : a.tasks.get? id with
  | none =>
    rw [modifyTask_of_none he]
    exact .refl a
  | some e =>
    rw [modifyTask_of_some he]
    refine .turn (turnsAt_edit ?_) (List.mem_singleton_self Kind.measure)
    rw [he]
    exact .measure e _ _

/-! ### Stopping -/

theorem path_removeAndStop : Path Q (· ∈ [Kind.stop]) a (a.removeAndStop id).2 := by
  unfold removeAndStop
  cases he : a.tasks.get? id with
  | none => exact .refl a
  | some e =>
    refine .turn (turnsAt_erase ?_) (List.mem_singleton_self Kind.stop)
    rw [he]
    exact .stop e

end

section

variable (Q : Prop)

theorem path_stopEach (ids : List String) (a : Agent) :
    Path Q (· ∈ [Kind.stop]) a (a.stopEach ids) := by
  induction ids generalizing a with
  | nil => exact .refl a
  | cons id ids ih => exact (path_removeAndStop Q a id).trans (ih _)

/-- The draws have no part in stopping. -/
theorem stopEach_ids (ids : List String) (a : Agent) (drawn : Ids) :
    stopEach { a with ids := drawn } ids = { a.stopEach ids with ids := drawn } := by
  induction ids generalizing a with
  | nil => rfl
  | cons id ids ih =>
    have hone : (removeAndStop { a with ids := drawn } id).2 =
        { (a.removeAndStop id).2 with ids := drawn } := by
      unfold removeAndStop
      dsimp only
      cases a.tasks.get? id <;> rfl
    calc stopEach { a with ids := drawn } (id :: ids)
        = stopEach (removeAndStop { a with ids := drawn } id).2 ids := rfl
      _ = stopEach { (a.removeAndStop id).2 with ids := drawn } ids := by rw [hone]
      _ = { a.stopEach (id :: ids) with ids := drawn } := ih _

/-! ### Taking a job on -/

/-- The kinds of turns when a job is taken on. -/
def runKinds : List Kind := [.note, .stop, .define, .born, .stillborn]

/-- The start of a task whose job cannot run here fails at once. -/
theorem beginStart_of_error {id : String} {job : Job} {why : Error} (he : a.tasks.get? id = some e)
    (hjob : a.jobs.get? e.task.jobName = some job) (hres : a.resolveJobForRun job = .error why)
    (rounds : ℕ) (now : Nanos) :
    beginStart (rounds + 1) a now id = startFailed (beginStart rounds) a now id := by
  simp only [beginStart, he, hjob, hres]

/-- A new task of the job under `id`: it was sent to the runner, or it cannot run here. -/
structure Birth (job : Job) (id : String) (a a' : Agent) (kind : Kind) (e : Entry)
    (acts : List Action) : Prop where
  how : kind = .born ∧ a'.ids = a.ids.id.2 ∨
    kind = .stillborn ∧ ∃ why, a.resolveJobForRun job = .error why
  fresh : FreshOf job id e
  core : e.task.core = none
  count : e.task.restartCount = 0
  restartAt : e.restartAt = none
  state : e.task.state ≠ .running
  turn : TurnsAt Q id kind a a' (some (id, e)) acts

/-- The id of a new task was drawn for it. -/
theorem Birth.drawn {job : Job} {id : String} {a' : Agent} (h : Birth Q job id a a' kind e acts) :
    ∃ k, Drawn a a' k id := by
  have hturn := h.turn.turn
  generalize a.tasks.get? id = pre at hturn
  rcases h.how with ⟨rfl, -⟩ | ⟨rfl, -⟩
  · cases hturn with
    | born pre job job' k task hid hnew => exact ⟨k, hid⟩
    | down kind e st count failedAt nextAt check restartAt starting acts hkind =>
      rcases hkind with ⟨h, -⟩ | ⟨h, -⟩ <;> cases h
  · cases hturn with
    | stillborn pre job k task e acts hid hnew hstart hstarting hat htask => exact ⟨k, hid⟩
    | down kind e st count failedAt nextAt check restartAt starting acts hkind =>
      rcases hkind with ⟨h, -⟩ | ⟨h, -⟩ <;> cases h

/-- The start of a new task. -/
theorem start_turns (hk : a.Keyed) {job : Job} (hjob : a.jobs.get? job.name = some job)
    {task : Task} (hnew : Newborn job a.ids.id.1 task) (hcount : task.restartCount = 0)
    (now : Nanos) :
    ∃ kind e acts, Birth Q job task.id a
      ((insertEntry { a with ids := a.ids.id.2 } task true).start now task.id) kind e acts := by
  have hname : a.jobs.get? task.jobName = some job := by rw [hnew.jobName, hjob]
  have hborn : Newborn job task.id task := { hnew with id := rfl }
  unfold start startRounds
  cases hres : a.resolveJobForRun job with
  | ok job' =>
    rw [beginStart_insertEntry { a with ids := a.ids.id.2 } task true hname hres]
    refine ⟨.born, _, _, .inl ⟨rfl, rfl⟩, ⟨rfl, hnew.jobName, hnew.cpuShares, hnew.memoryLimit⟩,
      hnew.core, hcount, rfl, by simp [hnew.state], turnsAt_new rfl (Nat.le_succ _) ?_⟩
    exact .born _ job job' _ task ⟨Nat.lt_succ_self _, le_refl _, hnew.id⟩ hborn
  | error why =>
    have hget : (insertEntry { a with ids := a.ids.id.2 } task true).tasks.get? task.id =
        some { task := task, firstStart := true } := get?_insert_self _ _ _
    rw [beginStart_of_error hget hname hres]
    unfold startFailed
    rw [hget]
    dsimp only
    rw [modifyTask_of_some hget, if_pos rfl]
    unfold scheduleRestart
    dsimp only [push, insertEntry]
    rw [insert_insert_self, get?_insert_self]
    dsimp only
    have hdecided := restartDecide_decided (a := { a with
        ids := a.ids.id.2
        tasks := a.tasks.insert task.id { task := { task with state := .failed }, firstStart := true }
        out := a.out ++ [.notify task.jobName .crash] ++ [stopAction { task with state := .failed }] })
      (by exact hk) (get?_insert_self _ _ _) 0 now false
    generalize restartDecide (beginStart (0 + 1)) _ now task.id false = a' at hdecided
    cases hdecided with
    | lost hlost =>
      change a.jobs.get? task.jobName = none at hlost
      rw [hname] at hlost
      cases hlost
    | again job₁ job' task₁ hjob₁ hres₁ hnew₁ =>
      -- the job did not resolve a moment ago
      change a.jobs.get? task.jobName = some job₁ at hjob₁
      obtain rfl : job = job₁ := Option.some.inj (hname.symm.trans hjob₁)
      change a.resolveJobForRun job = .ok job' at hres₁
      rw [hres] at hres₁
      cases hres₁
    | stays job₁ st nextAt restartAt hjob₁ hst hallows hat =>
      dsimp only
      rw [insert_insert_self, List.append_assoc]
      have hjudged : judged job₁ now false
          { task := { task with state := .failed }, firstStart := true } = 0 := hcount
      -- a first start that fails does not wait
      have hnone : restartAt = none := by
        rw [hjudged, if_neg (lt_irrefl 0)] at hat
        exact hat.elim id id
      obtain rfl : st = .failed := hst.elim (fun h => h) fun h => h.1
      refine ⟨.stillborn, _, _, .inr ⟨rfl, why, hres⟩,
        ⟨rfl, hnew.jobName, hnew.cpuShares, hnew.memoryLimit⟩, hnew.core, ?_, hnone, ?_,
        turnsAt_new rfl ((Nat.le_succ _).trans (Nat.le_succ _)) ?_⟩
      · exact hjudged
      · simp
      · exact .stillborn _ job _ task _ _ ⟨Nat.lt_succ_self _, Nat.le_succ _, hnew.id⟩ hborn rfl rfl
          hnone ⟨_, now, nextAt, rfl⟩

theorem Keyed.insert (h : a.Keyed) (job : Job) :
    Keyed { a with jobs := a.jobs.insert job.name job } := by
  intro name j hj
  rw [SortedMap.get?_insert] at hj
  split_ifs at hj with hname
  · cases hj
    exact hname
  · exact h name j hj

theorem Keyed.erase (h : a.Keyed) (name : String) :
    Keyed { a with jobs := a.jobs.erase name } := by
  intro n j hj
  rw [SortedMap.get?_erase] at hj
  split_ifs at hj
  exact h n j hj

theorem path_note {K : Kind → Prop} (hK : K .note) {a' : Agent} (htasks : a'.tasks = a.tasks)
    (hjobs : a'.jobs = a.jobs) (hids : a'.ids = a.ids) (hout : a'.out = a.out)
    (hdown : a'.shuttingDown = a.shuttingDown) : Path Q K a a' := by
  have hnote : ∀ x ∈ ([] : List Action), x.isOrder = false := fun x hx => absurd hx List.not_mem_nil
  refine .one (move_note Q a hnote htasks hjobs hids ?_ hdown) hK
  rw [hout, List.append_nil]

/-- A change of the job table. -/
theorem path_define {K : Kind → Prop} (hK : K .define) {a' : Agent} (htasks : a'.tasks = a.tasks)
    (hkeyed : a.Keyed → a'.Keyed) (hids : a'.ids = a.ids) (hout : a'.out = a.out)
    (hdown : a'.shuttingDown = a.shuttingDown) : Path Q K a a' := by
  refine .one (.define htasks hkeyed hdown ⟨by rw [hids], by rw [hids], ?_⟩) hK
  rw [hout, List.append_nil]

/-- The agent without the predecessors of an admitted job, if they are replaced. -/
def cleared (a : Agent) (job : Job) (replace : Bool) : Agent :=
  let a := { a with refused := a.refused.filter (· ≠ job.name) }
  if replace then a.stopEach (a.idsOfJob job.name) else a

/-- The agent that is ready for a new task of an admitted job: its definition is stored. -/
def prepared (a : Agent) (job : Job) (replace : Bool) : Agent :=
  let a := a.cleared job replace
  { a with jobs := a.jobs.insert job.name (a.keepRolloutFlag job) }

theorem path_cleared (a : Agent) (job : Job) (replace : Bool) :
    Path Q (· ∈ runKinds) a (a.cleared job replace) := by
  have hnote : Path Q (· ∈ runKinds) a { a with refused := a.refused.filter (· ≠ job.name) } :=
    path_note Q (by decide) rfl rfl rfl rfl rfl
  unfold cleared
  dsimp only
  split_ifs
  · refine hnote.trans ((path_stopEach Q _ _).mono fun kind hkind => ?_)
    rw [List.mem_singleton.mp hkind]
    decide
  · exact hnote

theorem path_prepared (a : Agent) (job : Job) (replace : Bool) :
    Path Q (· ∈ runKinds) a (a.prepared job replace) := by
  refine (path_cleared Q a job replace).trans (path_define Q (by decide) rfl (fun h => ?_) rfl rfl rfl)
  exact h.insert (keepRolloutFlag _ job)

theorem prepared_ids (a : Agent) (job : Job) (replace : Bool) :
    (a.prepared job replace).ids = a.ids := by
  unfold prepared cleared
  dsimp only
  split_ifs
  · exact (stopEach_drops _ _).ids
  · rfl

theorem stopEach_settings (ids : List String) (a : Agent) : (a.stopEach ids).settings = a.settings := by
  induction ids generalizing a with
  | nil => rfl
  | cons id ids ih =>
    have hone : (a.removeAndStop id).2.settings = a.settings := by
      unfold removeAndStop
      cases a.tasks.get? id <;> rfl
    exact (ih _).trans hone

theorem prepared_settings (a : Agent) (job : Job) (replace : Bool) :
    (a.prepared job replace).settings = a.settings := by
  unfold prepared cleared
  dsimp only
  split_ifs
  · exact stopEach_settings _ _
  · rfl

/-- The records that are left when the predecessors are stopped. -/
theorem prepared_get? (a : Agent) (job : Job) (replace : Bool) (id : String) :
    (a.prepared job replace).tasks.get? id =
      (a.tasks.get? id).filter fun e => !(replace && decide (e.task.jobName = job.name)) := by
  unfold prepared cleared
  dsimp only
  cases replace with
  | false =>
    rw [if_neg Bool.false_ne_true]
    dsimp only
    cases a.tasks.get? id <;> rfl
  | true =>
    rw [if_pos rfl]
    obtain ⟨a₁, ha₁⟩ : ∃ a₁ : Agent, a₁ = { a with refused := a.refused.filter (· ≠ job.name) } :=
      ⟨_, rfl⟩
    have htasks : a₁.tasks = a.tasks := by rw [ha₁]
    rw [← ha₁, ← htasks]
    have hdrops := stopEach_drops (a₁.idsOfJob job.name) a₁
    by_cases hid : id ∈ a₁.idsOfJob job.name
    · obtain ⟨e, he, hname⟩ := mem_idsOfJob.mp hid
      rw [hdrops.gone hid, he, Option.filter_some, decide_eq_true hname]
      rfl
    · rw [hdrops.kept hid]
      cases he : a₁.tasks.get? id with
      | none => rfl
      | some e =>
        have hname : e.task.jobName ≠ job.name := fun hname => hid (mem_idsOfJob.mpr ⟨e, he, hname⟩)
        rw [Option.filter_some, decide_eq_false hname]
        rfl

/-- The job table with the new definition. -/
theorem prepared_jobs (a : Agent) (job : Job) (replace : Bool) :
    ∃ flag, (a.prepared job replace).jobs = a.jobs.insert job.name { job with deploying := flag } := by
  have hjobs : (a.cleared job replace).jobs = a.jobs := by
    unfold cleared
    dsimp only
    split_ifs
    · exact (stopEach_drops _ _).jobs
    · rfl
  unfold prepared
  dsimp only
  rw [hjobs]
  exact ⟨_, rfl⟩

/-- Taking a job on is its preparation and the start of its task. The id is drawn first, but nothing
depends on it before the task is born. -/
theorem takeOn_eq (a : Agent) (now : Nanos) (job : Job) (replace : Bool) :
    (a.takeOn now job replace).2 = (insertEntry { a.prepared job replace with ids := a.ids.id.2 }
      (a.newTask now job).1 true).start now (a.newTask now job).1.id := by
  have hstopped : ∀ a₁ : Agent, (if replace then stopEach { a₁ with ids := a.ids.id.2 }
      (idsOfJob { a₁ with ids := a.ids.id.2 } job.name) else { a₁ with ids := a.ids.id.2 }) =
      { (if replace then a₁.stopEach (a₁.idsOfJob job.name) else a₁) with ids := a.ids.id.2 } := by
    intro a₁
    split_ifs
    · exact stopEach_ids _ _ _
    · rfl
  exact congrArg (fun c : Agent => (insertEntry { c with
    jobs := c.jobs.insert job.name (c.keepRolloutFlag job) } _ true).start now _)
    (hstopped { a with refused := a.refused.filter (· ≠ job.name) })

/-- **A job that was admitted**: after the preparation, one task is born, under the next id. -/
theorem takeOn_turns (hk : a.Keyed) (now : Nanos) (job : Job) (replace : Bool) :
    ∃ flag kind e acts, Birth Q { job with deploying := flag } a.ids.id.1 (a.prepared job replace)
      (a.takeOn now job replace).2 kind e acts := by
  obtain ⟨b, hb⟩ : ∃ b : Agent, b = a.prepared job replace := ⟨_, rfl⟩
  obtain ⟨flag, hget⟩ : ∃ flag, b.jobs.get? job.name = some { job with deploying := flag } := by
    rw [hb]
    exact ⟨_, get?_insert_self _ _ _⟩
  have hkeyed : b.Keyed := by
    rw [hb]
    exact (path_prepared Q a job replace).keyed hk
  have hids : b.ids = a.ids := by
    rw [hb]
    exact prepared_ids a job replace
  have hstart : ∀ task, Newborn { job with deploying := flag } a.ids.id.1 task →
      task.restartCount = 0 → ∃ kind e acts, Birth Q { job with deploying := flag } task.id b
        ((insertEntry { b with ids := a.ids.id.2 } task true).start now task.id) kind e acts := by
    intro task hnew hcount
    rw [← hids] at hnew ⊢
    exact start_turns Q hkeyed hget hnew hcount now
  have hnew : Newborn { job with deploying := flag } a.ids.id.1 (a.newTask now job).1 :=
    ⟨rfl, rfl, rfl, rfl, rfl, rfl⟩
  obtain ⟨kind, e, acts, hbirth⟩ := hstart _ hnew rfl
  rw [hb] at hbirth
  rw [takeOn_eq]
  exact ⟨flag, kind, e, acts, hbirth⟩

/-- A job that was admitted: its predecessors are stopped, its definition is stored, and a new
task is born. -/
theorem path_takeOn (hk : a.Keyed) (now : Nanos) (job : Job) (replace : Bool) :
    Path Q (· ∈ runKinds) a (a.takeOn now job replace).2 := by
  obtain ⟨flag, kind, e, acts, hbirth⟩ := takeOn_turns Q hk now job replace
  refine (path_prepared Q a job replace).trans (.turn hbirth.turn ?_)
  rcases hbirth.how with ⟨rfl, -⟩ | ⟨rfl, -⟩ <;> decide

/-- What `run` can do: refuse the job, and tell so at most; or take on a job that was admitted. -/
theorem run_cases (a : Agent) (now : Nanos) (job : Job) (replace : Bool) (poolLargest : Option ℕ) :
    (∃ err a', a.run now job replace poolLargest = (.error err, a') ∧
      (a' = a ∨ ∃ why, a' = a.refuse job.name why)) ∨
    (a.admitJob (normalized job) replace poolLargest = .ok () ∧
      a.run now job replace poolLargest = (.ok (a.takeOn now (normalized job) replace).1,
        (a.takeOn now (normalized job) replace).2)) := by
  unfold run
  dsimp only
  split_ifs
  · exact .inl ⟨_, a, rfl, .inl rfl⟩
  · exact .inl ⟨_, a, rfl, .inl rfl⟩
  · exact .inl ⟨_, a, rfl, .inl rfl⟩
  · cases a.admitJob (normalized job) replace poolLargest with
    | error why => exact .inl ⟨_, _, rfl, .inr ⟨why, by rw [normalized_name]⟩⟩
    | ok u => exact .inr ⟨rfl, rfl⟩

theorem refuse_tasks (a : Agent) (job why : String) : (a.refuse job why).tasks = a.tasks := by
  unfold refuse
  split_ifs <;> rfl

theorem path_run (hk : a.Keyed) (now : Nanos) (job : Job) (replace : Bool) (poolLargest : Option ℕ)
    : Path Q (· ∈ runKinds) a (a.run now job replace poolLargest).2 := by
  rcases a.run_cases now job replace poolLargest with ⟨err, a', hrun, h⟩ | ⟨-, hrun⟩
  · rw [hrun]
    rcases h with rfl | ⟨why, rfl⟩
    · exact .refl a'
    · unfold refuse
      split_ifs
      · exact .refl a
      · refine Path.trans ?_ (path_push Q _ (by decide) rfl)
        exact path_note Q (by decide) rfl rfl rfl rfl rfl
      · exact path_push Q a (by decide) rfl
  · rw [hrun]
    exact path_takeOn Q hk now (normalized job) replace

end

/-! ### Letting time pass -/

/-- The kinds of turns of a restart that is due. -/
def dueKinds : List Kind := [.due, .again, .lost, .note]

theorem fireDue_turns (Q : Prop) (hk : a.Keyed) (id : String)
    (hat : ∀ e, a.tasks.get? id = some e → Q → e.restartAt.isSome = true) (now : Nanos) :
    fireDue now a id = a ∨ ∃ kind post acts, kind ∈ dueKinds ∧
      TurnsAt Q id kind a (fireDue now a id) post acts := by
  unfold fireDue
  cases he : a.tasks.get? id with
  | none =>
    rw [modifyTask_of_none he]
    unfold restartFire
    rw [he]
    exact .inl (ite_self _)
  | some e =>
    refine .inr ?_
    rw [modifyTask_of_some he]
    have hfired := restartFire_fired (a := { a with
      tasks := a.tasks.insert id { e with restartAt := none } }) (by exact hk)
      (get?_insert_self _ _ _) 1 now
    unfold startRounds
    generalize restartFire (beginStart (1 + 1)) _ now id = a' at hfired
    cases hfired with
    | halted h =>
      refine ⟨.due, _, [], by decide, turnsAt_edit ?_⟩
      rw [he]
      exact .due e e.task.state (hat e he) (.inr ⟨rfl, h⟩)
    | lost hjob =>
      refine ⟨.lost, none, [], by decide, ?_, erase_insert_self _ _ _, rfl, rfl, rfl, rfl,
        le_refl _, (List.append_nil _).symm⟩
      rw [he]
      exact .lost e [] hjob rfl (.inr (hat e he))
    | failed =>
      dsimp only
      rw [insert_insert_self]
      refine ⟨.due, _, [], by decide, turnsAt_edit ?_⟩
      rw [he]
      exact .due e .failed (hat e he) (.inl rfl)
    | again job job' task hjob hres hnew =>
      dsimp only
      rw [erase_insert_self]
      refine ⟨.again, some (a.ids.id.1, { task := task, firstStart := false, starting := true }),
        [.start a.ids.id.1 job'], by decide, ?_, rfl, rfl, rfl, rfl, rfl, Nat.le_succ _, rfl⟩
      rw [he]
      have hjob' : a.jobs.get? e.task.jobName = some job := hjob
      exact .again e job (a.ids.draws + 1) _ task _ hjob' ⟨Nat.lt_succ_self _, le_refl _, rfl⟩ hnew
        rfl (.inr (hat e he))

/-- Firing one restart is a path, whatever the record waits for. -/
theorem path_fireDue (hk : a.Keyed) (id : String) (now : Nanos) :
    Path False (· ∈ dueKinds) a (fireDue now a id) := by
  rcases fireDue_turns False hk id (fun _ _ h => h.elim) now with h | ⟨kind, post, acts, hkind, hturn⟩
  · exact .of_eq h
  · exact .turn hturn hkind

theorem draws_le_foldl_fireDue (hk : a.Keyed) (ids : List String) (now : Nanos) :
    a.ids.draws ≤ (ids.foldl (fireDue now) a).ids.draws := by
  induction ids generalizing a with
  | nil => exact le_refl _
  | cons id ids ih =>
    have hone := path_fireDue hk id now
    exact hone.draws_le.trans (ih (hone.keyed hk))

/-- A restart leaves the records under other ids that were drawn before. -/
theorem get?_of_fireDue (hk : a.Keyed) {id id' : String} (hne : id' ≠ id) {now : Nanos}
    (hdrawn : ∃ i, 1 ≤ i ∧ i ≤ a.ids.draws ∧ id' = Ids.idOf a.ids.seed i)
    (hd : (fireDue now a id).ids.draws ≤ 2 ^ 64) (he : (fireDue now a id).tasks.get? id' = some e) :
    a.tasks.get? id' = some e := by
  obtain ⟨i, hi, hle, heq⟩ := hdrawn
  rcases fireDue_turns False hk id (fun _ _ h => h.elim) now with h | ⟨kind, post, acts, -, hturn⟩
  · rwa [h] at he
  rcases hturn.mem he with rfl | ⟨-, he⟩
  · -- the record would be under a new id, or under the id that was fired
    rcases hturn.turn.origin with ⟨_, _, hid, _⟩ | ⟨job, k, hnew, _⟩
    · exact absurd hid hne
    · exact absurd heq (Filed.ne_of_drawn hnew hd hi hle)
  · exact he

/-- The ids that were drawn stay drawn. -/
theorem drawn_fireDue (hk : a.Keyed) (id : String) (now : Nanos) {id' : String}
    (h : ∃ i, 1 ≤ i ∧ i ≤ a.ids.draws ∧ id' = Ids.idOf a.ids.seed i) :
    ∃ i, 1 ≤ i ∧ i ≤ (fireDue now a id).ids.draws ∧
      id' = Ids.idOf (fireDue now a id).ids.seed i := by
  obtain ⟨i, hi, hle, heq⟩ := h
  obtain ⟨acts, hseed, hdraws, -⟩ := (path_fireDue hk id now).frame
  exact ⟨i, hi, hle.trans hdraws, by rw [hseed, heq]⟩

/-- The restarts that are due, one after the other. No restart touches a record that another one
is for, as long as ids are drawn once. -/
theorem path_foldl_fireDue (Q : Prop) (now : Nanos) {ids : List String} (hk : a.Keyed)
    (hnodup : ids.Nodup)
    (hat : ∀ id ∈ ids, ∀ e, a.tasks.get? id = some e → Q → e.restartAt.isSome = true)
    (hdrawn : Q → ∀ id ∈ ids, ∃ i, 1 ≤ i ∧ i ≤ a.ids.draws ∧ id = Ids.idOf a.ids.seed i)
    (hd : Q → (ids.foldl (fireDue now) a).ids.draws ≤ 2 ^ 64) :
    Path Q (· ∈ dueKinds) a (ids.foldl (fireDue now) a) := by
  induction ids generalizing a with
  | nil => exact .refl a
  | cons id ids ih =>
    obtain ⟨hid, hnodup⟩ := List.nodup_cons.mp hnodup
    have hk' := (path_fireDue hk id now).keyed hk
    have hone : Path Q (· ∈ dueKinds) a (fireDue now a id) := by
      rcases fireDue_turns Q hk id (hat id List.mem_cons_self) now with
        h | ⟨kind, post, acts, hkind, hturn⟩
      · exact .of_eq h
      · exact .turn hturn hkind
    rw [List.foldl_cons] at hd ⊢
    refine hone.trans (ih hk' hnodup (fun id' hid' e he hQ => ?_) (fun hQ id' hid' => ?_) hd)
    · have hne : id' ≠ id := fun heq => hid (heq ▸ hid')
      have hd' := (draws_le_foldl_fireDue hk' ids now).trans (hd hQ)
      have he' := get?_of_fireDue hk hne (hdrawn hQ id' (List.mem_cons_of_mem _ hid')) hd' he
      exact hat id' (List.mem_cons_of_mem _ hid') e he' hQ
    · exact drawn_fireDue hk id now (hdrawn hQ id' (List.mem_cons_of_mem _ hid'))

theorem path_monitor (Q : Prop) (a : Agent) : Path Q (· ∈ dueKinds) a a.monitor := by
  unfold monitor
  generalize a.tasks.entries.filter _ = es
  induction es generalizing a with
  | nil => exact .refl a
  | cons e es ih => exact (path_push Q a (by decide) rfl).trans (ih _)

/-- The tasks whose restart is due. -/
def dueIds (a : Agent) (now : Nanos) : List String :=
  (a.tasks.entries.filter fun e => e.2.restartAt.any (fun t => decide (t ≤ now))).map Prod.fst

theorem mem_dueIds {now : Nanos} {id : String} (h : id ∈ a.dueIds now) :
    ∃ e, a.tasks.get? id = some e ∧ e.restartAt.isSome = true := by
  obtain ⟨p, hp, rfl⟩ := List.mem_map.mp h
  obtain ⟨hmem, hat⟩ := List.mem_filter.mp hp
  refine ⟨p.2, SortedMap.get?_eq_some_iff.mpr hmem, ?_⟩
  cases hrestart : p.2.restartAt with
  | none =>
    rw [hrestart] at hat
    cases hat
  | some t => rfl

theorem dueIds_nodup (a : Agent) (now : Nanos) : (a.dueIds now).Nodup :=
  a.tasks.keys_nodup.sublist (List.filter_sublist.map Prod.fst)

/-- The poll asks for actions only. -/
theorem monitor_eq (a : Agent) : ∃ out, a.monitor = { a with out := out } := by
  unfold monitor
  generalize a.tasks.entries.filter _ = es
  induction es generalizing a with
  | nil => exact ⟨a.out, rfl⟩
  | cons e es ih =>
    obtain ⟨out, hout⟩ := ih (a.push (.poll e.2.task.id (driverOf e.2.task) e.2.task.pid))
    exact ⟨out, hout⟩

/-- The poll that ends a tick, if it is time for it. -/
def monitorDue (a : Agent) (now : Nanos) : Agent :=
  if a.nextMonitor ≤ now then
    { a with nextMonitor := satAdd u64Max now a.settings.monitorEvery }.monitor
  else a

theorem path_monitorDue (Q : Prop) (a : Agent) (now : Nanos) :
    Path Q (· ∈ dueKinds) a (a.monitorDue now) := by
  unfold monitorDue
  split_ifs
  · refine Path.trans ?_ (path_monitor Q _)
    exact path_note Q (by decide) rfl rfl rfl rfl rfl
  · exact .refl a

/-- Letting time pass is a row of restarts and polls; then the actions are handed over. -/
theorem path_tick (Q : Prop) (hk : a.Keyed) (now : Nanos)
    (hQ : Q → a.Filed ∧ (a.tick now).2.ids.draws ≤ 2 ^ 64) :
    ∃ b, Path Q (· ∈ dueKinds) a b ∧ a.tick now = (b.out, { b with out := [] }) := by
  obtain ⟨b, hb⟩ : ∃ b, b = (a.dueIds now).foldl (fireDue now) a := ⟨_, rfl⟩
  have htick : a.tick now = ((b.monitorDue now).out, { b.monitorDue now with out := [] }) := by
    rw [hb]
    rfl
  refine ⟨b.monitorDue now, Path.trans ?_ (path_monitorDue Q b now), htick⟩
  have hle : b.ids.draws ≤ (b.monitorDue now).ids.draws := (path_monitorDue Q b now).draws_le
  rw [hb] at hle ⊢
  refine path_foldl_fireDue Q now hk (a.dueIds_nodup now) (fun id hid e he _ => ?_)
    (fun h id hid => ?_) (fun h => ?_)
  · obtain ⟨e', he', hat⟩ := mem_dueIds hid
    rw [he] at he'
    cases he'
    exact hat
  · obtain ⟨e, he, -⟩ := mem_dueIds hid
    exact (hQ h).1.drawn he
  · have hbound := (hQ h).2
    rw [htick, hb] at hbound
    exact hle.trans hbound

/-! ### Every input -/

theorem path_deleteJob (Q : Prop) (a : Agent) (now : Nanos) (name : String) :
    Path Q (· ∈ [Kind.define, .stop, .note]) a (a.deleteJob now name).2 := by
  unfold deleteJob stopJobTasks
  dsimp only
  refine Path.trans (Path.trans ?_ ((path_stopEach Q _ _).mono fun kind hkind => ?_))
    (path_push Q _ (by decide : Kind.note ∈ [Kind.define, .stop, .note]) rfl)
  · exact path_define Q (by decide) rfl (fun hk => hk.erase name) rfl rfl rfl
  · rw [List.mem_singleton.mp hkind]
    decide

theorem path_shutdown (Q : Prop) (a : Agent) :
    Path Q (· ∈ [Kind.halt, .stop]) a a.shutdown.2 := by
  unfold shutdown stopAll
  dsimp only
  have hhalt : Path Q (· ∈ [Kind.halt, .stop]) a { a with shuttingDown := true } :=
    .one (.halt rfl rfl rfl ⟨rfl, le_refl _, (List.append_nil _).symm⟩) (by decide)
  exact hhalt.trans ((path_stopEach Q _ _).mono fun _ hkind => List.mem_cons_of_mem _ hkind)

theorem path_syncJobs (Q : Prop) (updated : Nanos) (jobs : List Job) (a : Agent) :
    Path Q (· ∈ [Kind.define]) a (syncJobs updated jobs a).2 := by
  induction jobs generalizing a with
  | nil => exact path_define Q (by decide) rfl (fun hk => hk) rfl rfl rfl
  | cons job jobs ih =>
    unfold syncJobs
    split_ifs
    · refine Path.trans ?_ (ih _)
      exact path_define Q (by decide) rfl (fun hk => hk.insert job) rfl rfl rfl
    · exact .refl a

theorem path_rewriteJob (Q : Prop) (a : Agent) (now : Nanos) (name : String) (f : Job → Job)
    (hf : ∀ j, (f j).name = j.name) :
    Path Q (· ∈ [Kind.define]) a (a.rewriteJob now name f).2 := by
  unfold rewriteJob
  split
  · refine path_define Q (by decide) rfl (fun hk n j hj => ?_) rfl rfl rfl
    dsimp only at hj
    rw [SortedMap.get?_modify] at hj
    split_ifs at hj
    · obtain ⟨j', hj', rfl⟩ := Option.map_eq_some_iff.mp hj
      rw [hf, hk n j' hj']
    · exact hk n j hj
  · exact .refl a

end Agent

/-- The kinds of turns of an input. -/
def Input.kinds : Input → List Kind
  | .run _ _ _ _ => Agent.runKinds
  | .onProgress _ _ _ => [.progress]
  | .onStarted _ _ _ result => Agent.answerKinds result
  | .onStatus _ _ _ => [.note, .check, .crash, .again, .lost]
  | .onProbe _ _ _ => [.check, .crash, .again, .lost]
  | .recordUsage _ _ _ => [.measure]
  | .tick _ => Agent.dueKinds
  | .takeActions => []
  | .stopTask _ => [.stop]
  | .stopJobTasks _ => [.stop]
  | .deleteJob _ _ => [.define, .stop, .note]
  | .stopAll => [.stop]
  | .shutdown => [.halt, .stop]
  | .storeJob _ _ => [.define]
  | .updateJob _ _ => [.define]
  | .setJobPriority _ _ _ => [.define]
  | .setJobDeploying _ _ _ => [.define]
  | .deleteJobDefinition _ _ => [.define]
  | .syncJobs _ _ => [.define]
  | .setLeaderAddr _ => [.note]
  | .setLeaseExpiresAt _ => [.note]
  | .setSettings _ => [.note]

/-- What an input does: a row of turns of its kinds, and then the actions that it hands over leave
the agent. -/
structure Feeds (Q : Prop) (a : Agent) (i : Input) (b : Agent) : Prop where
  path : Path Q (· ∈ i.kinds) a b
  agent : a.feed i = { b with out := (a.feed i).out }
  out : a.handsOver i ++ (a.feed i).out = b.out

namespace Feeds

variable {Q : Prop} {a b : Agent} {i : Input}

/-- An input that hands nothing over. -/
theorem plain (h : Path Q (· ∈ i.kinds) a (a.feed i)) (hout : a.handsOver i = []) :
    Feeds Q a i (a.feed i) :=
  ⟨h, rfl, by rw [hout, List.nil_append]⟩

theorem ids (h : Feeds Q a i b) : (a.feed i).ids = b.ids := by
  rw [h.agent]

theorem tasks (h : Feeds Q a i b) : (a.feed i).tasks = b.tasks := by
  rw [h.agent]

theorem jobs (h : Feeds Q a i b) : (a.feed i).jobs = b.jobs := by
  rw [h.agent]

theorem down (h : Feeds Q a i b) : (a.feed i).shuttingDown = b.shuttingDown := by
  rw [h.agent]

end Feeds

/-- **Every input is a row of turns.** -/
theorem path_feed (Q : Prop) (hk : a.Keyed) (i : Input)
    (hQ : Q → a.Filed ∧ (a.feed i).ids.draws ≤ 2 ^ 64) : ∃ b, Feeds Q a i b := by
  cases i with
  | run now job replace poolLargest =>
    exact ⟨_, .plain (Agent.path_run Q hk now job replace poolLargest) rfl⟩
  | onProgress id downloaded total => exact ⟨_, .plain (Agent.path_onProgress Q a id _ _) rfl⟩
  | onStarted now id driver result =>
    refine ⟨_, .plain ?_ rfl⟩
    rcases Agent.onStarted_turns Q a id hk now driver result with h | ⟨kind, post, acts, hkind, hturn⟩
    · exact .of_eq h
    · exact .turn hturn hkind
  | onStatus now id status =>
    refine ⟨_, .plain ?_ rfl⟩
    rcases Agent.onStatus_turns Q a id hk now status with
      h | ⟨x, hx, h⟩ | ⟨kind, post, acts, hkind, hturn⟩
    · exact .of_eq h
    · show Path Q _ a (a.onStatus now id status)
      rw [h]
      exact Agent.path_push Q a List.mem_cons_self hx
    · exact .turn hturn (List.mem_cons_of_mem _ hkind)
  | onProbe now id outcome =>
    refine ⟨_, .plain ?_ rfl⟩
    rcases Agent.onProbe_turns Q a id hk now outcome with h | ⟨kind, post, acts, hkind, hturn⟩
    · exact .of_eq h
    · exact .turn hturn hkind
  | recordUsage id cores core => exact ⟨_, .plain (Agent.path_recordUsage Q a id cores core) rfl⟩
  | tick now =>
    obtain ⟨b, hpath, htick⟩ := Agent.path_tick Q hk now hQ
    refine ⟨b, hpath, ?_, ?_⟩
    · show (a.tick now).2 = { b with out := (a.tick now).2.out }
      rw [htick]
    · show (a.tick now).1 ++ (a.tick now).2.out = b.out
      rw [htick, List.append_nil]
  | takeActions => exact ⟨a, .refl a, rfl, List.append_nil _⟩
  | stopTask id => exact ⟨_, .plain (Agent.path_removeAndStop Q a id) rfl⟩
  | stopJobTasks name => exact ⟨_, .plain (Agent.path_stopEach Q _ a) rfl⟩
  | deleteJob now name => exact ⟨_, .plain (Agent.path_deleteJob Q a now name) rfl⟩
  | stopAll => exact ⟨_, .plain (Agent.path_stopEach Q _ a) rfl⟩
  | shutdown => exact ⟨_, .plain (Agent.path_shutdown Q a) rfl⟩
  | storeJob now job =>
    refine ⟨_, .plain ?_ rfl⟩
    show Path Q _ a (a.storeJob now job).2
    unfold Agent.storeJob
    split_ifs
    · exact Agent.path_define Q List.mem_cons_self rfl (fun hk => hk.insert job) rfl rfl rfl
    · exact .refl a
  | updateJob now job =>
    refine ⟨_, .plain ?_ rfl⟩
    show Path Q _ a (a.updateJob now job).2
    unfold Agent.updateJob
    split
    · exact Agent.path_define Q List.mem_cons_self rfl (fun hk => hk.insert job) rfl rfl rfl
    · exact .refl a
  | setJobPriority now name priority =>
    exact ⟨_, .plain (Agent.path_rewriteJob Q a now name _ fun _ => rfl) rfl⟩
  | setJobDeploying now name deploying =>
    exact ⟨_, .plain (Agent.path_rewriteJob Q a now name _ fun _ => rfl) rfl⟩
  | deleteJobDefinition now name =>
    exact ⟨_, .plain (Agent.path_define Q List.mem_cons_self rfl (fun hk => hk.erase name) rfl rfl rfl) rfl⟩
  | syncJobs jobs updated => exact ⟨_, .plain (Agent.path_syncJobs Q updated jobs a) rfl⟩
  | setLeaderAddr addr =>
    exact ⟨_, .plain (Agent.path_note Q List.mem_cons_self rfl rfl rfl rfl rfl) rfl⟩
  | setLeaseExpiresAt t =>
    exact ⟨_, .plain (Agent.path_note Q List.mem_cons_self rfl rfl rfl rfl rfl) rfl⟩
  | setSettings settings =>
    exact ⟨_, .plain (Agent.path_note Q List.mem_cons_self rfl rfl rfl rfl rfl) rfl⟩

/-- Every input leaves the jobs filed under their names. -/
theorem feed_keyed (hk : a.Keyed) (i : Input) : (a.feed i).Keyed := by
  obtain ⟨b, hb⟩ := path_feed False hk i fun h => h.elim
  intro name job hjob
  rw [hb.jobs] at hjob
  exact hb.path.keyed hk name job hjob

/-- Every input leaves the records filed under ids that were drawn. -/
theorem feed_filed (hk : a.Keyed) (hf : a.Filed) (i : Input) : (a.feed i).Filed := by
  obtain ⟨b, hb⟩ := path_feed False hk i fun h => h.elim
  have hfiled := hb.path.filed hf
  refine ⟨fun {id e} he => ?_, fun {id e} he => ?_⟩
  · rw [hb.tasks] at he
    exact hfiled.key he
  · rw [hb.tasks] at he
    rw [hb.ids]
    exact hfiled.drawn he

/-- In every run the jobs and the records are filed. -/
theorem inputs_filed {o : Observed} (h : inputs.Reachable o) : o.agent.Keyed ∧ o.agent.Filed := by
  refine h.invariant (P := fun o => o.agent.Keyed ∧ o.agent.Filed) ?_ fun o i o' ho hstep => ?_
  · rintro o ⟨settings, rfl⟩
    exact ⟨fun _ _ hjob => (by cases hjob), Agent.filed_new settings⟩
  · cases hstep
    exact ⟨feed_keyed ho.1 i, feed_filed ho.1 ho.2 i⟩

end Hop.Node
