import Hop.Node.Chain
import Hop.Node.Paths

/-!
# What a chain of a restart comes to

With memory for everything a chain comes to what the calls of the agent do with a bound on their
rounds (`begins_eq_start`), since no count is negative: a restart that is fired at once gives its
task a positive count, and the next one waits.
-/

namespace Hop.Node

open Hop.Types (Driver Job Map Task TaskState)

/-- No task has a negative count. -/
def Agent.Nonneg (a : Agent) : Prop :=
  ∀ id e, a.tasks.get? id = some e → 0 ≤ e.task.restartCount

/-! ### With memory for everything -/

namespace Chain

/-- What a chain comes to with memory for everything. -/
def outcome (now : Nanos) (a : Agent) (t : Todo) : Agent :=
  (finish now (fun _ => .plenty) a t).agent

/-- Where a chain goes from here does not depend on how it came here. -/
theorem step_plenty (now : Nanos) (n : ℕ) (a : Agent) (todo : Option Todo)
    (fired fired' : List (String × String)) (calls calls' : ℕ) :
    ((step now fun _ => .plenty)^[n] ⟨a, todo, fired, calls⟩).agent =
        ((step now fun _ => .plenty)^[n] ⟨a, todo, fired', calls'⟩).agent ∧
      ((step now fun _ => .plenty)^[n] ⟨a, todo, fired, calls⟩).todo =
        ((step now fun _ => .plenty)^[n] ⟨a, todo, fired', calls'⟩).todo := by
  induction n generalizing a todo fired fired' calls calls' with
  | zero => exact ⟨rfl, rfl⟩
  | succ n ih =>
    rw [Function.iterate_succ_apply, Function.iterate_succ_apply]
    rcases todo with - | t
    · exact ih a none fired fired' calls calls'
    · exact ih _ _ _ _ _ _

/-- A chain is its first call and the chain of the next one. -/
theorem outcome_eq (now : Nanos) (a : Agent) (t : Todo) :
    outcome now a t = match (a.call now .plenty t).2.1 with
      | none => (a.call now .plenty t).1
      | some t' => outcome now (a.call now .plenty t).1 t' := by
  rcases hnext : (a.call now .plenty t).2.1 with - | t'
  · have hone : ((step now fun _ => .plenty)^[1] ⟨a, some t, [], 0⟩).todo = none := hnext
    exact congrArg Chain.agent (finish_of_iterate hone).symm
  · obtain ⟨hagent, htodo⟩ := step_plenty now (t'.bound (a.call now .plenty t).1)
      (a.call now .plenty t).1 (some t') [] ([] ++ (a.call now .plenty t).2.2.toList) 0 1
    have hfirst : step now (fun _ => .plenty) ⟨a, some t, [], 0⟩ =
        ⟨(a.call now .plenty t).1, some t', [] ++ (a.call now .plenty t).2.2.toList, 1⟩ := by
      rw [← hnext]
      rfl
    have hrun : (step now fun _ => .plenty)^[t'.bound (a.call now .plenty t).1 + 1]
        ⟨a, some t, [], 0⟩ = (step now fun _ => .plenty)^[t'.bound (a.call now .plenty t).1]
          ⟨(a.call now .plenty t).1, some t', [] ++ (a.call now .plenty t).2.2.toList, 1⟩ := by
      rw [Function.iterate_succ_apply, hfirst]
    have hend : ((step now fun _ => .plenty)^[t'.bound (a.call now .plenty t).1 + 1]
        ⟨a, some t, [], 0⟩).todo = none := by
      rw [hrun, ← htodo]
      exact (finish_spec now (fun _ => .plenty) _ t').1
    dsimp only
    rw [outcome, ← finish_of_iterate hend, hrun, ← hagent]
    rfl

end Chain

namespace Agent

open Chain (outcome)

variable {a : Agent} {id : String} {now : Nanos}

/-- The start of a task, with the chain that follows from it. -/
def begins (a : Agent) (now : Nanos) (id : String) : Agent := outcome now a (.beginStart id)

theorem resolveIn_plenty (a : Agent) (job : Job) :
    a.resolveIn .plenty job = (a.resolveJobForRun job).toOption := rfl

theorem outcome_restartFire (a : Agent) (now : Nanos) (id : String) :
    outcome now a (.restartFire id) = restartFire begins a now id := by
  rw [Chain.outcome_eq, call, restartFire]
  by_cases hdown : a.shuttingDown = true
  · rw [if_pos hdown, if_pos hdown]
  rw [if_neg hdown, if_neg hdown]
  rcases a.tasks.get? id with - | old
  · rfl
  dsimp only
  rcases a.jobs.get? old.task.jobName with - | job
  · rfl
  dsimp only
  rw [resolveIn_plenty]
  rcases a.resolveJobForRun job with why | job'
  · rfl
  · rfl

theorem outcome_restartDecide (a : Agent) (now : Nanos) (id : String) (ran : Bool) :
    outcome now a (.restartDecide id ran) = restartDecide begins a now id ran := by
  rw [Chain.outcome_eq, call, restartDecide]
  rcases a.tasks.get? id with - | e
  · rfl
  dsimp only
  rcases a.jobs.get? e.task.jobName with - | job
  · rfl
  dsimp only
  generalize (if 0 < job.restartWindow then job.restartWindow else defaultRestartWindow) = window
  generalize job.maxRestarts.getD defaultMaxRestarts = max₀
  split_ifs
  · rfl
  · rfl
  · exact outcome_restartFire _ now id

theorem outcome_scheduleRestart (a : Agent) (now : Nanos) (id : String) (ran : Bool) :
    outcome now a (.scheduleRestart id ran) = scheduleRestart begins a now id ran := by
  rw [Chain.outcome_eq, call]
  exact outcome_restartDecide _ now id ran

theorem outcome_startFailed (a : Agent) (now : Nanos) (id : String) :
    outcome now a (.startFailed id) = startFailed begins a now id := by
  rw [Chain.outcome_eq, call, startFailed]
  rcases a.tasks.get? id with - | e
  · rfl
  · exact outcome_scheduleRestart _ now id false

theorem outcome_due (a : Agent) (now : Nanos) (id : String) :
    outcome now a (.due id) =
      restartFire begins (a.modifyTask id fun e => { e with restartAt := none }) now id := by
  rw [Chain.outcome_eq, call]
  exact outcome_restartFire _ now id

/-- A start that fails is all that `begins` and a bounded start can differ in. -/
theorem begins_eq (a : Agent) (now : Nanos) (id : String) {rounds : ℕ}
    (h : startFailed begins a now id = startFailed (beginStart rounds) a now id) :
    a.begins now id = beginStart (rounds + 1) a now id := by
  rw [begins, Chain.outcome_eq, call, beginStart]
  rcases a.tasks.get? id with - | e
  · rfl
  dsimp only
  rcases a.jobs.get? e.task.jobName with - | job
  · exact (outcome_startFailed a now id).trans h
  dsimp only
  rw [Option.bind_some, resolveIn_plenty]
  rcases a.resolveJobForRun job with why | job'
  · exact (outcome_startFailed a now id).trans h
  · rfl

/-! ### The bound on the rounds -/

variable {b b' : Agent → Nanos → String → Agent}

/-- Two ways to begin differ after a failure only where they differ for a restart at once. -/
theorem scheduleRestart_congr {ran : Bool} (hfire : ∀ a₁ e e₁, a.tasks.get? id = some e →
      a₁.tasks.get? id = some e₁ →
      (e₁.task.restartCount = e.task.restartCount ∨ ran = true ∧ e₁.task.restartCount = 0) →
      e₁.task.restartCount ≤ 0 → restartFire b a₁ now id = restartFire b' a₁ now id) :
    scheduleRestart b a now id ran = scheduleRestart b' a now id ran := by
  rw [scheduleRestart, scheduleRestart]
  rcases hget : a.tasks.get? id with - | e
  · dsimp only
    rw [restartDecide, restartDecide, hget]
  have hpush : (a.push (stopAction e.task)).tasks.get? id = some e := hget
  dsimp only
  rw [restartDecide, restartDecide, hpush]
  dsimp only
  rcases (a.push (stopAction e.task)).jobs.get? e.task.jobName with - | job
  · rfl
  dsimp only
  generalize (if 0 < job.restartWindow then job.restartWindow else defaultRestartWindow) = window
  generalize job.maxRestarts.getD defaultMaxRestarts = max₀
  split_ifs with hmax hwait
  · rfl
  · rfl
  · refine hfire _ e (failedNow e now window ran) hget ?_ (failedNow_count e now window ran)
      (Int.not_lt.mp hwait)
    rw [modifyTask, SortedMap.get?_modify, if_pos rfl, hpush]
    rfl

theorem startFailed_congr (hfire : ∀ a₁ e e₁, a.tasks.get? id = some e →
      a₁.tasks.get? id = some e₁ → e₁.task.restartCount = e.task.restartCount →
      e₁.task.restartCount ≤ 0 → restartFire b a₁ now id = restartFire b' a₁ now id) :
    startFailed b a now id = startFailed b' a now id := by
  rw [startFailed, startFailed]
  rcases hget : a.tasks.get? id with - | e
  · rfl
  have hmark : (a.modifyTask id fun e => { e with task := { e.task with state := .failed } }).tasks.get?
      id = some { e with task := { e.task with state := .failed } } := by
    rw [modifyTask, SortedMap.get?_modify, if_pos rfl, hget]
    rfl
  dsimp only
  refine scheduleRestart_congr fun a₁ e₀ e₁ he₀ he₁ hcount hle => ?_
  obtain rfl : { e with task := { e.task with state := .failed } } = e₀ := by
    refine Option.some.inj (hmark.symm.trans ?_)
    split_ifs at he₀
    · exact he₀
    · exact he₀
  exact hfire a₁ e e₁ hget he₁ (hcount.resolve_right fun h => Bool.false_ne_true h.1) hle

/-- A task that was restarted before is not restarted at once. -/
theorem startFailed_of_pos (h : ∀ e, a.tasks.get? id = some e → 0 < e.task.restartCount) :
    startFailed b a now id = startFailed b' a now id :=
  startFailed_congr fun _ e _ he _ hcount hle =>
    absurd (hcount ▸ hle) (Int.not_le.mpr (h e he))

/-- What is fired again begins with a count that is positive. -/
theorem restartFire_begins (h : ∀ e, a.tasks.get? id = some e → 0 ≤ e.task.restartCount) (rounds : ℕ) :
    restartFire begins a now id = restartFire (beginStart (rounds + 1)) a now id := by
  rw [restartFire, restartFire]
  by_cases hdown : a.shuttingDown = true
  · rw [if_pos hdown, if_pos hdown]
  rw [if_neg hdown, if_neg hdown]
  rcases hget : a.tasks.get? id with - | old
  · rfl
  dsimp only
  rcases a.jobs.get? old.task.jobName with - | job
  · rfl
  dsimp only
  rcases a.resolveJobForRun job with why | job'
  · rfl
  refine begins_eq _ now _ (startFailed_of_pos fun e he => ?_)
  rw [insertEntry, SortedMap.get?_insert_self] at he
  rw [← Option.some.inj he]
  have hold := h old hget
  dsimp only
  rw [satI64, i64Min, i64Max]
  omega

theorem startFailed_begins (h : ∀ e, a.tasks.get? id = some e → 0 ≤ e.task.restartCount) (rounds : ℕ) :
    startFailed begins a now id = startFailed (beginStart (rounds + 1)) a now id :=
  startFailed_congr fun a₁ e e₁ he he₁ hcount _ => restartFire_begins (fun e₂ he₂ => by
    rw [← Option.some.inj (he₁.symm.trans he₂), hcount]
    exact h e he) rounds

theorem scheduleRestart_begins (h : ∀ e, a.tasks.get? id = some e → 0 ≤ e.task.restartCount)
    (ran : Bool) (rounds : ℕ) :
    scheduleRestart begins a now id ran = scheduleRestart (beginStart (rounds + 1)) a now id ran :=
  scheduleRestart_congr fun a₁ e e₁ he he₁ hcount _ => restartFire_begins (fun e₂ he₂ => by
    rw [← Option.some.inj (he₁.symm.trans he₂)]
    rcases hcount with hcount | ⟨-, hcount⟩
    · rw [hcount]
      exact h e he
    · exact hcount.ge) rounds

/-- **The bound on the rounds cuts nothing.** -/
theorem begins_eq_start (h : ∀ e, a.tasks.get? id = some e → 0 ≤ e.task.restartCount) :
    a.begins now id = a.start now id :=
  begins_eq a now id (startFailed_begins h 0)

end Agent

end Hop.Node
