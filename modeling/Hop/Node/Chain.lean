import Hop.Node.Input

/-!
# The chain of a restart

The calls that one call of the restart code leads to, one after the other: `beginStart`,
`startFailed`, `scheduleRestart`, `restartDecide`, `restartFire` and `beginStart` again. Each of them
calls at most one other, as the last thing it does, so a chain is a run of steps with the next call as
its state; there is no bound on it. Here memory may also run out in any call. What cuts the chain is
how often a task may still be restarted at once (`Agent.tries`), which nothing but a fired restart
uses up and nothing in the chain gives back (`call_spec`).
-/

namespace Hop.Node

open Hop.Types (Job Task TaskState)

/-- Whether there is memory for the copies that a call makes. -/
structure Memory where
  /-- For the job of this node. -/
  resolves : Bool
  /-- For a copy of the job. -/
  clones : Bool
  /-- For the id of a new task: without it no number is drawn. -/
  draws : Bool
  /-- For the rest of a new task. -/
  creates : Bool

/-- Memory for everything. -/
def Memory.plenty : Memory := ⟨true, true, true, true⟩

/-- A call that is to be made. -/
inductive Todo
  /-- The timer of a restart ran out (`tick`). -/
  | due (id : String)
  | beginStart (id : String)
  | startFailed (id : String)
  | scheduleRestart (id : String) (ran : Bool)
  | restartDecide (id : String) (ran : Bool)
  | restartFire (id : String)
deriving DecidableEq

/-- The task that a call is about. -/
def Todo.id : Todo → String
  | .due id => id
  | .beginStart id => id
  | .startFailed id => id
  | .scheduleRestart id _ => id
  | .restartDecide id _ => id
  | .restartFire id => id

namespace Agent

/-- `resolve_job_for_run`, which copies the job. -/
def resolveIn (a : Agent) (mem : Memory) (job : Job) : Option Job :=
  if mem.resolves then (a.resolveJobForRun job).toOption else none

/-- What a call does by itself, the call it ends in, and the task that was fired again with the one
that takes its place. -/
def call (now : Nanos) (mem : Memory) (a : Agent) : Todo → Agent × Option Todo × Option (String × String)
  | .due id => (a.modifyTask id fun e => { e with restartAt := none }, some (.restartFire id), none)
  | .beginStart id =>
    match a.tasks.get? id with
    | none => (a, none, none)
    | some e =>
      match (a.jobs.get? e.task.jobName).bind (a.resolveIn mem) with
      | some job =>
        ((a.modifyTask id fun e => { e with starting := true }).push (.start id job), none, none)
      | none => (a, some (.startFailed id), none)
  | .startFailed id =>
    match a.tasks.get? id with
    | none => (a, none, none)
    | some e =>
      let a := a.modifyTask id fun e => { e with task := { e.task with state := .failed } }
      let a := if e.firstStart then a.push (.notify e.task.jobName .crash) else a
      (a, some (.scheduleRestart id false), none)
  | .scheduleRestart id ran =>
    let a := match a.tasks.get? id with
      | some e => a.push (stopAction e.task)
      | none => a
    (a, some (.restartDecide id ran), none)
  | .restartDecide id ran =>
    match a.tasks.get? id with
    | none => (a, none, none)
    | some e =>
      match a.jobs.get? e.task.jobName with
      | none => (a.forget id, none, none)
      | some job =>
        let max := job.maxRestarts.getD defaultMaxRestarts
        let window := if 0 < job.restartWindow then job.restartWindow else defaultRestartWindow
        let (rand, ids) := a.ids.nextU64
        let a := { a with ids := ids }
        let e := failedNow e now window ran
        let count := e.task.restartCount
        if 0 ≤ max ∧ max ≤ count then
          (a.modifyTask id fun _ =>
            { e with task := { e.task with state := .failed }, restartAt := none }, none, none)
        else if 0 < count then
          let at' := satAdd u64Max now (restartDelay count rand)
          (a.modifyTask id fun _ =>
            { e with task := { e.task with nextRestartAt := at' }, restartAt := some at' }, none, none)
        else (a.modifyTask id fun _ => e, some (.restartFire id), none)
  | .restartFire id =>
    if a.shuttingDown then (a, none, none)
    else match a.tasks.get? id with
      | none => (a, none, none)
      | some old =>
        match a.jobs.get? old.task.jobName with
        | none => (a.forget id, none, none)
        | some job =>
          match a.resolveIn mem job with
          | none => (a.modifyTask id fun e => { e with task := { e.task with state := .failed } },
              none, none)
          | some _ =>
            if mem.clones ∧ mem.draws then
              let (replacement, a') := a.newTask now job
              if mem.creates then
                let replacement := { replacement with
                  restartCount := satI64 (old.task.restartCount + 1)
                  lastFailedAt := old.task.lastFailedAt }
                ((a'.forget id).insertEntry replacement false, some (.beginStart replacement.id),
                  some (id, replacement.id))
              else (a', none, none)
            else (a, none, none)

/-- How often a task may still be restarted at once, if it cannot start. -/
def tries (a : Agent) (id : String) : ℕ :=
  (a.tasks.get? id).elim 0 fun e => (1 - e.task.restartCount).toNat

end Agent

namespace Todo

/-- How many restarts a chain that starts with this call fires at most. A task that has been up for a
while gets one more. -/
def fires (a : Agent) : Todo → ℕ
  | .due id => max (a.tries id) 1
  | .beginStart id => a.tries id
  | .startFailed id => a.tries id
  | .scheduleRestart id ran => if ran then max (a.tries id) 1 else a.tries id
  | .restartDecide id ran => if ran then max (a.tries id) 1 else a.tries id
  | .restartFire id => max (a.tries id) 1

/-- How many calls until a restart is fired. -/
def height : Todo → ℕ
  | .due _ => 1
  | .beginStart _ => 4
  | .startFailed _ => 3
  | .scheduleRestart _ _ => 2
  | .restartDecide _ _ => 1
  | .restartFire _ => 0

/-- A bound on the calls of a chain. -/
def bound (a : Agent) (t : Todo) : ℕ := 5 * t.fires a + t.height + 1

end Todo

namespace Agent

variable {a : Agent} {id : String} {now : Nanos} {mem : Memory}

theorem tries_of_some {e : Entry} (h : a.tasks.get? id = some e) :
    a.tries id = (1 - e.task.restartCount).toNat := by
  rw [tries, h]
  rfl

theorem tries_of_none (h : a.tasks.get? id = none) : a.tries id = 0 := by
  rw [tries, h]
  rfl

/-- An edit of a record that leaves its count alone. -/
theorem tries_modifyTask (a : Agent) (id : String) {f : Entry → Entry}
    (hf : ∀ e, (f e).task.restartCount = e.task.restartCount) (id' : String) :
    (a.modifyTask id f).tries id' = a.tries id' := by
  rw [tries, tries, modifyTask, SortedMap.get?_modify]
  split_ifs
  · rcases a.tasks.get? id' with - | e
    · rfl
    · exact congrArg (fun n : ℤ => (1 - n).toNat) (hf e)
  · rfl

theorem tries_push (a : Agent) (x : Action) (id : String) : (a.push x).tries id = a.tries id := rfl

/-- The next count is larger, as long as a restart may be fired at once. -/
theorem toNat_next_lt (count : ℤ) :
    (1 - satI64 (count + 1)).toNat < max (1 - count).toNat 1 := by
  rw [satI64, i64Min, i64Max]
  omega

/-- The count after a failure is the one before, or zero after enough time up. -/
theorem failedNow_count (e : Entry) (now window : Nanos) (ran : Bool) :
    (failedNow e now window ran).task.restartCount = e.task.restartCount ∨
      ran = true ∧ (failedNow e now window ran).task.restartCount = 0 := by
  rw [failedNow]
  dsimp only
  split_ifs with hearned
  · rw [Bool.and_eq_true, Bool.and_eq_true] at hearned
    exact .inr ⟨hearned.1.1, rfl⟩
  · exact .inl rfl

/-- What the reply of a call may be: the end of the chain, a call that is nearer to a restart, or the
start of a new task. -/
def Nearer (a : Agent) (t : Todo) (r : Agent × Option Todo × Option (String × String)) : Prop :=
  r.2 = (none, none) ∨ ∃ t', r.2.1 = some t' ∧
    (r.2.2 = none ∧ t'.fires r.1 ≤ t.fires a ∧ t'.height < t.height ∨
      r.2.2.isSome = true ∧ t'.fires r.1 < t.fires a ∧ t'.height = 4)

theorem nearer_startFailed (a : Agent) (id : String) (now : Nanos) (mem : Memory) :
    Nearer a (.startFailed id) (a.call now mem (.startFailed id)) := by
  rw [Agent.call]
  rcases hget : a.tasks.get? id with - | e
  · exact .inl rfl
  · have hmark := a.tries_modifyTask id
      (f := fun e => { e with task := { e.task with state := .failed } }) (fun _ => rfl) id
    refine .inr ⟨.scheduleRestart id false, rfl, .inl ⟨rfl, ?_, Nat.lt_succ_self 2⟩⟩
    dsimp only
    rw [Todo.fires, Todo.fires, if_neg Bool.false_ne_true]
    split_ifs
    · rw [tries_push, hmark]
    · rw [hmark]

theorem nearer_restartDecide (a : Agent) (id : String) (ran : Bool) (now : Nanos) (mem : Memory) :
    Nearer a (.restartDecide id ran) (a.call now mem (.restartDecide id ran)) := by
  rw [Agent.call]
  rcases hget : a.tasks.get? id with - | e
  · exact .inl rfl
  · dsimp only
    rcases a.jobs.get? e.task.jobName with - | job
    · exact .inl rfl
    · dsimp only
      generalize (if 0 < job.restartWindow then job.restartWindow else defaultRestartWindow) = window
      generalize job.maxRestarts.getD defaultMaxRestarts = max₀
      split_ifs with hmax hwait
      · exact .inl rfl
      · exact .inl rfl
      · refine .inr ⟨.restartFire id, rfl, .inl ⟨rfl, ?_, Nat.zero_lt_one⟩⟩
        have hnew : (modifyTask { a with ids := a.ids.nextU64.2 } id
            fun _ => failedNow e now window ran).tries id =
            (1 - (failedNow e now window ran).task.restartCount).toNat := by
          refine tries_of_some ?_
          rw [modifyTask, SortedMap.get?_modify, if_pos rfl, hget]
          rfl
        rw [Todo.fires, Todo.fires, hnew, tries_of_some hget]
        rcases failedNow_count e now window ran with hcount | ⟨hran, hcount⟩
        · rw [hcount] at hwait ⊢
          split_ifs
          · exact le_rfl
          · omega
        · rw [hcount, if_pos hran]
          omega

theorem nearer_restartFire (a : Agent) (id : String) (now : Nanos) (mem : Memory) :
    Nearer a (.restartFire id) (a.call now mem (.restartFire id)) := by
  rw [Agent.call]
  by_cases hdown : a.shuttingDown = true
  · rw [if_pos hdown]
    exact .inl rfl
  rw [if_neg hdown]
  rcases hget : a.tasks.get? id with - | old
  · exact .inl rfl
  dsimp only
  rcases a.jobs.get? old.task.jobName with - | job
  · exact .inl rfl
  dsimp only
  rcases a.resolveIn mem job with - | _
  · exact .inl rfl
  dsimp only
  split_ifs
  · refine .inr ⟨_, rfl, .inr ⟨rfl, ?_, rfl⟩⟩
    rw [Todo.fires, Todo.fires, tries_of_some hget, tries_of_some (SortedMap.get?_insert_self _ _ _)]
    exact toNat_next_lt old.task.restartCount
  · exact .inl rfl
  · exact .inl rfl

/-- **What a call of the chain does to the restarts that are left.** -/
theorem call_spec (now : Nanos) (mem : Memory) (a : Agent) (t : Todo) :
    Nearer a t (a.call now mem t) := by
  rcases t with id | id | id | ⟨id, ran⟩ | ⟨id, ran⟩ | id
  · refine .inr ⟨.restartFire id, rfl, .inl ⟨rfl, ?_, Nat.zero_lt_one⟩⟩
    rw [Agent.call, Todo.fires, Todo.fires, tries_modifyTask]
    exact fun _ => rfl
  · rw [Agent.call]
    rcases a.tasks.get? id with - | e
    · exact .inl rfl
    · dsimp only
      rcases (a.jobs.get? e.task.jobName).bind (a.resolveIn mem) with - | job
      · exact .inr ⟨.startFailed id, rfl, .inl ⟨rfl, le_rfl, Nat.lt_succ_self 3⟩⟩
      · exact .inl rfl
  · exact nearer_startFailed a id now mem
  · refine .inr ⟨.restartDecide id ran, rfl, .inl ⟨rfl, ?_, Nat.lt_succ_self 1⟩⟩
    rw [Agent.call]
    rcases a.tasks.get? id with - | e
    · exact le_rfl
    · exact le_rfl
  · exact nearer_restartDecide a id ran now mem
  · exact nearer_restartFire a id now mem

end Agent

/-! ### A chain of calls -/

/-- A chain that is under way. -/
structure Chain where
  agent : Agent
  /-- The next call. -/
  todo : Option Todo
  /-- The tasks that were fired again, each with the one in its place. -/
  fired : List (String × String) := []
  /-- How many calls were made. -/
  calls : ℕ := 0

namespace Chain

/-- The next call is made; `mem` says for each call what there is memory for. -/
def step (now : Nanos) (mem : ℕ → Memory) (c : Chain) : Chain :=
  match c.todo with
  | none => c
  | some t =>
    let r := c.agent.call now (mem c.calls) t
    ⟨r.1, r.2.1, c.fired ++ r.2.2.toList, c.calls + 1⟩

/-- The calls of the chain until it ends. -/
def finish (now : Nanos) (mem : ℕ → Memory) (a : Agent) (t : Todo) : Chain :=
  (step now mem)^[t.bound a] ⟨a, some t, [], 0⟩

/-- How many calls are left at most. -/
def left (c : Chain) : ℕ := c.todo.elim 0 fun t => t.bound c.agent

/-- How many restarts are left at most. -/
def fires (c : Chain) : ℕ := c.todo.elim 0 fun t => t.fires c.agent

variable {now : Nanos} {mem : ℕ → Memory} {c : Chain}

theorem step_of_none (h : c.todo = none) : step now mem c = c := by
  rw [step, h]

theorem iterate_of_none (h : c.todo = none) (n : ℕ) : (step now mem)^[n] c = c :=
  Function.iterate_fixed (step_of_none h) n

/-- A step uses up calls, and a restart that it fires. -/
theorem step_spec (now : Nanos) (mem : ℕ → Memory) (c : Chain) :
    (step now mem c).left ≤ c.left - 1 ∧
      (step now mem c).fired.length + (step now mem c).fires ≤ c.fired.length + c.fires := by
  rcases htodo : c.todo with - | t
  · rw [step_of_none htodo, left, htodo]
    exact ⟨le_rfl, le_rfl⟩
  · have hspec := Agent.call_spec now (mem c.calls) c.agent t
    rw [step, htodo, left, left, fires, fires, htodo]
    dsimp only
    rcases hspec with hend | ⟨t', htodo', ⟨hnone, hfires, hheight⟩ | ⟨hsome, hfires, hheight⟩⟩
    · rw [hend]
      refine ⟨Nat.zero_le _, ?_⟩
      rw [Option.toList_none, List.append_nil]
      exact Nat.le_add_right _ _
    · rw [htodo', hnone, Option.toList_none, List.append_nil, Option.elim_some, Option.elim_some,
        Option.elim_some, Option.elim_some, Todo.bound, Todo.bound]
      omega
    · obtain ⟨p, hp⟩ := Option.isSome_iff_exists.mp hsome
      rw [htodo', hp, Option.toList_some, List.length_append, List.length_singleton,
        Option.elim_some, Option.elim_some, Option.elim_some, Option.elim_some, Todo.bound,
        Todo.bound]
      omega

theorem iterate_spec (now : Nanos) (mem : ℕ → Memory) (n : ℕ) (c : Chain) :
    ((step now mem)^[n] c).left ≤ c.left - n ∧
      ((step now mem)^[n] c).fired.length ≤ c.fired.length + c.fires := by
  induction n generalizing c with
  | zero => exact ⟨le_rfl, Nat.le_add_right _ _⟩
  | succ n ih =>
    obtain ⟨hleft, hfired⟩ := step_spec now mem c
    obtain ⟨hleft', hfired'⟩ := ih (step now mem c)
    rw [Function.iterate_succ_apply]
    omega

theorem todo_of_left (h : c.left = 0) : c.todo = none := by
  rcases htodo : c.todo with - | t
  · rfl
  · rw [left, htodo, Option.elim_some, Todo.bound] at h
    cases h

/-- **Every chain ends**, and fires no more restarts than were left when it began. -/
theorem finish_spec (now : Nanos) (mem : ℕ → Memory) (a : Agent) (t : Todo) :
    (finish now mem a t).todo = none ∧ (finish now mem a t).fired.length ≤ t.fires a := by
  obtain ⟨hleft, hfired⟩ := iterate_spec now mem (t.bound a) ⟨a, some t, [], 0⟩
  refine ⟨todo_of_left ?_, ?_⟩
  · exact Nat.eq_zero_of_le_zero (hleft.trans (Nat.sub_eq_zero_of_le le_rfl).le)
  · exact hfired.trans (Nat.zero_add _).le

/-- However many calls are looked at, the chain that has ended by then is the whole one. -/
theorem finish_of_iterate {a : Agent} {t : Todo} {n : ℕ}
    (h : ((step now mem)^[n] ⟨a, some t, [], 0⟩).todo = none) :
    (step now mem)^[n] ⟨a, some t, [], 0⟩ = finish now mem a t := by
  have hfinish := (finish_spec now mem a t).1
  rw [finish] at hfinish ⊢
  rcases Nat.le_total n (t.bound a) with hle | hle
  · obtain ⟨k, hk⟩ := Nat.exists_eq_add_of_le' hle
    rw [hk, Function.iterate_add_apply, iterate_of_none h]
  · obtain ⟨k, hk⟩ := Nat.exists_eq_add_of_le' hle
    rw [hk, Function.iterate_add_apply, iterate_of_none hfinish]

end Chain

end Hop.Node
