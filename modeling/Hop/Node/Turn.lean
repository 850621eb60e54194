import Hop.Node.Input

/-!
# The turns of a task record

Whatever an agent is told, what happens to its task table is a row of turns of single records: a
record is edited, comes up, goes down, is fired again under a new id, or is taken away. `Turn` says
for each kind of turn what becomes of the record and what the agent asks of its executor; `Path` is
a row of turns of given kinds, and every input is one. The results about the life of a task are
proved for each kind of turn, and so hold for every input.
-/

namespace Hop.Node

open Hop.Types (Driver Job Map Task TaskState)

variable {Q : Prop} {kind : Kind} {K : Kind → Prop}

/-- The ids of the tasks that a list of actions starts. -/
def startIds (acts : List Action) : List String :=
  acts.filterMap fun x => match x with
    | .start id _ => some id
    | _ => none

@[simp] theorem startIds_append (xs ys : List Action) :
    startIds (xs ++ ys) = startIds xs ++ startIds ys :=
  List.filterMap_append

/-- Whether an action starts or stops a task. -/
def Action.isOrder : Action → Bool
  | .start _ _ => true
  | .stop _ _ _ => true
  | _ => false

theorem startIds_of_quiet {acts : List Action} (h : ∀ x ∈ acts, x.isOrder = false) :
    startIds acts = [] := by
  refine List.filterMap_eq_nil_iff.mpr fun x hx => ?_
  have hquiet := h x hx
  cases x with
  | start id job => cases hquiet
  | _ => rfl

/-- The stop of a task is among the actions. -/
def Stops (task : Task) (acts : List Action) : Prop := ∃ driver, .stop task.id driver task.pid ∈ acts

/-- A task as it is born: it has what its job asks for, and waits for its start. -/
structure Newborn (job : Job) (id : String) (task : Task) : Prop where
  id : task.id = id
  jobName : task.jobName = job.name
  cpuShares : task.cpuShares = job.cpuShares
  memoryLimit : task.memoryLimit = job.memoryLimit
  core : task.core = none
  state : task.state = .queued

/-- The kinds of turns. -/
inductive Kind
  | check
  | measure
  | progress
  | up
  | down
  | crash
  | due
  | again
  | lost
  | stop
  | handBack
  | ghost
  | dead
  | born
  | stillborn
  | note
  | define
  | halt
deriving DecidableEq

/-- The id of the draw `k` is a new one of the step from `a` to `a'`. -/
structure Drawn (a a' : Agent) (k : ℕ) (id : String) : Prop where
  after : a.ids.draws < k
  upTo : k ≤ a'.ids.draws
  id : id = Ids.idOf a.ids.seed k

/-- How a task goes down: its start failed, or it crashed while it was running. -/
def GoesDown (kind : Kind) (e : Entry) (starting : Bool) : Prop :=
  kind = .down ∧ starting = false ∨
    kind = .crash ∧ starting = e.starting ∧ e.task.state = .running

/-- What becomes of the record under `id`, and what the executor is asked to do. With `Q`, a
restart that is due comes from a record that waits for one. -/
inductive Turn (Q : Prop) (a a' : Agent) (id : String) :
    Kind → Option Entry → Option (String × Entry) → List Action → Prop
  | check (e : Entry) (check : Check) (acts : List Action) (hacts : ∀ x ∈ acts, x.isOrder = false) :
      Turn Q a a' id .check (some e) (some (id, { e with check := check })) acts
  | measure (e : Entry) (cores : ℕ) (core : Option ℕ) :
      Turn Q a a' id .measure (some e)
        (some (id, { e with task := { e.task with cores := cores, core := core } })) []
  | progress (e : Entry) (downloaded total : ℕ)
      (hstate : e.task.state = .queued ∨ e.task.state = .downloading) :
      Turn Q a a' id .progress (some e) (some (id, { e with task := { e.task with
        state := .downloading, downloaded := downloaded, imageSize := total } })) []
  | up (e : Entry) (now : Nanos) (ok : StartOk) (acts : List Action)
      (hstate : e.task.state ≠ .stopping) (hacts : ∀ x ∈ acts, x.isOrder = false) :
      Turn Q a a' id .up (some e) (some (id, { e with starting := false, task := { e.task with
        state := .running, pid := ok.pid, ports := ok.ports, startedAt := now
        nextRestartAt := 0 } })) acts
  /-- The task is stopped, and waits for its restart or has failed. -/
  | down (kind : Kind) (e : Entry) (st : TaskState) (count : ℤ) (failedAt nextAt : Nanos)
      (check : Check) (restartAt : Option Nanos) (starting : Bool) (acts : List Action)
      (hkind : GoesDown kind e starting)
      (hst : st = .failed ∨ st = .stopping ∧ (restartAt.isSome = true ∨ a.shuttingDown = true))
      (hstop : Stops e.task acts) (hstart : startIds acts = []) :
      Turn Q a a' id kind (some e) (some (id, { e with
        task := { e.task with
          state := st, restartCount := count, lastFailedAt := failedAt, nextRestartAt := nextAt }
        check := check, restartAt := restartAt, starting := starting })) acts
  /-- A restart that is due cannot be fired. -/
  | due (e : Entry) (st : TaskState) (hat : Q → e.restartAt.isSome = true)
      (hst : st = .failed ∨ st = e.task.state ∧ a.shuttingDown = true) :
      Turn Q a a' id .due (some e)
        (some (id, { e with task := { e.task with state := st }, restartAt := none })) []
  /-- A restart: a new record of the same job, under a new id. -/
  | again (e : Entry) (job : Job) (k : ℕ) (newId : String) (task : Task) (acts : List Action)
      (hjob : a.jobs.get? e.task.jobName = some job) (hid : Drawn a a' k newId)
      (hnew : Newborn job newId task) (hstart : startIds acts = [newId])
      (hstop : Stops e.task acts ∨ (Q → e.restartAt.isSome = true)) :
      Turn Q a a' id .again (some e)
        (some (newId, { task := task, firstStart := false, starting := true })) acts
  /-- A restart of a job that is gone. -/
  | lost (e : Entry) (acts : List Action) (hjob : a.jobs.get? e.task.jobName = none)
      (hstart : startIds acts = [])
      (hstop : Stops e.task acts ∨ (Q → e.restartAt.isSome = true)) :
      Turn Q a a' id .lost (some e) none acts
  | stop (e : Entry) : Turn Q a a' id .stop (some e) none [stopAction e.task]
  | handBack (e : Entry) :
      Turn Q a a' id .handBack (some e) none [.notify e.task.jobName .unplaceable]
  /-- A start that worked, of a task that was taken away meanwhile. -/
  | ghost (driver : Driver) (pid : ℤ) : Turn Q a a' id .ghost none none [.stop id driver pid]
  /-- A start that worked, of a task that is on its way out. -/
  | dead (e : Entry) (driver : Driver) (pid : ℤ)
      (hdead : e.task.state = .stopping ∨ a.jobs.get? e.task.jobName = none) :
      Turn Q a a' id .dead (some e) none [.stop id driver pid]
  | born (pre : Option Entry) (job job' : Job) (k : ℕ) (task : Task) (hid : Drawn a a' k id)
      (hnew : Newborn job id task) :
      Turn Q a a' id .born pre (some (id, { task := task, firstStart := true, starting := true }))
        [.start id job']
  /-- A new task of a job that cannot start here. -/
  | stillborn (pre : Option Entry) (job : Job) (k : ℕ) (task : Task) (e : Entry)
      (acts : List Action) (hid : Drawn a a' k id) (hnew : Newborn job id task)
      (hstart : startIds acts = []) (hstarting : e.starting = false) (hat : e.restartAt = none)
      (htask : ∃ count failedAt nextAt, e.task = { task with
        state := .failed, restartCount := count, lastFailedAt := failedAt
        nextRestartAt := nextAt }) :
      Turn Q a a' id .stillborn pre (some (id, e)) acts

/-- The record is about the same task. -/
structure Continues (e e' : Entry) : Prop where
  id : e'.task.id = e.task.id
  jobName : e'.task.jobName = e.task.jobName
  cpuShares : e'.task.cpuShares = e.task.cpuShares
  memoryLimit : e'.task.memoryLimit = e.task.memoryLimit

/-- The record is one of a new task of the job. -/
structure FreshOf (job : Job) (id : String) (e : Entry) : Prop where
  id : e.task.id = id
  jobName : e.task.jobName = job.name
  cpuShares : e.task.cpuShares = job.cpuShares
  memoryLimit : e.task.memoryLimit = job.memoryLimit

/-- **Where a record comes from**: it goes on from the one before, or it is new. -/
theorem Turn.origin {a a' : Agent} {id newId : String} {pre : Option Entry} {acts : List Action}
    {e' : Entry} (h : Turn Q a a' id kind pre (some (newId, e')) acts) :
    (∃ e, pre = some e ∧ newId = id ∧ Continues e e') ∨
      ∃ job k, Drawn a a' k newId ∧ FreshOf job newId e' := by
  cases h with
  | again e job k newId task acts hjob hid hnew hstart hstop =>
    exact .inr ⟨job, k, hid, hnew.id, hnew.jobName, hnew.cpuShares, hnew.memoryLimit⟩
  | born pre job job' k task hid hnew =>
    exact .inr ⟨job, k, hid, hnew.id, hnew.jobName, hnew.cpuShares, hnew.memoryLimit⟩
  | stillborn pre job k task e acts hid hnew hstart hstarting hat htask =>
    obtain ⟨count, failedAt, nextAt, htask⟩ := htask
    refine .inr ⟨job, k, hid, ?_, ?_, ?_, ?_⟩ <;> rw [htask]
    · exact hnew.id
    · exact hnew.jobName
    · exact hnew.cpuShares
    · exact hnew.memoryLimit
  | _ => exact .inl ⟨_, rfl, rfl, rfl, rfl, rfl, rfl⟩

/-- Put a record in the table, if there is one. -/
def putRecord (tasks : Map Entry) : Option (String × Entry) → Map Entry
  | none => tasks
  | some (id, e) => tasks.insert id e

/-- What every turn does with the rest of the agent. -/
structure Frame (a a' : Agent) (acts : List Action) : Prop where
  seed : a'.ids.seed = a.ids.seed
  draws : a.ids.draws ≤ a'.ids.draws
  out : a'.out = a.out ++ acts

/-- A turn of the record under `id`. -/
structure TurnsAt (Q : Prop) (id : String) (kind : Kind) (a a' : Agent) (post : Option (String × Entry))
    (acts : List Action) : Prop where
  turn : Turn Q a a' id kind (a.tasks.get? id) post acts
  tasks : a'.tasks = putRecord (a.tasks.erase id) post
  jobs : a'.jobs = a.jobs
  down : a'.shuttingDown = a.shuttingDown
  settings : a'.settings = a.settings
  frame : Frame a a' acts

/-- Every job is filed under its name. -/
def Agent.Keyed (a : Agent) : Prop := ∀ name job, a.jobs.get? name = some job → job.name = name

/-- A step of an agent: a turn of a record, a change of the job table, the beginning of the end,
or nothing that the records depend on. -/
inductive Move (Q : Prop) : Kind → Agent → Agent → Prop
  | turn {kind : Kind} {a a' : Agent} (id : String) (post : Option (String × Entry))
      (acts : List Action) (h : TurnsAt Q id kind a a' post acts) : Move Q kind a a'
  | note {a a' : Agent} (acts : List Action) (hacts : ∀ x ∈ acts, x.isOrder = false)
      (htasks : a'.tasks = a.tasks) (hjobs : a'.jobs = a.jobs)
      (hdown : a'.shuttingDown = a.shuttingDown) (h : Frame a a' acts) : Move Q .note a a'
  | define {a a' : Agent} (htasks : a'.tasks = a.tasks) (hkeyed : a.Keyed → a'.Keyed)
      (hdown : a'.shuttingDown = a.shuttingDown) (h : Frame a a' []) : Move Q .define a a'
  | halt {a a' : Agent} (htasks : a'.tasks = a.tasks) (hjobs : a'.jobs = a.jobs)
      (hdown : a'.shuttingDown = true) (h : Frame a a' []) : Move Q .halt a a'

/-- Steps of the kinds `K`, one after the other. -/
def Path (Q : Prop) (K : Kind → Prop) : Agent → Agent → Prop :=
  Relation.ReflTransGen fun a a' => ∃ kind, K kind ∧ Move Q kind a a'

namespace Path

variable {Q : Prop} {K K' : Kind → Prop} {a a' a'' : Agent}

theorem refl (a : Agent) : Path Q K a a := Relation.ReflTransGen.refl

theorem of_eq (h : a' = a) : Path Q K a a' := h ▸ .refl a'

theorem trans (h : Path Q K a a') (h' : Path Q K a' a'') : Path Q K a a'' :=
  Relation.ReflTransGen.trans h h'

theorem one (h : Move Q kind a a') (hK : K kind) : Path Q K a a' :=
  Relation.ReflTransGen.single ⟨kind, hK, h⟩

theorem turn {id : String} {post : Option (String × Entry)} {acts : List Action}
    (h : TurnsAt Q id kind a a' post acts) (hK : K kind) : Path Q K a a' :=
  .one (.turn id post acts h) hK

theorem mono (h : Path Q K a a') (hK : ∀ kind, K kind → K' kind) : Path Q K' a a' := by
  induction h with
  | refl => exact .refl a
  | tail _ hstep ih =>
    obtain ⟨kind, hkind, hmove⟩ := hstep
    exact ih.trans (.one hmove (hK kind hkind))

/-- **What every step of the kinds keeps, a path keeps.** -/
theorem invariant {P : Agent → Prop} (h : Path Q K a a')
    (hP : ∀ a a' kind, K kind → Move Q kind a a' → P a → P a') (ha : P a) : P a' := by
  induction h with
  | refl => exact ha
  | tail _ hstep ih =>
    obtain ⟨kind, hkind, hmove⟩ := hstep
    exact hP _ _ kind hkind hmove ih

/-- The jobs stay filed under their names. -/
theorem keyed (h : Path Q K a a') (hk : a.Keyed) : a'.Keyed := by
  refine h.invariant (P := Agent.Keyed) (fun a a' kind _ hmove hk => ?_) hk
  have hsame : a'.jobs = a.jobs → a'.Keyed := by
    intro hjobs name job hjob
    rw [hjobs] at hjob
    exact hk name job hjob
  cases hmove with
  | turn id post acts h => exact hsame h.jobs
  | note acts hacts htasks hjobs hdown h => exact hsame hjobs
  | define htasks hkeyed hdown h => exact hkeyed hk
  | halt htasks hjobs hdown h => exact hsame hjobs

end Path

namespace TurnsAt

variable {Q : Prop} {id id' : String} {kind : Kind} {a a' : Agent} {post : Option (String × Entry)}
  {acts : List Action}

/-- What is in the table after a turn was put there or was there before. -/
theorem mem (h : TurnsAt Q id kind a a' post acts) {e : Entry} (he : a'.tasks.get? id' = some e) :
    post = some (id', e) ∨ id' ≠ id ∧ a.tasks.get? id' = some e := by
  rw [h.tasks] at he
  cases post with
  | none =>
    rw [putRecord, SortedMap.get?_erase] at he
    split_ifs at he with hid
    exact .inr ⟨fun heq => hid heq.symm, he⟩
  | some p =>
    obtain ⟨newId, new⟩ := p
    rw [putRecord, SortedMap.get?_insert] at he
    split_ifs at he with hnew
    · cases he
      exact .inl (by rw [hnew])
    · rw [SortedMap.get?_erase] at he
      split_ifs at he with hid
      exact .inr ⟨fun heq => hid heq.symm, he⟩

/-- A turn leaves the other records alone. -/
theorem get?_of_ne (h : TurnsAt Q id kind a a' post acts) (hne : id' ≠ id)
    (hpost : ∀ newId e, post = some (newId, e) → newId ≠ id') :
    a'.tasks.get? id' = a.tasks.get? id' := by
  rw [h.tasks]
  cases post with
  | none => rw [putRecord, SortedMap.get?_erase, if_neg hne.symm]
  | some p =>
    rw [putRecord, SortedMap.get?_insert, if_neg (hpost p.1 p.2 rfl), SortedMap.get?_erase,
      if_neg hne.symm]

end TurnsAt

namespace Agent

/-! ### Filed records -/

/-- Every record is filed under the id of its task, and the agent drew that id. -/
structure Filed (a : Agent) : Prop where
  key : ∀ {id e}, a.tasks.get? id = some e → e.task.id = id
  drawn : ∀ {id e}, a.tasks.get? id = some e →
    ∃ i, 1 ≤ i ∧ i ≤ a.ids.draws ∧ id = Ids.idOf a.ids.seed i

theorem filed_new (settings : Settings) : (new settings).Filed where
  key he := by cases he
  drawn he := by cases he

end Agent

/-- Among the first `2 ^ 64` draws, an id is drawn once. -/
theorem Ids.idOf_inj {seed : BitVec 64} {i j : ℕ} (h : Ids.idOf seed i = Ids.idOf seed j)
    (hi : 1 ≤ i ∧ i ≤ 2 ^ 64) (hj : 1 ≤ j ∧ j ≤ 2 ^ 64) : i = j := by
  have hmod := Ids.idOf_injective h
  omega

namespace Agent

/-- An id that is drawn is none that the agent drew before. -/
theorem Filed.ne_of_drawn {a a' : Agent} {k : ℕ} {newId : String} (hid : Drawn a a' k newId)
    (hd : a'.ids.draws ≤ 2 ^ 64) {i : ℕ} (hi : 1 ≤ i) (hle : i ≤ a.ids.draws) :
    newId ≠ Ids.idOf a.ids.seed i := by
  intro heq
  have hafter := hid.after
  have hupTo := hid.upTo
  have hki := Ids.idOf_inj (hid.id.symm.trans heq) ⟨by omega, by omega⟩ ⟨hi, by omega⟩
  omega

/-- A new id is not in use. -/
theorem Filed.fresh {a a' : Agent} (h : a.Filed) {k : ℕ} {newId : String} (hid : Drawn a a' k newId)
    (hd : a'.ids.draws ≤ 2 ^ 64) : a.tasks.get? newId = none := by
  by_contra hne
  obtain ⟨e, he⟩ := Option.ne_none_iff_exists'.mp hne
  obtain ⟨i, hi, hle, heq⟩ := h.drawn he
  exact ne_of_drawn hid hd hi hle heq

end Agent

/-- The rest of the agent along a step. -/
theorem Move.frame {a a' : Agent} (h : Move Q kind a a') :
    ∃ acts, Frame a a' acts := by
  cases h with
  | turn id post acts h => exact ⟨acts, h.frame⟩
  | note acts hacts htasks hjobs hdown h => exact ⟨acts, h⟩
  | define htasks hkeyed hdown h => exact ⟨[], h⟩
  | halt htasks hjobs hdown h => exact ⟨[], h⟩

/-- The rest of the agent along a path. -/
theorem Path.frame {a a' : Agent} (h : Path Q K a a') :
    ∃ acts, Frame a a' acts := by
  refine h.invariant (P := fun b => ∃ acts, Frame a b acts) (fun b b' kind _ hmove hb => ?_)
    ⟨[], rfl, le_refl _, (List.append_nil _).symm⟩
  obtain ⟨acts, hseed, hdraws, hout⟩ := hb
  obtain ⟨acts', hseed', hdraws', hout'⟩ := hmove.frame
  exact ⟨acts ++ acts', hseed'.trans hseed, hdraws.trans hdraws', by
    rw [hout', hout, List.append_assoc]⟩

theorem Path.draws_le {a a' : Agent} (h : Path Q K a a') :
    a.ids.draws ≤ a'.ids.draws := by
  obtain ⟨acts, hf⟩ := h.frame
  exact hf.draws

/-- Only the beginning of the end changes whether an agent is shutting down. -/
theorem Path.down {a a' : Agent} (h : Path Q K a a') (hK : ¬ K .halt) :
    a'.shuttingDown = a.shuttingDown := by
  refine h.invariant (P := fun b => b.shuttingDown = a.shuttingDown)
    (fun b b' kind hkind hmove hb => ?_) rfl
  cases hmove with
  | turn id post acts h => exact h.down.trans hb
  | note acts hacts htasks hjobs hdown h => exact hdown.trans hb
  | define htasks hkeyed hdown h => exact hdown.trans hb
  | halt htasks hjobs hdown h => exact absurd hkind hK

/-- What every step keeps as long as few ids are drawn, a path keeps that draws few. -/
theorem Path.invariant_upTo {a a' : Agent} {P : Agent → Prop} (h : Path Q K a a') {n : ℕ}
    (hn : a'.ids.draws ≤ n)
    (hP : ∀ a a' kind, K kind → Move Q kind a a' → a'.ids.draws ≤ n → P a → P a') (ha : P a) :
    P a' := by
  refine h.invariant (P := fun b => b.ids.draws ≤ n → P b) (fun b b' kind hkind hmove ih hn => ?_)
    (fun _ => ha) hn
  obtain ⟨acts, hframe⟩ := hmove.frame
  exact hP b b' kind hkind hmove hn (ih (hframe.draws.trans hn))

theorem Move.filed {a a' : Agent} (h : Move Q kind a a') (hf : a.Filed) :
    a'.Filed := by
  obtain ⟨acts₀, hframe⟩ := h.frame
  have hdrawn : ∀ {id e}, a.tasks.get? id = some e →
      ∃ i, 1 ≤ i ∧ i ≤ a'.ids.draws ∧ id = Ids.idOf a'.ids.seed i := by
    intro id e he
    obtain ⟨i, hi, hle, heq⟩ := hf.drawn he
    exact ⟨i, hi, hle.trans hframe.draws, by rw [hframe.seed, heq]⟩
  have hsame : a'.tasks = a.tasks → a'.Filed := by
    intro htasks
    refine ⟨fun {id e} he => ?_, fun {id e} he => ?_⟩
    · exact hf.key (htasks ▸ he)
    · exact hdrawn (htasks ▸ he)
  cases h with
  | turn id post acts h =>
    have hrecord : ∀ {id' e}, a'.tasks.get? id' = some e → e.task.id = id' ∧
        ∃ i, 1 ≤ i ∧ i ≤ a'.ids.draws ∧ id' = Ids.idOf a'.ids.seed i := by
      intro id' e he
      rcases h.mem he with rfl | ⟨-, he⟩
      · rcases h.turn.origin with ⟨e₀, he₀, rfl, hcont⟩ | ⟨job, k, hid, hbegins⟩
        · exact ⟨hcont.id.trans (hf.key he₀), hdrawn he₀⟩
        · refine ⟨hbegins.id, k, (Nat.zero_le _).trans_lt hid.after, hid.upTo, ?_⟩
          rw [h.frame.seed, hid.id]
      · exact ⟨hf.key he, hdrawn he⟩
    exact ⟨fun he => (hrecord he).1, fun he => (hrecord he).2⟩
  | note acts hacts htasks hjobs hdown h => exact hsame htasks
  | define htasks hkeyed hdown h => exact hsame htasks
  | halt htasks hjobs hdown h => exact hsame htasks

theorem Path.filed {a a' : Agent} (h : Path Q K a a') (hf : a.Filed) :
    a'.Filed :=
  h.invariant (P := Agent.Filed) (fun _ _ _ _ hmove hf => hmove.filed hf) hf

end Hop.Node
