import Hop.Node.Ranges

/-!
# The hand-over

`agent/src/handoff.rs`: what a restart of Hop survives. The agent before writes its jobs and tasks
into a blob, with what its node gives along: the state of a leader in the same process as a text, and
whether the clock is set. The agent after reads the blob and adopts them. The time of the last
synchronisation is not handed over.

The measured percentages of the tasks are no part of the model; the writer takes them as they are
(`percents`). `handoff_keeps` says that nothing else is lost, for every agent that a run leads to and
every blob within the bound of the reader.
-/

namespace Hop.Node

open Hop.Types (Job Map Percents Task)
open Hop.Types.Json (Fits Legible Value reread)

/-- The version in the blob. -/
def handoffVersion : ℕ := 2

/-- What can be wrong with a blob. -/
inductive HandoffError
  | types (e : Types.Error)
  /-- It has another version. -/
  | version (v : ℕ)
deriving DecidableEq

/-- What the agent before knew. -/
structure Handoff where
  jobs : List Job := []
  tasks : List Task := []
  /-- What the node gave along; the agent does not read it. -/
  leader : Option String := none
  /-- The agent before set the clock. -/
  clock : Bool := false
deriving DecidableEq

namespace Handoff

/-- The values of an object that are not null, each read. -/
def readAll {α : Type} (field : Option Value) (read : Value → Except Types.Error α) :
    Except Types.Error (List α) :=
  match field with
  | some (.object o) => (o.filter fun kv => !kv.2.isNull).mapM fun kv => read kv.2
  | _ => .ok []

def readLeader : Option Value → Except Types.Error (Option String)
  | some l => if l.isNull then .ok none else (Types.De.string l "leader").map some
  | none => .ok none

/-- Read a blob; an empty one holds nothing. -/
def parse (blob : Bytes) : Except HandoffError (Option Handoff) :=
  if blob = [] then .ok none
  else do
    let v ← (Types.Json.parse blob).mapError .types
    let obj ← (Types.De.object v "handoff").mapError .types
    let version := ((obj.lookup "version").bind Value.asU64).getD 0
    if version ≠ handoffVersion then .error (.version version)
    else do
      let jobs ← (readAll (obj.lookup "jobs") fun j => Job.fromValue j false).mapError .types
      let tasks ← (readAll (obj.lookup "tasks") Task.fromValue).mapError .types
      let leader ← (readLeader (obj.lookup "leader")).mapError .types
      let clock := decide ((obj.lookup "clock").bind Value.asBool = some true)
      .ok (some ⟨jobs, tasks, leader, clock⟩)

/-- The fields of a blob. -/
def fields (jobs tasks : Value) (leader : Option String) (clock : Bool) : List (String × Value) :=
  [("version", .uint handoffVersion), ("jobs", jobs), ("tasks", tasks)] ++
    (leader.elim [] fun l => [("leader", .string l)]) ++ [("clock", .bool clock)]

end Handoff

namespace Agent

def jobsValue (a : Agent) : Value := .object (a.jobs.entries.map fun e => (e.1, e.2.toValue))

def tasksValue (a : Agent) (percents : String → Percents) : Value :=
  .object (a.taskList.map fun t => (t.id, t.toValue (percents t.id)))

def snapshotValue (a : Agent) (percents : String → Percents) (leader : Option String)
    (clock : Bool) : Value :=
  .object (Handoff.fields a.jobsValue (a.tasksValue percents) leader clock)

/-- The state as a blob; `percents` are the measured percentages of the task with an id. -/
def snapshot (a : Agent) (percents : String → Percents) (leader : Option String) (clock : Bool) :
    Bytes := Types.Json.write (a.snapshotValue percents leader clock)

end Agent

/-! ### Reading the blob back -/

namespace Agent

variable {a : Agent} {percents : String → Percents} {leader : Option String} {clock : Bool}

theorem taskList_ids (h : a.Typed) : a.taskList.map Task.id = a.tasks.keys := by
  rw [taskList, List.map_map]
  exact List.map_congr_left fun e he => (h.task (SortedMap.get?_eq_some_iff.mpr he)).key

theorem fits_jobsValue (h : a.Typed) : Fits 31 a.jobsValue := by
  refine ⟨?_, fun kv hkv => ?_⟩
  · rw [List.map_map]
    exact a.jobs.keys_nodup
  · obtain ⟨e, he, rfl⟩ := List.mem_map.mp hkv
    exact Job.fits_toValue (h.job (SortedMap.get?_eq_some_iff.mpr he)).2 25

theorem mem_taskList {t : Task} (h : a.Typed) (ht : t ∈ a.taskList) : t.Writable := by
  obtain ⟨e, he, rfl⟩ := List.mem_map.mp ht
  exact (h.task (SortedMap.get?_eq_some_iff.mpr he)).writable

theorem legible_tasksValue (h : a.Typed) (percents : String → Percents) :
    Legible 31 (a.tasksValue percents) := by
  refine ⟨?_, fun kv hkv => ?_⟩
  · rw [List.map_map]
    exact (taskList_ids h).symm ▸ a.tasks.keys_nodup
  · obtain ⟨t, ht, rfl⟩ := List.mem_map.mp hkv
    exact Task.legible_toValue (mem_taskList h ht) _ 27

theorem legible_snapshotValue (h : a.Typed) :
    Legible Types.Json.maxDepth (a.snapshotValue percents leader clock) := by
  have hjobs := (fits_jobsValue h).legible.1
  have htasks := legible_tasksValue h percents
  rcases leader with _ | l
  · refine ⟨(by decide : ["version", "jobs", "tasks", "clock"].Nodup), fun kv hkv => ?_⟩
    simp only [Handoff.fields, Option.elim, List.append_nil, List.cons_append, List.nil_append,
      List.mem_cons, List.not_mem_nil, or_false] at hkv
    rcases hkv with rfl | rfl | rfl | rfl
    · trivial
    · exact hjobs
    · exact htasks
    · trivial
  · refine ⟨(by decide : ["version", "jobs", "tasks", "leader", "clock"].Nodup), fun kv hkv => ?_⟩
    simp only [Handoff.fields, Option.elim, List.cons_append, List.nil_append, List.mem_cons,
      List.not_mem_nil, or_false] at hkv
    rcases hkv with rfl | rfl | rfl | rfl | rfl
    · trivial
    · exact hjobs
    · exact htasks
    · trivial
    · trivial

theorem reread_snapshotValue (h : a.Typed) : reread (a.snapshotValue percents leader clock) =
    .object (Handoff.fields a.jobsValue (reread (a.tasksValue percents)) leader clock) := by
  have hjobs := (fits_jobsValue h).legible.2
  rw [snapshotValue, Types.Json.reread_object]
  rcases leader with _ | l <;>
    simp only [Handoff.fields, Option.elim, List.map_append, List.map_cons, List.map_nil, hjobs] <;>
    simp only [Value.uint, reread, Types.Json.Number.reread]

/-- Each field is found under its name. -/
theorem lookup_fields (jobs tasks : Value) (leader : Option String) (clock : Bool) :
    let obj := Handoff.fields jobs tasks leader clock
    obj.lookup "version" = some (.uint handoffVersion) ∧ obj.lookup "jobs" = some jobs ∧
      obj.lookup "tasks" = some tasks ∧ obj.lookup "leader" = leader.map .string ∧
      obj.lookup "clock" = some (.bool clock) := by
  rcases leader with _ | l <;> exact ⟨rfl, rfl, rfl, rfl, rfl⟩

theorem readLeader_string (leader : Option String) :
    Handoff.readLeader (leader.map .string) = .ok leader := by
  rcases leader with _ | l <;> rfl

/-- Every value of an object that is written from a list is read. -/
theorem readAll_object {α : Type} {read : Value → Except Types.Error α} {key : α → String}
    {f : α → Value} {as : List α} (hnull : ∀ a ∈ as, (f a).isNull = false)
    (hread : ∀ a ∈ as, read (f a) = .ok a) :
    Handoff.readAll (some (.object (as.map fun a => (key a, f a)))) read = .ok as := by
  have hall : ((as.map fun a => (key a, f a)).filter fun kv => !kv.2.isNull) =
      as.map fun a => (key a, f a) := by
    refine List.filter_eq_self.mpr fun kv hkv => ?_
    obtain ⟨a, ha, rfl⟩ := List.mem_map.mp hkv
    rw [hnull a ha]
    rfl
  rw [Handoff.readAll, hall, List.mapM_map]
  have hmap := Types.mapM_ok (f := f) hread
  rwa [List.mapM_map] at hmap

theorem readAll_jobs (h : a.Typed) :
    Handoff.readAll (some a.jobsValue) (fun j => Job.fromValue j false) =
      .ok (a.jobs.entries.map Prod.snd) := by
  have hjob : ∀ e ∈ a.jobs.entries, e.2.name = e.1 ∧ e.2.Writable := fun e he =>
    h.job (SortedMap.get?_eq_some_iff.mpr he)
  have hnamed : (a.jobs.entries.map fun e => (e.1, e.2.toValue)) =
      (a.jobs.entries.map Prod.snd).map fun j => (j.name, j.toValue) := by
    rw [List.map_map]
    exact List.map_congr_left fun e he => Prod.ext (hjob e he).1.symm rfl
  rw [jobsValue, hnamed]
  refine readAll_object (fun j _ => rfl) fun j hj => ?_
  obtain ⟨e, he, rfl⟩ := List.mem_map.mp hj
  exact Job.fromValue_toValue (hjob e he).2 false

theorem readAll_tasks (h : a.Typed) (percents : String → Percents) :
    Handoff.readAll (some (reread (a.tasksValue percents))) Task.fromValue = .ok a.taskList := by
  rw [tasksValue, Types.Json.reread_object, List.map_map]
  have hnull : ∀ t : Task, (reread (t.toValue (percents t.id))).isNull = false := fun t => by
    change (reread (.object _)).isNull = false
    rw [Types.Json.reread_object]
    rfl
  exact readAll_object (fun t _ => hnull t) fun t ht => Task.fromValue_reread (mem_taskList h ht) _

/-- **The blob is read back.** -/
theorem parse_snapshot (h : a.Typed)
    (hsize : (a.snapshot percents leader clock).length ≤ Types.Json.maxInput) :
    Handoff.parse (a.snapshot percents leader clock) =
      .ok (some ⟨a.jobs.entries.map Prod.snd, a.taskList, leader, clock⟩) := by
  have hne : a.snapshot percents leader clock ≠ [] := by
    rw [snapshot, snapshotValue, Handoff.fields, List.cons_append, List.cons_append,
      Types.Json.write]
    exact List.cons_ne_nil _ _
  have hparse : Types.Json.parse (a.snapshot percents leader clock) =
      .ok (reread (a.snapshotValue percents leader clock)) := by
    rw [snapshot, Types.Json.length_write] at hsize
    exact Types.Json.parse_legible (legible_snapshotValue h) hsize
  rw [reread_snapshotValue h] at hparse
  have hjobs := readAll_jobs h
  have htasks := readAll_tasks h percents
  obtain ⟨hversion, hjobsAt, htasksAt, hleaderAt, hclockAt⟩ :=
    lookup_fields a.jobsValue (reread (a.tasksValue percents)) leader clock
  have hnumber : (Value.uint handoffVersion).asU64 = some handoffVersion := rfl
  rw [Handoff.parse, if_neg hne, hparse]
  simp only [Except.mapError, bind, Except.bind, Types.De.object, Value.asObject, Types.De.want,
    hversion, hjobsAt, htasksAt, hleaderAt, hclockAt, Option.bind_some, hnumber, Option.getD_some,
    ne_eq, not_true_eq_false, if_false, hjobs, htasks, readLeader_string, Value.asBool,
    Option.some.injEq, Bool.decide_eq_true]

/-! ### Adopting -/

theorem adoptJobs_eq (jobs : List Job) {b : Agent} (hroom : b.jobs.size + jobs.length ≤ maxJobs) :
    adoptJobs jobs b =
      { b with jobs := jobs.foldl (fun m job => m.insert job.name job) b.jobs } := by
  induction jobs generalizing b with
  | nil => rfl
  | cons job rest ih =>
    rw [List.length_cons] at hroom
    have hfits : b.hasRoomFor job.name = true := hasRoomFor_iff.mpr (.inr (by omega))
    have hsize := SortedMap.size_insert_le b.jobs job.name job
    rw [adoptJobs, if_pos hfits, ih (by dsimp only; omega)]
    rfl

theorem adoptTasks_eq (tasks : List Task) {b : Agent}
    (hroom : b.tasks.size + tasks.length ≤ maxTasks) :
    adoptTasks tasks b = { b with tasks := tasks.foldl (fun m task =>
      m.insert task.id { task := task, firstStart := false }) b.tasks } := by
  induction tasks generalizing b with
  | nil => rfl
  | cons task rest ih =>
    rw [List.length_cons] at hroom
    have hfits : b.tasks.size < maxTasks := by omega
    have hsize := SortedMap.size_insert_le b.tasks task.id { task := task, firstStart := false }
    have hnext : (b.insertEntry task false).tasks.size + rest.length ≤ maxTasks := by
      change (b.tasks.insert _ _).size + _ ≤ _
      omega
    rw [adoptTasks, if_pos hfits, ih hnext]
    rfl

/-- What the next agent knows of a task: the task itself. -/
def adopted (e : Entry) : Entry := { task := e.task, firstStart := false }

/-- **An empty agent that adopts all of it** has the same jobs and the same tasks. -/
theorem adopt_all (h : a.Typed) :
    (new a.settings).adopt (a.jobs.entries.map Prod.snd) a.taskList =
      { new a.settings with jobs := a.jobs, tasks := a.tasks.mapVal fun _ e => adopted e } := by
  have hjobs : (a.jobs.entries.map Prod.snd).foldl (fun (m : Map Job) job =>
      m.insert job.name job) .empty = a.jobs := by
    refine Eq.trans ?_ a.jobs.ofList_entries
    rw [List.foldl_map, SortedMap.ofList]
    refine List.foldl_ext _ _ _ fun m e he => ?_
    rw [(h.job (SortedMap.get?_eq_some_iff.mpr he)).1]
  have htasks : a.taskList.foldl (fun (m : Map Entry) task =>
      m.insert task.id { task := task, firstStart := false }) .empty =
      a.tasks.mapVal fun _ e => adopted e := by
    refine Eq.trans ?_ (a.tasks.mapVal fun _ e => adopted e).ofList_entries
    rw [taskList, List.foldl_map, SortedMap.ofList, SortedMap.mapVal, List.foldl_map]
    refine List.foldl_ext _ _ _ fun m e he => ?_
    rw [(h.task (SortedMap.get?_eq_some_iff.mpr he)).key]
    rfl
  have hjobsRoom : (new a.settings).jobs.size + (a.jobs.entries.map Prod.snd).length ≤ maxJobs := by
    rw [List.length_map]
    exact (Nat.zero_add _).trans_le h.jobs
  rw [adopt, adoptJobs_eq _ hjobsRoom, adoptTasks_eq]
  · exact congrArg₂ (fun jobs tasks => ({ new a.settings with jobs := jobs, tasks := tasks } : Agent))
      hjobs htasks
  · rw [taskList, List.length_map]
    exact (Nat.zero_add _).trans_le h.tasks

/-- The books read the tasks, the jobs and the settings, and nothing else. -/
theorem resourceUsage_adopted (a b : Agent) (hsettings : b.settings = a.settings)
    (hjobs : b.jobs = a.jobs) (htasks : b.tasks = a.tasks.mapVal fun _ e => adopted e) :
    b.resourceUsage = a.resourceUsage := by
  have hcount : b.countTask = a.countTask := by
    funext u task
    simp only [countTask, sharegroupOf, costsNoCore, freeGroup, hjobs, hsettings]
  rw [resourceUsage, resourceUsage, resourceUsageExcluding, resourceUsageExcluding, hcount, htasks,
    SortedMap.mapVal, List.foldl_map]
  rfl

theorem placedTaskCounts_adopted (a b : Agent)
    (htasks : b.tasks = a.tasks.mapVal fun _ e => adopted e) :
    b.placedTaskCounts = a.placedTaskCounts := by
  rw [placedTaskCounts, placedTaskCounts, htasks, SortedMap.mapVal, List.foldl_map]
  rfl

/-- **The hand-over loses nothing.** For every agent that a run leads to, a blob within the bound of
the reader gives back the jobs in the order of their names, the tasks in the order of their ids, the
text of the leader and the clock; and an empty agent with the same settings that adopts them has the
same usage and the same tasks placed. -/
theorem handoff_keeps {settings : Settings} {cs : List Call} {a : Agent}
    (hcs : ∀ c ∈ cs, c.InRange) (hrun : calls.run (new settings) cs = some a)
    (percents : String → Percents) (leader : Option String) (clock : Bool)
    (hsize : (a.snapshot percents leader clock).length ≤ Types.Json.maxInput) :
    ∃ handoff : Handoff, Handoff.parse (a.snapshot percents leader clock) = .ok (some handoff) ∧
      handoff.jobs = a.jobs.entries.map Prod.snd ∧
      handoff.jobs.Pairwise (fun j j' => j.name < j'.name) ∧
      handoff.tasks = a.tasks.entries.map (fun e => e.2.task) ∧
      handoff.tasks.Pairwise (fun t t' => t.id < t'.id) ∧
      handoff.leader = leader ∧ handoff.clock = clock ∧
      ((new a.settings).adopt handoff.jobs handoff.tasks).resourceUsage = a.resourceUsage ∧
      ((new a.settings).adopt handoff.jobs handoff.tasks).placedTaskCounts = a.placedTaskCounts := by
  have h := typed_of_run hcs hrun
  have hadopt := adopt_all h
  have hname : ∀ e ∈ a.jobs.entries, e.2.name = e.1 := fun e he =>
    (h.job (SortedMap.get?_eq_some_iff.mpr he)).1
  have hid : ∀ e ∈ a.tasks.entries, e.2.task.id = e.1 := fun e he =>
    (h.task (SortedMap.get?_eq_some_iff.mpr he)).key
  refine ⟨_, parse_snapshot h hsize, rfl, ?_, rfl, ?_, rfl, rfl, ?_, ?_⟩
  · refine List.pairwise_map.mpr (a.jobs.sorted.imp_of_mem fun he he' hlt => ?_)
    rw [hname _ he, hname _ he']
    exact hlt
  · refine List.pairwise_map.mpr (a.tasks.sorted.imp_of_mem fun he he' hlt => ?_)
    rw [hid _ he, hid _ he']
    exact hlt
  · rw [hadopt]
    exact resourceUsage_adopted a _ rfl rfl rfl
  · rw [hadopt]
    exact placedTaskCounts_adopted a _ rfl

/-- A measured percentage with a fraction, and one without. -/
def measured : Percents where
  cpu := ⟨false, 12, [53], fun b hb => by rw [List.mem_singleton.mp hb]; decide⟩
  mem := ⟨true, 0, [], fun b hb => absurd hb List.not_mem_nil⟩

set_option maxRecDepth 8000 in
theorem handoff_keeps_web : ∃ handoff : Handoff,
    Handoff.parse (((new oneCore).run 5 (pooled 1024) false none).2.snapshot (fun _ => measured)
      (some "jobs") true) = .ok (some handoff) ∧
    handoff.jobs.map Job.name = ["web"] ∧ handoff.tasks.map Task.jobName = ["web"] ∧
    handoff.leader = some "jobs" ∧ handoff.clock = true := by
  have hpooled : (pooled 1024).Writable :=
    { Job.writable_default with
      cpuShares := ⟨by decide, by decide⟩
      tags := (by decide : (Job.tags (pooled 1024)).size ≤ Types.maxMapEntries) }
  obtain ⟨handoff, hparse, hjobs, -, htasks, -, hleader, hclock, -⟩ :=
    @handoff_keeps oneCore [.input (.run 5 (pooled 1024) false none)] _
      (fun c hc => List.mem_singleton.mp hc ▸ ⟨by decide, hpooled⟩) rfl (fun _ => measured)
      (some "jobs") true (by decide)
  refine ⟨handoff, hparse, ?_, ?_, hleader, hclock⟩
  · rw [hjobs]
    decide
  · rw [htasks]
    decide

end Agent

end Hop.Node
