import Hop.Types.Instant
import Hop.Types.JobRound
import Hop.Types.Task

/-!
# The JSON form of a task

The reader and the writer of `types/src/task.rs`. The reader is lenient: it leaves out the keys that
it does not know. The measured percentages of a task are no part of the model of a task; they are
given to the writer (`Percents`), and the reader only looks whether they are numbers.

A task whose numbers are in the range of their types is read back from its own value
(`Task.fromValue_fields`), whatever the percentages are.
-/

namespace Hop.Types

open Json (Decimal Fits Legible Number Value reread)

def TaskState.asStr : TaskState → String
  | .queued => "queued"
  | .downloading => "downloading"
  | .running => "running"
  | .stopping => "stopping"
  | .failed => "failed"
  | .system => "system"

def TaskState.parse (s : String) : Option TaskState :=
  if s = "queued" then some .queued
  else if s = "downloading" then some .downloading
  else if s = "running" then some .running
  else if s = "stopping" then some .stopping
  else if s = "failed" then some .failed
  else if s = "system" then some .system
  else none

theorem TaskState.parse_asStr (st : TaskState) : parse st.asStr = some st := by
  rcases st with _ | _ | _ | _ | _ | _ <;> decide

namespace De

/-- A number of any kind. -/
def float (v : Value) (field : String) : Except Error Number :=
  match v with
  | .number n => .ok n
  | _ => .error (.wrongType (.new field) "a number")

/-- An instant from an RFC 3339 text. -/
def time (v : Value) (field : String) : Except Error Nanos := do
  let s ← want v.asStr field "an RFC 3339 string"
  match Time.parseRfc3339 s with
  | .ok t => .ok t
  | .error _ => .error (.invalid (.new field) "not an RFC 3339 timestamp")

/-- An instant as an RFC 3339 text. -/
def timeValue (t : Nanos) : Value := .string (Time.writeRfc3339 t)

theorem time_timeValue {t : Nanos} (h : t ≤ u64Max) (field : String) :
    time (timeValue t) field = .ok t := by
  have hread : Time.parseRfc3339 (Time.writeRfc3339 t) = .ok t := Time.parseRfc3339_writeRfc3339 h
  simp only [time, timeValue, Value.asStr, want, bind, Except.bind, hread]

end De

/-- The measured percentages of a task. -/
structure Percents where
  cpu : Decimal
  mem : Decimal

namespace Task

/-! ### Reading -/

/-- The ports of a task, read into a map. -/
def readPorts (m : Map ℕ) (v : Value) (field : String) : Except Error (Map ℕ) := do
  let obj ← De.object v field
  obj.foldlM (fun m kv => do
    let n ← De.uint kv.2 field
    if u16Max < n then .error (.outOfRange (.new field)) else .ok (m.insert kv.1 n)) m

def readState (v : Value) (field : String) : Except Error TaskState :=
  match TaskState.parse (v.asStr.getD "") with
  | some st => .ok st
  | none => .error (.invalid (.new field) "unknown task state")

/-- Set the field with this key; null leaves it alone. -/
def setField (t : Task) (kv : String × Value) : Except Error Task :=
  let (k, v) := kv
  if v.isNull then .ok t
  else if k = "id" then do .ok { t with id := ← De.string v k }
  else if k = "job_name" then do .ok { t with jobName := ← De.string v k }
  else if k = "driver" then do .ok { t with driver := ← De.string v k }
  else if k = "image" then do .ok { t with image := ← De.string v k }
  else if k = "ports" then do .ok { t with ports := ← readPorts t.ports v k }
  else if k = "pid" then do .ok { t with pid := ← De.int v k }
  else if k = "state" then do .ok { t with state := ← readState v k }
  else if k = "started_at" then do .ok { t with startedAt := ← De.time v k }
  else if k = "restart_count" then do .ok { t with restartCount := ← De.int v k }
  else if k = "last_failed_at" then do .ok { t with lastFailedAt := ← De.time v k }
  else if k = "next_restart_at" then do .ok { t with nextRestartAt := ← De.time v k }
  else if k = "cpu_shares" then do .ok { t with cpuShares := ← De.int v k }
  else if k = "memory_limit" then do .ok { t with memoryLimit := ← De.uint v k }
  -- the percentages are read and not kept
  else if k = "cpu_percent" then do
    let _ ← De.float v k
    .ok t
  else if k = "cores" then do .ok { t with cores := ← De.uint v k }
  else if k = "core" then do .ok { t with core := some (← De.uint v k) }
  else if k = "mem_percent" then do
    let _ ← De.float v k
    .ok t
  else if k = "downloaded_bytes" then do .ok { t with downloaded := ← De.uint v k }
  else if k = "image_size_bytes" then do .ok { t with imageSize := ← De.uint v k }
  else .ok t

/-- Read a task. -/
def fromValue (v : Value) : Except Error Task := do
  let obj ← De.object v "task"
  obj.foldlM setField {}

/-! ### Writing -/

/-- The fields before the CPU percentage. -/
def fieldsBefore (t : Task) : List (String × Value) :=
  De.str "id" t.id ++ De.str "job_name" t.jobName ++ De.str "driver" t.driver ++
    De.strOpt "image" t.image ++ [("ports", Job.portsValue t.ports)] ++ [("pid", .int t.pid)] ++
    De.str "state" t.state.asStr ++ [("started_at", De.timeValue t.startedAt)] ++
    [("restart_count", .int t.restartCount)] ++ [("last_failed_at", De.timeValue t.lastFailedAt)] ++
    [("next_restart_at", De.timeValue t.nextRestartAt)] ++ De.intOpt "cpu_shares" t.cpuShares ++
    De.uintOpt "memory_limit" t.memoryLimit

/-- The fields between the percentages. -/
def fieldsBetween (t : Task) : List (String × Value) :=
  De.uintOpt "cores" t.cores ++ (t.core.elim [] fun c => [("core", .uint c)])

/-- The fields after the memory percentage. -/
def fieldsAfter (t : Task) : List (String × Value) :=
  De.uintOpt "downloaded_bytes" t.downloaded ++ De.uintOpt "image_size_bytes" t.imageSize

/-- All fields, in the order in which they are written. -/
def fields (t : Task) (cpu mem : Value) : List (String × Value) :=
  t.fieldsBefore ++ [("cpu_percent", cpu)] ++ t.fieldsBetween ++ [("mem_percent", mem)] ++
    t.fieldsAfter

/-- The task as a value. -/
def toValue (t : Task) (p : Percents) : Value := .object (t.fields (.float p.cpu) (.float p.mem))

/-! ### Reading back -/

/-- The numbers of a task are in the ranges of their types. -/
structure Writable (t : Task) : Prop where
  port : ∀ e ∈ t.ports.entries, e.2 ≤ u16Max
  pid : InI64 t.pid
  startedAt : t.startedAt ≤ u64Max
  restartCount : InI64 t.restartCount
  lastFailedAt : t.lastFailedAt ≤ u64Max
  nextRestartAt : t.nextRestartAt ≤ u64Max
  cpuShares : InI64 t.cpuShares
  memoryLimit : t.memoryLimit ≤ u64Max
  cores : t.cores ≤ u64Max
  core : ∀ c ∈ t.core, c ≤ u64Max
  downloaded : t.downloaded ≤ u64Max
  imageSize : t.imageSize ≤ u64Max

/-- The first `n` fields of a task, in the order in which they are written. -/
def upTo (t : Task) (n : ℕ) : Task where
  id := if 0 < n then t.id else ""
  jobName := if 1 < n then t.jobName else ""
  driver := if 2 < n then t.driver else ""
  image := if 3 < n then t.image else ""
  ports := if 4 < n then t.ports else .empty
  pid := if 5 < n then t.pid else 0
  state := if 6 < n then t.state else .running
  startedAt := if 7 < n then t.startedAt else 0
  restartCount := if 8 < n then t.restartCount else 0
  lastFailedAt := if 9 < n then t.lastFailedAt else 0
  nextRestartAt := if 10 < n then t.nextRestartAt else 0
  cpuShares := if 11 < n then t.cpuShares else 0
  memoryLimit := if 12 < n then t.memoryLimit else 0
  cores := if 13 < n then t.cores else 0
  core := if 14 < n then t.core else none
  downloaded := if 15 < n then t.downloaded else 0
  imageSize := if 16 < n then t.imageSize else 0

theorem upTo_zero (t : Task) : t.upTo 0 = {} := rfl

theorem upTo_all (t : Task) : t.upTo 17 = t := rfl

theorem readPorts_portsValue {m : Map ℕ} (hrange : ∀ e ∈ m.entries, e.2 ≤ u16Max)
    (field : String) : readPorts .empty (Job.portsValue m) field = .ok m := foldlM_ports hrange field

theorem readState_string (st : TaskState) (field : String) :
    readState (.string st.asStr) field = .ok st := by
  simp only [readState, Value.asStr, Option.getD_some, TaskState.parse_asStr]

/-- The fields of a task set a task to it, whatever numbers the percentages are. -/
theorem sets_fields {t : Task} (h : t.Writable) (cpu mem : Number) :
    Sets setField (t.fields (.number cpu) (.number mem)) (t.upTo 0) (t.upTo 17) := by
  unfold fields fieldsBefore fieldsBetween fieldsAfter
  simp only [List.append_assoc]
  refine .append (m := t.upTo 1) (.one rfl) (.append (m := t.upTo 2) (.one rfl) ?_)
  refine .append (m := t.upTo 3) (.one rfl) ?_
  refine .append (m := t.upTo 4) (.ite (fun hs => ?_) fun _ => rfl) ?_
  · unfold upTo
    rw [hs]
    rfl
  refine .append (m := t.upTo 5) (.one (set_ok (readPorts_portsValue h.port _) _)) ?_
  refine .append (m := t.upTo 6) (.one ((set_int (fun _ => rfl) h.pid).trans rfl)) ?_
  refine .append (m := t.upTo 7) (.one (set_ok (readState_string t.state _) _)) ?_
  refine .append (m := t.upTo 8) (.one (set_ok (De.time_timeValue h.startedAt _) _)) ?_
  refine .append (m := t.upTo 9) (.one ((set_int (fun _ => rfl) h.restartCount).trans rfl)) ?_
  refine .append (m := t.upTo 10) (.one (set_ok (De.time_timeValue h.lastFailedAt _) _)) ?_
  refine .append (m := t.upTo 11) (.one (set_ok (De.time_timeValue h.nextRestartAt _) _)) ?_
  refine .append (m := t.upTo 12) (.ite (fun hn => ?_) fun _ =>
    (set_int (fun _ => rfl) h.cpuShares).trans rfl) ?_
  · unfold upTo
    rw [hn]
    rfl
  refine .append (m := t.upTo 13) (.ite (fun hn => ?_) fun _ =>
    set_ok (De.uint_uint h.memoryLimit _) _) ?_
  · unfold upTo
    rw [hn]
    rfl
  -- the percentages leave the task as it is
  refine .append (m := t.upTo 13) (.one rfl) ?_
  refine .append (m := t.upTo 14) (.ite (fun hn => ?_) fun _ =>
    set_ok (De.uint_uint h.cores _) _) ?_
  · unfold upTo
    rw [hn]
    rfl
  refine .append (m := t.upTo 15) (.elim (fun hc => ?_) fun c hc => ?_) ?_
  · unfold upTo
    rw [hc]
    rfl
  · unfold upTo
    rw [hc]
    exact set_ok (De.uint_uint (h.core c hc) _) _
  refine .append (m := t.upTo 15) (.one rfl) ?_
  refine .append (m := t.upTo 16) (.ite (fun hn => ?_) fun _ =>
    set_ok (De.uint_uint h.downloaded _) _) ?_
  · unfold upTo
    rw [hn]
    rfl
  refine .ite (fun hn => ?_) fun _ => set_ok (De.uint_uint h.imageSize _) _
  unfold upTo
  rw [hn]
  rfl

theorem fromValue_object (pairs : List (String × Value)) :
    fromValue (.object pairs) = pairs.foldlM setField {} := rfl

theorem fromValue_fields {t : Task} (h : t.Writable) (cpu mem : Number) :
    fromValue (.object (t.fields (.number cpu) (.number mem))) = .ok t := by
  have hsets := sets_fields h cpu mem
  rw [upTo_zero, upTo_all, Sets] at hsets
  rw [fromValue_object, hsets]

/-! ### The value fits the text -/

def keysBefore : List String :=
  ["id", "job_name", "driver", "image", "ports", "pid", "state", "started_at", "restart_count",
    "last_failed_at", "next_restart_at", "cpu_shares", "memory_limit"]

def keysBetween : List String := ["cores", "core"]

def keysAfter : List String := ["downloaded_bytes", "image_size_bytes"]

theorem keyed_fieldsBefore {t : Task} (h : t.Writable) (left : ℕ) :
    Keyed keysBefore (left + 2) t.fieldsBefore := by
  have hs : ∀ s, Fits (left + 2) (.string s) := fun _ => trivial
  have hu : ∀ n, Fits (left + 2) (.uint n) := fun _ => trivial
  have hi : ∀ {n}, InI64 n → Fits (left + 2) (.int n) := fun hn => fits_int hn (left + 1)
  unfold keysBefore fieldsBefore
  simp only [List.append_assoc]
  refine .cons (.one (hs _)) (.cons (.one (hs _)) (.cons (.one (hs _)) (.cons (.ite (hs _)) ?_)))
  refine .cons (.one (fits_portsValue _ left)) (.cons (.one (hi h.pid)) (.cons (.one (hs _)) ?_))
  refine .cons (.one (hs _)) (.cons (.one (hi h.restartCount)) (.cons (.one (hs _)) ?_))
  exact .cons (.one (hs _)) (.cons (.ite (hi h.cpuShares)) (.ite (hu _)))

theorem keyed_fieldsBetween (t : Task) (left : ℕ) :
    Keyed keysBetween (left + 2) t.fieldsBetween :=
  .cons (.ite (trivial : Fits (left + 2) (.uint _))) (.elim fun _ _ => trivial)

theorem keyed_fieldsAfter (t : Task) (left : ℕ) : Keyed keysAfter (left + 2) t.fieldsAfter :=
  .cons (.ite (trivial : Fits (left + 2) (.uint _))) (.ite trivial)

end Task

/-- Pairs without floats are read back as they are. -/
theorem Keyed.reread {keys : List String} {left : ℕ} {pairs : List (String × Value)}
    (h : Keyed keys left pairs) : (pairs.map fun kv => (kv.1, Json.reread kv.2)) = pairs := by
  have hsame : ∀ kv ∈ pairs, (kv.1, Json.reread kv.2) = id kv :=
    fun kv hkv => Prod.ext rfl (h.fits kv hkv).legible.2
  rw [List.map_congr_left hsame, List.map_id]

namespace Task

theorem legible_toValue {t : Task} (h : t.Writable) (p : Percents) (left : ℕ) :
    Legible (left + 3) (t.toValue p) := by
  have hbefore := keyed_fieldsBefore h left
  have hbetween := keyed_fieldsBetween t left
  have hafter := keyed_fieldsAfter t left
  refine ⟨?_, fun kv hkv => ?_⟩
  · have hkeys : (keysBefore ++ ["cpu_percent"] ++ keysBetween ++ ["mem_percent"] ++
        keysAfter).Nodup := by decide
    refine hkeys.sublist ?_
    simp only [fields, List.map_append]
    exact (((hbefore.keys.append (List.Sublist.refl _)).append hbetween.keys).append
      (List.Sublist.refl _)).append hafter.keys
  · have hfloat : ∀ d : Decimal, Legible (left + 2) (.float d) := fun d => ⟨d, rfl⟩
    simp only [fields, List.mem_append, List.mem_singleton] at hkv
    rcases hkv with (((hkv | rfl) | hkv) | rfl) | hkv
    · exact (hbefore.fits kv hkv).legible.1
    · exact hfloat p.cpu
    · exact (hbetween.fits kv hkv).legible.1
    · exact hfloat p.mem
    · exact (hafter.fits kv hkv).legible.1

/-- **A task is read back from its own value**, also if its percentages are read as integers. -/
theorem fromValue_reread {t : Task} (h : t.Writable) (p : Percents) :
    fromValue (reread (t.toValue p)) = .ok t := by
  have hfields : ((t.fields (.float p.cpu) (.float p.mem)).map fun kv => (kv.1, reread kv.2)) =
      t.fields (reread (.float p.cpu)) (reread (.float p.mem)) := by
    simp only [fields, List.map_append, (keyed_fieldsBefore h 0).reread,
      (keyed_fieldsBetween t 0).reread, (keyed_fieldsAfter t 0).reread, List.map_cons, List.map_nil]
  rw [toValue, Json.reread_object, hfields, Value.float, Value.float, reread, reread]
  exact fromValue_fields h _ _

end Task

end Hop.Types
