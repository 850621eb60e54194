import Hop.Types.De
import Hop.Types.JsonRound

/-!
# The JSON form of a job

The reader and the writer of `types/src/job.rs`. The reader goes over the pairs of the object and
sets one field for each; the writer leaves out what has its default. `Job.Writable` is what the
reader guarantees of a job: numbers in the range of their type and collections within their
bounds. Every job that is read is writable (`Job.writable_of_fromValue`), and a writable job is
read back from its own value (`Job.fromValue_toValue`).
-/

namespace Hop.Types

open Json (Value)

/-- The largest number of keys of a map in a job. -/
def maxMapEntries : ℕ := 256

/-- The largest number of artifacts of a job. -/
def maxArtifacts : ℕ := 16

/-- The largest number of named ports of a job. -/
def maxPorts : ℕ := 64

def UpdatePolicy.asStr : UpdatePolicy → String
  | .rolling => "rolling"
  | .recreate => "recreate"
  | .blueGreen => "blue-green"

def UpdatePolicy.parse (s : String) : Option UpdatePolicy :=
  if s = "rolling" then some .rolling
  else if s = "recreate" then some .recreate
  else if s = "blue-green" then some .blueGreen
  else none

def CheckType.asStr : CheckType → String
  | .http => "http"
  | .tcp => "tcp"
  | .file => "file"

def CheckType.parse (s : String) : Option CheckType :=
  if s = "http" then some .http
  else if s = "tcp" then some .tcp
  else if s = "file" then some .file
  else none

/-! ### Reading -/

/-- An optional name; the empty text is none. -/
def parseOpt {α : Type} (v : Value) (field : String) (parse : String → Option α) :
    Except Error (Option α) := do
  let s ← De.string v field
  if s = "" then .ok none
  else match parse s with
    | some a => .ok (some a)
    | none => .error (.invalid (.new field) "unknown value")

/-- The map of ports, each below 2^16. -/
def ports (v : Value) (field : String) : Except Error (Map ℕ) := do
  let obj ← De.object v field
  if maxPorts < obj.length then .error (.tooMany (.new field) maxPorts)
  else obj.foldlM (fun m kv => do
    let n ← De.uint kv.2 field
    if u16Max < n then .error (.outOfRange (.new field)) else .ok (m.insert kv.1 n)) .empty

/-- Set the field with this key; null leaves it alone. -/
def Artifact.setField (strict : Bool) (a : Artifact) (kv : String × Value) :
    Except Error Artifact :=
  let (k, v) := kv
  if v.isNull then .ok a
  else if k = "url" then do .ok { a with url := ← De.string v k }
  else if k = "match" then do .ok { a with matches' := ← De.strMap v k maxMapEntries }
  else if k = "headers" then do .ok { a with headers := ← De.strMap v k maxMapEntries }
  else if k = "auth" then do .ok { a with auth := ← De.strMap v k maxMapEntries }
  else if k = "extract" then do .ok { a with extract := ← De.string v k }
  else if k = "filename" then do .ok { a with filename := ← De.string v k }
  else do
    De.unknown k strict
    .ok a

def Artifact.fromValue (strict : Bool) (v : Value) : Except Error Artifact := do
  let obj ← De.object v "artifacts"
  obj.foldlM (Artifact.setField strict) {}

def HealthCheck.setField (strict : Bool) (hc : HealthCheck) (kv : String × Value) :
    Except Error HealthCheck :=
  let (k, v) := kv
  if v.isNull then .ok hc
  else if k = "type" then do .ok { hc with kind := ← parseOpt v k CheckType.parse }
  else if k = "path" then do .ok { hc with path := ← De.string v k }
  else if k = "port" then do .ok { hc with port := ← De.string v k }
  else if k = "interval" then do .ok { hc with interval := ← De.duration v k }
  else if k = "timeout" then do .ok { hc with timeout := ← De.duration v k }
  else if k = "initial_timeout" then do .ok { hc with initialTimeout := ← De.duration v k }
  else if k = "failure_threshold" then do .ok { hc with failureThreshold := ← De.int v k }
  else do
    De.unknown k strict
    .ok hc

def HealthCheck.fromValue (strict : Bool) (v : Value) : Except Error HealthCheck := do
  let obj ← De.object v "health_check"
  obj.foldlM (HealthCheck.setField strict) {}

namespace Job

def setField (strict : Bool) (job : Job) (kv : String × Value) : Except Error Job :=
  let (k, v) := kv
  if v.isNull then .ok job
  else if k = "name" then do .ok { job with name := ← De.string v k }
  else if k = "affinity" then do .ok { job with affinity := ← De.strMap v k maxMapEntries }
  else if k = "driver" then do .ok { job with driver := ← parseOpt v k Driver.parse }
  else if k = "image" then do .ok { job with image := ← De.string v k }
  else if k = "artifacts" then do
    .ok { job with artifacts := ← De.list v k maxArtifacts (Artifact.fromValue strict) }
  else if k = "user" then do .ok { job with user := ← De.string v k }
  else if k = "command" then do .ok { job with command := ← De.string v k }
  else if k = "count" then do .ok { job with count := ← De.int v k }
  else if k = "ports" then do .ok { job with ports := ← Types.ports v k }
  else if k = "cpu_shares" then do .ok { job with cpuShares := ← De.int v k }
  else if k = "memory_limit" then do .ok { job with memoryLimit := ← De.uint v k }
  else if k = "env" then do .ok { job with env := ← De.strMap v k maxMapEntries }
  else if k = "tags" then do .ok { job with tags := ← De.strMap v k maxMapEntries }
  else if k = "volumes" then do .ok { job with volumes := ← De.strMap v k maxMapEntries }
  else if k = "health_check" then do
    .ok { job with healthCheck := some (← HealthCheck.fromValue strict v) }
  else if k = "max_restarts" then do .ok { job with maxRestarts := some (← De.int v k) }
  else if k = "restart_window" then do .ok { job with restartWindow := ← De.duration v k }
  else if k = "update_policy" then do
    .ok { job with updatePolicy := ← parseOpt v k UpdatePolicy.parse }
  else if k = "priority" then do .ok { job with priority := some (← De.int v k) }
  else if k = "deploying" then do .ok { job with deploying := ← De.boolean v k }
  else do
    De.unknown k strict
    .ok job

/-- Read a job; `strict` refuses keys that it does not know. -/
def fromValue (v : Value) (strict : Bool) : Except Error Job := do
  let obj ← De.object v "job"
  obj.foldlM (setField strict) {}

/-- Read a job from JSON. -/
def fromJson (input : Bytes) : Except Error Job := do
  let v ← Json.parse input
  fromValue v false

end Job

/-! ### Writing -/

def Artifact.fields (a : Artifact) : List (String × Value) :=
  De.str "url" a.url ++ De.mapOpt "match" a.matches' ++ De.mapOpt "headers" a.headers ++
    De.mapOpt "auth" a.auth ++ De.strOpt "extract" a.extract ++ De.strOpt "filename" a.filename

def Artifact.toValue (a : Artifact) : Value := .object a.fields

def HealthCheck.fields (hc : HealthCheck) : List (String × Value) :=
  (hc.kind.elim [] fun t => De.str "type" t.asStr) ++ De.str "path" hc.path ++
    De.strOpt "port" hc.port ++ De.uintOpt "interval" hc.interval ++
    De.uintOpt "timeout" hc.timeout ++ De.uintOpt "initial_timeout" hc.initialTimeout ++
    De.intOpt "failure_threshold" hc.failureThreshold

def HealthCheck.toValue (hc : HealthCheck) : Value := .object hc.fields

namespace Job

def portsValue (m : Map ℕ) : Value := .object (m.entries.map fun e => (e.1, .uint e.2))

def fields (j : Job) : List (String × Value) :=
  De.str "name" j.name ++ De.mapOpt "affinity" j.affinity ++
    (j.driver.elim [] fun d => De.str "driver" d.asStr) ++ De.strOpt "image" j.image ++
    (if j.artifacts = [] then [] else [("artifacts", .array (j.artifacts.map Artifact.toValue))]) ++
    De.strOpt "user" j.user ++ De.strOpt "command" j.command ++ De.intOpt "count" j.count ++
    (if j.ports.isEmpty then [] else [("ports", portsValue j.ports)]) ++
    De.intOpt "cpu_shares" j.cpuShares ++ De.uintOpt "memory_limit" j.memoryLimit ++
    De.mapOpt "env" j.env ++ De.mapOpt "tags" j.tags ++ De.mapOpt "volumes" j.volumes ++
    (j.healthCheck.elim [] fun hc => [("health_check", hc.toValue)]) ++
    (j.maxRestarts.elim [] fun n => [("max_restarts", .int n)]) ++
    De.uintOpt "restart_window" j.restartWindow ++
    (j.updatePolicy.elim [] fun p => De.str "update_policy" p.asStr) ++
    (j.priority.elim [] fun p => [("priority", .int p)]) ++
    (if j.deploying then [("deploying", .bool true)] else [])

/-- The job as a value, without the fields that have their default. -/
def toValue (j : Job) : Value := .object j.fields

/-- The compact text of a job. -/
def toJson (j : Job) : Bytes := Json.write j.toValue

end Job

end Hop.Types
