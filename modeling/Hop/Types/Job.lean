import Hop.Lib.SortedMap
import Hop.Types.Error

/-!
# The job specification

`types/src/job.rs`, without its JSON form. The name is the key of a job. Integers of the source
are integers and naturals here; the ranges of their types matter where a job is read and
written, and are stated there.
-/

namespace Hop.Types

/-- `types::Map`: text to values, sorted by key. -/
abbrev Map (ν : Type) : Type := SortedMap String ν

/-- Which runner executes a job. -/
inductive Driver
  | exec
  | docker
  | hop
deriving DecidableEq, Repr

/-- The name of a driver. -/
def Driver.asStr : Driver → String
  | .exec => "exec"
  | .docker => "docker"
  | .hop => "hop"

def Driver.parse (s : String) : Option Driver :=
  if s = "exec" then some .exec
  else if s = "docker" then some .docker
  else if s = "hop" then some .hop
  else none

/-- The driver that goes with an image: an image means Docker. -/
def Driver.forImage (image : String) : Driver := if image = "" then .exec else .docker

/-- How an update of a job is rolled out. -/
inductive UpdatePolicy
  | rolling
  | recreate
  | blueGreen
deriving DecidableEq, Repr

inductive CheckType
  | http
  | tcp
  | file
deriving DecidableEq, Repr

/-- Where the application comes from: one download, with the nodes it is for. -/
structure Artifact where
  url : String := ""
  matches' : Map String := .empty
  headers : Map String := .empty
  auth : Map String := .empty
  extract : String := ""
  filename : String := ""
deriving DecidableEq

structure HealthCheck where
  kind : Option CheckType := none
  path : String := ""
  port : String := ""
  interval : Nanos := 0
  timeout : Nanos := 0
  initialTimeout : Nanos := 0
  failureThreshold : ℤ := 0
deriving DecidableEq

/-- What the user wants to run. The name is the unique key. -/
structure Job where
  name : String := ""
  affinity : Map String := .empty
  driver : Option Driver := none
  image : String := ""
  artifacts : List Artifact := []
  user : String := ""
  command : String := ""
  /-- The number of instances: 0 is 1, -1 is "on every agent". -/
  count : ℤ := 0
  /-- Port name to host port (0 = dynamic). -/
  ports : Map ℕ := .empty
  cpuShares : ℤ := 0
  memoryLimit : ℕ := 0
  env : Map String := .empty
  tags : Map String := .empty
  volumes : Map String := .empty
  healthCheck : Option HealthCheck := none
  maxRestarts : Option ℤ := none
  restartWindow : Nanos := 0
  updatePolicy : Option UpdatePolicy := none
  /-- `none` is "at the end", 0 is the top. -/
  priority : Option ℤ := none
  /-- True while an update rolls out; stays if the rollout fails. -/
  deploying : Bool := false
deriving DecidableEq

namespace Job

/-- The runner: the driver that is set, or the one of the image. -/
def getDriver (j : Job) : Driver := j.driver.getD (.forImage j.image)

/-- Whether this is a daemon: one on every agent. -/
def isDaemon (j : Job) : Bool := j.count = -1

/-- The number of instances of an ordinary job (0 or less is 1). -/
def desired (j : Job) : ℕ := max j.count.toNat 1

theorem one_le_desired (j : Job) : 1 ≤ j.desired := le_max_right _ _

/-- The first fixed port (not 0), as name and number. -/
def fixedPort (j : Job) : Option (String × ℕ) := j.ports.entries.find? fun p => p.2 ≠ 0

/-- The update policy: the one that is set, else recreate with a fixed port and rolling
without. -/
def policy (j : Job) : UpdatePolicy :=
  match j.updatePolicy with
  | some p => p
  | none => if j.fixedPort.isSome then .recreate else .rolling

/-- An explicit rolling or blue-green update can never roll out with a fixed port. -/
def checkRollable (j : Job) : Except Error Unit :=
  if j.policy = .recreate then .ok ()
  else match j.fixedPort with
    | some (port, number) => .error (.fixedPortRolls (.new j.name) (.new port) number)
    | none => .ok ()

/-- One artifact and no command or image can only mean the hop driver. -/
def applyHopShorthand (j : Job) : Job :=
  if j.driver = none ∧ j.command = "" ∧ j.image = "" ∧ j.artifacts.length = 1 then
    { j with driver := some .hop }
  else j

end Job

end Hop.Types
