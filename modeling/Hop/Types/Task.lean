import Hop.Types.Job

/-!
# Tasks and agents

`types/src/task.rs`: a task is a running instance of a job, an agent a node that runs tasks.
The measured percentages of a task and the telemetry of an agent are left out: nothing decides by
them.
-/

namespace Hop.Types

/-- The state of a task. Every state counts for capacity. -/
inductive TaskState
  /-- Accepted, capacity reserved, waiting for its download. -/
  | queued
  | downloading
  | running
  /-- Being stopped; a crashed task that restarts. -/
  | stopping
  | failed
  /-- A system resident of the node; never in the books of an agent. -/
  | system
deriving DecidableEq, Repr

structure Task where
  id : String := ""
  jobName : String := ""
  /-- The name of the runner that has the task. -/
  driver : String := ""
  image : String := ""
  ports : Map ℕ := .empty
  pid : ℤ := 0
  state : TaskState := .running
  startedAt : Nanos := 0
  restartCount : ℤ := 0
  lastFailedAt : Nanos := 0
  nextRestartAt : Nanos := 0
  /-- Copied from the job, for the books of capacity. -/
  cpuShares : ℤ := 0
  memoryLimit : ℕ := 0
  /-- How many cores the measured usage is about; 0 is unknown. -/
  cores : ℕ := 0
  /-- The logical core the task runs on, if known; 0 is the core of the system. -/
  core : Option ℕ := none
  downloaded : ℕ := 0
  imageSize : ℕ := 0
deriving DecidableEq

/-- A registered agent: the identity of a node. -/
structure Agent where
  id : String := ""
  endpoint : String := ""
  version : String := ""
  lastSeen : Nanos := 0
deriving DecidableEq, Repr

end Hop.Types
