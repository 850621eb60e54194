import Hop.Types.Task

/-!
# What an agent knows of its node, and what it asks of the world

`agent/src/lib.rs`, `agent/src/settings.rs` and `agent/src/action.rs`: the limits and errors of the
agent, the fixed data of its node, and the messages between the agent and its executor.
-/

namespace Hop.Node

open Hop.Types (Driver Job Map)

/-- The largest number of tasks on a node. -/
def maxTasks : ℕ := 1024

/-- The largest number of jobs that a node knows. -/
def maxJobs : ℕ := 1024

/-- The share group of the core of the system. -/
def systemGroup : String := "system"

/-- Restarts without a limit. -/
def defaultMaxRestarts : ℤ := -1

/-- After this much uptime the budget of restarts begins anew. -/
def defaultRestartWindow : Nanos := 5 * minute

/-- The largest wait between two restarts. -/
def maxRestartDelay : Nanos := 30 * second

/-- So many failed checks in a row make a task unhealthy. -/
def defaultFailureThreshold : ℕ := 3

/-- HopOS hands out partitions in blocks of 2 MB. -/
def hopBlockBytes : ℕ := 2 * 2 ^ 20

/-- What can go wrong when a job is taken on. -/
inductive Error
  | affinityMismatch
  | noCapacity
  | tooManyTasks
  | tooManyJobs
  | noArtifact
  | notFound
deriving DecidableEq, Repr

/-- The fixed data of a node. -/
structure Settings where
  id : String
  endpoint : String := ""
  attributes : Map String := .empty
  cpuCores : ℕ := 0
  memoryBytes : ℕ := 0
  /-- A lower bound on the CPU in shares; 0 is none. -/
  capCpuShares : ℤ := 0
  /-- A lower bound on the memory; 0 is none. -/
  capMemory : ℕ := 0
  /-- The share groups on a core that the node does not hand out. -/
  freeGroups : List String := []
  monitorInterval : Nanos := 0
  healthTimeout : Nanos := 0
  seed : BitVec 64 := 0

namespace Settings

/-- The CPU that the node plans against. -/
def effectiveCpuShares (s : Settings) : ℤ :=
  let detected : ℤ := s.cpuCores * 1024
  if 0 < s.capCpuShares ∧ s.capCpuShares < detected then s.capCpuShares else detected

/-- The memory that the node plans against. -/
def effectiveMemoryBytes (s : Settings) : ℕ :=
  if 0 < s.capMemory ∧ s.capMemory < s.memoryBytes then s.capMemory else s.memoryBytes

def monitorEvery (s : Settings) : Nanos :=
  if 0 < s.monitorInterval then s.monitorInterval else 5 * second

def probeTimeout (s : Settings) : Nanos :=
  if 0 < s.healthTimeout then s.healthTimeout else 5 * second

end Settings

/-- A health check as an order. -/
inductive Probe
  | http (port : ℕ) (path : String) (timeout : Nanos)
  | tcp (port : ℕ) (timeout : Nanos)
  | file (path : String)
deriving DecidableEq, Repr

/-- The outcome of a probe. -/
inductive Outcome
  /-- The status, or `none` on a failure of the transport. -/
  | http (status : Option ℕ)
  | tcp (connected : Bool)
  /-- The time of the last change, or `none` if there is no such file. -/
  | file (mtime : Option Nanos)
deriving DecidableEq, Repr

/-- An event for the leader. -/
inductive Event
  /-- The process runs; its health check has not passed yet. -/
  | start
  | started
  | crash
  | stop
  /-- Taken on but not to be placed: handed back to the leader. -/
  | unplaceable
deriving DecidableEq, Repr

/-- An order to the executor of the agent, in the order in which they come. -/
inductive Action
  | start (taskId : String) (job : Job)
  | stop (taskId : String) (driver : Driver) (pid : ℤ)
  | poll (taskId : String) (driver : Driver) (pid : ℤ)
  | probe (taskId : String) (probe : Probe)
  /-- A job did not fit: `why` is what ran out. -/
  | refused (job why : String)
  | notify (job : String) (event : Event)
deriving DecidableEq

/-- A start that worked. -/
structure StartOk where
  pid : ℤ := 0
  ports : Map ℕ := .empty
deriving DecidableEq

inductive StartError
  /-- The runner cannot place the task: hand it back, do not restart. -/
  | noCapacity
  /-- Anything else: a crash that restarts. -/
  | failed
deriving DecidableEq, Repr

/-- What the runner says of a task. -/
inductive Status
  | running
  | failed
deriving DecidableEq, Repr

end Hop.Node
