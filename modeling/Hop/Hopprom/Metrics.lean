import Hop.Lib.Alloc
import Hop.Types.TaskJson

/-!
# The metrics of one round

`apps/hopprom/src/metrics.rs` and `apps/hopprom/src/poll.rs`: what the collector reads in a round and
what it makes of it. What a task and an agent have measured stands beside the task and the agent. The
percentages and the exported ratios are `f64`; all that is used of these is in `F64`.
-/

namespace Hop.Hopprom

open Hop.Types (Job Agent Map Task TaskState)

/-- What is used of floating point numbers. -/
structure F64 (F : Type) where
  zero : F
  add : F → F → F
  /-- `sum / n as f64`. -/
  per : F → ℕ → F
  /-- `a as f64 / b as f64`. -/
  ratio : ℤ → ℕ → F
  isNan : F → Bool
  isInfinite : F → Bool
  /-- `v > 0.0`. -/
  positive : F → Bool
  /-- With so many digits behind the point. -/
  fixed : ℕ → F → List Char

/-! ### What is read -/

/-- A task as its agent reports it, with its use of its allocation. -/
structure Report (F : Type) where
  task : Task
  cpuPercent : F
  memPercent : F

/-- The tasks of one agent; `none` if it did not answer the leader. -/
structure AgentTasks (F : Type) where
  agent : String
  tasks : Option (List (Report F))

/-- An agent with the temperature of its last heartbeat. -/
structure PolledAgent where
  agent : Agent
  tempMilliC : ℤ

/-- What an agent says of its capacity. -/
structure Capacity where
  cpuCores : ℕ
  memoryBytes : ℕ
  cpuUsedShares : ℤ
  memoryUsedBytes : ℕ

/-- `/v1/status`, as far as it is read. -/
structure Status where
  settling : Bool
  deploying : List String

/-- `/leader`. -/
structure Leader where
  leader : String
  leaseExpiresAt : Nanos

/-- `Poll`: one round. `none` is a miss. -/
structure Poll (F : Type) where
  agents : List PolledAgent
  jobs : List Job
  tasks : List (AgentTasks F)
  capacities : List (String × Option Capacity)
  status : Option Status
  leader : Option Leader

/-! ### What is made of it -/

structure CapacityMetric where
  cpuCores : ℕ
  memoryBytes : ℕ
  cpuUsedShares : ℤ
  memoryUsedBytes : ℕ

def CapacityMetric.ofCapacity (c : Capacity) : CapacityMetric :=
  ⟨c.cpuCores, c.memoryBytes, c.cpuUsedShares, c.memoryUsedBytes⟩

structure AgentMetric where
  capacity : Option CapacityMetric
  tempMilliC : ℤ

structure JobMetric (F : Type) where
  placed : ℕ
  expected : ℕ
  healthy : Bool
  cpuPercent : F
  memPercent : F

/-- `Metrics`: what is exported after a round. -/
structure Metrics (F : Type) where
  agentsTotal : ℕ
  agentsHealthy : ℕ
  agents : Map AgentMetric
  tasksByState : Map ℕ
  tasksPlaced : Map ℕ
  taskRestarts : Map ℕ
  jobsTotal : ℕ
  jobs : Map (JobMetric F)
  startsTotal : Map ℕ
  failuresTotal : Map ℕ
  restartsTotal : Map ℕ
  leader : String
  leaseExpiresAt : Nanos
  leaderChanges : ℕ
  settling : Bool
  deploying : List String

/-! ### Maps in scarce memory -/

variable {V : Type}

/-- `Map::insert` of a new text: one question for the text, and one for the pair if the key is new. -/
def insertNew (m : Map V) (key : String) (value : V) : Alloc (Map V) := do
  Alloc.reserve
  match m.get? key with
  | some _ => pure (m.insert key value)
  | none => do
    Alloc.reserve
    pure (m.insert key value)

/-- `bump`: adds `n` to the counter of a key. -/
def bump (m : Map ℕ) (key : String) (n : ℕ) : Alloc (Map ℕ) :=
  match m.get? key with
  | some v => pure (m.insert key (satAdd u64Max v n))
  | none => insertNew m key n

/-- The same, where that is asked for. -/
def bumpIf (cond : Prop) [Decidable cond] (m : Map ℕ) (key : String) (n : ℕ) : Alloc (Map ℕ) :=
  if cond then bump m key n else pure m

/-- `Map::try_clone`: one question for the pairs and one for each key. -/
def cloneMap (m : Map V) : Alloc (Map V) := do
  Alloc.reserve
  m.entries.forM fun _ => Alloc.reserve
  pure m

open Alloc

theorem meets_insertNew (m : Map V) (key : String) (value : V) :
    Meets (insertNew m key value) (· = m.insert key value) := by
  rw [insertNew]
  refine meets_reserve.bind fun _ _ => ?_
  rcases m.get? key with - | _
  · exact meets_reserve.bind fun _ _ => .pure rfl
  · exact .pure rfl

/-- What `bump` makes of a counter. -/
def bumped (m : Map ℕ) (key : String) (n : ℕ) : Map ℕ :=
  m.insert key (match m.get? key with | some v => satAdd u64Max v n | none => n)

theorem meets_bump (m : Map ℕ) (key : String) (n : ℕ) : Meets (bump m key n) (· = bumped m key n) := by
  rw [bump, bumped]
  rcases m.get? key with - | v
  · exact meets_insertNew m key n
  · exact .pure rfl

theorem meets_bumpIf (cond : Prop) [Decidable cond] (m : Map ℕ) (key : String) (n : ℕ) :
    Meets (bumpIf cond m key n) (· = if cond then bumped m key n else m) := by
  rw [bumpIf]
  split_ifs
  · exact meets_bump m key n
  · exact .pure rfl

theorem meets_cloneMap (m : Map V) : Meets (cloneMap m) (· = m) := by
  refine meets_reserve.bind fun _ _ => Meets.bind (P := fun _ => True) ?_ fun _ _ => .pure rfl
  exact meets_forM m.entries fun _ => meets_reserve

end Hop.Hopprom
