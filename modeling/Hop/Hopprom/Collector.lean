import Hop.Hopprom.Metrics
import Hop.Lib.Bisect

/-!
# The collector of hopprom

`apps/hopprom/src/collector.rs`: from a round to its metrics. The counters are the differences from
the round before, whose tasks are remembered (`seen`), sorted by their texts. A round is made of local
values and written down at its end, so that one that lacks memory changes nothing.
-/

namespace Hop.Hopprom

open Hop.Types (Agent Job Map TaskState)

/-- `HEALTHY_WITHIN`. -/
def healthyWithin : Nanos := minute

/-- A task as the round before saw it. -/
structure Seen where
  id : String
  job : String
  agent : String
  state : TaskState
  restarts : ℤ
deriving DecidableEq

namespace Seen

variable {F : Type}

/-- What a report says. -/
def ofReport (agent : String) (t : Report F) : Seen :=
  ⟨t.task.id, t.task.jobName, agent, t.task.state, t.task.restartCount⟩

/-- `Seen::of`. -/
def of (agent : String) (t : Report F) : Alloc Seen := do
  Alloc.reserve
  Alloc.reserve
  Alloc.reserve
  pure (ofReport agent t)

def tryClone (s : Seen) : Alloc Seen := do
  Alloc.reserve
  Alloc.reserve
  Alloc.reserve
  pure s

/-- What `seen` is sorted by. -/
def key (s : Seen) : Bytes := utf8 s.id

end Seen

/-- The sum over the running tasks of a job. -/
structure Sum (F : Type) where
  cpu : F
  mem : F
  n : ℕ

/-- The counters of the jobs. -/
structure Counters where
  starts : Map ℕ := .empty
  failures : Map ℕ := .empty
  restarts : Map ℕ := .empty

def Counters.tryClone (c : Counters) : Alloc Counters := do
  let starts ← cloneMap c.starts
  let failures ← cloneMap c.failures
  let restarts ← cloneMap c.restarts
  pure ⟨starts, failures, restarts⟩

/-- The gauges of the tasks of a round. -/
structure TaskGauges (F : Type) where
  byState : Map ℕ := .empty
  placed : Map ℕ := .empty
  restarts : Map ℕ := .empty
  sums : Map (Sum F) := .empty

/-- `Collector`. -/
structure Collector where
  /-- The tasks of the round before, sorted. -/
  seen : List Seen := []
  counters : Counters := {}
  /-- The capacity of an agent as it was last read. -/
  capacity : Map CapacityMetric := .empty
  leader : String := ""
  leaseExpiresAt : Nanos := 0
  leaderChanges : ℕ := 0
  settling : Bool := false
  deploying : List String := []
  rounds : ℕ := 0

variable {F : Type} (ops : F64 F)

/-- A running task in the sums of its job. -/
def addSum (sums : Map (Sum F)) (t : Report F) : Alloc (Map (Sum F)) :=
  match sums.get? t.task.jobName with
  | some s => pure (sums.insert t.task.jobName
      ⟨ops.add s.cpu t.cpuPercent, ops.add s.mem t.memPercent, satAdd u64Max s.n 1⟩)
  | none => insertNew sums t.task.jobName ⟨t.cpuPercent, t.memPercent, 1⟩

/-- A task in the gauges of its job, if it is running. -/
def gaugePlaced (g : TaskGauges F) (t : Report F) : Alloc (TaskGauges F) :=
  if t.task.state = .running then do
    let placed ← bump g.placed t.task.jobName 1
    let sums ← addSum ops g.sums t
    pure { g with placed := placed, sums := sums }
  else pure g

/-- `gauge`: a task in the gauges. -/
def gauge (g : TaskGauges F) (t : Report F) : Alloc (TaskGauges F) := do
  let byState ← bump g.byState t.task.state.asStr 1
  let g ← gaugePlaced ops { g with byState := byState } t
  let restarts ← bumpIf (0 < t.task.restartCount) g.restarts t.task.jobName t.task.restartCount.toNat
  pure { g with restarts := restarts }

/-- `agent_metrics`. -/
def agentMetrics (agents : List PolledAgent) (capacity : Map CapacityMetric) :
    Alloc (Map AgentMetric) :=
  agents.foldlM (fun out a => insertNew out a.agent.id ⟨capacity.get? a.agent.id, a.tempMilliC⟩) .empty

/-- `job_metrics`. -/
def jobMetrics (poll : Poll F) (g : TaskGauges F) : Alloc (Map (JobMetric F)) :=
  poll.jobs.foldlM (fun out job =>
    let placed := (g.placed.get? job.name).getD 0
    let expected := if job.isDaemon then poll.agents.length else job.desired
    let (cpu, mem) := match g.sums.get? job.name with
      | some s => if 0 < s.n then (ops.per s.cpu s.n, ops.per s.mem s.n) else (ops.zero, ops.zero)
      | none => (ops.zero, ops.zero)
    insertNew out job.name ⟨placed, expected, decide (expected ≤ placed), cpu, mem⟩) .empty

/-- `healthy`: how many agents had a heartbeat lately; without a clock, next to the last one. -/
def healthy (agents : List PolledAgent) (now : Option Nanos) : ℕ :=
  let reference := now.getD ((agents.map (·.agent.lastSeen)).foldl max 0)
  agents.countP fun a => a.agent.lastSeen ≠ 0 ∧ reference - a.agent.lastSeen < healthyWithin

namespace Collector

/-- `delta`: the counters for a task, against the round before. -/
def delta (self : Collector) (t : Report F) (c : Counters) : Alloc Counters :=
  let job := t.task.jobName
  match Bisect.findKey Seen.key (utf8 t.task.id) self.seen with
  | none => do
    let starts ← bump c.starts job 1
    let restarts ← bumpIf (0 < t.task.restartCount) c.restarts job 1
    pure { c with starts := starts, restarts := restarts }
  | some prev => do
    let failures ← bumpIf (t.task.state = .failed ∧ prev.state ≠ .failed) c.failures job 1
    let grew := satI64 (t.task.restartCount - prev.restarts)
    let restarts ← bumpIf (0 < grew) c.restarts job grew.toNat
    pure { c with failures := failures, restarts := restarts }

/-- What the round has so far: the gauges, the counters and what is seen. -/
abbrev Round (F : Type) : Type := TaskGauges F × Counters × List Seen

/-- A task of an agent that was not reached stays as the round before saw it. -/
def carry (seen : List Seen) (s : Seen) : Alloc (List Seen) := do
  let s ← s.tryClone
  Alloc.reserve
  pure (seen ++ [s])

/-- A task that was reported. -/
def see (self : Collector) (agent : String) (st : Round F) (t : Report F) : Alloc (Round F) := do
  let g ← gauge ops st.1 t
  let c ← self.delta t st.2.1
  let s ← Seen.of agent t
  Alloc.reserve
  pure (g, c, st.2.2 ++ [s])

/-- The tasks of one agent. -/
def agentTasks (self : Collector) (st : Round F) (a : AgentTasks F) : Alloc (Round F) :=
  match a.tasks with
  | none => do
    let seen ← (self.seen.filter (·.agent = a.agent)).foldlM carry st.2.2
    pure (st.1, st.2.1, seen)
  | some tasks => tasks.foldlM (self.see ops a.agent) st

/-- `sort_unstable_by` the texts. -/
def sortSeen (seen : List Seen) : List Seen := seen.mergeSort fun a b => decide (a.key ≤ b.key)

/-- `tasks`: the gauges, the counters and the new `seen`. -/
def tasks (self : Collector) (perAgent : List (AgentTasks F)) (counters : Counters) :
    Alloc (Round F) := do
  let (g, c, seen) ← perAgent.foldlM (self.agentTasks ops) ({}, counters, [])
  pure (g, c, sortSeen seen)

/-- `capacities`: as read, or as before if that was a miss; none for an agent that is gone. -/
def capacities (self : Collector) (poll : Poll F) : Alloc (Map CapacityMetric) :=
  poll.agents.foldlM (fun out a =>
    let id := a.agent.id
    let fresh := (poll.capacities.find? fun p => p.1 = id).bind
      fun p => p.2.map CapacityMetric.ofCapacity
    match fresh.orElse fun _ => self.capacity.get? id with
    | some c => insertNew out id c
    | none => pure out) .empty

/-- `String::try_clone`. -/
def cloneText (s : String) : Alloc String := do
  Alloc.reserve
  pure s

/-- `Vec::try_clone`. -/
def cloneTexts (ss : List String) : Alloc (List String) := do
  Alloc.reserve
  ss.forM fun _ => Alloc.reserve
  pure ss

/-- The leader, its lease and how often it has changed: as answered, or as before. -/
def readLeader (self : Collector) (answer : Option Leader) : Alloc (String × Nanos × ℕ) := do
  let leader ← cloneText self.leader
  match answer with
  | some l => do
    let changes := if l.leader ≠ leader ∧ leader ≠ "" then satAdd u64Max self.leaderChanges 1
      else self.leaderChanges
    let leader ← cloneText l.leader
    pure (leader, l.leaseExpiresAt, changes)
  | none => pure (leader, self.leaseExpiresAt, self.leaderChanges)

/-- Whether the leader settles, and the rollouts: as answered, or as before. -/
def readStatus (self : Collector) (answer : Option Status) : Alloc (Bool × List String) :=
  match answer with
  | some s => do
    let deploying ← cloneTexts s.deploying
    pure (s.settling, deploying)
  | none => do
    let deploying ← cloneTexts self.deploying
    pure (self.settling, deploying)

/-- The part of a round that asks for memory: its metrics and what is to be written down. -/
def round (self : Collector) (poll : Poll F) (now : Option Nanos) : Alloc (Metrics F × Collector) := do
  let counters ← self.counters.tryClone
  let (gauges, counters, seen) ← self.tasks ops poll.tasks counters
  let capacity ← self.capacities poll
  let agents ← agentMetrics poll.agents capacity
  let jobs ← jobMetrics ops poll gauges
  let (leader, lease, changes) ← self.readLeader poll.leader
  let (settling, deploying) ← self.readStatus poll.status
  let starts ← cloneMap counters.starts
  let failures ← cloneMap counters.failures
  let restarts ← cloneMap counters.restarts
  let exported ← cloneText leader
  let rollouts ← cloneTexts deploying
  let metrics : Metrics F :=
    { agentsTotal := poll.agents.length
      agentsHealthy := healthy poll.agents now
      agents := agents
      tasksByState := gauges.byState
      tasksPlaced := gauges.placed
      taskRestarts := gauges.restarts
      jobsTotal := poll.jobs.length
      jobs := jobs
      startsTotal := starts
      failuresTotal := failures
      restartsTotal := restarts
      leader := exported
      leaseExpiresAt := lease
      leaderChanges := changes
      settling := settling
      deploying := rollouts }
  pure (metrics,
    { seen := seen
      counters := counters
      capacity := capacity
      leader := leader
      leaseExpiresAt := lease
      leaderChanges := changes
      settling := settling
      deploying := deploying
      rounds := satAdd u64Max self.rounds 1 })

/-- `observe`: the metrics of a round, and the collector after it; `none` if it lacked memory. -/
def observe (self : Collector) (poll : Poll F) (now : Option Nanos) (room : ℕ → Bool) :
    Option (Metrics F) × Collector :=
  match self.round ops poll now room with
  | some ((metrics, next), _) => (some metrics, next)
  | none => (none, self)

end Collector

end Hop.Hopprom
