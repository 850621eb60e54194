import Hop.Lead.Ops
import Hop.Node.Reservations

/-!
# The leader with its agents

The transport of `agentd/src/net.rs`, as it is for the agent of its own node, towards every agent
of a cluster: each call of the leader is the call of the agent it names, and it is reliable. A
`World` has the agents by id. It also writes down how many tasks each accepted `replace` found to
replace; no call reads that.
-/

namespace Hop.Agentd

open Hop.Types (Agent Driver Job Map Task)
open Hop.Lead (Leader RunReply Transport)

/-- An agent accepted a job in the place of the tasks it had of it. -/
structure Swap where
  agent : String
  job : String
  /-- The number of tasks of the job on the agent, before. -/
  found : ℕ
deriving DecidableEq, Repr

/-- The agents of a cluster, and the time. -/
structure World where
  nodes : Map Node.Agent
  now : Nanos
  swaps : List Swap

/-- The reply for the outcome of `Agent::run`. -/
def runReply : Except Node.Error String → RunReply
  | .ok _ => .accepted
  | .error .affinityMismatch => .affinityMismatch
  | .error .noCapacity => .noCapacity
  | .error .tooManyTasks => .noCapacity
  | .error .tooManyJobs => .noCapacity
  | .error _ => .rejected 500

namespace World

/-- Put an agent in the place of the one with this id. -/
def set (w : World) (id : String) (n : Node.Agent) : World :=
  { w with nodes := w.nodes.insert id n }

/-- The world after an accepted `run`. -/
def accept (w : World) (id job : String) (replace : Bool) (n n' : Node.Agent) : World :=
  { w.set id n' with
    swaps := if replace then w.swaps ++ [⟨id, job, n.count job⟩] else w.swaps }

def run (w : World) (agent : Agent) (job : Job) (replace : Bool) : RunReply × World :=
  match w.nodes.get? agent.id with
  | none => (.unreachable, w)
  | some n =>
    match n.run w.now job replace none with
    | (.ok _, n') => (.accepted, w.accept agent.id job.name replace n n')
    | (.error e, n') => (runReply (.error e), w.set agent.id n')

def stopJob (w : World) (agent : Agent) (job : String) : Bool × World :=
  match w.nodes.get? agent.id with
  | none => (false, w)
  | some n => (true, w.set agent.id (n.stopJobTasks job).2)

def stopTask (w : World) (agent : Agent) (taskId : String) : World :=
  match w.nodes.get? agent.id with
  | none => w
  | some n => w.set agent.id (n.stopTask taskId).2

def deleteJob (w : World) (agent : Agent) (job : String) : World :=
  match w.nodes.get? agent.id with
  | none => w
  | some n => w.set agent.id (n.deleteJob w.now job).2

def tasks (w : World) (agent : Agent) : Option (List Task) :=
  (w.nodes.get? agent.id).map Node.Agent.taskList

end World

instance : Transport World where
  run := World.run
  stopJob := World.stopJob
  stopTask := World.stopTask
  deleteJob := World.deleteJob
  tasks w agent := (w.tasks agent, w)
  pause w _ := w

/-! ### The cluster and its steps -/

/-- A leader and the agents of its cluster. -/
structure Cluster where
  leader : Leader
  world : World

/-- What the runner and the clock of a node tell its agent. -/
inductive NodeEvent
  /-- A start worked, or failed for another reason than room. -/
  | started (taskId : String) (driver : Driver) (ok : Node.StartOk)
  | startFailed (taskId : String) (driver : Driver)
  | progress (taskId : String) (downloaded total : ℕ)
  | status (taskId : String) (status : Node.Status)
  | probed (taskId : String) (outcome : Node.Outcome)
  | usage (taskId : String) (cores : ℕ) (core : Option ℕ)
  | tick
deriving Inhabited

/-- What can happen in a cluster. -/
inductive Op
  | dispatchJob (job : Job)
  | updateJob (job : Job)
  | deleteJob (name : String)
  | patchJobPriority (name : String) (target : ℤ)
  | tick
  /-- The agent registers, with the counts of its tasks. -/
  | registerAgent (agent : Agent)
  | heartbeat (id version : String)
  | node (id : String) (e : NodeEvent)
  /-- A start found no room: the agent drops the task and reports it to the leader. -/
  | handBack (id taskId : String) (driver : Driver)

/-- Something that happens at a time. -/
structure Event where
  now : Nanos
  op : Op

/-- Whether a start of the task may be reported: it was asked for, or the task is gone. -/
def awaited (n : Node.Agent) (taskId : String) : Bool :=
  (n.tasks.get? taskId).all fun e => e.starting

/-- The agent after an event of its runner, if that can happen. -/
def nodeStep (n : Node.Agent) (now : Nanos) : NodeEvent → Option Node.Agent
  | .started id driver ok => if awaited n id then some (n.onStarted now id driver (.ok ok)) else none
  | .startFailed id driver =>
    if awaited n id then some (n.onStarted now id driver (.error .failed)) else none
  | .progress id downloaded total => some (n.onProgress id downloaded total)
  | .status id status => some (n.onStatus now id status)
  | .probed id outcome => some (n.onProbe now id outcome)
  | .usage id cores core => some (n.recordUsage id cores core)
  | .tick => some (n.tick now).2

/-- The cluster after an operation at `w.now`. -/
def opStep (l : Leader) (w : World) : Op → Option Cluster
  | .dispatchJob job => some ⟨(l.dispatchJob w job).2.1, (l.dispatchJob w job).2.2⟩
  | .updateJob job => some ⟨(l.updateJob w job).2.1, (l.updateJob w job).2.2⟩
  | .deleteJob name => some ⟨(l.deleteJob w name).1, (l.deleteJob w name).2⟩
  | .patchJobPriority name target =>
    some ⟨(l.patchJobPriority w name target).2.1, (l.patchJobPriority w name target).2.2⟩
  | .tick => some ⟨(l.tick w w.now).1, (l.tick w w.now).2⟩
  | .registerAgent agent =>
    (w.nodes.get? agent.id).map fun n =>
      let r := l.registerAgent w agent n.placedTaskCounts w.now
      ⟨r.2.1, r.2.2⟩
  | .heartbeat id version => some ⟨(l.heartbeat id version w.now).2, w⟩
  | .node id e =>
    (w.nodes.get? id).bind fun n => (nodeStep n w.now e).map fun n' => ⟨l, w.set id n'⟩
  | .handBack id taskId driver =>
    (w.nodes.get? id).bind fun n => (n.tasks.get? taskId).bind fun e =>
      if e.starting then
        let w := w.set id (n.onStarted w.now taskId driver (.error .noCapacity))
        let r := l.markUnplaced w id e.task.jobName
        some ⟨r.1, r.2⟩
      else none

/-- A leader without agents that has only jobs with a name, and agents without tasks. -/
structure Fresh (s : Cluster) : Prop where
  agents : s.leader.agents = []
  named : ∀ j ∈ s.leader.store.jobs, j.name ≠ ""
  nodes : ∀ id n, s.world.nodes.get? id = some n → ∃ settings, n = .new settings
  swaps : s.world.swaps = []

/-- The cluster as a machine. -/
def cluster : Machine Cluster Event where
  Init := Fresh
  step s e := opStep s.leader { s.world with now := e.now } e.op

end Hop.Agentd
