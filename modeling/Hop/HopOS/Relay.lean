import Hop.Agentd.Net
import Hop.HopOS.Cluster
import Hop.Lead.Persist

/-!
# The leader and the agents on other nodes

`agentd-hopos/src/relay.rs` and `agentd-hopos/src/local.rs`. The transport of the leader is
synchronous, the net is not: a call at an agent on another node is answered from the books of the
`Relay` and goes into the queue of the dispatch task afterwards. A `run` is "accepted" unless a
fresh refusal is known, a stop is "done", and the tasks are the last list that came in.

`Local` is the transport of the leader: the agent of its own node in the process, and the relay
for the rest. `Half` is the agent and the leader half of a node, with the queue of the dispatch
task. The body of a `run` is the job itself; its JSON text is that of `Types.JobJson`. Besides what
the source keeps, the relay writes down every call and the half every call that got into the queue
and the number of the term; no function reads that.
-/

namespace Hop.HopOS

open Hop.Types (Agent Job Map Task)
open Hop.Lead (Leader RunReply Transport)

/-- How long a refusal of an agent holds. -/
def refusalTtl : Nanos := 30 * second

/-- Calls of the leader at other agents. -/
def dispatchQ : ℕ := 64

/-- The version that the agent of this node registers with. -/
def version : String := "3.2.0-rc7"

/-- A call of the leader at an agent on another node. -/
inductive Remote
  /-- `POST /run` (with `?replace=1`). -/
  | run (agent endpoint job : String) (body : Job) (replace : Bool)
  /-- `POST /stop/{job}`. -/
  | stopJob (endpoint job : String)
  /-- `POST /stop-task/{id}`. -/
  | stopTask (endpoint task : String)
  /-- `DELETE /delete/{job}`. -/
  | deleteJob (endpoint job : String)
  /-- `GET /tasks`. -/
  | tasks (agent endpoint : String)
deriving DecidableEq

/-- Whether the call stops something. -/
def Remote.isStop : Remote → Bool
  | .stopJob _ _ | .stopTask _ _ | .deleteJob _ _ => true
  | .run _ _ _ _ _ | .tasks _ _ => false

/-- The books of the owner about agents on other nodes. -/
structure Relay where
  /-- The calls that still have to go to the dispatch task. -/
  out : List Remote
  /-- Refusals by agent and job, with the moment they end. -/
  refused : Map (Map (RunReply × Nanos))
  /-- The last task list of each agent. -/
  tasks : Map (List Task)
  /-- Agents whose task list is under way. -/
  asking : List String
  /-- The job of the operation that makes the calls now. -/
  about : String
  /-- Every call, with the job of the operation that made it. -/
  issued : List (Remote × String)

namespace Relay

def new : Relay := ⟨[], .empty, .empty, [], "", []⟩

def push (r : Relay) (call : Remote) : Relay :=
  { r with out := r.out ++ [call], issued := r.issued ++ [(call, r.about)] }

/-- The refusal of `agent` for `job` that is remembered. -/
def refusal (r : Relay) (agent job : String) : Option (RunReply × Nanos) :=
  (r.refused.get? agent).bind fun jobs => jobs.get? job

def run (r : Relay) (now : Nanos) (agent : Agent) (job : Job) (replace : Bool) :
    RunReply × Relay :=
  let send (r : Relay) : RunReply × Relay :=
    (.accepted, r.push (.run agent.id agent.endpoint job.name job replace))
  match r.refusal agent.id job.name with
  | some (reply, ends) =>
    if now < ends then (reply, r)
    else send { r with refused := r.refused.modify agent.id fun jobs => jobs.erase job.name }
  | none => send r

def stopJob (r : Relay) (agent : Agent) (job : String) : Bool × Relay :=
  (true, r.push (.stopJob agent.endpoint job))

def stopTask (r : Relay) (agent : Agent) (task : String) : Relay :=
  r.push (.stopTask agent.endpoint task)

/-- The refusals of the job lapse. -/
def deleteJob (r : Relay) (agent : Agent) (job : String) : Relay :=
  { r with refused := r.refused.mapVal fun _ jobs => jobs.erase job }.push
    (.deleteJob agent.endpoint job)

/-- The last list that was fetched. -/
def lastTasks (r : Relay) (agent : Agent) : Option (List Task) := r.tasks.get? agent.id

/-- Ask an agent for its task list, unless one is under way. -/
def ask (r : Relay) (agent : Agent) : Relay :=
  if agent.id ∈ r.asking then r
  else { r with asking := r.asking ++ [agent.id] }.push (.tasks agent.id agent.endpoint)

/-- The entries of the agents in a list of ids. -/
def keep {α : Type} (ids : List String) (m : Map α) : Map α :=
  m.keys.foldl (fun m id => if id ∈ ids then m else m.erase id) m

/-- Ask for the task list of each agent again. -/
def refresh (r : Relay) (agents : List Agent) : Relay :=
  let r := agents.foldl ask r
  let seen := agents.map Agent.id
  -- An agent that the leader does not know any more has no list any more.
  { r with tasks := keep seen r.tasks, refused := keep seen r.refused }

def onTasks (r : Relay) (agent : String) (tasks : Option (List Task)) : Relay :=
  { r with
    asking := r.asking.filter (· ≠ agent)
    tasks := match tasks with
      | some t => r.tasks.insert agent t
      | none => r.tasks.erase agent }

def refuse (r : Relay) (now : Nanos) (agent job : String) (reply : RunReply) : Relay :=
  { r with
    refused := r.refused.insert agent
      (((r.refused.get? agent).getD .empty).insert job (reply, satAdd u64Max now refusalTtl)) }

end Relay

/-! ### The transport of the leader -/

/-- The agent of this node and the relay to the rest. -/
structure Local where
  agent : Node.Agent
  now : Nanos
  poolLargest : Option ℕ
  relay : Relay

namespace Local

/-- Whether the call is for the agent of this node. -/
def ours (n : Local) (agent : Agent) : Bool := agent.id = n.agent.settings.id

def run (n : Local) (agent : Agent) (job : Job) (replace : Bool) : RunReply × Local :=
  if !n.ours agent then
    let (reply, relay) := n.relay.run n.now agent job replace
    (reply, { n with relay := relay })
  else
    let (result, a) := n.agent.run n.now job replace n.poolLargest
    (Agentd.runReply result, { n with agent := a })

def stopJob (n : Local) (agent : Agent) (job : String) : Bool × Local :=
  if !n.ours agent then
    let (done, relay) := n.relay.stopJob agent job
    (done, { n with relay := relay })
  else (true, { n with agent := (n.agent.stopJobTasks job).2 })

def stopTask (n : Local) (agent : Agent) (taskId : String) : Local :=
  if n.ours agent then { n with agent := (n.agent.stopTask taskId).2 }
  else { n with relay := n.relay.stopTask agent taskId }

def deleteJob (n : Local) (agent : Agent) (job : String) : Local :=
  if n.ours agent then { n with agent := (n.agent.deleteJob n.now job).2 }
  else { n with relay := n.relay.deleteJob agent job }

def tasks (n : Local) (agent : Agent) : Option (List Task) :=
  if !n.ours agent then n.relay.lastTasks agent else some n.agent.taskList

end Local

instance : Transport Local where
  run := Local.run
  stopJob := Local.stopJob
  stopTask := Local.stopTask
  deleteJob := Local.deleteJob
  tasks n agent := (n.tasks agent, n)
  -- The pause of a rolling update is the default of the trait: none.
  pause n _ := n

/-! ### The leader half -/

/-- A call in the queue of the dispatch task, with the term it was queued in. -/
structure Queued where
  call : Remote
  term : ℕ
deriving DecidableEq

/-- The agent and the leader half of a node. -/
structure Half where
  agent : Node.Agent
  leader : Leader
  relay : Relay
  /-- The queue of the dispatch task. -/
  dispatch : List Queued
  poolLargest : Option ℕ
  /-- The number of the term. -/
  term : ℕ
  /-- Every call that got into the queue. -/
  sent : List Remote

namespace Half

/-- The transport of the leader. -/
def net (h : Half) (now : Nanos) : Local := ⟨h.agent, now, h.poolLargest, h.relay⟩

/-- The half after an operation of the leader on its transport. -/
def back (h : Half) (r : Leader × Local) : Half :=
  { h with leader := r.1, agent := r.2.agent, relay := r.2.relay }

/-- Put calls into the queue of the dispatch task. A `run` that does not fit comes back, a task
list that does not fit may be asked for again, and a stop that does not fit is only counted. -/
def send : List Remote → Half → List (String × String) × Half
  | [], h => ([], h)
  | call :: rest, h =>
    if h.dispatch.length < dispatchQ then
      send rest { h with dispatch := h.dispatch ++ [⟨call, h.term⟩], sent := h.sent ++ [call] }
    else match call with
      | .run agent _ job _ _ =>
        let (unsent, h) := send rest h
        ((agent, job) :: unsent, h)
      | .tasks agent _ =>
        send rest { h with relay := { h.relay with
          asking := h.relay.asking.filter (· ≠ agent) } }
      | .stopJob _ _ | .stopTask _ _ | .deleteJob _ _ => send rest h

/-- Hand the calls over to the dispatch task; the `run` calls that did not fit. -/
def flush (h : Half) : List (String × String) × Half :=
  send h.relay.out { h with relay := { h.relay with out := [] } }

/-- The job of an operation that stops single tasks. -/
def aboutOf : Lead.Op → String
  | .updateJob job => job.name
  | _ => ""

/-- An operation of the live leader. -/
def lead (h : Half) (now : Nanos) (op : Lead.Op) : Half :=
  let h := { h with relay := { h.relay with about := aboutOf op } }
  let s : Lead.Sys Local := Lead.Sys.apply ⟨h.leader, ⟨h.net now, []⟩⟩ op
  h.back (s.leader, s.net.net)

/-- Ask the agents on other nodes for their tasks again, at each tick of the leader. -/
def refreshRemoteTasks (h : Half) : Half :=
  let others := h.leader.agents.filter fun a => a.id ≠ h.agent.settings.id
  { h with relay := h.relay.refresh others }

/-- An agent on another node did not take a job. -/
def refused (h : Half) (now : Nanos) (agent job : String) (reply : RunReply) (live : Bool) : Half :=
  let h := { h with relay := h.relay.refuse now agent job reply }
  if live then h.back (h.leader.markUnplaced (h.net now) agent job) else h

/-- The agent as it registers at a leader. -/
def me (h : Half) : Agent :=
  { id := h.agent.settings.id, endpoint := h.agent.settings.endpoint, version := version }

def registerOwn (h : Half) (now : Nanos) : Bool × Half :=
  let (result, l, net) := h.leader.registerAgent (h.net now) h.me h.agent.placedTaskCounts now
  (match result with
    | .ok ok => ok
    | .error _ => (l.agent h.agent.settings.id).isSome, h.back (l, net))

/-- Put a fresh leader in with the committed state. -/
def openLeader (h : Half) (nodeDead now : Nanos) (got : Except String (Option Bytes)) :
    Except String Bool × Half :=
  match got with
  | .error e => (.error e, h)
  | .ok state =>
    let l := ((Leader.new h.agent.settings.id .new).setAgentTimeout nodeDead).enableSettle now
    match l.loadCommittedState state with
    | (.error _, _) => (.error "unreadable", h)
    | (.ok loaded, l) => (.ok loaded, { h with leader := l, relay := .new })

def seedClusterJobs (h : Half) (now : Nanos) (jobs : List Job) : Half :=
  if h.leader.store.jobs ≠ [] then h
  else h.back (Leader.seedInitJobs jobs h.leader (h.net now))

/-- Forget the leader, and what it still wanted from other agents. -/
def closeLeader (h : Half) : Half :=
  { h with leader := .new h.agent.settings.id .new, relay := .new, dispatch := [] }

/-- A string as a JSON string. -/
def quote (s : String) : String := (fromUtf8 (Types.Json.writeString s)).getD "\"\""

def registerBody (h : Half) : String :=
  let placed := h.agent.placedTaskCounts.entries.map fun e => s!"{quote e.1}:{e.2}"
  "\x7b\"id\":" ++ quote h.me.id ++ ",\"endpoint\":" ++ quote h.me.endpoint ++ ",\"version\":\"" ++
    h.me.version ++ "\",\"placed\":\x7b" ++ ",".intercalate placed ++ "\x7d\x7d"

/-- Without the measurements of the system. -/
def heartbeatBody (h : Half) : String :=
  "\x7b\"id\":" ++ quote h.me.id ++ ",\"endpoint\":" ++ quote h.me.endpoint ++ ",\"version\":" ++
    quote h.me.version ++ "\x7d"

def notifyBody (h : Half) (job event : String) : String :=
  "\x7b\"job\":" ++ quote job ++ ",\"event\":\"" ++ event ++ "\",\"agent\":" ++
    quote h.agent.settings.id ++ "\x7d"

end Half

instance : NodeHalf Half where
  setLeaderAddr h addr := { h with agent := Agent.AgentPort.setLeaderAddr h.agent addr }
  setLeaseExpiresAt h t := { h with agent := Agent.AgentPort.setLeaseExpiresAt h.agent t }
  stopAll h := { h with agent := Agent.AgentPort.stopAll h.agent }
  leaderAddr h := h.agent.leaderAddr
  registerBody := Half.registerBody
  heartbeatBody := Half.heartbeatBody
  notifyBody := Half.notifyBody
  agents h := h.leader.agents.length
  heartbeat h now :=
    let (known, l) := h.leader.heartbeat h.me.id h.me.version now
    (known, { h with leader := l })
  registerOwn := Half.registerOwn
  openLeader := Half.openLeader
  seedClusterJobs := Half.seedClusterJobs
  closeLeader := Half.closeLeader
  pollSnapshot h now :=
    let (snapshot, l) := h.leader.pollSnapshot now
    (.ok snapshot, { h with leader := l })
  snapshotFailed h := { h with leader := h.leader.snapshotFailed }
  refused := Half.refused
  onTasks h agent tasks := { h with relay := h.relay.onTasks agent tasks }
  flush := Half.flush

end Hop.HopOS
