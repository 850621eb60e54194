import Hop.Agent.Election
import Hop.Lead.Transport

/-!
# The clustered node of HopOS

`agentd-hopos/src/node/cluster.rs` and the queues of `agentd-hopos/src/mail.rs`. The node owns
its state and never waits for the net: an order goes into the bounded queue of a task, and the
answer comes back as `Mail`. Becoming leader takes two steps: the election says so, the state task
reads the committed state, and only with that state the leader half opens (`live`).

The agent and the leader half of the node are a parameter: `NodeHalf` is what this file calls of
them. Lines for the console are left out, with the counters that only they use.
-/

namespace Hop.HopOS

open Hop.Agent (AgentPort Elector Election LeaseQueue LeaseReply LinkError Loop Request)
open Hop.Types (Job Task)

abbrev Bytes : Type := List UInt8

/-- How often the election ticks. -/
def electionTick : Nanos := 10 * second

/-- How many rounds of follow-up calls the election gets after one answer. -/
def linkRounds : ℕ := 4

/-- Orders to the lease task. -/
def leaseQ : ℕ := 8

/-- Orders to the link task. -/
def linkQ : ℕ := 32

/-- Orders to the state task: a read on becoming leader, and snapshots. -/
def stateQ : ℕ := 4

/-- An order to the state task. -/
inductive StateOp
  /-- Read the committed state. -/
  | load
  /-- Overwrite the committed state with this snapshot. -/
  | save (snapshot : Bytes)
deriving DecidableEq

/-- A call at the leader on another node. -/
inductive LinkJob
  /-- A register or a heartbeat: the answer goes back to the election. -/
  | election (req : Request) (url body : String)
  /-- A notification; its answer does not matter. -/
  | notify (url body : String)
deriving DecidableEq

/-- An answer to the owner of the node. -/
inductive Mail
  | lease (r : LeaseReply)
  | note (line : String)
  | link (req : Request) (result : Except LinkError Unit)
  /-- The committed state, read on becoming leader. -/
  | loaded (got : Except String (Option Bytes))
  | saveFailed (why : String)
  | ran (agent job : String) (reply : Lead.RunReply)
  | tasks (agent : String) (tasks : Option (List Task))

/-- What the cluster code calls of the agent and of the leader half of its node, with the relay
to the other agents and its dispatch queue. -/
class NodeHalf (H : Type) extends AgentPort H where
  leaderAddr : H → String
  /-- The body of `POST /v1/agents`. -/
  registerBody : H → String
  /-- The body of `POST /v1/heartbeat`. -/
  heartbeatBody : H → String
  /-- The body of `POST /v1/notify`. -/
  notifyBody : H → (job event : String) → String
  /-- How many agents the leader half knows. -/
  agents : H → ℕ
  /-- A heartbeat of the own agent at the leader half; `false` if it does not know it. -/
  heartbeat : H → (now : Nanos) → Bool × H
  /-- Register the own agent at the leader half, with what it runs. -/
  registerOwn : H → (now : Nanos) → Bool × H
  /-- Put a fresh leader in with the agent timeout, a settle period and the committed state;
  `ok true` if there was one. An error leaves the leader as it was. -/
  openLeader : H → (nodeDead now : Nanos) → Except String (Option Bytes) → Except String Bool × H
  /-- Sow the init jobs in a leader without jobs. -/
  seedClusterJobs : H → (now : Nanos) → List Job → H
  /-- Put an empty leader in, and forget what it still wanted from other agents. -/
  closeLeader : H → H
  /-- The snapshot that the leader wants to be written, if any. -/
  pollSnapshot : H → (now : Nanos) → Except String (Option Bytes) × H
  snapshotFailed : H → H
  /-- An agent on another node did not take a job: remember it and, if the leader is live,
  place it elsewhere. -/
  refused : H → (now : Nanos) → (agent job : String) → Lead.RunReply → (live : Bool) → H
  onTasks : H → (agent : String) → Option (List Task) → H
  /-- Hand the calls of the leader to the dispatch task; the `run` calls that did not fit. -/
  flush : H → List (String × String) × H

/-- The node in a cluster. -/
structure Node (H : Type) where
  /-- The election with the elector and the rest of the node. -/
  loop : Loop (Elector LeaseQueue) H
  link : List LinkJob
  state : List StateOp
  /-- The leader API is open: the election said "lead", and the state is loaded. -/
  live : Bool
  /-- The election said "lead"; the state task reads the committed state. -/
  loading : Bool
  initJobs : Option (List Job)
  nodeDead : Nanos
  nextElection : Nanos
  /-- The boot claim is out; if it hits, the node leads at once. -/
  bootClaim : Bool

namespace Node

variable {H : Type} [NodeHalf H]

/-- The node with another agent and leader half. -/
def setHalf (n : Node H) (h : H) : Node H := { n with loop := { n.loop with agent := h } }

/-- A clustered node: the election decides who leads, not the boot. -/
def newClustered (ip : String) (port wallMs ttlMs : ℕ) (initJobs : Option (List Job))
    (nodeDead now : Nanos) (half : H) : Node H where
  loop :=
    { el := Election.new ip port
      disc := Elector.new ⟨[], leaseQ⟩ wallMs ttlMs false
      agent := AgentPort.setLeaderAddr half "" }
  link := []
  state := []
  live := false
  loading := false
  initJobs := initJobs
  nodeDead := nodeDead
  nextElection := now
  bootClaim := false

/-! ### Becoming leader and stepping down -/

/-- The election said "lead": the state task reads the committed state. -/
def startLeading (n : Node H) : Node H :=
  if n.live || n.loading then n
  else if n.state.length < stateQ then { n with state := n.state ++ [.load], loading := true }
  -- The queue is full, with snapshots of an earlier term.
  else n

/-- Step down: the leader half is closed and empty. -/
def stopLeading (n : Node H) : Node H :=
  { n with live := false, loading := false }.setHalf (NodeHalf.closeLeader n.loop.agent)

/-! ### The calls of the election -/

def electionReply (n : Node H) (r : Request) (result : Except LinkError Unit) :
    List Request × Node H :=
  let (reqs, loop) := n.loop.onReply r result
  (reqs, { n with loop := loop })

/-- Queue a call for the link task. A full queue counts as a failed call. -/
def sendLink (n : Node H) (job : LinkJob) : List Request × Node H :=
  if n.link.length < linkQ then ([], { n with link := n.link ++ [job] })
  else match job with
    | .election req _ _ => n.electionReply req (.error .failed)
    | .notify _ _ => ([], n)

/-- Carry out one call of the election, in the process where that is possible; returns the
follow-ups. -/
def request (n : Node H) (now : Nanos) (r : Request) : List Request × Node H :=
  match r with
  | .register leader =>
    n.sendLink (.election r s!"http://{leader}/v1/agents" (NodeHalf.registerBody n.loop.agent))
  | .heartbeat leader =>
    n.sendLink (.election r s!"http://{leader}/v1/heartbeat" (NodeHalf.heartbeatBody n.loop.agent))
  | .selfHeartbeat _ =>
    if n.live then
      let (known, h) := NodeHalf.heartbeat n.loop.agent now
      (n.setHalf h).electionReply r (if known then .ok () else .error .notRegistered)
    else n.electionReply r (.error .failed)
  | .selfRegister _ =>
    if n.live then
      let (done, h) := NodeHalf.registerOwn n.loop.agent now
      (n.setHalf h).electionReply r (if done then .ok () else .error .failed)
    else n.electionReply r (.error .failed)
  | .startLeader => ([], n.startLeading)
  | .stopLeader => ([], n.stopLeading)

/-- Carry out a round of calls; returns all follow-ups. -/
def requestEach (now : Nanos) : List Request → Node H → List Request × Node H
  | [], n => ([], n)
  | r :: rest, n =>
    let (next, n) := n.request now r
    let (more, n) := requestEach now rest n
    (next ++ more, n)

/-- Carry out the calls of the election, in at most `rounds` rounds. -/
def requests (now : Nanos) : ℕ → List Request → Node H → Node H
  | 0, _, n => n
  | rounds + 1, reqs, n =>
    if reqs = [] then n
    else
      let (next, n) := requestEach now reqs n
      requests now rounds next n

/-! ### Inputs -/

/-- An agent on another node answered a `run`. -/
def onRan (n : Node H) (now : Nanos) (agent job : String) (reply : Lead.RunReply) : Node H :=
  if reply = .accepted then n
  else n.setHalf (NodeHalf.refused n.loop.agent now agent job reply n.live)

/-- After each input: the notes of the elector, and the calls of the leader to the dispatch
task. A `run` that did not fit is an agent that did not answer. -/
def afterCluster (n : Node H) (now : Nanos) : Node H :=
  let n := { n with loop := { n.loop with disc := { n.loop.disc with notes := [] } } }
  let (unsent, h) := NodeHalf.flush n.loop.agent
  unsent.foldl (fun n u => n.onRan now u.1 u.2 .unreachable) (n.setHalf h)

/-- Take part, with the boot claim: one claim before the first tick of the election. -/
def clusterBoot (n : Node H) (now : Nanos) : Node H :=
  let n := { n with
    bootClaim := true
    loop := { n.loop with disc := n.loop.disc.tryBecomeLeader.2 }
    nextElection := satAdd u64Max now electionTick }
  n.afterCluster now

/-- Write the snapshot of the leader if it asks for that. -/
def persistSnapshot (n : Node H) (now : Nanos) : Node H :=
  if !n.live then n
  else match NodeHalf.pollSnapshot n.loop.agent now with
    | (.ok (some s), h) =>
      if n.state.length < stateQ then { n.setHalf h with state := n.state ++ [.save s] }
      else n.setHalf (NodeHalf.snapshotFailed h)
    | (.ok none, h) => n.setHalf h
    | (.error _, h) => n.setHalf h

/-- The tick of the cluster: the cadence of the lease, the election, and the snapshot. -/
def clusterTick (n : Node H) (now : Nanos) : Node H :=
  let n := { n with loop := { n.loop with disc := n.loop.disc.tick n.loop.disc.clock } }
  let n :=
    if n.nextElection ≤ now then
      let n := { n with nextElection := satAdd u64Max now electionTick }
      let connected := if n.live then NodeHalf.agents n.loop.agent else 0
      let (reqs, loop) := n.loop.tick connected
      requests now linkRounds reqs { n with loop := loop }
    else n
  (n.persistSnapshot now).afterCluster now

/-- The committed state is there (or not): the leader half opens. -/
def finishLeading (n : Node H) (now : Nanos) (got : Except String (Option Bytes)) : Node H :=
  if !n.loading then n
  else
    let n := { n with loading := false }
    -- Stepped down while the state was under way.
    if !n.loop.el.leading then n
    else match NodeHalf.openLeader n.loop.agent n.nodeDead now got with
      -- Not leading: the lease goes back, and the next election tries again.
      | (.error _, h) =>
        let (reqs, loop) := (n.setHalf h).loop.stepDown true
        requests now linkRounds reqs { n with loop := loop }
      | (.ok loaded, h) =>
        let n := { n.setHalf h with live := true }
        let n := n.setHalf (NodeHalf.registerOwn n.loop.agent now).2
        match if loaded then none else n.initJobs with
        | some jobs => n.setHalf (NodeHalf.seedClusterJobs n.loop.agent now jobs)
        | none => n

def onSaveFailed (n : Node H) : Node H :=
  if n.live then n.setHalf (NodeHalf.snapshotFailed n.loop.agent) else n

/-- An answer of the lease task. The boot claim makes the node leader at once if it hit. -/
def onLease (n : Node H) (now : Nanos) (r : LeaseReply) : Node H :=
  let boot := (match r with | .claimed _ => true | _ => false) && n.bootClaim
  let n := { n with loop := { n.loop with disc := n.loop.disc.onReply r } }
  if boot then
    let n := { n with bootClaim := false }
    if r = .claimed true then
      let (reqs, loop) := n.loop.becomeLeaderNow
      requests now linkRounds reqs { n with loop := loop }
    else n
  else n

/-- Process an answer of one of the tasks. -/
def onMail (n : Node H) (mail : Mail) (now : Nanos) : Node H :=
  let n := match mail with
    | .lease r => n.onLease now r
    | .note _ => n
    | .link req result =>
      let (reqs, n) := n.electionReply req result
      requests now linkRounds reqs n
    | .loaded got => n.finishLeading now got
    | .saveFailed _ => n.onSaveFailed
    | .ran agent job reply => n.onRan now agent job reply
    | .tasks agent tasks => n.setHalf (NodeHalf.onTasks n.loop.agent agent tasks)
  n.afterCluster now

/-- A task event for the leader on another node. -/
def notifyLeader (n : Node H) (job event : String) : Node H :=
  let leader := NodeHalf.leaderAddr n.loop.agent
  if leader = "" then n
  else (n.sendLink (.notify s!"http://{leader}/v1/notify"
    (NodeHalf.notifyBody n.loop.agent job event))).2

end Node

end Hop.HopOS
