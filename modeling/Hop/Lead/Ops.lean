import Hop.Lead.Place

/-!
# The operations of the leader

What the requests of `leader/src/state.rs`, `dispatch.rs`, `health.rs`, `update.rs` and `init.rs`
do: registering and losing agents, submitting, updating and deleting jobs, and the tick.
-/

namespace Hop.Lead

open Hop.Types (Agent Job Map Task Name)

namespace Leader

variable {N : Type} [Transport N]

/-! ### Jobs -/

/-- Store a job and place its instances. During the settle period it is only stored. -/
def dispatchJob (l : Leader) (net : N) (job : Job) : Except Error Unit × Leader × N :=
  if job.name = "" then (.error .nameRequired, l, net)
  else match l.storePut job with
    | .error e => (.error e, l, net)
    | .ok l =>
      if !l.settled then (.ok (), l, net)
      else
        let r := if job.isDaemon then l.reconcileJob net job
          else l.dispatchCount net job job.desired
        match r with
        | (.error e, l, net) => (.error e, l, net)
        | (.ok (), l, net) => (.ok (), l.emit (.job job.name), net)

/-- Sow the init jobs; a name that exists is skipped. -/
def seedInitJobs : List Job → Leader → N → Leader × N
  | [], l, net => (l, net)
  | job :: rest, l, net =>
    match l.store.get job.name with
    | some _ => seedInitJobs rest l net
    | none =>
      let job := { job with priority := some (job.priority.getD l.nextPriority) }
      let (_, l, net) := l.dispatchJob net job
      seedInitJobs rest l net

/-- Delete a job on each agent of a list. -/
def deleteEach (name : String) (agents : List Agent) (net : N) : N :=
  agents.foldl (fun net a => Transport.deleteJob net a name) net

/-- Delete a job: from the store, from every agent that runs it, and reconcile. -/
def deleteJob (l : Leader) (net : N) (name : String) : Leader × N :=
  match l.storeRemove name with
  | (none, l) => (l, net)
  | (some _, l) =>
    let (agents, l) := l.takePlacement name
    let net := deleteEach name agents net
    (l.emit (.job name)).reconcileJobs net

/-- Set the priorities of a list of names to `i`, `i + 1`, .... -/
def renumber : List String → ℕ → Leader → Leader
  | [], _, l => l
  | name :: rest, i, l => renumber rest (i + 1) (l.storeSetPriority name i)

/-- Move a job to the place `target` of the order, number the rest, and reconcile. -/
def patchJobPriority (l : Leader) (net : N) (name : String) (target : ℤ) :
    Except Error Unit × Leader × N :=
  match l.store.get name with
  | none => (.error (.notFound (.new name)), l, net)
  | some _ =>
    let order := l.priorityOrder.filter fun n => n ≠ name
    let at' := min target.toNat order.length
    let order := order.insertIdx at' name
    let (l, net) := ((renumber order 0 l).emit (.job name)).reconcileJobs net
    (.ok (), l, net)

/-! ### Agents -/

/-- The jobs on a returning agent that the cluster has elsewhere in full number. -/
def redundant (l : Leader) (agentId : String) : List String :=
  match l.placed.get? agentId with
  | none => []
  | some jobs =>
    (jobs.entries.filter fun e =>
      decide (e.2 ≠ 0) && match l.store.get e.1 with
        | none => false
        | some job =>
          let total := (l.placed.entries.map fun p => (p.2.get? e.1).getD 0).sum
          !job.isDaemon && decide (job.desired ≤ total - e.2)).map Prod.fst

/-- Stop the jobs of a list on an agent, if the leader knows it. -/
def stopEach (agent : Option Agent) : List String → Leader → N → Leader × N
  | [], l, net => (l, net)
  | name :: rest, l, net =>
    let net := match agent with
      | some a => (Transport.stopJob net a name).2
      | none => net
    stopEach agent rest (l.emit (.job name)) net

/-- Stop on a returning agent what the cluster no longer needs there. -/
def trimReturningAgentSurplus (l : Leader) (net : N) (agentId : String) : Leader × N :=
  let names := l.redundant agentId
  -- First out of the books, so that the reconcile sees the truth.
  let l := names.foldl (fun l name => l.dropPlacement agentId name) l
  stopEach (l.agent agentId) names l net

/-- Register a (re)starting agent with what it runs already. `ok false` if the same id is
alive at another address. -/
def registerAgent (l : Leader) (net : N) (agent : Agent) (placed : Map ℕ) (now : Nanos) :
    Except Error Bool × Leader × N :=
  let duplicate := (l.agent agent.id).any fun existing =>
    decide (existing.endpoint ≠ agent.endpoint) && decide (now - existing.lastSeen < l.agentTimeout)
  if duplicate then (.ok false, l, net)
  else if maxAgents ≤ (l.removeAgent agent.id).agents.length then
    (.error (.tooMany "agents" maxAgents), l.removeAgent agent.id, net)
  else
    let l := l.insertAgent { agent with lastSeen := now } placed
    let (l, net) := if l.settled then
        let (l, net) := l.trimReturningAgentSurplus net agent.id
        l.reconcileJobs net
      else (l, net)
    (.ok true, l.emit (.agent agent.id), net)

def unregisterAgent (l : Leader) (net : N) (id : String) : Leader × N :=
  (l.removeAgent id).reconcileJobs net

/-- Book a hand-back off, and reconcile at once: it may fit elsewhere. -/
def markUnplaced (l : Leader) (net : N) (agentId name : String) : Leader × N :=
  (l.untrackOne agentId name).reconcileJobs net

/-- Remove the agents that were silent longer than the timeout, and reconcile; not during the
settle period. -/
def checkDeadAgents (l : Leader) (net : N) (now : Nanos) : Leader × N :=
  if !l.settled then (l, net)
  else
    let dead := (l.agents.filter fun a => l.agentTimeout < now - a.lastSeen).map Agent.id
    if dead = [] then (l, net)
    else (dead.foldl (fun l id => (l.removeAgent id).emit (.agent id)) l).reconcileJobs net

/-- The periodic tick: end the settle period, remove dead agents, and reconcile every third
time. -/
def tick (l : Leader) (net : N) (now : Nanos) : Leader × N :=
  let (l, net) :=
    if !l.settled ∧ l.settleAt.any (fun t => decide (t ≤ now)) = true then
      ({ l with settled := true, settleAt := none }.emit .status).reconcileJobs net
    else (l, net)
  let (l, net) := l.checkDeadAgents net now
  let l := { l with ticks := (l.ticks + 1) % 2 ^ 64 }
  if l.settled ∧ l.ticks % reconcileEveryTicks = 0 then l.reconcileJobs net else (l, net)

/-! ### Updates -/

/-- A running task on an agent: what an update stops. -/
structure TaskRef where
  agentId : String
  taskId : String
deriving DecidableEq

/-- The tasks of a job, asked of the agents of a list that have it. -/
def jobStatusLoop (l : Leader) (name : String) : List Agent → N → List (String × List Task) × N
  | [], net => ([], net)
  | a :: rest, net =>
    if l.placedOn a.id name = 0 then l.jobStatusLoop name rest net
    else match Transport.tasks net a with
      | (none, net) => l.jobStatusLoop name rest net
      | (some tasks, net) =>
        let (out, net) := l.jobStatusLoop name rest net
        ((a.id, tasks.filter fun t => t.jobName = name) :: out, net)

/-- The tasks of a job on the agents where it is placed. -/
def jobStatus (l : Leader) (net : N) (name : String) : List (String × List Task) × N :=
  match l.store.get name with
  | none => ([], net)
  | some _ => l.jobStatusLoop name l.agents net

/-- All running tasks of a job. -/
def snapshotJobTasks (l : Leader) (net : N) (name : String) : List TaskRef × N :=
  let (status, net) := l.jobStatus net name
  (status.flatMap fun p => p.2.map fun t => ⟨p.1, t.id⟩, net)

/-- Stop one old instance and book it off. -/
def stopOldTask (l : Leader) (net : N) (name : String) (old : TaskRef) : Leader × N :=
  match l.agent old.agentId with
  | some a => (l.untrackOne old.agentId name, Transport.stopTask net a old.taskId)
  | none => (l, net)

/-- Place the next new instance of a rolling update: beside the old one, or in its place on
its own agent. `ok true` says that the old one was replaced. -/
def rollOne (l : Leader) (net : N) (job : Job) (old : TaskRef) : Except Refusal Bool × Leader × N :=
  match l.place net job false with
  | (.ok (), l, net) => (.ok false, l, net)
  | (.error (.full k), l, net) =>
    -- No room for old and new beside each other: replace in place.
    match l.agent old.agentId with
    | none => (.error (.full k), l, net)
    | some a =>
      match Transport.run net a job true with
      | (.accepted, net) => (.ok true, l, net)
      | (_, net) => (.error (.full k), l, net)
  | (.error why, l, net) => (.error why, l, net)

/-- The rest of the step for one old task: stop it unless it was replaced, and pause. -/
def rollAfter (l : Leader) (net : N) (job : Job) (i : ℕ) (old : TaskRef) (replaced : Bool) :
    Leader × N :=
  let (l, net) := if replaced then (l, net) else l.stopOldTask net job.name old
  let l := l.emit (.job job.name)
  (l, if i + 1 < job.desired then Transport.pause net rollingUpdateDelay else net)

/-- The loop of a rolling update over the old tasks. -/
def rollLoop (job : Job) : List TaskRef → ℕ → Leader → N → Except Error Unit × Leader × N
  | [], _, l, net => (.ok (), l, net)
  | old :: rest, i, l, net =>
    if i < job.desired then
      match l.rollOne net job old with
      | (.error why, l, net) => (.error (.rolling (.new job.name) (i + 1) why), l, net)
      | (.ok replaced, l, net) =>
        let (l, net) := l.rollAfter net job i old replaced
        rollLoop job rest (i + 1) l net
    else
      let (l, net) := l.rollAfter net job i old false
      rollLoop job rest (i + 1) l net

/-- Rolling: for each old task first a new one, then stop the old one. -/
def updateRolling (l : Leader) (net : N) (job : Job) : Except Error Unit × Leader × N :=
  let (oldTasks, net) := l.snapshotJobTasks net job.name
  match l.storePut job with
  | .error e => (.error e, l, net)
  | .ok l =>
    match rollLoop job oldTasks 0 l net with
    | (.error e, l, net) => (.error e, l, net)
    | (.ok (), l, net) =>
      let (l, net) := l.reconcileJobs net
      (.ok (), l, net)

/-- Recreate: stop everything, then dispatch the new definition. -/
def updateRecreate (l : Leader) (net : N) (job : Job) : Except Error Unit × Leader × N :=
  let (agents, l) := l.takePlacement job.name
  let net := agents.foldl (fun net a => (Transport.stopJob net a job.name).2) net
  l.dispatchJob net job

/-- Place the instances of a blue-green update beside the old ones. -/
def blueGreenLoop (job : Job) (count : ℕ) : ℕ → ℕ → Leader → N → Except Error Unit × Leader × N
  | 0, _, l, net => (.ok (), l, net)
  | k + 1, i, l, net =>
    match l.place net job false with
    | (.error why, l, net) => (.error (.blueGreen (.new job.name) (i + 1) count why), l, net)
    | (.ok (), l, net) => blueGreenLoop job count k (i + 1) l net

/-- Stop the old tasks of a list. -/
def stopOldTasks (name : String) : List TaskRef → Leader → N → Leader × N
  | [], l, net => (l, net)
  | old :: rest, l, net =>
    let (l, net) := l.stopOldTask net name old
    stopOldTasks name rest l net

/-- Blue-green: everything new beside the old, then stop everything old. -/
def updateBlueGreen (l : Leader) (net : N) (job : Job) : Except Error Unit × Leader × N :=
  let (oldTasks, net) := l.snapshotJobTasks net job.name
  match l.storePut job with
  | .error e => (.error e, l, net)
  | .ok l =>
    match blueGreenLoop job job.desired job.desired 0 l net with
    | (.error e, l, net) => (.error e, l, net)
    | (.ok (), l, net) =>
      let (l, net) := stopOldTasks job.name oldTasks l net
      (.ok (), l.emit (.job job.name), net)

/-- What an update stores: the priority of the old definition unless it has its own, and the
flag that the rollout is under way. -/
def updated (old job : Job) : Job :=
  { job with priority := job.priority.or old.priority, deploying := true }

/-- Update an existing job by its policy. -/
def updateJob (l : Leader) (net : N) (job : Job) : Except Error Unit × Leader × N :=
  match l.store.get job.name with
  | none => (.error (.notFound (.new job.name)), l, net)
  | some old =>
    match job.checkRollable with
    | .error e => (.error (.json e), l, net)
    | .ok () =>
      let job := updated old job
      let (r, l, net) := match job.policy with
        | .rolling => l.updateRolling net job
        | .recreate => l.updateRecreate net job
        | .blueGreen => l.updateBlueGreen net job
      let l := match r with
        | .ok () => l.storeSetDeploying job.name false
        | .error _ => l
      (r, l.normalizePriorities, net)

end Leader

end Hop.Lead
