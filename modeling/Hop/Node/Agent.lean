import Hop.Agent.Election
import Hop.Node.Health
import Hop.Node.Ids

/-!
# The agent

`agent/src/node.rs`: admission, start, stop, restart and monitoring of the tasks of one node.
Every task record is a reservation, whatever its state. The source owns its state by mutable
reference; here every function returns the new `Agent`. Actions for the executor are collected in
`out`.

Starting a task can fail at once, and a failed start can restart at once: `beginStart`,
`startFailed`, `scheduleRestart`, `restartDecide` and `restartFire` call each other. The chain is
cut by a number of rounds; two are enough, since a restart is only fired for a job that can start
(`restarts_end`).
-/

namespace Hop.Node

open Hop.Types (Artifact Driver Job Map Task TaskState)

/-- A task with what the agent keeps of it besides. -/
structure Entry where
  task : Task
  check : Check := {}
  /-- When the next attempt to restart may be, if one waits. -/
  restartAt : Option Nanos := none
  /-- Whether this is the first start of the task, not a replacement after a crash. -/
  firstStart : Bool
  /-- Whether the runner starts it at this moment. -/
  starting : Bool := false
deriving DecidableEq

/-- The state of one node. -/
structure Agent where
  settings : Settings
  jobs : Map Job
  tasks : Map Entry
  stateTime : Nanos
  leaderAddr : String
  leaseExpiresAt : Nanos
  ids : Ids
  out : List Action
  /-- The jobs that were reported as refused and did not fit since. -/
  refused : List String
  nextMonitor : Nanos
  shuttingDown : Bool

/-- The share group among the tags of a job. -/
def shareGroup (tags : Map String) : Option String := (tags.get? "sharegroup").filter (· ≠ "")

/-- A HopOS app runs on whole cores and in partitions of whole blocks. -/
def roundForHopos (job : Job) : Job :=
  let cores := (satI64 (job.cpuShares + 1023)).tdiv 1024
  { job with
    cpuShares := satI64 (max cores 1 * 1024)
    memoryLimit := if 0 < job.memoryLimit then
        satAdd u64Max job.memoryLimit (hopBlockBytes - 1) / hopBlockBytes * hopBlockBytes
      else job.memoryLimit }

def driverOf (task : Task) : Driver := (Driver.parse task.driver).getD .exec

def stopAction (task : Task) : Action := .stop task.id (driverOf task) task.pid

namespace Agent

/-- An empty agent for this node. -/
def new (settings : Settings) : Agent where
  settings := settings
  jobs := .empty
  tasks := .empty
  stateTime := 0
  leaderAddr := ""
  leaseExpiresAt := 0
  ids := .new settings.seed
  out := []
  refused := []
  nextMonitor := 0
  shuttingDown := false

def push (a : Agent) (action : Action) : Agent := { a with out := a.out ++ [action] }

/-- Hand the collected actions over. -/
def takeActions (a : Agent) : List Action × Agent := (a.out, { a with out := [] })

/-- Change the record of a task, if there is one. -/
def modifyTask (a : Agent) (id : String) (f : Entry → Entry) : Agent :=
  { a with tasks := a.tasks.modify id f }

/-- Take a task out of the state. -/
def forget (a : Agent) (id : String) : Agent := { a with tasks := a.tasks.erase id }

/-! ### Affinity and artifacts -/

/-- Whether the attributes of this node meet every demand. -/
def matchesAffinity (a : Agent) (affinity : Map String) : Bool :=
  affinity.entries.all fun e => decide (a.settings.attributes.get? e.1 = some e.2)

/-- The first artifact that fits this node. -/
def resolveArtifact (a : Agent) (artifacts : List Artifact) : Option Artifact :=
  artifacts.find? fun art => a.matchesAffinity art.matches'

/-- The job with only the artifact of this node. -/
def resolveJobForRun (a : Agent) (job : Job) : Except Error Job :=
  if job.artifacts = [] then .ok job
  else match a.resolveArtifact job.artifacts with
    | some art => .ok { job with artifacts := [art] }
    | none => .error .noArtifact

/-! ### Capacity -/

def sharegroupOf (a : Agent) (task : Task) : Option String :=
  (a.jobs.get? task.jobName).bind fun job => shareGroup job.tags

/-- Whether a group lives on a core that the node does not hand out. -/
def freeGroup (a : Agent) (grp : String) : Bool := a.settings.freeGroups.any (· = grp)

/-- Whether a task costs no core of the books. -/
def costsNoCore (a : Agent) (grp : Option String) (task : Task) : Bool :=
  match grp with
  | some g => a.freeGroup g
  | none => decide (task.core = some 0) && a.freeGroup systemGroup

/-- Whether there is a task in the share group: then its CPU is reserved already. -/
def sharegroupRunning (a : Agent) (grp : String) : Bool :=
  a.tasks.entries.any fun e => a.sharegroupOf e.2.task = some grp

/-- The CPU and the memory that were handed out so far, and the share groups counted. -/
structure Usage where
  cpu : ℤ := 0
  mem : ℕ := 0
  seen : List String := []

/-- Count one task: memory for each, CPU once for each share group. -/
def countTask (a : Agent) (u : Usage) (task : Task) : Usage :=
  let u := { u with mem := satAdd u64Max u.mem task.memoryLimit }
  let group := a.sharegroupOf task
  if a.costsNoCore group task then u
  else match group with
    | some grp =>
      if grp ∈ u.seen then u
      else { u with seen := u.seen ++ [grp], cpu := satI64 (u.cpu + task.cpuShares) }
    | none => { u with cpu := satI64 (u.cpu + task.cpuShares) }

/-- What the node has handed out, without the tasks of the job `exclude`. -/
def resourceUsageExcluding (a : Agent) (exclude : Option String) : ℤ × ℕ :=
  let u := a.tasks.entries.foldl (fun u e =>
    if exclude = some e.2.task.jobName then u else a.countTask u e.2.task) {}
  (u.cpu, u.mem)

def resourceUsage (a : Agent) : ℤ × ℕ := a.resourceUsageExcluding none

/-- Whether the job fits besides the rest; the error says what ran out. `poolLargest` is the
largest partition that the node can still place. -/
def admitJob (a : Agent) (job : Job) (replace : Bool) (poolLargest : Option ℕ) : Except String Unit :=
  let (usedCpu, usedMem) := a.resourceUsageExcluding (if replace then some job.name else none)
  let group := shareGroup job.tags
  -- A member that joins a pool that runs costs no more cores.
  let newCpu := if group.any (fun g => a.sharegroupRunning g) then 0 else job.cpuShares
  let cpuFull := decide (0 < job.cpuShares) &&
    decide (a.settings.effectiveCpuShares < satI64 (usedCpu + newCpu))
  -- A job of one core without a group falls back to the core of the system.
  let fallsBack := group.isNone && decide (job.cpuShares ≤ 1024) &&
    (job.tags.get? "core-class").isNone && a.freeGroup systemGroup
  if cpuFull && !group.any (fun g => a.freeGroup g) && !fallsBack then .error "cpu"
  else if 0 < job.memoryLimit ∧
      a.settings.effectiveMemoryBytes < satAdd u64Max usedMem job.memoryLimit then .error "memory"
  -- A sum is no gap: the bytes may be free without one piece that is large enough.
  else if 0 < job.memoryLimit ∧ !replace ∧ job.driver = some .hop ∧
      poolLargest.any (fun l => decide (0 < l ∧ l < job.memoryLimit)) = true then .error "partition"
  else .ok ()

/-! ### Stopping -/

/-- Take the record away and ask the runner once to stop the task. -/
def removeAndStop (a : Agent) (id : String) : Bool × Agent :=
  match a.tasks.get? id with
  | some e => (true, (a.forget id).push (stopAction e.task))
  | none => (false, a)

/-- Stop one task. -/
def stopTask (a : Agent) (id : String) : Bool × Agent := a.removeAndStop id

def idsOfJob (a : Agent) (name : String) : List String :=
  (a.tasks.entries.filter fun e => e.2.task.jobName = name).map Prod.fst

/-- Stop the tasks of a list of ids. -/
def stopEach (a : Agent) (ids : List String) : Agent :=
  ids.foldl (fun a id => (a.removeAndStop id).2) a

/-- Stop all tasks of a job, and keep the job. -/
def stopJobTasks (a : Agent) (name : String) : ℕ × Agent :=
  let ids := a.idsOfJob name
  (ids.length, a.stopEach ids)

/-- Remove a job and stop all its tasks. -/
def deleteJob (a : Agent) (now : Nanos) (name : String) : ℕ × Agent :=
  let a := { a with
    jobs := a.jobs.erase name
    refused := a.refused.filter (· ≠ name)
    stateTime := now }
  let (n, a) := a.stopJobTasks name
  (n, a.push (.notify name .stop))

/-- Stop every task once. -/
def stopAll (a : Agent) : ℕ × Agent := (a.tasks.size, a.stopEach a.tasks.keys)

/-- No more restarts, and every task one attempt to stop. -/
def shutdown (a : Agent) : ℕ × Agent := { a with shuttingDown := true }.stopAll

/-! ### Starting and restarting -/

/-- A new task of a job; it is born queued. -/
def newTask (a : Agent) (now : Nanos) (job : Job) : Task × Agent :=
  ({ id := a.ids.id.1
     jobName := job.name
     driver := job.getDriver.asStr
     image := job.image
     state := .queued
     cpuShares := job.cpuShares
     memoryLimit := job.memoryLimit
     startedAt := now },
    { a with ids := a.ids.id.2 })

def insertEntry (a : Agent) (task : Task) (firstStart : Bool) : Agent :=
  { a with tasks := a.tasks.insert task.id { task := task, firstStart := firstStart } }

section Chain

variable (begin' : Agent → Nanos → String → Agent)

/-- Replace a task by a fresh attempt, without a gap in its reservation. -/
def restartFire (a : Agent) (now : Nanos) (id : String) : Agent :=
  if a.shuttingDown then a
  else match a.tasks.get? id with
    | none => a
    | some old =>
      match a.jobs.get? old.task.jobName with
      | none => a.forget id
      | some job =>
        match a.resolveJobForRun job with
        | .error _ => a.modifyTask id fun e => { e with task := { e.task with state := .failed } }
        | .ok _ =>
          let (replacement, a) := a.newTask now job
          let replacement := { replacement with
            restartCount := satI64 (old.task.restartCount + 1)
            lastFailedAt := old.task.lastFailedAt }
          begin' ((a.forget id).insertEntry replacement false) now replacement.id

/-- The record of a task that failed now: only real uptime earns a fresh budget. -/
def failedNow (e : Entry) (now window : Nanos) (ran : Bool) : Entry :=
  { e with task := { e.task with
      restartCount := if ran && decide (e.task.startedAt ≠ 0) &&
          decide (window < now - e.task.startedAt) then 0 else e.task.restartCount
      lastFailedAt := now } }

/-- Give up, wait, or restart at once. -/
def restartDecide (a : Agent) (now : Nanos) (id : String) (ran : Bool) : Agent :=
  match a.tasks.get? id with
  | none => a
  | some e =>
    match a.jobs.get? e.task.jobName with
    | none => a.forget id
    | some job =>
      let max := job.maxRestarts.getD defaultMaxRestarts
      let window := if 0 < job.restartWindow then job.restartWindow else defaultRestartWindow
      let (rand, ids) := a.ids.nextU64
      let a := { a with ids := ids }
      let e := failedNow e now window ran
      let count := e.task.restartCount
      -- -1 is without a limit, 0 is never.
      if 0 ≤ max ∧ max ≤ count then
        a.modifyTask id fun _ => { e with task := { e.task with state := .failed }, restartAt := none }
      else if 0 < count then
        let at' := satAdd u64Max now (restartDelay count rand)
        a.modifyTask id fun _ =>
          { e with task := { e.task with nextRestartAt := at' }, restartAt := some at' }
      else restartFire begin' (a.modifyTask id fun _ => e) now id

/-- Begin the way to a restart: the attempt before it is released first. -/
def scheduleRestart (a : Agent) (now : Nanos) (id : String) (ran : Bool) : Agent :=
  let a := match a.tasks.get? id with
    | some e => a.push (stopAction e.task)
    | none => a
  restartDecide begin' a now id ran

def startFailed (a : Agent) (now : Nanos) (id : String) : Agent :=
  match a.tasks.get? id with
  | none => a
  | some e =>
    let a := a.modifyTask id fun e => { e with task := { e.task with state := .failed } }
    let a := if e.firstStart then a.push (.notify e.task.jobName .crash) else a
    scheduleRestart begin' a now id false

end Chain

/-- Send the start of a task to the runner. `rounds` bounds how often a failed start may start
anew at once. -/
def beginStart : (rounds : ℕ) → Agent → Nanos → String → Agent
  | 0, a, _, _ => a
  | rounds + 1, a, now, id =>
    match a.tasks.get? id with
    | none => a
    | some e =>
      let resolved := match a.jobs.get? e.task.jobName with
        | some job => a.resolveJobForRun job
        | none => .error .notFound
      match resolved with
      | .ok job => (a.modifyTask id fun e => { e with starting := true }).push (.start id job)
      | .error _ => startFailed (beginStart rounds) a now id

/-- The rounds that are ever needed: a start that fails, and the restart it fires. -/
def startRounds : ℕ := 2

/-- Send the start of a task to the runner. -/
def start (a : Agent) (now : Nanos) (id : String) : Agent := beginStart startRounds a now id

/-! ### Taking a job on -/

/-- One report for each job that does not fit, until it fits or is gone. -/
def refuse (a : Agent) (job why : String) : Agent :=
  if job ∈ a.refused then a
  else
    let a := if a.refused.length < maxJobs then { a with refused := a.refused ++ [job] } else a
    a.push (.refused job why)

/-- A job of the leader carries the present flag of the store. -/
def keepRolloutFlag (a : Agent) (job : Job) : Job :=
  { job with deploying := (a.jobs.get? job.name).any fun cur => cur.deploying }

/-- The job as this node runs it: with its driver, and rounded for HopOS. -/
def normalized (job : Job) : Job :=
  let job := { job with driver := some (job.driver.getD (.forImage job.image)) }
  if job.driver = some .hop then roundForHopos job else job

/-- The rest of `run`, for a job that was admitted. -/
def takeOn (a : Agent) (now : Nanos) (job : Job) (replace : Bool) : String × Agent :=
  let a := { a with refused := a.refused.filter (· ≠ job.name) }
  let (task, a) := a.newTask now job
  -- The predecessors go first: their core and partition must be free.
  let a := if replace then a.stopEach (a.idsOfJob job.name) else a
  let job := a.keepRolloutFlag job
  let a := { a with jobs := a.jobs.insert job.name job }
  (task.id, (a.insertEntry task true).start now task.id)

/-- Take a job on and reserve its capacity. With `replace` it takes the place of the tasks of the
same job: the admission does not count them, and they are stopped only after it. -/
def run (a : Agent) (now : Nanos) (job : Job) (replace : Bool) (poolLargest : Option ℕ) :
    Except Error String × Agent :=
  if !a.matchesAffinity job.affinity then (.error .affinityMismatch, a)
  else
    let job := normalized job
    if maxTasks ≤ a.tasks.size then (.error .tooManyTasks, a)
    else if (a.jobs.get? job.name).isNone ∧ maxJobs ≤ a.jobs.size then (.error .tooManyJobs, a)
    else match a.admitJob job replace poolLargest with
      | .error why => (.error .noCapacity, a.refuse job.name why)
      | .ok () =>
        let (id, a) := a.takeOn now job replace
        (.ok id, a)

/-! ### What the runner reports -/

/-- Progress of the start, only forward. -/
def onProgress (a : Agent) (id : String) (downloaded total : ℕ) : Agent :=
  a.modifyTask id fun e =>
    if e.task.state = .queued ∨ e.task.state = .downloading then
      { e with task := { e.task with
          state := .downloading, downloaded := downloaded, imageSize := total } }
    else e

/-- A task that the node took on but cannot place goes back to the leader. -/
def releaseUnplaceable (a : Agent) (id : String) : Agent :=
  match a.tasks.get? id with
  | some e => (a.forget id).push (.notify e.task.jobName .unplaceable)
  | none => a

def started (a : Agent) (now : Nanos) (id : String) (driver : Driver) (ok : StartOk) : Agent :=
  let alive := (a.tasks.get? id).any fun e =>
    decide (e.task.state ≠ .stopping) && (a.jobs.get? e.task.jobName).isSome
  -- A stop that crossed the start took the record away: stop it at once.
  if !alive then (a.forget id).push (.stop id driver ok.pid)
  else match a.tasks.get? id with
    | none => a
    | some e =>
      let a := a.modifyTask id fun e => { e with task := { e.task with
        state := .running, pid := ok.pid, ports := ok.ports, startedAt := now, nextRestartAt := 0 } }
      let hasCheck := (a.jobs.get? e.task.jobName).any fun j => j.healthCheck.isSome
      a.push (.notify e.task.jobName (if hasCheck then .start else .started))

/-- The outcome of a start. -/
def onStarted (a : Agent) (now : Nanos) (id : String) (driver : Driver)
    (result : Except StartError StartOk) : Agent :=
  let a := a.modifyTask id fun e => { e with starting := false }
  match result with
  | .error .noCapacity => a.releaseUnplaceable id
  | .error .failed => startFailed (beginStart startRounds) a now id
  | .ok ok => a.started now id driver ok

/-- The outcome of a probe. -/
def onProbe (a : Agent) (now : Nanos) (id : String) (outcome : Outcome) : Agent :=
  match a.tasks.get? id with
  | none => a
  | some e =>
    if e.task.state ≠ .running then a
    else
      let threshold := ((a.jobs.get? e.task.jobName).bind fun j => j.healthCheck).elim 0
        fun hc => hc.failureThreshold
      match e.check.apply (isHealthy outcome e.check) now threshold with
      | (.unhealthy, _) =>
        let a := a.modifyTask id fun e => { e with
          task := { e.task with state := .failed }, check := {} }
        scheduleRestart (beginStart startRounds) (a.push (.notify e.task.jobName .crash)) now id true
      | (.healthy passed, check) =>
        if passed ∧ !check.notifiedHealthy then
          -- The first check that passed: ready for traffic.
          (a.modifyTask id fun e => { e with check := { check with notifiedHealthy := true } }).push
            (.notify e.task.jobName .started)
        else a.modifyTask id fun e => { e with check := check }

/-- Probe a task that runs, after its time to start up. -/
def maybeProbe (a : Agent) (now : Nanos) (id : String) : Agent :=
  match a.tasks.get? id with
  | none => a
  | some e =>
    match (a.jobs.get? e.task.jobName).bind fun j => j.healthCheck with
    | none => a
    | some hc =>
      if 0 < hc.initialTimeout ∧ now - e.task.startedAt < hc.initialTimeout then a
      else match probeFor e.task hc a.settings.probeTimeout with
        | some probe => a.push (.probe id probe)
        | none => a.onProbe now id (.tcp false)

/-- The outcome of a poll. -/
def onStatus (a : Agent) (now : Nanos) (id : String) (status : Status) : Agent :=
  match a.tasks.get? id with
  | none => a
  | some e =>
    if e.task.state ≠ .running then a
    else match status with
      | .failed =>
        let a := a.modifyTask id fun e => { e with
          task := { e.task with state := .stopping }, check := {} }
        scheduleRestart (beginStart startRounds) (a.push (.notify e.task.jobName .crash)) now id true
      | .running => a.maybeProbe now id

/-- Record how many cores a task was measured on, and the core it runs on. -/
def recordUsage (a : Agent) (id : String) (cores : ℕ) (core : Option ℕ) : Agent :=
  a.modifyTask id fun e => { e with task := { e.task with
    cores := if cores ≠ 0 then cores else e.task.cores
    core := core.or e.task.core } }

/-- Poll every task that runs. -/
def monitor (a : Agent) : Agent :=
  (a.tasks.entries.filter fun e => e.2.task.state = .running).foldl
    (fun a e => a.push (.poll e.2.task.id (driverOf e.2.task) e.2.task.pid)) a

/-- Fire the restart of a task that is due. -/
def fireDue (now : Nanos) (a : Agent) (id : String) : Agent :=
  restartFire (beginStart startRounds) (a.modifyTask id fun e => { e with restartAt := none }) now id

/-- Let time pass: the restarts that are due, and the monitor. -/
def tick (a : Agent) (now : Nanos) : List Action × Agent :=
  let due := (a.tasks.entries.filter fun e => e.2.restartAt.any (fun t => decide (t ≤ now))).map
    Prod.fst
  let a := due.foldl (fireDue now) a
  let a := if a.nextMonitor ≤ now then
      { a with nextMonitor := satAdd u64Max now a.settings.monitorEvery }.monitor
    else a
  a.takeActions

/-! ### What others read -/

/-- All tasks. -/
def taskList (a : Agent) : List Task := a.tasks.entries.map fun e => e.2.task

/-- The number of tasks of a job, in every state. -/
def count (a : Agent) (name : String) : ℕ :=
  a.tasks.countVal fun e => e.task.jobName = name

/-- The number of tasks for each job that has one. -/
def placedTaskCounts (a : Agent) : Map ℕ :=
  a.tasks.entries.foldl (fun counts e =>
    if e.2.task.jobName = "" then counts
    else counts.insert e.2.task.jobName ((counts.get? e.2.task.jobName).getD 0 + 1)) .empty

end Agent

/-- What the election does to the agent of its node. -/
instance : Hop.Agent.AgentPort Agent where
  setLeaderAddr a addr := { a with leaderAddr := addr }
  setLeaseExpiresAt a t := { a with leaseExpiresAt := t }
  stopAll a := a.stopAll.2

end Hop.Node
