import Hop.Types.Job

/-!
# The runner of a host

`runner/src/host/runner.rs`: the owner of all running tasks of a host, processes and containers. A
task that has to stop gets a SIGTERM, after some grace a SIGKILL, and is cleaned up when its process
group is gone; a container is stopped by a thread of its own, which sends a message when it is done.

The system is modelled as far as the runner sees it: process groups by their number, which is given
out again as soon as the group is empty and its leader is reaped. The logs are left out, with the
processor use of a container.
-/

namespace Hop.Runner.Host

open Hop.Types (Map Driver)

/-! ### The system -/

/-- The leader of a process group. -/
inductive Leader
  | running
  /-- It ended, and its parent did not ask for that yet. -/
  | zombie (exit : Option ℤ)
  | reaped
deriving DecidableEq

/-- A process group that exists. -/
structure Group where
  /-- The start of a task that created it; none: it is a stranger's. -/
  owner : Option ℕ
  leader : Leader
  /-- The members besides the leader. -/
  others : ℕ
deriving DecidableEq

inductive Sig
  /-- Signal 0: is there a group? -/
  | probe
  | term
  | kill
deriving DecidableEq

/-- How a signal to a group went. -/
inductive Signal
  | sent
  /-- There is no such group. -/
  | gone
  /-- Anything else: the group may still live. -/
  | failed (why : String)
deriving DecidableEq

/-- A signal that was delivered: for whose group it was meant, and whose group got it. -/
structure Sent where
  sig : Sig
  meant : ℕ
  got : Option ℕ
deriving DecidableEq

/-- What the runner came to know about the start of a task. -/
inductive Seen
  /-- Its child is reaped. -/
  | reaped (generation : ℕ)
  /-- There is no group with its number. -/
  | empty (generation : ℕ)
  /-- Its container is stopped and removed. -/
  | removed (generation : ℕ)
deriving DecidableEq

/-- The system, with what happened to it. -/
structure Os where
  groups : SortedMap ℕ Group
  sent : List Sent
  seen : List Seen
  /-- The tasks whose directory or cgroup was cleaned up. -/
  cleaned : List String

/-- What the system answers during a call of the runner. -/
structure Env where
  /-- Why a signal to a group cannot be sent. -/
  kill : ℕ → Sig → Option String := fun _ _ => none
  unmount : String → Bool := fun _ => true
  removeDir : String → Bool := fun _ => true
  /-- A thread can be started. -/
  thread : Bool := true
  /-- How `docker stop` and `docker rm` end when the runner waits for them itself. -/
  stopAndRemove : Except String Unit := .ok ()
  /-- Whether the container runs, and its exit code. -/
  inspect : Except String (Option (Bool × ℤ)) := .ok none

/-- The child of a task: its process number, and the start that it belongs to. -/
structure Child where
  pid : ℕ
  owner : ℕ
deriving DecidableEq

namespace Os

/-- A group changed; one without members is gone. -/
def settle (os : Os) (pgid : ℕ) (g : Group) : Os :=
  if g.leader = .reaped ∧ g.others = 0 then { os with groups := os.groups.erase pgid }
  else { os with groups := os.groups.insert pgid g }

inductive Wait
  | running
  | exited (exit : Option ℤ)
  | noChild

/-- `waitpid` without waiting. -/
def tryWait (os : Os) (child : Child) : Wait × Os :=
  match os.groups.get? child.pid with
  | some ⟨some _, .running, _⟩ => (.running, os)
  | some ⟨some owner, .zombie exit, others⟩ =>
    (.exited exit, os.settle child.pid ⟨some owner, .reaped, others⟩)
  | _ => (.noChild, os)

/-- `kill` to a group. -/
def signalGroup (os : Os) (env : Env) (meant pgid : ℕ) (sig : Sig) : Signal × Os :=
  match env.kill pgid sig with
  | some why => (.failed why, os)
  | none =>
    match os.groups.get? pgid with
    | none => (.gone, { os with seen := os.seen ++ [.empty meant] })
    | some g =>
      (.sent, if sig = .probe then os else { os with sent := os.sent ++ [⟨sig, meant, g.owner⟩] })

/-- SIGKILL to the child alone. -/
def killChild (os : Os) (child : Child) : Os :=
  match os.groups.get? child.pid with
  | none => os
  | some g => { os with sent := os.sent ++ [⟨.kill, child.owner, g.owner⟩] }

end Os

/-! ### The runner -/

/-- How long a task gets after SIGTERM. -/
def graceMs : ℕ := 10000

/-- How long after SIGKILL a group may be there. -/
def killTimeoutMs : ℕ := 1000

/-- How long after the end of a task its last lines may come. -/
def logDrainMs : ℕ := 1000

/-- An error of the host. -/
inductive HostError
  | imageRequired
  | taskExists (id : String)
  | unsupported (driver : Driver)
  | io (op path why : String)
  | spawn (why : String)
  | docker (why : String)
  /-- A mount of the task directory could not be taken off. -/
  | quarantined (path : String)

/-- A message of a thread. -/
inductive Event
  | line (task : String) (generation : ℕ) (text : String)
  | eof (task : String) (generation : ℕ)
  /-- `docker stop` and `docker rm` are done. -/
  | stopped (task : String) (generation : ℕ) (result : Except String Unit)

/-- The directory of a task. Its path is the identifier of the task. -/
structure TaskDir where
  path : String
  mounts : List String := []
  /-- It is gone, and nothing touches it any more. -/
  released : Bool := false

/-- Take the mounts off, and remove the directory. -/
def TaskDir.cleanup (d : TaskDir) (env : Env) (os : Os) : Except HostError Unit × TaskDir × Os :=
  if d.released then (.ok (), d, os)
  else
    let os := { os with cleaned := os.cleaned ++ [d.path] }
    if d.mounts.any fun m => !env.unmount m then (.error (.quarantined d.path), d, os)
    else if env.removeDir d.path then (.ok (), { d with mounts := [], released := true }, os)
    else (.error (.io "remove task directory" d.path "not removed"), { d with mounts := [] }, os)

/-- A process and what it owns. -/
structure Proc where
  child : Child
  pgid : ℕ
  dir : TaskDir
  cgroup : Bool
  /-- The child is reaped: its number can be used again. -/
  reaped : Bool
  /-- There was no such group: it gets no signal any more. -/
  groupGone : Bool

/-- What runs. -/
inductive Body
  | proc (p : Proc)
  | docker (name : String)

/-- Where the stop of a task is. -/
structure Stopping where
  since : ℕ
  killed : Option ℕ := none
  gone : Option ℕ := none
  stuckLogged : Bool := false
  dockerDone : Bool := false

/-- A task that runs. -/
structure Task where
  /-- Which start this is: messages of an earlier one with the same identifier are dropped. -/
  generation : ℕ
  body : Body
  openStreams : ℕ
  exit : Option ℤ
  stop : Option Stopping

/-- The owner of all running tasks of the host, on the system. -/
structure HostRunner where
  os : Os
  tasks : Map Task
  /-- The directories that could not be removed. -/
  quarantine : List TaskDir
  nextGeneration : ℕ
  lastNow : ℕ

/-- Send a signal to the group, unless it was gone before: the number may be a stranger's by now. -/
def Proc.signal (p : Proc) (env : Env) (os : Os) (sig : Sig) : Signal × Proc × Os :=
  if p.groupGone then (.gone, p, os)
  else
    match os.signalGroup env p.child.owner p.pgid sig with
    | (.gone, os) => (.gone, { p with groupGone := true }, os)
    | (r, os) => (r, p, os)

/-- Reap the child if it ended, and keep its exit code. -/
def reap (p : Proc) (exit : Option ℤ) (os : Os) : Proc × Option ℤ × Os :=
  if p.reaped then (p, exit, os)
  else
    match os.tryWait p.child with
    | (.exited code, os) =>
      ({ p with reaped := true }, code, { os with seen := os.seen ++ [.reaped p.child.owner] })
    | (.running, os) => (p, exit, os)
    -- Somebody else reaped it: then it is gone in any case.
    | (.noChild, os) =>
      ({ p with reaped := true }, exit, { os with seen := os.seen ++ [.reaped p.child.owner] })

/-- SIGKILL to the group, and to the child itself while it is ours. -/
def Proc.sigkill (p : Proc) (env : Env) (os : Os) : Proc × Os :=
  let (_, p, os) := p.signal env os .kill
  (p, if p.reaped then os else os.killChild p.child)

/-- A group that outlives SIGKILL is reported once. -/
def Stopping.stuck (st : Stopping) (now : ℕ) : Stopping :=
  if (st.killed.any fun k => satAdd u64Max k killTimeoutMs ≤ now) && !st.stuckLogged then
    { st with stuckLogged := true }
  else st

/-- The steps of stopping a process; `true` if its group is gone. -/
def escalate (p : Proc) (st : Stopping) (now : ℕ) (env : Env) (os : Os) :
    Bool × Proc × Stopping × Os :=
  let (p, os) := if p.reaped then (p.signal env os .probe).2 else (p, os)
  if p.reaped ∧ p.groupGone then (true, p, st, os)
  else if st.killed = none ∧ satAdd u64Max st.since graceMs ≤ now then
    let (p, os) := p.sigkill env os
    (false, p, { st with killed := some now }.stuck now, os)
  else (false, p, st.stuck now, os)

namespace Task

/-- Reap the child of a task. -/
def reap (t : Task) (os : Os) : Task × Os :=
  match t.body with
  | .proc p =>
    let (p, exit, os) := Host.reap p t.exit os
    ({ t with body := .proc p, exit := exit }, os)
  | .docker _ => (t, os)

/-- The steps of the stop of a task; `true` if it is gone. -/
def escalate (t : Task) (st : Stopping) (now : ℕ) (env : Env) (os : Os) : Bool × Task × Os :=
  match t.body with
  | .proc p =>
    let (gone, p, st, os) := Host.escalate p st now env os
    (gone, { t with body := .proc p, stop := some st }, os)
  | .docker _ => (st.dockerDone, t, os)

/-- The end of a task is noted once. -/
def markGone (t : Task) (now : ℕ) : Task :=
  { t with stop := t.stop.map fun st =>
      if st.gone = none then { st with gone := some now } else st }

/-- The task is gone, and its last lines came in or do not come any more. -/
def isDone (t : Task) (now : ℕ) : Bool :=
  t.stop.any fun st => st.gone.any fun since =>
    t.openStreams = 0 ∨ satAdd u64Max since logDrainMs ≤ now

end Task

/-- What the host needs to run a task. -/
structure TaskSpec where
  taskId : String
  image : String := ""

/-- What the system answers during a launch. -/
structure LaunchEnv where
  /-- Why the command cannot be prepared. -/
  plan : Option String := none
  /-- The task gets a cgroup. -/
  cgroup : Bool := false
  /-- The number of the process. -/
  spawn : Except String ℕ
  stdout : Bool := true
  stderr : Bool := true
  create : Except String Unit := .ok ()
  start : Except String Unit := .ok ()
  followLogs : Bool := true

namespace HostRunner

def new : HostRunner where
  os := ⟨.empty, [], [], []⟩
  tasks := .empty
  quarantine := []
  nextGeneration := 1
  lastNow := 0

/-- The record of one task and the system change. -/
def put (r : HostRunner) (id : String) (t : Task) (os : Os) : HostRunner :=
  { r with os := os, tasks := r.tasks.insert id t }

/-- A directory falls away: it is cleaned up, and what does not come off stays behind. -/
def dropDir (r : HostRunner) (d : TaskDir) (env : Env) : HostRunner :=
  { r with os := (d.cleanup env r.os).2.2 }

def launchProc (r : HostRunner) (spec : TaskSpec) (dir : TaskDir) (generation : ℕ)
    (le : LaunchEnv) (env : Env) : Except HostError ℕ × HostRunner :=
  match le.plan with
  | some why => (.error (.io "prepare command in" dir.path why), r.dropDir dir env)
  | none =>
    match le.spawn with
    | .error why =>
      let os := if le.cgroup then { r.os with cleaned := r.os.cleaned ++ [spec.taskId] } else r.os
      (.error (.spawn why), { r with os := os }.dropDir dir env)
    | .ok pid =>
      let proc : Proc :=
        { child := ⟨pid, generation⟩, pgid := pid, dir := dir, cgroup := le.cgroup,
          reaped := false, groupGone := false }
      let task : Task :=
        { generation := generation, body := .proc proc,
          openStreams := (if le.stdout then 1 else 0) + if le.stderr then 1 else 0,
          exit := none, stop := none }
      (.ok pid, { r with
        os := { r.os with groups := r.os.groups.insert pid ⟨some generation, .running, 0⟩ }
        tasks := r.tasks.insert spec.taskId task })

def launchDocker (r : HostRunner) (spec : TaskSpec) (generation : ℕ) (le : LaunchEnv) :
    Except HostError ℕ × HostRunner :=
  if spec.image = "" then (.error .imageRequired, r)
  else
    match le.create with
    | .error why => (.error (.docker why), r)
    | .ok () =>
      match le.start with
      -- A container that never ran does not stay behind.
      | .error why => (.error (.docker why), r)
      | .ok () =>
        let task : Task :=
          { generation := generation, body := .docker ("hop-" ++ spec.taskId),
            openStreams := if le.followLogs then 1 else 0, exit := none, stop := none }
        (.ok 0, { r with tasks := r.tasks.insert spec.taskId task })

/-- Start a task that was prepared. -/
def launch (r : HostRunner) (now : ℕ) (driver : Driver) (spec : TaskSpec) (dir : Option TaskDir)
    (le : LaunchEnv) (env : Env) : Except HostError ℕ × HostRunner :=
  let r := { r with lastNow := now }
  -- The same identifier is the same directory: it stays as it is.
  if (r.tasks.get? spec.taskId).isSome then (.error (.taskExists spec.taskId), r)
  else
    let generation := r.nextGeneration
    let r := { r with nextGeneration := r.nextGeneration + 1 }
    match driver with
    | .exec =>
      match dir with
      | none => (.error (.io "launch" spec.taskId "prepared without a task directory"), r)
      | some dir => r.launchProc spec dir generation le env
    | .docker => r.launchDocker spec generation le
    | .hop => (.error (.unsupported driver), r)

/-- Begin the stop of a task. One that is not known or stops already is fine. -/
def beginStop (r : HostRunner) (now : ℕ) (id : String) (env : Env) :
    Except HostError Unit × HostRunner :=
  match r.tasks.get? id with
  | none => (.ok (), r)
  | some t =>
    if t.stop.isSome then (.ok (), r)
    else
      let st : Stopping := { since := now }
      match t.body with
      | .proc p =>
        let (p, exit, os) := reap p t.exit r.os
        let (_, p, os) := p.signal env os .term
        (.ok (), r.put id { t with body := .proc p, exit := exit, stop := some st } os)
      | .docker _ =>
        if env.thread then (.ok (), r.put id { t with stop := some st } r.os)
        else
          -- No thread: then here, rather than never.
          let t := { t with stop := some { st with dockerDone := true } }
          match env.stopAndRemove with
          | .ok () =>
            (.ok (), r.put id t { r.os with seen := r.os.seen ++ [.removed t.generation] })
          | .error why => (.error (.docker why), r.put id t r.os)

def stop (r : HostRunner) (now : ℕ) (id : String) (env : Env) :
    Except HostError Unit × HostRunner :=
  { r with lastNow := now }.beginStop now id env

inductive RunState
  | running
  | failed

/-- The state of a task. -/
def status (r : HostRunner) (id : String) (env : Env) : RunState × HostRunner :=
  match r.tasks.get? id with
  | none => (.failed, r)
  | some t =>
    match t.body with
    | .proc p =>
      let (p, exit, os) := reap p t.exit r.os
      if p.reaped then
        let (_, p, os) := p.signal env os .probe
        (.failed, r.put id { t with body := .proc p, exit := exit } os)
      else (.running, r.put id { t with body := .proc p, exit := exit } os)
    | .docker _ =>
      match env.inspect with
      | .ok (some (true, _)) => (.running, r)
      | .ok (some (false, code)) =>
        (.failed, r.put id { t with exit := some code } r.os)
      | _ => (.failed, r)

/-- A message of a thread; one of another start changes nothing. -/
def onEvent (r : HostRunner) : Event → HostRunner
  | .line _ _ _ => r
  | .eof task generation =>
    match r.tasks.get? task with
    | none => r
    | some t =>
      if t.generation = generation then
        r.put task { t with openStreams := t.openStreams - 1 } r.os
      else r
  | .stopped task generation result =>
    match r.tasks.get? task with
    | none => r
    | some t =>
      match t.stop with
      | none => r
      | some st =>
        if t.generation = generation then
          r.put task { t with stop := some { st with dockerDone := true } } (match result with
            | .ok () => { r.os with seen := r.os.seen ++ [.removed generation] }
            | .error _ => r.os)
        else r

/-- The messages of the threads, in the order in which they came. -/
def drain (r : HostRunner) (msgs : List Event) : HostRunner := msgs.foldl onEvent r

/-- The work on one task at a tick; `true` if it is to be cleaned up. -/
def tickOne (r : HostRunner) (now : ℕ) (env : Env) (id : String) : Bool × HostRunner :=
  match r.tasks.get? id with
  | none => (false, r)
  | some t =>
    let (t, os) := t.reap r.os
    match t.stop with
    | none => (false, r.put id t os)
    | some st =>
      let (gone, t, os) := t.escalate st now env os
      let t := if gone then t.markGone now else t
      (t.isDone now, r.put id t os)

/-- Clean a task up: its directory and its cgroup go. -/
def finish (r : HostRunner) (env : Env) (id : String) : HostRunner :=
  match r.tasks.get? id with
  | none => r
  | some t =>
    let r := { r with tasks := r.tasks.erase id }
    match t.body with
    | .docker _ => r
    | .proc p =>
      let (cleaned, dir, os) := p.dir.cleanup env r.os
      let r := { r with
        os := os
        quarantine := match cleaned with
          | .ok () => r.quarantine
          | .error _ => r.quarantine ++ [dir] }
      if p.cgroup then { r with os := { r.os with cleaned := r.os.cleaned ++ [id] } } else r

/-- Work on the tasks one after the other; the ones that are to be cleaned up. -/
def tickEach (now : ℕ) (env : Env) : List String → HostRunner → List String × HostRunner
  | [], r => ([], r)
  | id :: ids, r =>
    let (done, r) := r.tickOne now env id
    let (rest, r) := tickEach now env ids r
    (if done then id :: rest else rest, r)

/-- Try the directories in quarantine again; those that stay. -/
def retryEach (env : Env) : List TaskDir → Os → List TaskDir × Os
  | [], os => ([], os)
  | d :: ds, os =>
    let (cleaned, d, os) := d.cleanup env os
    let (rest, os) := retryEach env ds os
    (match cleaned with
      | .ok () => rest
      | .error _ => d :: rest, os)

/-- The periodic work. -/
def tick (r : HostRunner) (now : ℕ) (msgs : List Event) (env : Env) : HostRunner :=
  let r := { r with lastNow := now }.drain msgs
  let (done, r) := tickEach now env (r.tasks.entries.map Prod.fst) r
  let r := done.foldl (fun r id => r.finish env id) r
  let (quarantine, os) := retryEach env r.quarantine r.os
  { r with quarantine := quarantine, os := os }

/-- The ticks of a shutdown, each with the time that passed and the messages that came; it ends when
no task is left or the time is up. -/
def shutdownTicks (env : Env) (base : ℕ) : List (ℕ × List Event) → HostRunner → HostRunner
  | [], r => r
  | (elapsed, msgs) :: ticks, r =>
    let r := r.tick (satAdd u64Max base elapsed) msgs env
    if r.tasks.entries = [] ∨ graceMs + killTimeoutMs + logDrainMs ≤ elapsed then r
    else shutdownTicks env base ticks r

/-- Stop everything. -/
def shutdown (r : HostRunner) (ticks : List (ℕ × List Event)) (env : Env) : HostRunner :=
  let base := r.lastNow
  let r := (r.tasks.entries.map Prod.fst).foldl (fun r id => (r.stop base id env).2) r
  shutdownTicks env base ticks r

end HostRunner

end Hop.Runner.Host
