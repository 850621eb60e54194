import Hop.Api.Tasks
import Hop.Dns.Server
import Hop.Hoplib.Sse
import Hop.Lib.Url

/-!
# The watcher of a peer

`apps/hopdns/src/watcher.rs`, and the refresh of `host.rs`: which events ask for what, the picture
of a cluster from its agents and tasks, and what an answer changes in the cache.
-/

namespace Hop.Dns

open Hop.Types
open Hop.Api (AgentTasks Cluster JobStatus)

/-- `RECONNECT`. -/
def reconnect : Nanos := 5 * second

/-- `DEBOUNCE`. -/
def debounce : Nanos := 500 * millisecond

/-- `MAX_PENDING`. -/
def maxPending : ℕ := 32

/-- The own node of a resident of HopOS. -/
structure Local where
  node : String
  /-- The address of a slot. -/
  slotIp : ℕ → Ipv4

inductive Refresh
  | full
  | jobs (names : List String)
deriving DecidableEq

/-- What the driver has to do. -/
inductive Action
  | discover
  | refresh (what : Refresh)
  | wait (until' : Option Nanos)
deriving DecidableEq

/-- What changes in the cache. -/
inductive Update
  | replace (cluster : Bytes) (jobs : Jobs)
  | set (cluster job : Bytes) (ips : List Ipv4)

def Update.apply (cache : Cache) : Update → Cache
  | .replace cluster jobs => cache.update cluster jobs
  | .set cluster job ips => cache.set cluster job ips

/-! ### Addresses -/

/-- `lower`: in small ASCII letters. -/
def lowerText (s : String) : String := .ofList (s.toList.map Char.toLower)

/-- The number of a part of an address: one to three digits, without a zero in front. -/
def octet (part : List Char) : Option UInt8 :=
  if part = [] ∨ 3 < part.length ∨ part.any (fun c => !c.isDigit) ∨
      (1 < part.length ∧ part.head? = some '0') then none
  else
    let n := part.foldl (fun v c => v * 10 + (c.toNat - 48)) 0
    if n ≤ 255 then some (UInt8.ofNat n) else none

/-- `split('.')`. -/
def splitParts : List Char → List (List Char)
  | [] => [[]]
  | c :: cs =>
    if c = '.' then [] :: splitParts cs
    else match splitParts cs with
      | [] => [[c]]
      | p :: ps => (c :: p) :: ps

/-- `Ipv4Addr::from_str`. -/
def Ipv4.parse (s : List Char) : Option Ipv4 :=
  match splitParts s with
  | [a, b, c, d] => do
    let a ← octet a
    let b ← octet b
    let c ← octet c
    let d ← octet d
    return ⟨(a, b, c, d)⟩
  | _ => none

/-- `extract_ip`: the address in an endpoint. -/
def extractIp (endpoint : String) : Option Ipv4 :=
  (authority endpoint).bind fun host => Ipv4.parse (host.takeWhile (· ≠ ':'))

/-- The address of a task, if it runs. -/
def taskIp (agent : String) (agentIp : Option Ipv4) (task : Task) (loc : Option Local) :
    Option Ipv4 :=
  if task.state ≠ .running then none
  else match loc with
    | none => agentIp
    | some l =>
      if l.node = agent ∧ task.driver = "hop" ∧ 1 ≤ task.pid ∧ task.pid ≤ u16Max then
        some (l.slotIp task.pid.toNat)
      else agentIp

def pushUnique (list : List Ipv4) (ip : Ipv4) : List Ipv4 :=
  if ip ∈ list then list else list ++ [ip]

/-- The address of an agent in the list. -/
def agentIp (agents : List Agent) (id : String) : Option Ipv4 :=
  (agents.find? fun a => a.id = id).bind fun a => extractIp a.endpoint

/-- The name of a job in the cache. -/
def jobKey (name : String) : Bytes := utf8 (lowerText name)

/-- One task of `build_jobs`. -/
def addTask (agent : String) (ip : Option Ipv4) (loc : Option Local) (jobs : Jobs) (task : Task) :
    Jobs :=
  match taskIp agent ip task loc with
  | none => jobs
  | some addr =>
    match jobs.get? (jobKey task.jobName) with
    | some list => jobs.insert (jobKey task.jobName) (pushUnique list addr)
    | none => jobs.insert (jobKey task.jobName) (pushUnique [] addr)

/-- `build_jobs`: the picture of a cluster. -/
def buildJobs (agents : List Agent) (tasks : List AgentTasks) (loc : Option Local) : Jobs :=
  tasks.foldl (fun jobs at' => (at'.tasks.getD []).foldl
    (addTask at'.agent (agentIp agents at'.agent) loc) jobs) .empty

/-- One task of `build_job`. -/
def addJobTask (job agent : String) (ip : Option Ipv4) (loc : Option Local) (ips : List Ipv4)
    (task : Task) : List Ipv4 :=
  if lowerText task.jobName ≠ lowerText job then ips
  else match taskIp agent ip task loc with
    | none => ips
    | some addr => pushUnique ips addr

/-- `build_job`: the addresses of one job. -/
def buildJob (job : String) (agents : List Agent) (tasks : List AgentTasks) (loc : Option Local) :
    List Ipv4 :=
  tasks.foldl (fun ips at' => (at'.tasks.getD []).foldl
    (addJobTask job at'.agent (agentIp agents at'.agent) loc) ips) []

/-! ### The watcher -/

/-- What an event means for the cache. -/
inductive Kind
  | seed
  | full
  | job (name : String)
  | ignore

def classify (ev : Hoplib.Event) : Kind :=
  match ev.topic with
  | .ok .ping => .seed
  | .ok .status => .full
  | .ok (.agent _) => .full
  | .ok (.job name) => if name = "" then .ignore else .job name
  | .ok (.task job _) => if job = "" then .ignore else .job job
  | .ok .other => .ignore
  -- what cannot be read says at least that something changed
  | .error _ => .full

structure Watcher where
  cluster : Option Bytes := none
  retryAt : Nanos := 0
  /-- When the refresh that waits is due. -/
  due : Option Nanos := none
  full : Bool := false
  jobs : List String := []
  interval : Nanos := reconnect
  debounce : Nanos := Dns.debounce

namespace Watcher

def next (w : Watcher) (now : Nanos) : Action × Watcher :=
  if w.cluster.isNone then
    (if w.retryAt ≤ now then .discover else .wait (some w.retryAt), w)
  else match w.due with
    | some t =>
      if t ≤ now then
        (.refresh (if w.full then .full else .jobs w.jobs),
          { w with due := none, jobs := [], full := false })
      else (.wait (some t), w)
    | none => (.wait none, w)

def discoverFailed (w : Watcher) (now : Nanos) : Watcher :=
  { w with retryAt := satAdd u64Max now w.interval }

def discovered (w : Watcher) (now : Nanos) (name : String) : Watcher :=
  if trim name = [] then w.discoverFailed now else { w with cluster := some (lower (trim name)) }

/-- `due.get_or_insert`. -/
def arm (w : Watcher) (now : Nanos) : Watcher :=
  { w with due := some (w.due.getD (satAdd u64Max now w.debounce)) }

def pendFull (w : Watcher) (now : Nanos) : Watcher :=
  { w with full := true, jobs := [] }.arm now

/-- An event of the stream. -/
def event (w : Watcher) (now : Nanos) (ev : Hoplib.Event) : Watcher :=
  match classify ev with
  | .seed => { w with full := true, jobs := [], due := some now }
  | .full => w.pendFull now
  | .job name =>
    if w.full then w
    else if lowerText name ∈ w.jobs then w.arm now
    else if maxPending ≤ w.jobs.length then w.pendFull now
    else { w with jobs := w.jobs ++ [lowerText name] }.arm now
  | .ignore => w

/-- The stream is lost. -/
def lost (w : Watcher) : Watcher := { w with due := none, full := false, jobs := [] }

/-- The state for a full refresh came in. -/
def refreshedFull (w : Watcher) (agents : List Agent) (tasks : List AgentTasks)
    (loc : Option Local) : Option Update :=
  w.cluster.map fun cluster => .replace cluster (buildJobs agents tasks loc)

/-- The state of one job came in. -/
def refreshedJob (w : Watcher) (job : String) (status : JobStatus) (loc : Option Local) :
    Option Update :=
  w.cluster.map fun cluster =>
    .set cluster (jobKey job) (buildJob job status.agents status.tasks loc)

def refreshFailed (w : Watcher) (now : Nanos) (what : Refresh) : Watcher :=
  let at' := match what with
    | .full => satAdd u64Max now w.interval
    | .jobs _ => now
  { w with full := true, jobs := [], due := some ((w.due.map fun d => min d at').getD at') }

end Watcher

/-! ### The driver -/

/-- The loop of `refresh` over the jobs: `false` at the first one that the leader refuses. -/
def refreshJobs (c : Cluster) (loc : Option Local) (w : Watcher) :
    List String → Cache → Bool × Cache
  | [], cache => (true, cache)
  | job :: jobs, cache =>
    match (c.jobStatus job).bind fun st => w.refreshedJob job st loc with
    | some u => refreshJobs c loc w jobs (u.apply cache)
    | none => (false, cache)

/-- `refresh`: ask the leader, and change the cache. -/
def refresh (c : Cluster) (loc : Option Local) (w : Watcher) (what : Refresh) (now : Nanos)
    (cache : Cache) : Watcher × Cache :=
  match what with
  | .full =>
    match w.refreshedFull c.agents c.tasks loc with
    | some u => (w, u.apply cache)
    | none => (w, cache)
  | .jobs names =>
    let (ok, cache) := refreshJobs c loc w names cache
    (if ok then w else w.refreshFailed now what, cache)

end Hop.Dns
