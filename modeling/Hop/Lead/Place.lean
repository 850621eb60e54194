import Hop.Lead.State

/-!
# Placing and reconciling

`leader/src/dispatch.rs` and `leader/src/health.rs`: one instance is placed by a round over the
agents and, where that is allowed, by displacing the least important job of a full agent;
`reconcileJobs` brings every job to its number of instances, in the order of priority.

Each function takes the leader and the transport and returns both; the loops of the source are
functions of their own, by recursion on what they loop over.
-/

namespace Hop.Lead

open Hop.Types (Agent Job Map Task Name)

namespace Leader

variable {N : Type} [Transport N]

/-- The sort key of a priority: lower is more important, and none comes last. -/
def effectivePriority (p : Option ℤ) : ℤ := p.getD i64Max

/-- The next agent of the round robin. -/
def nextAgent (l : Leader) : Option Agent × Leader :=
  if l.agents.length = 0 then (none, l)
  else (l.agents[l.roundRobin % l.agents.length]?,
    { l with roundRobin := (l.roundRobin + 1) % 2 ^ 64 })

/-- The first round: every agent once, until one accepts. Returns whether one did, and the
agents that were full. -/
def firstRound (job : Job) : ℕ → List Agent → Leader → N → (Bool × List Agent) × Leader × N
  | 0, full, l, net => ((false, full), l, net)
  | k + 1, full, l, net =>
    match l.nextAgent with
    | (none, l) => ((false, full), l, net)
    | (some agent, l) =>
      match Transport.run net agent job false with
      | (.accepted, net) => ((true, full), l.trackPlacement agent.id job.name, net)
      | (.noCapacity, net) => firstRound job k (full ++ [agent]) l net
      | (_, net) => firstRound job k full l net

/-- One entry of the search for a victim: the worst priority so far, and whose it is. -/
def worse (l : Leader) (acc : ℤ × Option String) (e : String × ℕ) : ℤ × Option String :=
  if e.2 = 0 then acc
  else match l.store.get e.1 with
    | none => acc
    | some j =>
      if acc.1 < effectivePriority j.priority then (effectivePriority j.priority, some e.1)
      else acc

/-- The least important job on the agent that is strictly less important than `priority`. -/
def findVictim (l : Leader) (agentId : String) (priority : Option ℤ) : Option String :=
  match l.placed.get? agentId with
  | none => none
  | some jobs => (jobs.entries.foldl l.worse (effectivePriority priority, none)).2

/-- The second round: displace the least important job of each full agent in turn. -/
def preemptRound (job : Job) : List Agent → Leader → N → Bool × Leader × N
  | [], l, net => (false, l, net)
  | agent :: rest, l, net =>
    match l.findVictim agent.id job.priority with
    | none => preemptRound job rest l net
    | some victim =>
      match Transport.stopJob net agent victim with
      -- The stop failed and the tasks go on: the next agent.
      | (false, net) => preemptRound job rest l net
      | (true, net) =>
        let l := l.dropPlacement agent.id victim
        match Transport.run net agent job false with
        | (.accepted, net) =>
          (true, (l.trackPlacement agent.id job.name).emit (.job victim), net)
        | (_, net) => preemptRound job rest l net

/-- Try agents until one accepts the job. -/
def place (l : Leader) (net : N) (job : Job) (allowPreempt : Bool) :
    Except Refusal Unit × Leader × N :=
  let n := l.agents.length
  if n = 0 then (.error .noAgents, l, net)
  else match firstRound job n [] l net with
    | ((true, _), l, net) => (.ok (), l, net)
    | ((false, []), l, net) => (.error (.noneAccepted n), l, net)
    | ((false, full), l, net) =>
      if !allowPreempt then (.error (.full full.length), l, net)
      else match preemptRound job full l net with
        | (true, l, net) => (.ok (), l, net)
        | (false, l, net) => (.error (.full full.length), l, net)

/-- Place the instances `i + 1`, `i + 2`, ... of `count`: `k` more. -/
def dispatchLoop (job : Job) (count : ℕ) : ℕ → ℕ → Leader → N → Except Error Unit × Leader × N
  | 0, _, l, net => (.ok (), l, net)
  | k + 1, i, l, net =>
    match l.place net job true with
    | (.error why, l, net) => (.error (.dispatch (.new job.name) (i + 1) count why), l, net)
    | (.ok (), l, net) => dispatchLoop job count k (i + 1) l net

/-- Place `count` instances (at least one). -/
def dispatchCount (l : Leader) (net : N) (job : Job) (count : ℕ) :
    Except Error Unit × Leader × N :=
  dispatchLoop job (max count 1) (max count 1) 0 l net

/-! ### Reconciling -/

/-- The number of instances of `name` on all agents. -/
def totalPlaced (l : Leader) (name : String) : ℕ :=
  (l.agents.map fun a => l.placedOn a.id name).sum

/-- The agents that a daemon misses. -/
def missing (l : Leader) (name : String) : List Agent :=
  l.agents.filter fun a => l.placedOn a.id name = 0

/-- Send a daemon to each agent of a list; returns how many accepted. -/
def daemonLoop (job : Job) : List Agent → Leader → N → ℕ × Leader × N
  | [], l, net => (0, l, net)
  | agent :: rest, l, net =>
    match Transport.run net agent job false with
    | (.accepted, net) =>
      let (n, l, net) := daemonLoop job rest (l.trackPlacement agent.id job.name) net
      (n + 1, l, net)
    | (_, net) => daemonLoop job rest l net

/-- A daemon belongs on every agent. -/
def reconcileDaemon (l : Leader) (net : N) (job : Job) : Except Error Unit × Leader × N :=
  let missing := l.missing job.name
  let (dispatched, l, net) := daemonLoop job missing l net
  let l := if 0 < dispatched then l.emit (.job job.name) else l
  if dispatched = 0 ∧ missing ≠ [] then (.error (.daemonRejected (.new job.name)), l, net)
  else (.ok (), l, net)

/-- See to it that one job has its instances. -/
def reconcileJob (l : Leader) (net : N) (job : Job) : Except Error Unit × Leader × N :=
  if job.isDaemon then l.reconcileDaemon net job
  else
    let total := l.totalPlaced job.name
    if job.desired ≤ total then (.ok (), l, net)
    else
      let (r, l, net) := l.dispatchCount net job (job.desired - total)
      (r, l.emit (.job job.name), net)

/-- The order of two jobs: by priority, then by name. -/
def KeyLe (a b : ℤ × String) : Prop := a.1 < b.1 ∨ a.1 = b.1 ∧ a.2 ≤ b.2

instance : DecidableRel KeyLe := fun _ _ => inferInstanceAs (Decidable (_ ∨ _ ∧ _))

/-- The names of the jobs, sorted by priority and name. -/
def priorityOrder (l : Leader) : List String :=
  ((l.store.jobs.map fun j => (effectivePriority j.priority, j.name)).insertionSort KeyLe).map
    Prod.snd

/-- Give the jobs of a list the priorities `i`, `i + 1`, ..., where they differ. -/
def normalizeLoop : List String → ℕ → Leader → Leader
  | [], _, l => l
  | name :: rest, i, l =>
    let l := if (l.store.get name).bind Job.priority = some (i : ℤ) then l
      else l.storeSetPriority name i
    normalizeLoop rest (i + 1) l

/-- Give all jobs unique priorities 0, 1, 2, .... -/
def normalizePriorities (l : Leader) : Leader := normalizeLoop l.priorityOrder 0 l

/-- Reconcile the jobs of a list of names. -/
def reconcileLoop : List String → Leader → N → Leader × N
  | [], l, net => (l, net)
  | name :: rest, l, net =>
    match l.store.get name with
    | none => reconcileLoop rest l net
    | some job =>
      if job.name = "" then reconcileLoop rest l net
      else
        -- A job that does not fit now is no error of the round.
        let (_, l, net) := l.reconcileJob net job
        reconcileLoop rest l net

/-- See to it that every job has its number of instances, in the order of priority. -/
def reconcileJobs (l : Leader) (net : N) : Leader × N :=
  if l.store.jobs = [] ∨ l.agents = [] then (l, net)
  else
    let l := { l.normalizePriorities with roundRobin := 0 }
    reconcileLoop l.priorityOrder l net

end Leader

end Hop.Lead
