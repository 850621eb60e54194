import Hop.Lead.Settle
import Hop.Types.JobRound

/-!
# The committed state

`leader/src/persist.rs`: the leader writes one snapshot of what should run, and a successor loads
it. The adapter puts the bytes into the bucket or a file, so writing is a pure function here.
`requests` is the leader with everything that can be asked of it: the operations, the snapshots,
and the settings.
-/

namespace Hop.Lead

open Hop.Types (Agent Job Map)
open Hop.Types.Json (Value)

/-- How long changes fall together into one snapshot. -/
def persistDebounce : Nanos := second

namespace Leader

/-- The snapshot as a value. -/
def snapshotValue (l : Leader) (now : Nanos) : Value :=
  .object [("updated", .string (Types.Time.writeRfc3339 now)),
    ("jobs", .array (l.store.jobs.map Job.toValue))]

/-- The snapshot as JSON. -/
def snapshot (l : Leader) (now : Nanos) : Bytes := Types.Json.write (l.snapshotValue now)

/-- The snapshot to write, if the state has been dirty for the whole debounce window. -/
def pollSnapshot (l : Leader) (now : Nanos) : Option Bytes × Leader :=
  if !l.dirty then (none, l)
  else
    let seen := l.dirtySeen.getD now
    let l := { l with dirtySeen := some seen }
    if now - seen < persistDebounce then (none, l)
    else (some (l.snapshot now), { l with dirty := false, dirtySeen := none })

/-- The write failed: the next round tries again. -/
def snapshotFailed (l : Leader) : Leader := { l with dirty := true }

/-- One key of a snapshot; the time and the jobs so far. -/
def readField (st : Nanos × List Job) (kv : String × Value) :
    Except Types.Error (Nanos × List Job) :=
  let (k, item) := kv
  if k = "updated" then do
    let s ← Types.De.string item k
    let updated ← Types.Time.parseRfc3339 s
    .ok (updated, st.2)
  else if k = "jobs" ∧ !item.isNull then do
    let jobs ← Types.De.list item k maxJobs fun j => Job.fromValue j false
    .ok (st.1, jobs)
  else .ok st

/-- The time and the jobs of a snapshot. -/
def readState (data : Bytes) : Except Types.Error (Nanos × List Job) := do
  let v ← Types.Json.parse data
  let obj ← Types.De.object v "state"
  obj.foldlM readField (0, [])

/-- Put the jobs of a snapshot into the store. -/
def putLoaded : List Job → Leader → Except Error Unit × Leader
  | [], l => (.ok (), l)
  | job :: rest, l =>
    match l.store.put job with
    | .error e => (.error e, l)
    | .ok store => putLoaded rest { l with store := store }

/-- The names in the store that are not among the jobs of a snapshot. -/
def stale (l : Leader) (jobs : List Job) : List String :=
  (l.store.jobs.filter fun j => j.name ∉ jobs.map Job.name).map Job.name

/-- Fill the store from the committed snapshot; none is a clean boot. A job that is not in the
snapshot goes, and a broken snapshot is an error. Returns whether there was a snapshot. -/
def loadCommittedState (l : Leader) (snapshot : Option Bytes) : Except Error Bool × Leader :=
  match snapshot with
  | none => (.ok false, l)
  | some data =>
    match readState data with
    | .error e => (.error (.json e), l)
    | .ok (updated, jobs) =>
      match putLoaded jobs ((l.stale jobs).foldl (fun l name => (l.storeRemove name).2) l) with
      | (.error e, l) => (.error e, l)
      | (.ok (), l) => (.ok true, { l with store := l.store.setStateTime updated })

end Leader

/-! ### Requests -/

/-- What can be asked of a leader. -/
inductive Request
  | op (op : Op)
  | loadCommittedState (snapshot : Option Bytes)
  | pollSnapshot (now : Nanos)
  | snapshotFailed
  | settle (delay now : Nanos)
  | setAgentTimeout (d : Nanos)
  | drainEvents

variable {N : Type} [Transport N]

/-- The leader and its transport after a request. -/
def Sys.serve (s : Sys N) : Request → Sys N
  | .op op => s.apply op
  | .loadCommittedState snapshot => ⟨(s.leader.loadCommittedState snapshot).2, s.net⟩
  | .pollSnapshot now => ⟨(s.leader.pollSnapshot now).2, s.net⟩
  | .snapshotFailed => ⟨s.leader.snapshotFailed, s.net⟩
  | .settle delay now => ⟨s.leader.settle delay now, s.net⟩
  | .setAgentTimeout d => ⟨s.leader.setAgentTimeout d, s.net⟩
  | .drainEvents => ⟨s.leader.drainEvents.2, s.net⟩

/-- A leader that begins with an empty store and serves requests. -/
def requests : Machine (Sys N) Request where
  Init s := ∃ id, s.leader = Leader.new id .new ∧ s.net.log = []
  step s r := some (s.serve r)

/-- A leader that has seen no request. -/
def emptyLeader : Sys WillingAgents := ⟨Leader.new "a" .new, ⟨⟨⟩, []⟩⟩

end Hop.Lead
