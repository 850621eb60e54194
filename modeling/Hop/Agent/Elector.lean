import Hop.Types.Prim

/-!
# The elector: the last answer of the lease store, and the timer of our own lease

`agent/src/elector.rs`. The election asks its questions through the `Discoverer` interface
and is answered at once, from what the last completed call to the lease store said; the call
itself runs elsewhere. The `Elector` sends a `LeaseOp` to the owner of the store through its
queue (`LeaseOps`), and is told the outcome later (`Elector.onReply`).

The source reads the wall clock through a function pointer that the elector holds; here the
field `clock` is what that function returns at the moment, and the environment moves it.
-/

namespace Hop.Agent

/-! ### What the election asks -/

/-- The lease side as the election sees it: every question is answered at once. The answers
may change the discoverer, so each question also returns it. -/
class Discoverer (D : Type) where
  /-- The leader according to the last read; `none` is nobody, or unknown. -/
  getLeader : D → Option String × D
  /-- Try to claim the lease. -/
  tryBecomeLeader : D → Bool × D
  /-- Renew the lease: `(renewed, displaced)`. -/
  renewLease : D → (Bool × Bool) × D
  /-- Give the lease back. -/
  releaseLeadership : D → D
  /-- Whether the last read was answered by the store. -/
  storeReachable : D → Bool
  /-- Forget the cached answer: the next question reads again. -/
  invalidate : D → D
  /-- When our lease runs out, if the implementation keeps that. -/
  leaseExpiresAt : D → Option Nanos

/-! ### Messages to and from the owner of the lease store -/

/-- An order to the owner of the lease store. -/
inductive LeaseOp
  | read
  | claim
  | renew
  | release
deriving DecidableEq, Repr

/-- What the owner of the lease store reports back. -/
inductive LeaseReply
  /-- The leader according to the store, and whether the store answered. -/
  | read (leader : Option String) (ok : Bool)
  /-- A claim: `true` if we now hold the lease. -/
  | claimed (got : Bool)
  /-- A renewal: `(renewed, displaced)`. -/
  | renewed (renewed displaced : Bool)
deriving DecidableEq, Repr

/-- The order that a reply answers. A release is never answered. -/
def LeaseReply.op : LeaseReply → LeaseOp
  | .read _ _ => .read
  | .claimed _ => .claim
  | .renewed _ _ => .renew

/-- The queue to the owner of the lease store. -/
class LeaseOps (O : Type) where
  /-- Queue an order; `false` if the owner is gone or the queue full. -/
  send : O → LeaseOp → Bool × O

/-- The queue to the owner of the lease store: the orders in it, and how many more it takes
during the present call. -/
structure LeaseQueue where
  sent : List LeaseOp
  room : ℕ
deriving DecidableEq, Repr

instance : LeaseOps LeaseQueue where
  send q op := if 0 < q.room then (true, ⟨q.sent ++ [op], q.room - 1⟩) else (false, q)

/-! ### The elector -/

/-- The last answer of the lease store, and the timer of our own lease (times in ms). -/
structure Elector (O : Type) where
  ops : O
  /-- What the wall clock reads now. -/
  clock : ℕ
  ttlMs : ℕ
  leader : Option String
  leaderAt : Option ℕ
  storeOk : Bool
  reading : Bool
  holding : Bool
  expiresAt : ℕ
  renewing : Bool
  nextRenew : ℕ
  claiming : Bool
  claimed : Bool
  displaced : Bool
  notes : List String
deriving DecidableEq, Repr

namespace Elector

variable {O : Type}

/-- An elector over the queue `ops`; `holding` is the outcome of the boot claim. -/
def new (ops : O) (now ttlMs : ℕ) (holding : Bool) : Elector O where
  ops := ops
  clock := now
  ttlMs := ttlMs
  leader := none
  leaderAt := none
  storeOk := false
  reading := false
  holding := holding
  expiresAt := if holding then satAdd u64Max now ttlMs else 0
  renewing := false
  nextRenew := satAdd u64Max now (ttlMs / 3)
  claiming := false
  -- A boot claim that hit is reported as won to the first question of the election.
  claimed := holding
  displaced := false
  notes := []

def note (e : Elector O) (line : String) : Elector O := { e with notes := e.notes ++ [line] }

/-- Process an answer of the owner of the lease store. -/
def onReply (e : Elector O) : LeaseReply → Elector O
  | .read leader ok =>
    { e with reading := false, leader := leader, leaderAt := some e.clock, storeOk := ok }
  | .claimed got =>
    let e := { e with claiming := false }
    if got then
      { e with
        holding := true
        claimed := true
        expiresAt := satAdd u64Max e.clock e.ttlMs
        nextRenew := satAdd u64Max e.clock (e.ttlMs / 3)
        leader := none
        leaderAt := none }
    else e
  | .renewed renewed displaced =>
    let e := { e with renewing := false }
    -- Let go while the renewal was under way.
    if !e.holding then e
    else if renewed then { e with expiresAt := satAdd u64Max e.clock e.ttlMs }
    else if displaced then
      ({ e with holding := false, displaced := true }).note
        "hop: lease renew: another owner holds the lease, stepping down HOP_LEASE_DISPLACED"
    else
      let left := (e.expiresAt - e.clock) / 1000
      e.note s!"hop: lease renew failed; lease valid for another {left} s HOP_LEASE_RENEW_FAIL"

/-- Whether the cached answer is younger than the lease time. -/
def fresh (e : Elector O) : Bool := e.leaderAt.any fun at' => decide (e.clock - at' < e.ttlMs)

/-- What `get_leader` answers: the cached leader, as long as it is fresh. -/
def answer (e : Elector O) : Option String := if e.fresh then e.leader else none

def storeReachable (e : Elector O) : Bool := e.leaderAt.isSome && e.storeOk

def invalidate (e : Elector O) : Elector O := { e with leaderAt := none }

def leaseExpiresAt (e : Elector O) : Option Nanos :=
  if e.holding then some (satMul u64Max e.expiresAt millisecond) else none

def renewLease (e : Elector O) : (Bool × Bool) × Elector O :=
  if e.displaced then ((false, true), { e with displaced := false })
  else ((e.holding && decide (e.clock < e.expiresAt), false), e)

/-- The fields that say whether and until when we lead. Of the questions of the election
only `tryBecomeLeader`, `renewLease` and `releaseLeadership` touch them. -/
structure Tenure where
  holding : Bool
  claimed : Bool
  displaced : Bool
  expiresAt : ℕ
  clock : ℕ

def tenure (e : Elector O) : Tenure :=
  ⟨e.holding, e.claimed, e.displaced, e.expiresAt, e.clock⟩

variable [LeaseOps O]

def send (e : Elector O) (op : LeaseOp) : Bool × Elector O :=
  ((LeaseOps.send e.ops op).1, { e with ops := (LeaseOps.send e.ops op).2 })

/-- The cadence of the renewals: while we hold, one at a time, every third of the TTL. -/
def tick (e : Elector O) (now : ℕ) : Elector O :=
  if e.holding && !e.renewing && decide (e.nextRenew ≤ now) then
    let e := { e with nextRenew := satAdd u64Max now (e.ttlMs / 3) }
    let (sent, e) := e.send .renew
    { e with renewing := sent }
  else e

def getLeader (e : Elector O) : Option String × Elector O :=
  if e.fresh then (e.leader, e)
  else if !e.reading then
    let (sent, e) := e.send .read
    (none, { e with reading := sent })
  else (none, e)

def tryBecomeLeader (e : Elector O) : Bool × Elector O :=
  if e.claimed then (true, { e with claimed := false })
  else if e.holding || e.claiming then (false, e)
  else
    let (sent, e) := e.send .claim
    (false, { e with claiming := sent })

def releaseLeadership (e : Elector O) : Elector O :=
  let e := { e with holding := false, claimed := false, displaced := false, expiresAt := 0 }
  (e.send .release).2

/-! ### What a question leaves alone -/

@[simp] theorem getLeader_fst (e : Elector O) : e.getLeader.1 = e.answer := by
  unfold getLeader answer
  split
  · rfl
  · split <;> rfl

/-- Asking for the leader may start a read, but leaves the cached answer alone. -/
theorem getLeader_cache (e : Elector O) :
    e.getLeader.2.answer = e.answer ∧ e.getLeader.2.storeReachable = e.storeReachable ∧
      e.getLeader.2.leaderAt = e.leaderAt := by
  unfold getLeader
  split
  · exact ⟨rfl, rfl, rfl⟩
  · split <;> exact ⟨rfl, rfl, rfl⟩

@[simp] theorem getLeader_tenure (e : Elector O) : e.getLeader.2.tenure = e.tenure := by
  unfold getLeader
  split
  · rfl
  · split <;> rfl

@[simp] theorem getLeader_holding (e : Elector O) : e.getLeader.2.holding = e.holding :=
  congrArg Tenure.holding e.getLeader_tenure

@[simp] theorem getLeader_claimed (e : Elector O) : e.getLeader.2.claimed = e.claimed :=
  congrArg Tenure.claimed e.getLeader_tenure

@[simp] theorem tick_tenure (e : Elector O) (now : ℕ) : (e.tick now).tenure = e.tenure := by
  unfold tick
  split <;> rfl

@[simp] theorem tryBecomeLeader_fst (e : Elector O) : e.tryBecomeLeader.1 = e.claimed := by
  unfold tryBecomeLeader
  split_ifs with h <;> simp [h]

/-- Asking for a claim takes the flag that says one was won, and nothing else. -/
@[simp] theorem tryBecomeLeader_tenure (e : Elector O) :
    e.tryBecomeLeader.2.tenure = { e.tenure with claimed := false } := by
  unfold tryBecomeLeader
  split_ifs with h h' <;> simp_all [tenure, send]

@[simp] theorem tryBecomeLeader_leaderAt (e : Elector O) :
    e.tryBecomeLeader.2.leaderAt = e.leaderAt := by
  unfold tryBecomeLeader
  split_ifs <;> rfl

instance : Discoverer (Elector O) where
  getLeader := getLeader
  tryBecomeLeader := tryBecomeLeader
  renewLease := renewLease
  releaseLeadership := releaseLeadership
  storeReachable := storeReachable
  invalidate := invalidate
  leaseExpiresAt := leaseExpiresAt

end Elector

end Hop.Agent
