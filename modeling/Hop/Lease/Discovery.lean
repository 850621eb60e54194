import Hop.Agent.Elector

/-!
# The lease logic of a node

`discovery/src/lib.rs`: the handle and the generation of the lease that a node holds, and the
rules for creating, renewing, taking over and letting go. Every
write to the store is conditional on the handle that was last seen, and an empty handle means "only if
there is nothing yet".

The steps build a call and read its answer (`planClaim`, `renewOp`, `onWrite`). The owner of
the store (`agentd/src/elector.rs`, `agentd-hopos/src/lease.rs`) carries out one order at a
time, and between two backend calls of an order other nodes may call too: `Phase` is the call
that an order waits for.
-/

namespace Hop.Lease

open Hop.Agent (LeaseOp LeaseReply)

/-- What the lease store says about the lease (times in ms). -/
structure LeaseState where
  generation : ℕ
  expiresAt : ℕ
  owner : String
deriving DecidableEq, Repr

/-- An error of the lease store. -/
inductive Error
  /-- There is no lease; an answer more than an error. -/
  | noLease
  /-- Somebody else holds the lease. -/
  | leaseHeld
  /-- The store did not answer. -/
  | unreachable
deriving DecidableEq, Repr

/-- What a read brings: the lease and its handle. -/
abbrev ReadResult : Type := Except Error (LeaseState × String)

/-- Who leads according to a read, and whether the store answered. -/
def leaderOf (read : ReadResult) (now : ℕ) : Option String × Bool :=
  match read with
  | .error .noLease => (none, true)
  | .error _ => (none, false)
  | .ok (state, _) => if state.expiresAt < now then (none, true) else (some state.owner, true)

/-- What a claim has to do after its read. -/
inductive ClaimStep
  | write (before : String) (state : LeaseState)
  | fail (e : Error)

/-- What a renewal does first. -/
inductive RenewStep
  /-- One conditional write on the handle we hold, without a read. -/
  | write (before : String) (state : LeaseState)
  /-- No handle yet: the full way of a claim. -/
  | claim

/-- The lease handle of one node. -/
structure Discovery where
  owner : String
  ttlMs : ℕ
  handle : String
  generation : ℕ
deriving DecidableEq, Repr

namespace Discovery

def new (owner : String) (ttlMs : ℕ) : Discovery := ⟨owner, ttlMs, "", 0⟩

def lease (d : Discovery) (generation now : ℕ) : LeaseState :=
  ⟨generation, satAdd u64Max now d.ttlMs, d.owner⟩

/-- Three ways to succeed: create the lease if there is none, renew it if it is ours, take it
over if it has expired (generation + 1). -/
def planClaim (d : Discovery) (read : ReadResult) (now : ℕ) : ClaimStep :=
  match read with
  | .error .noLease => .write "" (d.lease 1 now)
  | .error e => .fail e
  | .ok (state, handle) =>
    if state.owner = d.owner then .write handle (d.lease state.generation now)
    else if state.expiresAt < now then
      .write handle (d.lease (satAdd u64Max state.generation 1) now)
    else .fail .leaseHeld

def renewOp (d : Discovery) (now : ℕ) : RenewStep :=
  if d.handle = "" then .claim else .write d.handle (d.lease d.generation now)

/-- Process the answer to a write of `state`. -/
def onWrite (d : Discovery) (state : LeaseState) :
    Except Error String → Except Error Unit × Discovery
  | .ok handle => (.ok (), { d with handle := handle, generation := state.generation })
  | .error e => (.error e, d)

def takeHandle (d : Discovery) : String × Discovery := (d.handle, { d with handle := "" })

/-- Whether a call went well. -/
def isOk : Except Error Unit → Bool
  | .ok _ => true
  | .error _ => false

/-- `(renewed, displaced)` from the result of a renewal. -/
def renewal : Except Error Unit → Bool × Bool
  | .ok _ => (true, false)
  | .error e => (false, e = .leaseHeld)

end Discovery

/-! ### An order, call by call -/

/-- The backend call that an order waits for. `now` is the clock value that the owner of the
store read when it took the order. -/
inductive Phase
  /-- The read of `LeaseOp::Read`. -/
  | reading (now : ℕ)
  /-- The read of a claim, or of a renewal without a handle. -/
  | claiming (renew : Bool) (now : ℕ)
  | writing (renew : Bool) (before : String) (state : LeaseState)
  | deleting (handle : String)
deriving DecidableEq, Repr

namespace Phase

/-- Take an order. A release without a handle is done at once. -/
def start (d : Discovery) (now : ℕ) : LeaseOp → Option Phase × Discovery
  | .read => (some (.reading now), d)
  | .claim => (some (.claiming false now), d)
  | .renew =>
    match d.renewOp now with
    | .write before state => (some (.writing true before state), d)
    | .claim => (some (.claiming true now), d)
  | .release =>
    let (handle, d) := d.takeHandle
    (if handle ≠ "" then some (.deleting handle) else none, d)

/-- The report of a claim or of a renewal. -/
def report (renew : Bool) (r : Except Error Unit) : LeaseReply :=
  if renew then .renewed (Discovery.renewal r).1 (Discovery.renewal r).2
  else .claimed (Discovery.isOk r)

end Phase

end Hop.Lease
