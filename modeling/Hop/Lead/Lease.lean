import Hop.Types.Prim

/-!
# The leader lease: who leads, proved by compare-and-swap on one record

`leader/src/lease.rs`. `Claim` is the protocol of one node (claim, renew, release, read), over
a `LeaseStore`: a record with an opaque handle on which every write puts a condition.
`MemLease` is the store in memory.

Allocations succeed here, so the `OutOfMemory` paths of the source do not occur, and the
counter of handles is a natural number: the source counts in a `u64` with overflow checks, so
it aborts where the two would differ.
-/

namespace Hop.Lead

/-- The lease record in the store. -/
structure LeaseState where
  generation : ℕ
  expiresAt : Nanos
  owner : String
deriving DecidableEq, Repr

/-- Why an operation of the store did not succeed. -/
inductive LeaseError
  /-- There is no record. -/
  | noLease
  /-- The condition failed: somebody else wrote since we read. -/
  | held
  /-- The store could not be reached. -/
  | unreachable
deriving DecidableEq, Repr

/-- The store under the lease: read, and write or delete on a condition. -/
class LeaseStore (S : Type) where
  /-- The record and the handle that belongs to it now. -/
  read : S → Except LeaseError (LeaseState × String) × S
  /-- Write the record. An empty `before` demands that there is none; otherwise the stored
  handle has to equal `before`. Returns the new handle. -/
  write : S → (before : String) → LeaseState → Except LeaseError String × S
  /-- Delete the record, but only if the handle still fits. -/
  delete : S → (handle : String) → Except LeaseError Unit × S

/-- The outcome of a renewal. -/
inductive Renewal
  | renewed
  /-- The store reports another owner: step down now. -/
  | displaced
  | unreachable
deriving DecidableEq, Repr

/-- The claim of one node on the lease: who it is and which handle it holds. -/
structure Claim where
  owner : String
  ttl : Nanos
  handle : String
  generation : ℕ
deriving DecidableEq, Repr

namespace Claim

variable {S : Type} [LeaseStore S]

/-- A claim for `owner` with leases of `ttl`. -/
def new (owner : String) (ttl : Nanos) : Claim := ⟨owner, ttl, "", 0⟩

/-- Write the record for this node; on success the claim holds the new handle. -/
def refresh (c : Claim) (store : S) (before : String) (generation : ℕ) (now : Nanos) :
    Except LeaseError Unit × Claim × S :=
  let state : LeaseState := ⟨generation, satAdd u64Max now c.ttl, c.owner⟩
  match LeaseStore.write store before state with
  | (.ok handle, store) => (.ok (), { c with handle := handle, generation := generation }, store)
  | (.error e, store) => (.error e, c, store)

/-- Three ways to succeed: create the record if there is none, refresh it if it is ours, take
it over if it has expired. -/
def tryClaim (c : Claim) (store : S) (now : Nanos) : Except LeaseError Unit × Claim × S :=
  match LeaseStore.read store with
  | (.error .noLease, store) => c.refresh store "" 1 now
  | (.error e, store) => (.error e, c, store)
  | (.ok (state, handle), store) =>
    if state.owner = c.owner then c.refresh store handle state.generation now
    else if state.expiresAt < now then
      c.refresh store handle (satAdd u64Max state.generation 1) now
    else (.error .held, c, store)

/-- One attempt to claim the lease. -/
def tryBecomeLeader (c : Claim) (store : S) (now : Nanos) : Bool × Claim × S :=
  match c.tryClaim store now with
  | (.ok (), c, store) => (true, c, store)
  | (.error _, c, store) => (false, c, store)

/-- The write of a renewal: on the handle we hold, or the full way without one. -/
def renewWrite (c : Claim) (store : S) (now : Nanos) : Except LeaseError Unit × Claim × S :=
  if c.handle = "" then c.tryClaim store now
  else
    -- The handle is taken out for the call and put back if the write did not replace it.
    match { c with handle := "" }.refresh store c.handle c.generation now with
    | (.error e, c', store) =>
      (.error e, if c'.handle = "" then { c' with handle := c.handle } else c', store)
    | r => r

/-- Renew the lease on the handle we hold: one conditional write, no read. -/
def renew (c : Claim) (store : S) (now : Nanos) : Renewal × Claim × S :=
  match c.renewWrite store now with
  | (.ok (), c, store) => (.renewed, c, store)
  | (.error .held, c, store) => (.displaced, c, store)
  | (.error _, c, store) => (.unreachable, c, store)

/-- Let the lease go, so that another node can take it at once. -/
def release (c : Claim) (store : S) : Claim × S :=
  if c.handle = "" then (c, store)
  else ({ c with handle := "" }, (LeaseStore.delete store c.handle).2)

end Claim

/-! ### The store in memory -/

/-- A lease in memory. -/
structure MemLease where
  state : Option (LeaseState × String)
  /-- The number of the last handle. -/
  seq : ℕ
  /-- How often the record was read. -/
  reads : ℕ
deriving DecidableEq, Repr

namespace MemLease

def new : MemLease := ⟨none, 0, 0⟩

/-- The decimal text of the next number. -/
def nextHandle (m : MemLease) : String × MemLease :=
  (Nat.repr (m.seq + 1), { m with seq := m.seq + 1 })

def read (m : MemLease) : Except LeaseError (LeaseState × String) × MemLease :=
  let m := { m with reads := m.reads + 1 }
  match m.state with
  | none => (.error .noLease, m)
  | some r => (.ok r, m)

/-- Whether a write on the condition `before` is allowed. -/
def allows (m : MemLease) (before : String) : Bool :=
  match m.state with
  | none => before = ""
  | some (_, h) => before ≠ "" ∧ h = before

def write (m : MemLease) (before : String) (state : LeaseState) :
    Except LeaseError String × MemLease :=
  if m.allows before then
    let (handle, m) := m.nextHandle
    (.ok handle, { m with state := some (state, handle) })
  else (.error .held, m)

def delete (m : MemLease) (handle : String) : Except LeaseError Unit × MemLease :=
  match m.state with
  | none => (.error .noLease, m)
  | some (_, h) => if h ≠ handle then (.error .held, m) else (.ok (), { m with state := none })

instance : LeaseStore MemLease where
  read := read
  write := write
  delete := delete

end MemLease

end Hop.Lead
