import Hop.Lib.SortedMap
import Hop.Lib.Text

/-!
# The stores of the lock server

`apps/hoplockserver/src/store.rs` and `etag.rs`: blobs under keys, with ETags and compare-and-swap.
The conditions on a write and on a removal stand here once, so that every store applies them in the
same way. The ETag of a body is its SHA-256 in hex digits; the hash is a parameter of all that
follows.

Memory is not modelled: no operation here fails for want of it.
-/

namespace Hop.Lock

/-- A key that `Key::parse` let through: a relative path in its clean form. -/
@[ext] structure Key where
  text : String
deriving DecidableEq, Repr

/-- The largest body of a request. -/
def maxBody : ℕ := 2 ^ 20

/-- What SHA-256 yields. -/
abbrev Digest : Type := { d : Bytes // d.length = 32 }

/-! ### ETags -/

/-- An ETag, with its quotes. -/
structure Etag where
  bytes : Bytes
deriving DecidableEq, Repr

namespace Etag

/-- One of `0123456789abcdef`. -/
def hexDigit (n : ℕ) : UInt8 := if n < 10 then UInt8.ofNat (48 + n) else UInt8.ofNat (87 + n)

/-- The ETag of a SHA-256 that is there already. -/
def fromDigest (digest : Digest) : Etag :=
  ⟨[34] ++ digest.val.flatMap (fun b => [hexDigit (b.toNat / 16), hexDigit (b.toNat % 16)]) ++ [34]⟩

/-- The ETag of a body. -/
def of (sha256 : Bytes → Digest) (body : Bytes) : Etag := fromDigest (sha256 body)

end Etag

/-! ### The contract -/

/-- Why an operation of a store failed. -/
inductive Error
  | notFound
  | precondition
  | badKey
  | outOfMemory (bytes : ℕ)
  | io (op key why : String)
deriving DecidableEq, Repr

/-- A condition on a write or a removal; empty is unconditional. -/
structure Condition where
  ifNoneMatch : String := ""
  ifMatch : String := ""
deriving DecidableEq, Repr

/-- A stored object: the body and its ETag. -/
structure Object where
  body : Bytes
  etag : Etag
deriving DecidableEq, Repr

/-- May a write go through, given the ETag of what is there? `If-None-Match: *` wins. -/
def checkPut (current : Option Etag) (cond : Condition) : Except Error Unit :=
  if cond.ifNoneMatch = "*" then
    match current with
    | some _ => .error .precondition
    | none => .ok ()
  else if cond.ifMatch ≠ "" then
    match current with
    | some e => if e.bytes = utf8 cond.ifMatch then .ok () else .error .precondition
    | none => .error .precondition
  else .ok ()

/-- May a removal go through, given the ETag of what is there? Only `If-Match` counts. -/
def checkDelete (current : Etag) (cond : Condition) : Except Error Unit :=
  if cond.ifMatch ≠ "" ∧ current.bytes ≠ utf8 cond.ifMatch then .error .precondition else .ok ()

/-- An operation of the server on its store. -/
inductive Op
  | get (key : Key)
  | put (key : Key) (body : Bytes) (cond : Condition)
  | delete (key : Key) (cond : Condition)
deriving DecidableEq, Repr

def Op.key : Op → Key
  | .get key | .put key _ _ | .delete key _ => key

/-- What came of an operation. -/
inductive Done
  | get (result : Except Error Object)
  | put (result : Except Error Etag)
  | delete (result : Except Error Unit)

/-- The three operations of a store. -/
structure Store (S : Type) where
  get : S → Key → Except Error Object × S
  putIf : S → Key → Bytes → Condition → Except Error Etag × S
  delete : S → Key → Condition → Except Error Unit × S

/-- Carry out an operation. -/
def Store.run {S : Type} (store : Store S) (s : S) : Op → Done × S
  | .get key => (.get (store.get s key).1, (store.get s key).2)
  | .put key body cond => (.put (store.putIf s key body cond).1, (store.putIf s key body cond).2)
  | .delete key cond => (.delete (store.delete s key cond).1, (store.delete s key cond).2)

/-! ### The store in memory -/

/-- The store in memory. -/
structure MemStore where
  data : SortedMap String Object

namespace MemStore

def new : MemStore := ⟨.empty⟩

/-- The object under a key. -/
def at? (m : MemStore) (key : Key) : Option Object := m.data.get? key.text

def insert (m : MemStore) (key : Key) (obj : Object) : MemStore := ⟨m.data.insert key.text obj⟩

def remove (m : MemStore) (key : Key) : MemStore := ⟨m.data.erase key.text⟩

def get (m : MemStore) (key : Key) : Except Error Object × MemStore :=
  match m.at? key with
  | some obj => (.ok obj, m)
  | none => (.error .notFound, m)

def putIf (sha256 : Bytes → Digest) (m : MemStore) (key : Key) (body : Bytes) (cond : Condition) :
    Except Error Etag × MemStore :=
  match checkPut ((m.at? key).map Object.etag) cond with
  | .error e => (.error e, m)
  | .ok () =>
    let etag := Etag.of sha256 body
    (.ok etag, m.insert key ⟨body, etag⟩)

def delete (m : MemStore) (key : Key) (cond : Condition) : Except Error Unit × MemStore :=
  match m.at? key with
  | none => (.error .notFound, m)
  | some obj =>
    match checkDelete obj.etag cond with
    | .error e => (.error e, m)
    | .ok () => (.ok (), m.remove key)

/-- The operations of the store in memory. -/
def store (sha256 : Bytes → Digest) : Store MemStore where
  get := get
  putIf := putIf sha256
  delete := delete

@[simp] theorem at?_new (key : Key) : new.at? key = none := rfl

@[simp] theorem at?_insert (m : MemStore) (key k : Key) (obj : Object) :
    (m.insert key obj).at? k = if key = k then some obj else m.at? k := by
  simp only [at?, insert, SortedMap.get?_insert, Key.ext_iff]

@[simp] theorem at?_remove (m : MemStore) (key k : Key) :
    (m.remove key).at? k = if key = k then none else m.at? k := by
  simp only [at?, remove, SortedMap.get?_erase, Key.ext_iff]

end MemStore

end Hop.Lock
