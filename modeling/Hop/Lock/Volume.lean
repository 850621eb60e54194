import Hop.Lock.Store
import Hop.Types.Prim

/-!
# The store on a volume

`apps/hoplockserver/src/volume.rs`. A volume knows only plain file calls: a write is "cut to
nothing, then the bytes", so a power failure can leave half a record. Each record therefore has a
header with the length and the SHA-256 of its body, and every operation reads the record again, in
chunks, and checks it. A record that does not check counts as absent.

`count_keys` and the listing it reads are left out, and so is the want of memory.
-/

namespace Hop.Lock

/-! ### Records -/

/-- The magic of a record, version 1. -/
def magic : Bytes := [72, 76, 75, 49]

/-- The header of a record: the magic, the length of the body and its SHA-256. -/
def header : ℕ := 40

/-- `u32::to_le_bytes`. -/
def toLeBytes (n : ℕ) : Bytes :=
  [UInt8.ofNat n, UInt8.ofNat (n / 256), UInt8.ofNat (n / 256 ^ 2), UInt8.ofNat (n / 256 ^ 3)]

/-- `u32::from_le_bytes`. -/
def fromLeBytes : Bytes → ℕ
  | [] => 0
  | b :: bs => b.toNat + 256 * fromLeBytes bs

/-- Check a record: the object, or none if the record is not right. -/
def openRecord (sha256 : Bytes → Digest) (rec : Bytes) : Option Object :=
  if rec.length < header then none
  else
    let head := rec.take header
    let body := rec.drop header
    if head.take 4 ≠ magic then none
    else if fromLeBytes ((head.drop 4).take 4) ≠ body.length then none
    else if (sha256 body).val ≠ head.drop 8 then none
    else some ⟨body, Etag.fromDigest (sha256 body)⟩

/-- The record of a body, with its ETag. -/
def sealRecord (sha256 : Bytes → Digest) (body : Bytes) : Except Error (Bytes × Etag) :=
  if 2 ^ 32 ≤ body.length then .error (.outOfMemory body.length)
  else
    let sum := sha256 body
    .ok (magic ++ toLeBytes body.length ++ sum.val ++ body, Etag.fromDigest sum)

/-! ### Volumes -/

/-- The file calls that the store needs. -/
class Volume (V : Type) where
  /-- The most that is read in one call. -/
  chunk : ℕ
  /-- The size of a file; `none` if it does not exist. -/
  size : V → (path : String) → Except String (Option ℕ) × V
  /-- Read at most `want` bytes from `off` on; none is the end. -/
  readAt : V → (path : String) → (off want : ℕ) →
    Except String { bs : Bytes // bs.length ≤ want } × V
  /-- Replace the content of a file; parents are made. -/
  replace : V → (path : String) → Bytes → Except String Unit × V
  /-- Remove a file; `false` if it was not there. -/
  remove : V → (path : String) → Except String Bool × V

/-- What is stored under a key. -/
inductive Stored
  | missing
  /-- A record that is not right. -/
  | corrupt
  | valid (obj : Object)
deriving DecidableEq

/-- The ETag that a condition is checked against. -/
def Stored.etag? : Stored → Option Etag
  | .valid obj => some obj.etag
  | .missing | .corrupt => none

/-- The store on a volume, below the directory `root`. -/
structure VolumeStore (V : Type) where
  vol : V
  root : String
  /-- How many damaged records were seen. -/
  corrupt : ℕ
  lastCorrupt : Option Key

namespace VolumeStore

variable {V : Type}

def new (vol : V) (root : String) : VolumeStore V :=
  { vol := vol
    root := String.ofList (root.toList.reverse.dropWhile (· = '/')).reverse
    corrupt := 0
    lastCorrupt := none }

/-- The path of a key on the volume. -/
def path (s : VolumeStore V) (key : Key) : String := s.root ++ "/" ++ key.text

def markCorrupt (s : VolumeStore V) (key : Key) : VolumeStore V :=
  { s with corrupt := satAdd u64Max s.corrupt 1, lastCorrupt := some key }

variable [Volume V]

/-- Read the rest of `len` bytes in chunks; `none` if a read yields nothing before that. Each read
yields a byte at least, so `len` rounds are enough. -/
def readRest (path : String) (len : ℕ) : ℕ → V → Bytes → Except String (Option Bytes) × V
  | 0, v, buf => (.ok (some buf), v)
  | rounds + 1, v, buf =>
    if buf.length < len then
      let want := min len (buf.length + Volume.chunk V) - buf.length
      match Volume.readAt v path buf.length want with
      | (.error e, v) => (.error e, v)
      | (.ok bs, v) => if bs.val = [] then (.ok none, v) else readRest path len rounds v (buf ++ bs.val)
    else (.ok (some buf), v)

/-- Read and check the record at a path. -/
def load (sha256 : Bytes → Digest) (s : VolumeStore V) (key : Key) (path : String) :
    Except Error Stored × VolumeStore V :=
  match Volume.size s.vol path with
  | (.error e, v) => (.error (.io "stat" key.text e), { s with vol := v })
  | (.ok none, v) => (.ok .missing, { s with vol := v })
  | (.ok (some len), v) =>
    let s := { s with vol := v }
    if len < header ∨ header + maxBody < len then (.ok .corrupt, s.markCorrupt key)
    else
      match readRest path len len s.vol [] with
      | (.error e, v) => (.error (.io "read" key.text e), { s with vol := v })
      | (.ok none, v) => (.ok .corrupt, { s with vol := v }.markCorrupt key)
      | (.ok (some buf), v) =>
        let s := { s with vol := v }
        match openRecord sha256 buf with
        | some obj => (.ok (.valid obj), s)
        | none => (.ok .corrupt, s.markCorrupt key)

def get (sha256 : Bytes → Digest) (s : VolumeStore V) (key : Key) :
    Except Error Object × VolumeStore V :=
  match s.load sha256 key (s.path key) with
  | (.error e, s) => (.error e, s)
  | (.ok (.valid obj), s) => (.ok obj, s)
  | (.ok .missing, s) => (.error .notFound, s)
  | (.ok .corrupt, s) => (.error .notFound, s)

/-- Write the record of a body at the path of a key. -/
def write (sha256 : Bytes → Digest) (s : VolumeStore V) (key : Key) (body : Bytes) :
    Except Error Etag × VolumeStore V :=
  match sealRecord sha256 body with
  | .error e => (.error e, s)
  | .ok (rec, etag) =>
    match Volume.replace s.vol (s.path key) rec with
    | (.error e, v) => (.error (.io "write" key.text e), { s with vol := v })
    | (.ok (), v) => (.ok etag, { s with vol := v })

def putIf (sha256 : Bytes → Digest) (s : VolumeStore V) (key : Key) (body : Bytes)
    (cond : Condition) : Except Error Etag × VolumeStore V :=
  match s.load sha256 key (s.path key) with
  | (.error e, s) => (.error e, s)
  | (.ok stored, s) =>
    match checkPut stored.etag? cond with
    | .error e => (.error e, s)
    | .ok () => s.write sha256 key body

/-- Remove the file of a key. -/
def unlink (s : VolumeStore V) (key : Key) : Except Error Unit × VolumeStore V :=
  match Volume.remove s.vol (s.path key) with
  | (.error e, v) => (.error (.io "remove" key.text e), { s with vol := v })
  | (.ok _, v) => (.ok (), { s with vol := v })

def delete (sha256 : Bytes → Digest) (s : VolumeStore V) (key : Key) (cond : Condition) :
    Except Error Unit × VolumeStore V :=
  match s.load sha256 key (s.path key) with
  | (.error e, s) => (.error e, s)
  | (.ok .missing, s) => (.error .notFound, s)
  -- A damaged record has no ETag that an `If-Match` can hit; without a condition it may go.
  | (.ok .corrupt, s) => if cond.ifMatch ≠ "" then (.error .precondition, s) else s.unlink key
  | (.ok (.valid obj), s) =>
    match checkDelete obj.etag cond with
    | .error e => (.error e, s)
    | .ok () => s.unlink key

/-- The operations of the store on a volume. -/
def store (sha256 : Bytes → Digest) : Store (VolumeStore V) where
  get := get sha256
  putIf := putIf sha256
  delete := delete sha256

end VolumeStore

/-! ### What a record is worth -/

variable {sha256 : Bytes → Digest} {body : Bytes}

/-- The bytes of the record of a body. -/
def record (sha256 : Bytes → Digest) (body : Bytes) : Bytes :=
  magic ++ toLeBytes body.length ++ (sha256 body).val ++ body

theorem fromLeBytes_toLeBytes {n : ℕ} (h : n < 2 ^ 32) : fromLeBytes (toLeBytes n) = n := by
  simp only [toLeBytes, fromLeBytes, UInt8.toNat_ofNat']
  omega

theorem length_record : (record sha256 body).length = header + body.length := by
  simp only [record, magic, toLeBytes, List.length_append, List.length_cons, List.length_nil,
    (sha256 body).property, header]

theorem sealRecord_eq (h : body.length < 2 ^ 32) :
    sealRecord sha256 body = .ok (record sha256 body, Etag.of sha256 body) := by
  rw [sealRecord, if_neg (by omega)]
  rfl

/-- The parts of a record of which at least the header is left. -/
theorem take_record {n : ℕ} (h : header ≤ n) :
    (record sha256 body).take n =
      magic ++ toLeBytes body.length ++ (sha256 body).val ++ body.take (n - header) := by
  have hlen : (magic ++ toLeBytes body.length ++ (sha256 body).val).length = header := by
    simp [magic, toLeBytes, header, (sha256 body).property]
  rw [record, List.take_append, hlen, List.take_of_length_le (by omega)]

/-- A record that is whole is read back, whatever is left of the body decides. -/
theorem openRecord_parts (rest : Bytes) :
    openRecord sha256 (magic ++ toLeBytes body.length ++ (sha256 body).val ++ rest) =
      if fromLeBytes (toLeBytes body.length) ≠ rest.length then none
      else if (sha256 rest).val ≠ (sha256 body).val then none
      else some ⟨rest, Etag.fromDigest (sha256 rest)⟩ := by
  have hsum := (sha256 body).property
  have hlen : (magic ++ toLeBytes body.length ++ (sha256 body).val).length = header := by
    simp [magic, toLeBytes, header, hsum]
  have hhead : (magic ++ toLeBytes body.length ++ (sha256 body).val ++ rest).take header =
      magic ++ toLeBytes body.length ++ (sha256 body).val := by
    rw [← hlen, List.take_left']
    rfl
  have hbody : (magic ++ toLeBytes body.length ++ (sha256 body).val ++ rest).drop header = rest := by
    rw [← hlen, List.drop_left']
    rfl
  have hnot : ¬ (magic ++ toLeBytes body.length ++ (sha256 body).val ++ rest).length < header := by
    rw [List.length_append, hlen]
    omega
  unfold openRecord
  rw [if_neg hnot]
  simp only [hhead, hbody]
  simp [magic, toLeBytes]

/-- The record of a body is right. -/
theorem openRecord_record (h : body.length < 2 ^ 32) :
    openRecord sha256 (record sha256 body) = some ⟨body, Etag.of sha256 body⟩ := by
  rw [record, openRecord_parts, fromLeBytes_toLeBytes h]
  simp [Etag.of]

/-- A record that is cut is not, wherever it is cut. -/
theorem openRecord_take {n : ℕ} (h : body.length < 2 ^ 32) (hn : n < header + body.length) :
    openRecord sha256 ((record sha256 body).take n) = none := by
  by_cases hhead : n < header
  · rw [openRecord, if_pos]
    rw [List.length_take]
    omega
  · rw [take_record (by omega), openRecord_parts, fromLeBytes_toLeBytes h, if_pos]
    rw [List.length_take]
    omega

end Hop.Lock
