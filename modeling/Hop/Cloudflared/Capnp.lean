import Hop.Lib.Endian
import Hop.Lib.Slice
import Hop.Types.Prim

/-!
# Cap'n Proto messages of one segment

`apps/cloudflared-lean/src/capnp.rs`. A slice of bytes is a list; what is longer than `isize::MAX`
is no slice, so the sums of the builder do not overflow. The reader is for any segment: its sums are
checked (`Fault.overflow` is the panic of an overflow).
-/

namespace Hop.Cloudflared.Capnp

/-- `MAX_MESSAGE_WORDS`. -/
def maxMessageWords : ℕ := 2 ^ 16

/-- `MAX_SEGMENTS`. -/
def maxSegments : ℕ := 512

/-- `ELEM_BYTE`: one byte for each element (texts and data). -/
def elemByte : ℕ := 2

/-- `ELEM_POINTER`: one pointer for each element. -/
def elemPointer : ℕ := 6

/-- Why building or reading failed. -/
inductive Error
  | full (need : ℕ)
  | pointerIndex
  | outOfBounds
  | pointerType (kind : ℕ)
  | elementType (kind : ℕ)
  | utf8
  | tooLarge (words : ℕ)
  | empty
deriving DecidableEq

/-- `slice.get(start..end)`. -/
def get (b : Bytes) (start e : ℕ) : Option Bytes :=
  if start ≤ e ∧ e ≤ b.length then some (slice b start (e - start)) else none

/-! ### The builder -/

/-- A struct in the making: where its data begins in the segment, and how large it is. -/
structure Struct where
  data : ℕ
  dataWords : ℕ
  ptrWords : ℕ
deriving DecidableEq

/-- `TABLE`: the length of the table of one segment. -/
def table : ℕ := 8

/-- The builder: a buffer whose first eight bytes are for the table, how many bytes of the segment
are in use, and the first error. -/
structure Builder where
  buf : Bytes
  len : ℕ := 0
  err : Option Error := none
deriving DecidableEq

/-- Zeros. -/
def zeros (n : ℕ) : Bytes := List.replicate n 0

namespace Builder

/-- Remembers the first error. -/
def fail (b : Builder) (e : Error) : Builder := { b with err := b.err.or (some e) }

/-- Takes `bytes` bytes, all zero; none if the buffer is full. -/
def alloc (b : Builder) (bytes : ℕ) : Option ℕ × Builder :=
  if table + (b.len + bytes) ≤ b.buf.length then
    (some b.len,
      { b with buf := overwrite b.buf (table + b.len) (zeros bytes), len := b.len + bytes })
  else (none, b.fail (.full (table + (b.len + bytes))))

/-- Writes at an offset of the segment, if that is in the buffer. -/
def write (b : Builder) (at' : ℕ) (v : Bytes) : Builder :=
  if table + at' + v.length ≤ b.buf.length then
    { b with buf := overwrite b.buf (table + at') v }
  else b.fail .outOfBounds

/-- Writes a word. -/
def put (b : Builder) (at' v : ℕ) : Builder := b.write at' (leBytes 8 v)

/-- The offset in words of a pointer at `at'` to `target`, at its place in the lower 32 bits. -/
def offset (at' target : ℕ) : ℕ := (((target - (at' + 8)) / 8) <<< 2) &&& 0xfffffffc

/-- The word of a pointer to a struct. -/
def structWord (at' : ℕ) (s : Struct) : ℕ :=
  offset at' s.data ||| s.dataWords <<< 32 ||| s.ptrWords <<< 48

def structPtr (b : Builder) (at' : ℕ) (s : Struct) : Builder := b.put at' (structWord at' s)

/-- The word of a pointer to a list; what does not fit into the 64 bits is shifted out. -/
def listWord (at' target elem count : ℕ) : ℕ :=
  1 ||| offset at' target ||| elem <<< 32 ||| (count <<< 35) % 2 ^ 64

def listPtr (b : Builder) (at' target elem count : ℕ) : Builder :=
  b.put at' (listWord at' target elem count)

/-- Takes the room for a struct. -/
def newBare (b : Builder) (dataWords ptrWords : ℕ) : Struct × Builder :=
  let (data, b) := b.alloc ((dataWords + ptrWords) * 8)
  (⟨data.getD 0, dataWords, ptrWords⟩, b)

/-- The root struct; its pointer is word 0. -/
def root (b : Builder) (dataWords ptrWords : ℕ) : Struct × Builder :=
  let (_, b) := b.alloc 8
  let (s, b) := b.newBare dataWords ptrWords
  (s, b.structPtr 0 s)

/-- The offset of a pointer of a struct. -/
def ptrAt (b : Builder) (s : Struct) (i : ℕ) : Option ℕ × Builder :=
  if s.ptrWords ≤ i then (none, b.fail .pointerIndex)
  else (some (s.data + s.dataWords * 8 + i * 8), b)

/-- A new struct behind a pointer of another. -/
def newStruct (b : Builder) (s : Struct) (i dataWords ptrWords : ℕ) : Struct × Builder :=
  let (child, b) := b.newBare dataWords ptrWords
  let (at', b) := b.ptrAt s i
  (child, match at' with
    | some at' => b.structPtr at' child
    | none => b)

/-- Writes into the data of a struct. -/
def setBytes (b : Builder) (s : Struct) (off : ℕ) (v : Bytes) : Builder :=
  if s.dataWords * 8 < off + v.length then b.fail .outOfBounds
  else b.write (s.data + off) v

def setU8 (b : Builder) (s : Struct) (off : ℕ) (v : UInt8) : Builder := b.setBytes s off [v]

def setU16 (b : Builder) (s : Struct) (off : ℕ) (v : UInt16) : Builder :=
  b.setBytes s off (leBytes 2 v.toNat)

def setU32 (b : Builder) (s : Struct) (off : ℕ) (v : UInt32) : Builder :=
  b.setBytes s off (leBytes 4 v.toNat)

def setU64 (b : Builder) (s : Struct) (off : ℕ) (v : UInt64) : Builder :=
  b.setBytes s off (leBytes 8 v.toNat)

/-- The bit of a `Bool` in its byte. -/
def bitMask (bit : ℕ) : UInt8 := 1 <<< UInt8.ofNat (bit % 8)

/-- A `Bool` at an offset in bits; `false` writes nothing. -/
def setBool (b : Builder) (s : Struct) (bit : ℕ) (v : Bool) : Builder :=
  if v = false then b
  else if s.dataWords * 8 ≤ bit / 8 then b.fail .outOfBounds
  else
    match b.buf[table + s.data + bit / 8]? with
    | some x => { b with buf := b.buf.set (table + s.data + bit / 8) (x ||| bitMask bit) }
    | none => b.fail .outOfBounds

/-- The bytes and `nul` zeros as a list of bytes, padded to words: its offset and its count. -/
def bytes (b : Builder) (raw : Bytes) (nul : ℕ) : Option (ℕ × ℕ) × Builder :=
  match b.alloc ((raw.length + nul + 7) / 8 * 8) with
  | (none, b) => (none, b)
  | (some start, b) =>
    if table + start + raw.length ≤ b.buf.length then
      (some (start, raw.length + nul), { b with buf := overwrite b.buf (table + start) raw })
    else (none, b)

/-- What texts and data have in common. -/
def setListBytes (b : Builder) (s : Struct) (i : ℕ) (v : Bytes) (nul : ℕ) : Builder :=
  match b.ptrAt s i with
  | (none, b) => b
  | (some at', b) =>
    match b.bytes v nul with
    | (none, b) => b
    | (some (start, n), b) => b.listPtr at' start elemByte n

/-- A text, with a zero behind it. -/
def setText (b : Builder) (s : Struct) (i : ℕ) (v : String) : Builder :=
  b.setListBytes s i (utf8 v) 1

/-- Plain bytes. -/
def setData (b : Builder) (s : Struct) (i : ℕ) (v : Bytes) : Builder := b.setListBytes s i v 0

/-- The texts of a list; the pointer of the first is at `at'`. -/
def setTexts (b : Builder) (at' : ℕ) : List String → Builder
  | [] => b
  | v :: vs =>
    let b := match b.bytes (utf8 v) 1 with
      | (some (text, len), b) => b.listPtr at' text elemByte len
      | (none, b) => b
    setTexts b (at' + 8) vs

/-- A list of texts. -/
def setTextList (b : Builder) (s : Struct) (i : ℕ) (values : List String) : Builder :=
  match b.ptrAt s i with
  | (none, b) => b
  | (some at', b) =>
    match b.alloc (values.length * 8) with
    | (none, b) => b
    | (some start, b) =>
      (b.listPtr at' start elemPointer values.length).setTexts start values

/-- An empty list of pointers. -/
def setEmptyList (b : Builder) (s : Struct) (i : ℕ) : Builder :=
  match b.ptrAt s i with
  | (some at', b) => b.put at' (1 ||| elemPointer <<< 32)
  | (none, b) => b

/-- The whole message: the table, then the segment. -/
def finish (b : Builder) : Except Error Bytes :=
  match b.err with
  | some e => .error e
  | none =>
    if 2 ^ 32 ≤ b.len / 8 then .error (.tooLarge (b.len / 8))
    else if b.buf.length < table then .error (.full table)
    else
      -- One segment: the count less one.
      let buf := overwrite b.buf 0 (leBytes 4 0 ++ leBytes 4 (b.len / 8))
      match get buf 0 (table + b.len) with
      | some msg => .ok msg
      | none => .error .outOfBounds

end Builder

/-! ### The table -/

/-- How many segments a message has, by the first four bytes of its table. -/
def segmentCount (first : Bytes) : Except Error ℕ :=
  let n := (ofLe first + 1) % 2 ^ 32
  if n = 0 ∨ maxSegments < n then .error (.tooLarge n) else .ok n

/-- How many bytes of the table there are still behind the first four. -/
def tableRest (n : ℕ) : ℕ := (4 + 4 * n + 7) / 8 * 8 - 4

/-- The sum of the sizes of `n` segments, from the size number `i` on. -/
def sumWords (rest : Bytes) (i : ℕ) : ℕ → Except Error ℕ
  | 0 => .ok 0
  | n + 1 =>
    match get rest (i * 4) (i * 4 + 4) with
    | none => .error .outOfBounds
    | some b =>
      match sumWords rest (i + 1) n with
      | .error e => .error e
      | .ok words => .ok (ofLe b + words)

/-- The length of the segments in bytes, by the rest of the table. -/
def bodyLen (rest : Bytes) (n : ℕ) : Except Error ℕ :=
  match sumWords rest 0 n with
  | .error e => .error e
  | .ok words =>
    if words = 0 then .error .empty
    else if maxMessageWords < words then .error (.tooLarge words)
    else .ok (words * 8)

/-! ### The reader -/

/-- What ends a reading: an error, or the panic of an overflow. -/
inductive Fault
  | overflow
  | error (e : Error)
deriving DecidableEq

/-- A computation of the reader. -/
abbrev Checked (α : Type) : Type := Except Fault α

/-- A sum or a product that must be a `usize`. -/
def usize (n : ℕ) : Checked Unit := if n ≤ u64Max then .ok () else .error .overflow

/-- One that must be an `i64`. -/
def int64 (x : ℤ) : Checked Unit := if i64Min ≤ x ∧ x ≤ i64Max then .ok () else .error .overflow

def refuse {α : Type} (e : Error) : Checked α := .error (.error e)

/-- A struct that was read: the segment, and where its data and its pointers are in it. A null
pointer is a struct of which each field reads as its default. -/
structure View where
  seg : Bytes
  data : ℕ
  dataWords : ℕ
  ptrWords : ℕ
  null : Bool
  inside : null = false → data + (dataWords + ptrWords) * 8 ≤ seg.length

/-- The word at `at'`. -/
def word (seg : Bytes) (at' : ℕ) : Checked ℕ := do
  usize (at' + 8)
  match get seg at' (at' + 8) with
  | none => refuse .outOfBounds
  | some b => pure (ofLe b)

/-- `p as u32 as i32 >> 2`: the offset of a pointer in words, with its sign. -/
def signedOffset (p : ℕ) : ℤ :=
  (if p % 2 ^ 32 < 2 ^ 31 then (p % 2 ^ 32 : ℕ) else (p % 2 ^ 32 : ℕ) - 2 ^ 32 : ℤ) / 4

/-- Where the pointer at `at'` leads. -/
def target (at' p : ℕ) : Checked ℕ := do
  let off := signedOffset p
  usize (at' + 8)
  if i64Max < (at' + 8 : ℕ) then refuse .outOfBounds
  else do
    int64 (off * 8)
    int64 ((at' + 8 : ℕ) + off * 8)
    if (at' + 8 : ℕ) + off * 8 < 0 then refuse .outOfBounds
    else pure ((at' + 8 : ℕ) + off * 8).toNat

namespace View

/-- The empty struct. -/
def empty (seg : Bytes) : View := ⟨seg, 0, 0, 0, true, nofun⟩

/-- Follows the struct pointer at `at'`. -/
def follow (seg : Bytes) (at' : ℕ) : Checked View := do
  let p ← word seg at'
  if p = 0 then pure (empty seg)
  else if p &&& 3 ≠ 0 then refuse (.pointerType (p &&& 3))
  else do
    let dataWords := p >>> 32 % 2 ^ 16
    let ptrWords := p >>> 48 % 2 ^ 16
    let data ← Capnp.target at' p
    usize ((dataWords + ptrWords) * 8)
    usize (data + (dataWords + ptrWords) * 8)
    if h : seg.length < data + (dataWords + ptrWords) * 8 then refuse .outOfBounds
    else pure ⟨seg, data, dataWords, ptrWords, false, fun _ => Nat.not_lt.mp h⟩

/-- The root struct of a segment. -/
def root (seg : Bytes) : Checked View := follow seg 0

variable (v : View)

def isNull : Bool := v.null

/-- The `n` bytes at `off` of the data; zeros where the data ends before. -/
def field (n off : ℕ) : Checked Bytes :=
  if v.null then pure (zeros n)
  else do
    usize (off + n)
    usize (v.dataWords * 8)
    if off + n ≤ v.dataWords * 8 then do
      usize (v.data + off + n)
      pure ((get v.seg (v.data + off) (v.data + off + n)).getD (zeros n))
    else pure (zeros n)

def u16 (off : ℕ) : Checked ℕ := return ofLe (← v.field 2 off)

def u32 (off : ℕ) : Checked ℕ := return ofLe (← v.field 4 off)

def i64 (off : ℕ) : Checked ℤ := do
  let n := ofLe (← v.field 8 off)
  return if n < 2 ^ 63 then n else (n : ℤ) - 2 ^ 64

def bool (bit : ℕ) : Checked Bool := do
  let b ← v.field 1 (bit / 8)
  return b.headD 0 &&& Builder.bitMask bit != 0

/-- Where the pointer number `i` is. -/
def ptr (i : ℕ) : Checked (Option ℕ) :=
  if v.null = false ∧ i < v.ptrWords then do
    usize (v.data + v.dataWords * 8)
    usize (v.data + v.dataWords * 8 + i * 8)
    pure (some (v.data + v.dataWords * 8 + i * 8))
  else pure none

/-- Follows a pointer to a struct. -/
def structAt (i : ℕ) : Checked View := do
  match ← v.ptr i with
  | some at' => follow v.seg at'
  | none => pure (empty v.seg)

/-- Plain bytes behind a pointer. -/
def dataAt (i : ℕ) : Checked Bytes := do
  match ← v.ptr i with
  | none => pure []
  | some at' =>
    let p ← word v.seg at'
    if p = 0 then pure []
    else if p &&& 3 ≠ 1 then refuse (.pointerType (p &&& 3))
    else if p >>> 32 &&& 7 ≠ elemByte then refuse (.elementType (p >>> 32 &&& 7))
    else do
      let n := p >>> 35
      let start ← Capnp.target at' p
      -- `checked_add`
      if u64Max < start + n then refuse .outOfBounds
      else
        match get v.seg start (start + n) with
        | none => refuse .outOfBounds
        | some b => pure b

/-- A text behind a pointer, without the zero behind it. -/
def textAt (i : ℕ) : Checked String := do
  let raw ← v.dataAt i
  let raw := if raw.getLast? = some 0 then raw.dropLast else raw
  match fromUtf8 raw with
  | none => refuse .utf8
  | some s => pure s

end View

/-! ### The words of pointers -/

namespace Builder

/-- How many words a pointer skips. -/
def skips (at' target : ℕ) : ℕ := (target - (at' + 8)) / 8

theorem offset_eq (at' target : ℕ) : offset at' target = skips at' target % 2 ^ 30 * 4 := by
  have hmask : 0xfffffffc = (2 ^ 30 - 1) <<< 2 := rfl
  rw [offset, hmask, ← Nat.shiftLeft_and_distrib, Nat.and_two_pow_sub_one_eq_mod, Nat.shiftLeft_eq]
  rfl

theorem offset_lt (at' target : ℕ) : offset at' target < 2 ^ 32 := by
  have hlt := Nat.mod_lt (skips at' target) (Nat.two_pow_pos 30)
  rw [offset_eq]
  omega

theorem structWord_eq {at' : ℕ} {s : Struct} (hdata : s.dataWords < 2 ^ 16) :
    structWord at' s =
      skips at' s.data % 2 ^ 30 * 4 + s.dataWords * 2 ^ 32 + s.ptrWords * 2 ^ 48 := by
  have hoff := offset_lt at' s.data
  have hlow : s.dataWords <<< 32 ||| offset at' s.data = s.dataWords * 2 ^ 32 + offset at' s.data := by
    rw [← Nat.shiftLeft_add_eq_or_of_lt hoff, Nat.shiftLeft_eq]
  have hlt : s.dataWords * 2 ^ 32 + offset at' s.data < 2 ^ 48 := by omega
  rw [structWord, Nat.or_comm (offset at' s.data), hlow, Nat.or_comm,
    ← Nat.shiftLeft_add_eq_or_of_lt hlt, Nat.shiftLeft_eq, offset_eq]
  omega

theorem listWord_eq {elem : ℕ} (at' target count : ℕ) (helem : elem < 8) :
    listWord at' target elem count =
      1 + skips at' target % 2 ^ 30 * 4 + elem * 2 ^ 32 + count % 2 ^ 29 * 2 ^ 35 := by
  have hoff := offset_lt at' target
  have hone : 1 ||| offset at' target = 1 + offset at' target := by
    have hshift : offset at' target = (skips at' target % 2 ^ 30) <<< 2 := by
      rw [offset_eq, Nat.shiftLeft_eq]
    rw [hshift, Nat.or_comm, ← Nat.shiftLeft_add_eq_or_of_lt (by decide), Nat.add_comm]
  have hmod := Nat.mod_lt (skips at' target) (Nat.two_pow_pos 30)
  have hlow : 1 + offset at' target < 2 ^ 32 := by
    rw [offset_eq]
    omega
  have hcount : (count <<< 35) % 2 ^ 64 = (count % 2 ^ 29) <<< 35 := by
    rw [Nat.shiftLeft_eq, Nat.shiftLeft_eq, show 2 ^ 64 = 2 ^ 29 * 2 ^ 35 from rfl,
      Nat.mul_mod_mul_right]
  have hmid : elem * 2 ^ 32 + (1 + offset at' target) < 2 ^ 35 := by omega
  rw [listWord, hone, Nat.or_comm (1 + offset at' target), ← Nat.shiftLeft_add_eq_or_of_lt hlow,
    Nat.shiftLeft_eq, hcount, Nat.or_comm, ← Nat.shiftLeft_add_eq_or_of_lt hmid, Nat.shiftLeft_eq,
    offset_eq]
  omega

theorem structWord_lt {at' : ℕ} {s : Struct} (hdata : s.dataWords < 2 ^ 16)
    (hptr : s.ptrWords < 2 ^ 16) : structWord at' s < 256 ^ 8 := by
  have hmod := Nat.mod_lt (skips at' s.data) (Nat.two_pow_pos 30)
  have hpow : 256 ^ 8 = 2 ^ 64 := rfl
  rw [structWord_eq hdata, hpow]
  omega

theorem listWord_lt {elem : ℕ} (at' target count : ℕ) (helem : elem < 8) :
    listWord at' target elem count < 256 ^ 8 := by
  have hmod := Nat.mod_lt (skips at' target) (Nat.two_pow_pos 30)
  have hcount := Nat.mod_lt count (Nat.two_pow_pos 29)
  have hpow : 256 ^ 8 = 2 ^ 64 := rfl
  rw [listWord_eq at' target count helem, hpow]
  omega

end Builder

end Hop.Cloudflared.Capnp
