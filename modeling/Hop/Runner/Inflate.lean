import Hop.Runner.BitReader

/-!
# Inflate

`runner/src/host/extract/inflate.rs`, `Huffman` and `Inflate`: a decoder that gives out as many bytes
as it is asked for and goes on where it stopped, with the last 32 KiB in a ring. Each turn of its
loop lowers a number (`Decoder.left`) by what it gives out and by at least one (`next_eq_some`), so
it ends (`readTurn_descends`).
-/

namespace Hop.Runner.Extract

open Act

/-! ### Huffman codes -/

/-- The longest code. -/
def maxBits : ℕ := 15

/-- A canonical code: how many codes there are of each length, and their symbols in order. -/
structure Huffman where
  count : List ℕ
  symbol : List ℕ
deriving DecidableEq

namespace Huffman

/-- What is left of the codes of one length more, with `c` of them taken. -/
def takeCodes (left c : ℕ) : Except String ℕ :=
  if left * 2 < c then .error (corrupt "over-subscribed huffman code") else .ok (left * 2 - c)

/-- Where the symbols of each length begin. -/
def offsets (count : List ℕ) : List ℕ :=
  (List.range (maxBits + 1)).map fun len => ((count.take len).drop 1).sum

/-- Put a symbol behind those of its length. -/
def place (p : List ℕ × List ℕ) (sym : ℕ × ℕ) : List ℕ × List ℕ :=
  if sym.1 = 0 then p
  else
    match p.1[sym.1]? with
    | none => p
    | some o => (p.1.set sym.1 (o + 1), p.2.set o sym.2)

/-- The code with these lengths. A code may be incomplete. -/
def new (lengths : List ℕ) : Except String Huffman := do
  let count := (List.range (maxBits + 1)).map fun len => lengths.count len
  let _ ← count.tail.foldlM takeCodes 1
  let sorted := lengths.zipIdx.foldl place (offsets count, List.replicate lengths.length 0)
  .ok { count, symbol := sorted.2 }

variable {σ : Type} (R : Reader σ)

/-- Bit by bit: `first` is the first code of this length, and `index` where its symbol stands. -/
def decodeFrom (symbol : List ℕ) : List ℕ → ℕ → ℕ → ℕ → Act (BitReader σ) String ℕ
  | [], _, _, _ => throw (corrupt "invalid huffman code")
  | count :: rest, code, first, index => do
    let bit ← BitReader.takeBits R 1
    let code := code ||| bit
    if code < first + count then
      match if first ≤ code then symbol[index + (code - first)]? else none with
      | some sym => pure sym
      | none => throw (corrupt "huffman symbol out of range")
    else decodeFrom symbol rest (code * 2) ((first + count) * 2) (index + count)

/-- One symbol. -/
def decode (h : Huffman) : Act (BitReader σ) String ℕ :=
  decodeFrom R h.symbol h.count.tail 0 0 0

end Huffman

/-! ### The decoder -/

/-- The window of deflate. -/
def wsize : ℕ := 32 * 2 ^ 10

def maxDCodes : ℕ := 32

def lenBase : List ℕ :=
  [3, 4, 5, 6, 7, 8, 9, 10, 11, 13, 15, 17, 19, 23, 27, 31, 35, 43, 51, 59, 67, 83, 99, 115, 131,
    163, 195, 227, 258]

def lenExtra : List ℕ :=
  [0, 0, 0, 0, 0, 0, 0, 0, 1, 1, 1, 1, 2, 2, 2, 2, 3, 3, 3, 3, 4, 4, 4, 4, 5, 5, 5, 5, 0]

def distBase : List ℕ :=
  [1, 2, 3, 4, 5, 7, 9, 13, 17, 25, 33, 49, 65, 97, 129, 193, 257, 385, 513, 769, 1025, 1537, 2049,
    3073, 4097, 6145, 8193, 12289, 16385, 24577]

def distExtra : List ℕ :=
  [0, 0, 0, 0, 1, 1, 2, 2, 3, 3, 4, 4, 5, 5, 6, 6, 7, 7, 8, 8, 9, 9, 10, 10, 11, 11, 12, 12, 13, 13]

/-- The order of the lengths of the codes for lengths. -/
def clOrder : List ℕ := [16, 17, 18, 0, 8, 7, 9, 6, 10, 5, 11, 4, 12, 3, 13, 2, 14, 1, 15]

/-- Where the decoder stands. -/
inductive State
  /-- Before the header of a block. -/
  | header
  /-- In a stored block, with so many bytes left. -/
  | stored (left : ℕ)
  /-- In a block of codes. -/
  | codes
  /-- Behind the last block. -/
  | done
deriving DecidableEq

structure Inflate where
  state : State := .header
  last : Bool := false
  window : List UInt8 := List.replicate wsize 0
  wpos : ℕ := 0
  /-- How many bytes were given out; it stops at the highest `usize`. -/
  total : ℕ := 0
  copyLen : ℕ := 0
  copyDist : ℕ := 0
  lit : Huffman := ⟨List.replicate (maxBits + 1) 0, []⟩
  dist : Huffman := ⟨List.replicate (maxBits + 1) 0, []⟩

/-- The bits, and what is made of them. -/
abbrev Decoder (σ : Type) : Type := BitReader σ × Inflate

namespace Inflate

/-- Whether the last block was read. -/
def isDone (z : Inflate) : Bool := z.state = .done ∧ z.copyLen = 0

/-- A byte into the window. -/
def emit (b : UInt8) (z : Inflate) : Inflate :=
  { z with
    window := z.window.set z.wpos b
    wpos := (z.wpos + 1) % wsize
    total := min (z.total + 1) (2 ^ 64 - 1) }

/-- The byte that the pending copy comes to. -/
def copied (z : Inflate) : UInt8 := (z.window[(z.wpos + wsize - z.copyDist) % wsize]?).getD 0

variable {σ : Type} (R : Reader σ)

/-- `n` bits. -/
def takeBits (n : ℕ) : Act (Decoder σ) String ℕ := onFst (BitReader.takeBits R n)

/-- A change of the decoder. -/
def change (f : Inflate → Inflate) : Act (Decoder σ) String Unit := onSnd fun _ => modify f

theorem change_apply (f : Inflate → Inflate) (d : Decoder σ) :
    change f d = .ok () (d.1, f d.2) := rfl

/-- One symbol of a block of codes with these tables: what is given out for it. -/
def symbolOf (z : Inflate) : Act (Decoder σ) String Bytes := do
  let sym ← onFst (z.lit.decode R)
  if sym < 256 then do
    change (emit (UInt8.ofNat sym))
    pure [UInt8.ofNat sym]
  else if sym = 256 then do
    change fun z => { z with state := .header }
    pure []
  else
    match lenBase[sym - 257]?, lenExtra[sym - 257]? with
    | some base, some extra => do
      let e ← takeBits R extra
      let len := base + e
      let d ← onFst (z.dist.decode R)
      match distBase[d]?, distExtra[d]? with
      | some base, some extra => do
        let e ← takeBits R extra
        let dist := base + e
        if z.total < dist then throw (corrupt "distance too far back")
        else do
          change fun z => { z with copyLen := len, copyDist := dist }
          pure []
      | _, _ => throw (corrupt "invalid distance symbol")
    | _, _ => throw (corrupt "invalid length symbol")

/-- One symbol. -/
def symbol : Act (Decoder σ) String Bytes := do
  let (_, z) ← get
  symbolOf R z

/-- The lengths of the fixed code. -/
def fixedLengths : List ℕ :=
  List.replicate 144 8 ++ List.replicate 112 9 ++ List.replicate 24 7 ++ List.replicate 8 8

/-- New tables, one after the other. -/
def setTables (lit dist : List ℕ) : Act (Decoder σ) String Unit := do
  let h ← fromExcept (Huffman.new lit)
  change fun z => { z with lit := h }
  let h ← fromExcept (Huffman.new dist)
  change fun z => { z with dist := h }

/-- The tables of a fixed block. -/
def fixed : Act (Decoder σ) String Unit :=
  setTables fixedLengths (List.replicate maxDCodes 5)

/-- The lengths of the codes for lengths, in their order. -/
def readCl : List ℕ → List ℕ → Act (Decoder σ) String (List ℕ)
  | cl, [] => pure cl
  | cl, i :: order => do
    let l ← takeBits R 3
    readCl (cl.set i l) order

/-- What a symbol above the lengths repeats, and how often. -/
def repetition (lengths : List ℕ) (sym : ℕ) : Act (Decoder σ) String (ℕ × ℕ) :=
  if sym = 16 then
    match lengths.getLast? with
    | none => throw (corrupt "repeat with no previous length")
    | some prev => do
      let n ← takeBits R 2
      pure (prev, 3 + n)
  else if sym = 17 then do
    let n ← takeBits R 3
    pure (0, 3 + n)
  else do
    let n ← takeBits R 7
    pure (0, 11 + n)

/-- One length, or several that are equal, until there are `total`. -/
def lengthsTurn (clcode : Huffman) (total : ℕ) (lengths : List ℕ) :
    Act (Decoder σ) String (Turn (List ℕ) (List ℕ)) :=
  if total ≤ lengths.length then pure (.done lengths)
  else do
    let sym ← onFst (clcode.decode R)
    if sym < 16 then pure (.more (lengths ++ [sym]))
    else do
      let r ← repetition R lengths sym
      if total < lengths.length + r.2 then throw (corrupt "too many code lengths")
      else pure (.more (lengths ++ List.replicate r.2 r.1))

/-- A repetition is for at least three lengths. -/
theorem repetition_pos {lengths : List ℕ} {sym : ℕ} {d d' : Decoder σ} {r : ℕ × ℕ}
    (h : repetition R lengths sym d = .ok r d') : 3 ≤ r.2 := by
  rw [repetition] at h
  split_ifs at h with h16 h17
  · rcases hprev : lengths.getLast? with - | prev
    · rw [hprev] at h
      cases h
    · rw [hprev] at h
      obtain ⟨n, mid, -, h⟩ := Act.bind_eq_ok h
      cases h
      exact Nat.le_add_right 3 n
  · obtain ⟨n, mid, -, h⟩ := Act.bind_eq_ok h
    cases h
    exact Nat.le_add_right 3 n
  · obtain ⟨n, mid, -, h⟩ := Act.bind_eq_ok h
    cases h
    change 3 ≤ 11 + n
    omega

/-- A turn that goes on adds lengths, and not more than there are to be. -/
theorem lengthsTurn_eq_more {clcode : Huffman} {total : ℕ} {lengths lengths' : List ℕ}
    {d d' : Decoder σ} (h : lengthsTurn R clcode total lengths d = .ok (.more lengths') d') :
    lengths.length < lengths'.length ∧ lengths'.length ≤ total := by
  rw [lengthsTurn] at h
  split_ifs at h with hdone
  · cases h
  · obtain ⟨sym, mid, -, h⟩ := Act.bind_eq_ok h
    split_ifs at h with hsym
    · cases h
      simp only [List.length_append, List.length_singleton]
      omega
    · obtain ⟨r, mid', hr, h⟩ := Act.bind_eq_ok h
      have hthree := repetition_pos R hr
      split_ifs at h with hmany
      · cases h
      · cases h
        simp only [List.length_append, List.length_replicate]
        omega

theorem lengthsTurn_descends (clcode : Huffman) (total : ℕ) :
    Descends (fun lengths _ => total - lengths.length) (lengthsTurn R clcode total) := by
  intro lengths d lengths' d' h
  obtain ⟨hlt, hle⟩ := lengthsTurn_eq_more R h
  change total - lengths'.length < total - lengths.length
  omega

/-- The lengths of both codes of a dynamic block. -/
def readLengths (clcode : Huffman) (total : ℕ) : Act (Decoder σ) String (List ℕ) :=
  loop (fun lengths _ => total - lengths.length) (lengthsTurn R clcode total)
    (lengthsTurn_descends R clcode total) []

/-- The tables of a dynamic block. -/
def dynamic : Act (Decoder σ) String Unit := do
  let nlen := (← takeBits R 5) + 257
  let ndist := (← takeBits R 5) + 1
  let ncode := (← takeBits R 4) + 4
  if 286 < nlen ∨ 30 < ndist then throw (corrupt "too many length or distance codes")
  else
    let cl ← readCl R (List.replicate 19 0) (clOrder.take ncode)
    let clcode ← fromExcept (Huffman.new cl)
    let total := nlen + ndist
    let lengths ← readLengths R clcode total
    if (lengths[256]?).getD 0 = 0 then throw (corrupt "no end-of-block code")
    else setTables (lengths.take nlen) (lengths.drop nlen)

/-- The header of a block. -/
def blockHeader : Act (Decoder σ) String Unit := do
  let bit ← takeBits R 1
  change fun z => { z with last := bit = 1 }
  let kind ← takeBits R 2
  if kind = 0 then do
    onFst BitReader.align
    let len ← takeBits R 16
    let nlen ← takeBits R 16
    if len ≠ 0xffff - nlen then
      throw (corrupt "stored block length does not match its complement")
    else change fun z => { z with state := .stored len }
  else if kind = 1 then do
    fixed
    change fun z => { z with state := .codes }
  else if kind = 2 then do
    dynamic R
    change fun z => { z with state := .codes }
  else throw (corrupt "invalid block type")

/-- The header of the next block, or the end behind the last. -/
def header : Act (Decoder σ) String Unit := do
  let (_, z) ← get
  if z.last then change fun z => { z with state := .done } else blockHeader R

/-! ### What is used up -/

end Inflate

/-- What is given out before the next bit is read, at most, and a little for what is to be done. -/
def Inflate.owed (z : Inflate) : ℕ :=
  z.copyLen +
    match z.state with
    | .done => 0
    | .header => 1
    | .stored _ => 2
    | .codes => 2

/-- A number that bounds what the decoder may still give out: a copy of 258 bytes takes a bit. -/
def Decoder.left {σ : Type} (R : Reader σ) (d : Decoder σ) : ℕ :=
  259 * BitReader.left R d.1 + d.2.owed

theorem lowers_onBits {σ α : Type} (R : Reader σ) {c : ℤ} {m : Act (BitReader σ) String α}
    (h : Lowers (BitReader.left R) c m) : Lowers (Decoder.left R) (259 * c) (onFst m) where
  of_ok {d a d'} hrun := by
    obtain ⟨hm, hz⟩ := onFst_eq_ok hrun
    have hlow := h.of_ok hm
    rw [Decoder.left, Decoder.left, hz]
    omega
  of_error {d e d'} hrun := by
    obtain ⟨hm, hz⟩ := onFst_eq_error hrun
    have hlow := h.of_error hm
    rw [Decoder.left, Decoder.left, hz]
    omega

namespace Huffman

variable {σ : Type} (R : Reader σ)

/-- A symbol is at least one bit. -/
theorem lowers_decodeFrom (symbol counts : List ℕ) (code first index : ℕ) :
    Lowers (BitReader.left R) 1 (decodeFrom R symbol counts code first index) := by
  induction counts generalizing code first index with
  | nil => exact lowers_throw _ _
  | cons count counts ih =>
    refine ((BitReader.lowers_takeBits R 1).andThen (d := 0) (by decide) fun bit => ?_).weaken
      (by decide)
    dsimp only
    split_ifs
    · split
      · exact lowers_pure _
      · exact lowers_throw _ _
    · split
      · exact lowers_pure _
      · exact lowers_throw _ _
    · exact (ih _ _ _).weaken (by decide)

theorem lowers_decode (h : Huffman) : Lowers (BitReader.left R) 1 (h.decode R) :=
  lowers_decodeFrom R _ _ _ _ _

end Huffman

namespace Inflate

variable {σ : Type} (R : Reader σ)

theorem lowers_takeBits (n : ℕ) : Lowers (Decoder.left R) (259 * n) (takeBits R n) :=
  lowers_onBits R (BitReader.lowers_takeBits R n)

theorem lowers_decode (h : Huffman) : Lowers (Decoder.left R) 259 (onFst (h.decode R)) :=
  (lowers_onBits R (h.lowers_decode R)).weaken (by decide)

theorem lowers_align : Lowers (Decoder.left R) 0 (onFst (T := Inflate) (BitReader.align (σ := σ))) :=
  lowers_onBits R (Lowers.of_keeps (BitReader.keeps_align R))

variable {R} in
theorem lowers_change {f : Inflate → Inflate} {c : ℤ} (h : ∀ z, ((f z).owed : ℤ) + c ≤ z.owed) :
    Lowers (Decoder.left R) c (change f) where
  of_ok {d u d'} hrun := by
    rw [change_apply] at hrun
    cases hrun
    have hz := h d.2
    simp only [Decoder.left]
    omega
  of_error hrun := nomatch hrun

theorem lowers_repetition (lengths : List ℕ) (sym : ℕ) :
    Lowers (Decoder.left R) 0 (repetition R lengths sym) := by
  have hread : ∀ (n : ℕ) (f : ℕ → ℕ × ℕ), Lowers (Decoder.left R) 0
      (takeBits R n >>= fun v => pure (f v)) := fun n f =>
    ((lowers_takeBits R n).andThen (by omega) fun v => lowers_pure (f v)).weaken (by omega)
  rw [repetition]
  split_ifs
  · split
    · exact lowers_throw _ _
    · exact hread _ _
  · exact hread _ _
  · exact hread _ _

theorem lowers_readCl (cl order : List ℕ) : Lowers (Decoder.left R) 0 (readCl R cl order) := by
  induction order generalizing cl with
  | nil => exact lowers_pure cl
  | cons i order ih =>
    exact ((lowers_takeBits R 3).andThen (by decide) fun l => ih (cl.set i l)).weaken (by decide)

theorem lowers_readLengths (clcode : Huffman) (total : ℕ) :
    Lowers (Decoder.left R) 0 (readLengths R clcode total) := by
  refine Lowers.loop (fun lengths => ?_) []
  rw [lengthsTurn]
  split_ifs
  · exact lowers_pure _
  · refine ((lowers_decode R clcode).andThen (d := 0) (by decide) fun sym => ?_).weaken (by decide)
    split_ifs
    · exact lowers_pure _
    · refine ((lowers_repetition R lengths sym).andThen (d := 0) le_rfl fun r => ?_).weaken le_rfl
      split_ifs
      · exact lowers_throw _ _
      · exact lowers_pure _

theorem lowers_setTables (lit dist : List ℕ) :
    Lowers (Decoder.left R) 0 (setTables (σ := σ) lit dist) := by
  have hchange : ∀ f : Inflate → Inflate, (∀ z, (f z).owed = z.owed) →
      Lowers (Decoder.left R) 0 (change (σ := σ) f) := fun f hf =>
    lowers_change fun z => by rw [hf z, add_zero]
  refine (lowers_fromExcept _).andThen (d := 0) le_rfl fun h => ?_
  refine (hchange (fun z => { z with lit := h }) fun _ => rfl).andThen (d := 0) le_rfl fun _ => ?_
  refine (lowers_fromExcept _).andThen (d := 0) le_rfl fun h => ?_
  exact hchange (fun z => { z with dist := h }) fun _ => rfl

theorem lowers_fixed : Lowers (Decoder.left R) 0 (fixed (σ := σ)) := by
  rw [fixed]
  exact lowers_setTables R _ _

theorem lowers_dynamic : Lowers (Decoder.left R) 0 (dynamic R) := by
  refine ((lowers_takeBits R 5).andThen (d := 0) (by decide) fun nlen => ?_).weaken (by decide)
  refine ((lowers_takeBits R 5).andThen (d := 0) (by decide) fun ndist => ?_).weaken (by decide)
  refine ((lowers_takeBits R 4).andThen (d := 0) (by decide) fun ncode => ?_).weaken (by decide)
  dsimp only
  split_ifs
  · exact lowers_throw _ _
  · refine (lowers_readCl R _ _).andThen (d := 0) le_rfl fun cl => ?_
    refine (lowers_fromExcept _).andThen (d := 0) le_rfl fun clcode => ?_
    refine (lowers_readLengths R clcode _).andThen (d := 0) le_rfl fun lengths => ?_
    split_ifs
    · exact lowers_throw _ _
    · exact lowers_setTables R _ _

theorem lowers_blockHeader : Lowers (Decoder.left R) 1 (blockHeader R) := by
  have hlast : ∀ bit, Lowers (Decoder.left R) 0
      (change (σ := σ) fun z => { z with last := bit = 1 }) := fun bit =>
    lowers_change fun z => (add_zero _).le
  have hstate : ∀ st, Lowers (Decoder.left R) (-2)
      (change (σ := σ) fun z => { z with state := st }) := fun st => by
    refine lowers_change fun z => ?_
    rcases st with - | n | - | - <;> simp only [owed] <;> omega
  refine ((lowers_takeBits R 1).andThen (d := -2) (by decide) fun bit => ?_).weaken (by decide)
  refine ((hlast bit).andThen (d := -2) le_rfl fun _ => ?_).weaken (by decide)
  refine ((lowers_takeBits R 2).andThen (d := -2) (by decide) fun kind => ?_).weaken (by decide)
  split_ifs
  · refine (lowers_align R).andThen (d := -2) le_rfl fun _ => ?_
    refine ((lowers_takeBits R 16).andThen (d := -2) (by decide) fun len => ?_).weaken (by decide)
    refine ((lowers_takeBits R 16).andThen (d := -2) (by decide) fun nlen => ?_).weaken (by decide)
    split_ifs
    · exact lowers_throw _ _
    · exact hstate _
  · exact ((lowers_fixed R).andThen le_rfl fun _ => hstate .codes).weaken (zero_add (-2)).ge
  · exact ((lowers_dynamic R).andThen le_rfl fun _ => hstate .codes).weaken (zero_add (-2)).ge
  · exact lowers_throw _ _

/-- A header takes a bit, or it is the end. -/
theorem left_header {d d' : Decoder σ} (hd : d.2.state = .header)
    (h : header R d = .ok () d') : Decoder.left R d' < Decoder.left R d := by
  rw [header, get_bind] at h
  dsimp only at h
  split_ifs at h with hlast
  · rw [change_apply] at h
    cases h
    simp only [Decoder.left, owed, hd]
    omega
  · have hlow := (lowers_blockHeader R).of_ok h
    omega

theorem keeps_header {d d' : Decoder σ} {e : String} (h : header R d = .error e d') :
    Decoder.left R d' ≤ Decoder.left R d := by
  rw [header, get_bind] at h
  dsimp only at h
  split_ifs at h with hlast
  · cases h
  · exact (lowers_blockHeader R).of_error h

/-- The longest copy. -/
theorem lenBase_le {i base extra e : ℕ} (hbase : lenBase[i]? = some base)
    (hextra : lenExtra[i]? = some extra) (he : e < 2 ^ extra) : base + e ≤ 258 := by
  have hall : ∀ i < 29, (lenBase[i]?).getD 0 + 2 ^ (lenExtra[i]?).getD 0 ≤ 259 := by decide
  have hi : i < 29 := (List.getElem?_eq_some_iff.mp hbase).1
  have hle := hall i hi
  rw [hbase, hextra] at hle
  simp only [Option.getD_some] at hle
  omega

/-- **A symbol takes more than it gives.** -/
theorem lowers_symbolOf (z : Inflate) : Lowers (Decoder.left R) 1 (symbolOf R z) := by
  refine ((lowers_decode R z.lit).andThen (d := -258) (by decide) fun sym => ?_).weaken (by decide)
  split_ifs with hlit hend
  · have hemit : Lowers (Decoder.left R) 0 (change (σ := σ) (emit (UInt8.ofNat sym))) :=
      lowers_change fun z => (add_zero _).le
    exact (hemit.andThen le_rfl fun _ => lowers_pure _).weaken (by decide)
  · have hheader : Lowers (Decoder.left R) (-258)
        (change (σ := σ) fun z => { z with state := .header }) :=
      lowers_change fun z => by
        simp only [owed]
        omega
    exact hheader.andPure fun _ => []
  · rcases hbase : lenBase[sym - 257]? with - | base
    · exact lowers_throw _ _
    · rcases hextra : lenExtra[sym - 257]? with - | extra
      · exact lowers_throw _ _
      · refine ((lowers_takeBits R extra).bind (d := -258) (by omega) fun _ e _ he => ?_).weaken
          (by omega)
        have hlen : base + e ≤ 258 :=
          lenBase_le hbase hextra (BitReader.takeBits_lt R (onFst_eq_ok he).1)
        refine ((lowers_decode R z.dist).andThen (d := -258) (by decide) fun d => ?_).weaken
          (by decide)
        rcases hbase' : distBase[d]? with - | base'
        · exact lowers_throw _ _
        · rcases hextra' : distExtra[d]? with - | extra'
          · exact lowers_throw _ _
          · refine ((lowers_takeBits R extra').andThen (d := -258) (by omega) fun e' => ?_).weaken
              (by omega)
            dsimp only
            split_ifs
            · exact lowers_throw _ _
            · refine Lowers.andPure (lowers_change fun z => ?_) fun _ => []
              simp only [owed]
              omega

theorem lowers_symbol : Lowers (Decoder.left R) 1 (symbol R) where
  of_ok {d _ _} h := (lowers_symbolOf R d.2).of_ok h
  of_error {d _ _} h := (lowers_symbolOf R d.2).of_error h

/-- A symbol gives a byte at most. -/
theorem length_symbolOf {z : Inflate} {d d' : Decoder σ} {bs : Bytes}
    (h : symbolOf R z d = .ok bs d') : bs.length ≤ 1 := by
  obtain ⟨sym, d₁, -, h⟩ := Act.bind_eq_ok h
  split_ifs at h
  · obtain ⟨u, d₂, -, h⟩ := Act.bind_eq_ok h
    cases h
    exact le_rfl
  · obtain ⟨u, d₂, -, h⟩ := Act.bind_eq_ok h
    cases h
    exact Nat.zero_le 1
  · rcases hbase : lenBase[sym - 257]? with - | base
    · rw [hbase] at h
      cases h
    · rcases hextra : lenExtra[sym - 257]? with - | extra
      · rw [hbase, hextra] at h
        cases h
      · rw [hbase, hextra] at h
        obtain ⟨e, d₂, -, h⟩ := Act.bind_eq_ok h
        obtain ⟨sym', d₃, -, h⟩ := Act.bind_eq_ok h
        rcases hbase' : distBase[sym']? with - | base'
        · rw [hbase'] at h
          cases h
        · rcases hextra' : distExtra[sym']? with - | extra'
          · rw [hbase', hextra'] at h
            cases h
          · rw [hbase', hextra'] at h
            obtain ⟨e', d₄, -, h⟩ := Act.bind_eq_ok h
            dsimp only at h
            split_ifs at h
            · cases h
            · obtain ⟨u, d₅, -, h⟩ := Act.bind_eq_ok h
              cases h
              exact Nat.zero_le 1

/-- What is done in a state: what is given out; none: the last block was read. -/
def step : State → Act (Decoder σ) String (Option Bytes)
  | .done => pure none
  | .header => do
    header R
    pure (some [])
  | .stored 0 => do
    change fun z => { z with state := .header }
    pure (some [])
  | .stored (left + 1) => do
    let b ← takeBits R 8
    change fun z => { emit (UInt8.ofNat b) z with state := .stored left }
    pure (some [UInt8.ofNat b])
  | .codes => do
    let bs ← symbol R
    pure (some bs)

/-- What is done next: a pending copy goes first. -/
def next : Act (Decoder σ) String (Option Bytes) := do
  let (_, z) ← get
  if 0 < z.copyLen then do
    change fun z => { emit z.copied z with copyLen := z.copyLen - 1 }
    pure (some [z.copied])
  else step R z.state

/-- **What is done next** gives a byte at most, and takes more than it gives, and something. -/
theorem next_eq_some {bs : Bytes} {d d' : Decoder σ} (h : next R d = .ok (some bs) d') :
    bs.length ≤ 1 ∧ bs.length + Decoder.left R d' ≤ Decoder.left R d ∧
      Decoder.left R d' < Decoder.left R d := by
  rw [next, get_bind] at h
  dsimp only at h
  split_ifs at h with hcopy
  · cases h
    refine ⟨le_rfl, ?_⟩
    simp only [Decoder.left, owed, emit, List.length_singleton]
    omega
  · rcases hstate : d.2.state with - | (- | left) | - | -
    · rw [hstate] at h
      obtain ⟨u, d₁, hheader, h⟩ := Act.bind_eq_ok h
      cases h
      have hlow := left_header R hstate hheader
      exact ⟨Nat.zero_le 1, by simpa using hlow.le, hlow⟩
    · rw [hstate] at h
      cases h
      refine ⟨Nat.zero_le 1, ?_⟩
      simp only [Decoder.left, owed, List.length_nil, hstate]
      omega
    · rw [hstate] at h
      obtain ⟨b, d₁, hbits, h⟩ := Act.bind_eq_ok h
      have hlow := (lowers_takeBits R 8).of_ok hbits
      cases h
      refine ⟨le_rfl, ?_⟩
      simp only [Decoder.left, owed, emit, List.length_singleton] at hlow ⊢
      omega
    · rw [hstate] at h
      obtain ⟨bs', d₁, hsymbol, h⟩ := Act.bind_eq_ok h
      cases h
      have hlow := (lowers_symbol R).of_ok hsymbol
      have hone := length_symbolOf R (z := d.2) hsymbol
      exact ⟨hone, by omega, by omega⟩
    · rw [hstate] at h
      cases h

theorem next_eq_none {d d' : Decoder σ} (h : next R d = .ok none d') :
    d' = d ∧ d.2.isDone = true := by
  rw [next, get_bind] at h
  dsimp only at h
  split_ifs at h with hcopy
  · cases h
  · rcases hstate : d.2.state with - | (- | left) | - | -
    · rw [hstate] at h
      obtain ⟨u, d₁, -, h⟩ := Act.bind_eq_ok h
      cases h
    · rw [hstate] at h
      cases h
    · rw [hstate] at h
      obtain ⟨b, d₁, -, h⟩ := Act.bind_eq_ok h
      cases h
    · rw [hstate] at h
      obtain ⟨bs', d₁, -, h⟩ := Act.bind_eq_ok h
      cases h
    · rw [hstate] at h
      cases h
      refine ⟨rfl, ?_⟩
      rw [isDone, decide_eq_true_iff]
      exact ⟨hstate, Nat.eq_zero_of_not_pos hcopy⟩

theorem next_eq_error {d d' : Decoder σ} {e : String} (h : next R d = .error e d') :
    Decoder.left R d' ≤ Decoder.left R d := by
  have hpure : ∀ {α β : Type} {m : Act (Decoder σ) String α} {f : α → β},
      (m >>= fun a => pure (f a)) d = .error e d' → m d = .error e d' := by
    intro α β m f h
    rcases hm : m d with ⟨a, d₁⟩ | ⟨e', d₁⟩
    · rw [bind_of_ok hm] at h
      cases h
    · rw [bind_of_error hm] at h
      cases h
      rfl
  rw [next, get_bind] at h
  dsimp only at h
  split_ifs at h with hcopy
  · cases h
  · rcases hstate : d.2.state with - | (- | left) | - | -
    · rw [hstate] at h
      exact keeps_header R (hpure h)
    · rw [hstate] at h
      cases h
    · rw [hstate] at h
      rcases hbits : takeBits R 8 d with ⟨b, d₁⟩ | ⟨e', d₁⟩
      · rw [step, bind_of_ok hbits] at h
        cases h
      · rw [step, bind_of_error hbits] at h
        cases h
        exact (lowers_takeBits R 8).of_error hbits
    · rw [hstate] at h
      exact (lowers_symbol R).of_error (hpure h)
    · rw [hstate] at h
      cases h

/-- One turn of `read`, with what was given out before, the last byte first. -/
def readTurn (room : ℕ) (back : Bytes) : Act (Decoder σ) String (Turn Bytes Bytes) :=
  if room ≤ back.length then pure (.done back.reverse)
  else do
    match ← next R with
    | none => pure (.done back.reverse)
    | some bs => pure (.more (bs.reverse ++ back))

theorem readTurn_descends (room : ℕ) :
    Descends (fun _ d => Decoder.left R d) (readTurn R room) := by
  intro back d back' d' h
  rw [readTurn] at h
  split_ifs at h with hroom
  · cases h
  · obtain ⟨o, d₁, hnext, h⟩ := Act.bind_eq_ok h
    rcases o with - | bs
    · cases h
    · cases h
      exact (next_eq_some R hnext).2.2

/-- At most `room` bytes; less: the last block was read. -/
def read (room : ℕ) : Act (Decoder σ) String Bytes :=
  loop (fun _ d => Decoder.left R d) (readTurn R room) (readTurn_descends R room) []

/-- What a turn with these bytes before it comes to. -/
theorem readTurn_of_next {room : ℕ} {back : Bytes} {d : Decoder σ} (hroom : back.length < room) :
    readTurn R room back d =
      match next R d with
      | .ok none d' => .ok (.done back.reverse) d'
      | .ok (some bs) d' => .ok (.more (bs.reverse ++ back)) d'
      | .error e d' => .error e d' := by
  rw [readTurn, if_neg (Nat.not_le.mpr hroom)]
  rcases hnext : next R d with ⟨- | bs, d'⟩ | ⟨e, d'⟩
  · rw [bind_of_ok hnext]
    rfl
  · rw [bind_of_ok hnext]
    rfl
  · rw [bind_of_error hnext]

theorem readTurn_full {room : ℕ} {back : Bytes} {d : Decoder σ} (hroom : room ≤ back.length) :
    readTurn R room back d = .ok (.done back.reverse) d := by
  rw [readTurn, if_pos hroom]
  rfl

/-- A fact about what is done next, carried along a read. -/
theorem read_induction (room : ℕ)
    {P : Bytes → Decoder σ → EStateM.Result String (Decoder σ) Bytes → Prop}
    (full : ∀ out d, room ≤ out.length → P out d (.ok out d))
    (more : ∀ out d bs d' x, out.length < room → next R d = .ok (some bs) d' →
      P (out ++ bs) d' x → P out d x)
    (last : ∀ out d d', out.length < room → next R d = .ok none d' → P out d (.ok out d'))
    (error : ∀ out d e d', out.length < room → next R d = .error e d' → P out d (.error e d'))
    (d : Decoder σ) : P [] d (read R room d) := by
  have hrun : ∀ back d, P back.reverse d
      (loop (fun _ d => Decoder.left R d) (readTurn R room) (readTurn_descends R room) back d) := by
    intro back d
    -- The induction is on what is left; a byte more lowers it.
    induction hn : Decoder.left R d using Nat.strongRecOn generalizing back d with
    | ind n ih =>
      subst hn
      by_cases hroom : room ≤ back.length
      · rw [loop_done (readTurn_full R hroom)]
        exact full _ d (hroom.trans List.length_reverse.ge)
      · have hlt : back.reverse.length < room := List.length_reverse.trans_lt (Nat.not_le.mp hroom)
        have hturn := readTurn_of_next R (d := d) (Nat.not_le.mp hroom)
        rcases hnext : next R d with ⟨- | bs, d'⟩ | ⟨e, d'⟩
        · rw [hnext] at hturn
          rw [loop_done hturn]
          exact last _ d d' hlt hnext
        · rw [hnext] at hturn
          have hrest := ih _ (readTurn_descends R room back d _ d' hturn) (bs.reverse ++ back) d' rfl
          rw [List.reverse_append, List.reverse_reverse] at hrest
          rw [loop_more hturn]
          exact more _ d bs d' _ hlt hnext hrest
        · rw [hnext] at hturn
          rw [loop_error hturn]
          exact error _ d e d' hlt hnext
  exact hrun [] d

/-- **A read** gives no more than was asked for, and what it gives is used up. -/
theorem read_eq_ok {room : ℕ} {d d' : Decoder σ} {out : Bytes} (h : read R room d = .ok out d') :
    out.length ≤ room ∧ out.length + Decoder.left R d' ≤ Decoder.left R d ∧
      (out.length < room → d'.2.isDone = true) := by
  have hrun := read_induction R room
    (P := fun before d x => before.length ≤ room → ∀ out d', x = .ok out d' →
      out.length ≤ room ∧ out.length + Decoder.left R d' ≤ before.length + Decoder.left R d ∧
        (out.length < room → d'.2.isDone = true))
    (fun before d hroom hle out d' hx => by
      cases hx
      exact ⟨hle, le_rfl, fun hlt => absurd hroom (Nat.not_le.mpr hlt)⟩)
    (fun before d bs d₁ x hroom hnext ih hle out d' hx => by
      obtain ⟨hone, hlow, -⟩ := next_eq_some R hnext
      rw [List.length_append] at ih
      obtain ⟨hlen, hleft, hdone⟩ := ih (by omega) out d' hx
      exact ⟨hlen, by omega, hdone⟩)
    (fun before d d₁ hroom hnext hle out d' hx => by
      cases hx
      obtain ⟨rfl, hdone⟩ := next_eq_none R hnext
      exact ⟨hle, le_rfl, fun _ => hdone⟩)
    (fun _ _ _ _ _ _ _ _ _ hx => nomatch hx) d
  simpa using hrun (Nat.zero_le room) out d' h

/-! ### What is given out -/

/-- What comes out on the way from one state to another, step by step. -/
inductive Gives : Decoder σ → Bytes → Decoder σ → Prop
  | refl (d : Decoder σ) : Gives d [] d
  | step {d d₁ d₂ : Decoder σ} {bs out : Bytes} (hnext : next R d = .ok (some bs) d₁)
      (h : Gives d₁ out d₂) : Gives d (bs ++ out) d₂

/-- A read takes such steps; if it gives less than was asked for, there are no more. -/
theorem gives_of_read {room : ℕ} {d d' : Decoder σ} {out : Bytes} (h : read R room d = .ok out d') :
    Gives R d out d' ∧ (out.length < room → next R d' = .ok none d') := by
  have hrun := read_induction R room
    (P := fun before d x => ∀ out d', x = .ok out d' → ∃ rest, out = before ++ rest ∧
      Gives R d rest d' ∧ (out.length < room → next R d' = .ok none d'))
    (fun before d hroom out d' hx => by
      cases hx
      exact ⟨[], (List.append_nil _).symm, .refl d, fun hlt => absurd hroom (Nat.not_le.mpr hlt)⟩)
    (fun before d bs d₁ x _ hnext ih out d' hx => by
      obtain ⟨rest, rfl, hgives, hlast⟩ := ih out d' hx
      exact ⟨bs ++ rest, List.append_assoc _ _ _, .step hnext hgives, hlast⟩)
    (fun before d d₁ _ hnext out d' hx => by
      cases hx
      obtain ⟨rfl, -⟩ := next_eq_none R hnext
      exact ⟨[], (List.append_nil _).symm, .refl _, fun _ => hnext⟩)
    (fun _ _ _ _ _ _ _ _ hx => by cases hx) d
  obtain ⟨rest, hout, hgives, hlast⟩ := hrun out d' h
  rw [List.nil_append] at hout
  rw [hout]
  exact ⟨hgives, hout ▸ hlast⟩

/-- A step that gives nothing out is no different for a read of any length. -/
theorem read_of_silent {room : ℕ} {d d₁ : Decoder σ} (hroom : 0 < room)
    (h : next R d = .ok (some []) d₁) : read R room d = read R room d₁ :=
  loop_more (by
    rw [readTurn_of_next R hroom, h]
    rfl)

theorem read_one_of_byte {d d₁ : Decoder σ} {b : UInt8} (h : next R d = .ok (some [b]) d₁) :
    read R 1 d = .ok [b] d₁ := by
  have hmore : readTurn R 1 [] d = .ok (.more [b]) d₁ := by
    rw [readTurn_of_next R Nat.one_pos, h]
    rfl
  exact (loop_more hmore).trans (loop_done (readTurn_full R le_rfl))

theorem read_of_none {room : ℕ} {d : Decoder σ} (hroom : 0 < room) (h : next R d = .ok none d) :
    read R room d = .ok [] d :=
  loop_done (by
    rw [readTurn_of_next R hroom, h]
    rfl)

theorem read_eq_error {room : ℕ} {d d' : Decoder σ} {e : String}
    (h : read R room d = .error e d') : Decoder.left R d' ≤ Decoder.left R d := by
  have hrun := read_induction R room
    (P := fun _ d x => ∀ e d', x = .error e d' → Decoder.left R d' ≤ Decoder.left R d)
    (fun _ _ _ _ _ hx => nomatch hx)
    (fun before d bs d₁ x hroom hnext ih e d' hx =>
      (ih e d' hx).trans (next_eq_some R hnext).2.2.le)
    (fun _ _ _ _ _ _ _ hx => nomatch hx)
    (fun _ d e d₁ _ hnext e' d' hx => by
      cases hx
      exact next_eq_error R hnext) d
  exact hrun e d' h

end Inflate

end Hop.Runner.Extract
