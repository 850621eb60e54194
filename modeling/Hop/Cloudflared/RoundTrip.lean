import Hop.Cloudflared.Written

/-!
# What is written is read

The reader on the segment of a finished message (`round_trip`), and on any segment (`View.safe`).
-/

namespace Hop.Cloudflared.Capnp

variable {at' : ℕ} {doc : Document} {hs : List Struct} {b : Builder}

/-! ### Pointers -/

section Words

variable {seg : Bytes} {at' a p : ℕ}

theorem le_u64Max {n m : ℕ} (h : n ≤ m) (hm : m ≤ 2 ^ 32) : n ≤ u64Max :=
  (h.trans hm).trans (by decide)

theorem ok_bind {α β : Type} (x : α) (f : α → Checked β) : (Except.ok x >>= f) = f x := rfl

theorem usize_of_le {n : ℕ} (h : n ≤ u64Max) : usize n = .ok () := if_pos h

theorem get_of_le {n : ℕ} (h : a + n ≤ seg.length) : get seg a (a + n) = some (slice seg a n) := by
  rw [get, if_pos ⟨Nat.le_add_right a n, h⟩, Nat.add_sub_cancel_left]

theorem word_of_le (h : at' + 8 ≤ seg.length) (hseg : seg.length ≤ 2 ^ 32) :
    word seg at' = .ok (wordAt seg at') := by
  have hmax : at' + 8 ≤ u64Max := le_u64Max h hseg
  rw [word, usize_of_le hmax, ok_bind, get_of_le h]
  rfl

/-- Forward pointers, by less than 2^29 words, lead to where they should. -/
theorem target_of_skips (haligned : 8 ∣ at') (haligned' : 8 ∣ a) (hle : at' + 8 ≤ a)
    (ha : a ≤ 2 ^ 32) (hp : p % 2 ^ 32 / 4 = Builder.skips at' a % 2 ^ 30) : target at' p = .ok a := by
  have hskips : at' + 8 + Builder.skips at' a * 8 = a := by
    rw [Builder.skips]
    omega
  have hlt : Builder.skips at' a < 2 ^ 29 := by omega
  have hoff : signedOffset p = (Builder.skips at' a : ℕ) := by
    rw [Nat.mod_eq_of_lt (show Builder.skips at' a < 2 ^ 30 by omega)] at hp
    rw [signedOffset, if_pos (by omega)]
    exact_mod_cast hp
  have hmax : at' + 8 ≤ u64Max := by
    rw [u64Max]
    omega
  have hbase : ¬ i64Max < (at' + 8 : ℕ) := by
    rw [i64Max]
    omega
  have hstep : int64 ((Builder.skips at' a : ℕ) * 8) = .ok () := by
    refine if_pos ⟨?_, ?_⟩
    · rw [i64Min]
      omega
    · rw [i64Max]
      omega
  have hsum : ((at' + 8 : ℕ) : ℤ) + (Builder.skips at' a : ℕ) * 8 = (a : ℕ) := by omega
  have hend : int64 (a : ℕ) = .ok () := by
    refine if_pos ⟨?_, ?_⟩
    · rw [i64Min]
      omega
    · rw [i64Max]
      omega
  rw [target, usize_of_le hmax, hoff, ok_bind, if_neg hbase, hstep, ok_bind, hsum, hend, ok_bind,
    if_neg (by omega)]
  rfl

theorem and_three (p : ℕ) : p &&& 3 = p % 4 := Nat.and_two_pow_sub_one_eq_mod p 2

theorem and_seven (p : ℕ) : p &&& 7 = p % 8 := Nat.and_two_pow_sub_one_eq_mod p 3

/-- What the reader finds in the word of a pointer to a struct. -/
theorem structWord_parts (at' : ℕ) {s : Struct} (hpos : 0 < s.dataWords + s.ptrWords)
    (hdata : s.dataWords < 2 ^ 16) (hptr : s.ptrWords < 2 ^ 16) :
    Builder.structWord at' s ≠ 0 ∧ Builder.structWord at' s &&& 3 = 0 ∧
      Builder.structWord at' s >>> 32 % 2 ^ 16 = s.dataWords ∧
      Builder.structWord at' s >>> 48 % 2 ^ 16 = s.ptrWords ∧
      Builder.structWord at' s % 2 ^ 32 / 4 = Builder.skips at' s.data % 2 ^ 30 := by
  have hmod := Nat.mod_lt (Builder.skips at' s.data) (Nat.two_pow_pos 30)
  rw [and_three, Nat.shiftRight_eq_div_pow, Nat.shiftRight_eq_div_pow,
    Builder.structWord_eq hdata]
  generalize Builder.skips at' s.data % 2 ^ 30 = x at hmod ⊢
  exact ⟨by omega, by omega, by omega, by omega, by omega⟩

/-- What it finds in the word of a pointer to a list. -/
theorem listWord_parts {elem : ℕ} (at' a count : ℕ) (helem : elem < 8) :
    Builder.listWord at' a elem count ≠ 0 ∧ Builder.listWord at' a elem count &&& 3 = 1 ∧
      Builder.listWord at' a elem count >>> 32 &&& 7 = elem ∧
      Builder.listWord at' a elem count >>> 35 = count % 2 ^ 29 ∧
      Builder.listWord at' a elem count % 2 ^ 32 / 4 = Builder.skips at' a % 2 ^ 30 := by
  have hmod := Nat.mod_lt (Builder.skips at' a) (Nat.two_pow_pos 30)
  have hcount := Nat.mod_lt count (Nat.two_pow_pos 29)
  rw [and_three, and_seven, Nat.shiftRight_eq_div_pow, Nat.shiftRight_eq_div_pow,
    Builder.listWord_eq at' a count helem]
  generalize Builder.skips at' a % 2 ^ 30 = x at hmod ⊢
  generalize count % 2 ^ 29 = y at hcount ⊢
  exact ⟨by omega, by omega, by omega, by omega, by omega⟩

end Words

/-! ### The views of the structs -/

section Views

variable {seg : Bytes} {hs : List Struct} {doc : Document} {s : Struct} {r : Record} {i : ℕ}

/-- The view of a struct; of nothing, if it is not in the segment. -/
def viewOf (seg : Bytes) (s : Struct) : View :=
  if h : s.data + s.size ≤ seg.length then ⟨seg, s.data, s.dataWords, s.ptrWords, false, fun _ => h⟩
  else .empty seg

theorem viewOf_of_le (h : s.data + s.size ≤ seg.length) :
    viewOf seg s = ⟨seg, s.data, s.dataWords, s.ptrWords, false, fun _ => h⟩ := dif_pos h

theorem follow_struct (haligned : 8 ∣ at') (haligned' : 8 ∣ s.data) (hle : at' + 8 ≤ s.data)
    (hin : s.data + s.size ≤ seg.length) (hseg : seg.length ≤ 2 ^ 32)
    (hwords : 0 < s.dataWords + s.ptrWords ∧ s.dataWords < 2 ^ 16 ∧ s.ptrWords < 2 ^ 16)
    (hword : wordAt seg at' = Builder.structWord at' s) :
    View.follow seg at' = .ok (viewOf seg s) := by
  obtain ⟨hpos, hdata, hptr⟩ := hwords
  obtain ⟨hne, hkind, hfirst, hsecond, hskips⟩ := structWord_parts at' hpos hdata hptr
  have htarget := target_of_skips haligned haligned' hle (by omega) hskips
  have hsize : s.data + (s.dataWords + s.ptrWords) * 8 ≤ seg.length := hin
  have hmax : s.data + (s.dataWords + s.ptrWords) * 8 ≤ u64Max := le_u64Max hsize hseg
  have hmax' : (s.dataWords + s.ptrWords) * 8 ≤ u64Max := (Nat.le_add_left _ _).trans hmax
  rw [View.follow, word_of_le (by omega) hseg, ok_bind, hword, if_neg hne,
    if_neg (not_not.mpr hkind)]
  simp only [hfirst, hsecond, htarget]
  rw [ok_bind, usize_of_le hmax', ok_bind, usize_of_le hmax, ok_bind,
    dif_neg (Nat.not_lt.mpr hsize), viewOf_of_le hin]
  rfl

theorem ptr_of_lt (hin : s.data + s.size ≤ seg.length) (hseg : seg.length ≤ 2 ^ 32)
    (hi : i < s.ptrWords) : (viewOf seg s).ptr i = .ok (some (s.slot i)) := by
  have hslot := Struct.slot_le hi
  have hmax : s.slot i ≤ u64Max := le_u64Max (show s.slot i ≤ seg.length by omega) hseg
  have hmax' : s.data + s.dataWords * 8 ≤ u64Max := (s.le_slot i).trans hmax
  rw [viewOf_of_le hin, View.ptr, if_pos ⟨rfl, hi⟩, usize_of_le hmax', ok_bind,
    usize_of_le (show s.data + s.dataWords * 8 + i * 8 ≤ u64Max from hmax), ok_bind]
  rfl

theorem ptr_of_ge (hin : s.data + s.size ≤ seg.length) (hi : s.ptrWords ≤ i) :
    (viewOf seg s).ptr i = .ok none := by
  rw [viewOf_of_le hin, View.ptr, if_neg fun h => absurd h.2 (Nat.not_lt.mpr hi)]
  rfl

/-- Bytes behind a pointer. What does not fit into the count of the pointer is cut off. -/
theorem dataAt_of_points {v : View} {bound a : ℕ} {raw : Bytes} (haligned : 8 ∣ at')
    (hbound : bound ≤ v.seg.length) (hseg : v.seg.length ≤ 2 ^ 32) (hptr : v.ptr i = .ok (some at'))
    (h : Points v.seg bound hs at' (wordAt v.seg at') raw a) :
    v.dataAt i = .ok (raw.take (raw.length % 2 ^ 29)) := by
  obtain ⟨hne, hkind, helem, hcount, hskips⟩ :=
    listWord_parts at' a raw.length (show elemByte < 8 by decide)
  have hbelow := h.below
  have hbehind := h.behind
  have htarget := target_of_skips haligned h.aligned h.behind (by omega) hskips
  have hmod := Nat.mod_le raw.length (2 ^ 29)
  have hmax : ¬ u64Max < a + raw.length % 2 ^ 29 := by
    have hle := le_u64Max (le_refl v.seg.length) hseg
    omega
  have hslice : slice v.seg a (raw.length % 2 ^ 29) = raw.take (raw.length % 2 ^ 29) := by
    have hsub := slice_slice v.seg a (show 0 + raw.length % 2 ^ 29 ≤ raw.length by omega)
    rw [h.bytes, Nat.add_zero, slice_zero] at hsub
    exact hsub.symm
  rw [View.dataAt, hptr, ok_bind]
  dsimp only
  rw [word_of_le (by omega) hseg, ok_bind, h.word, if_neg hne, if_neg (not_not.mpr hkind),
    if_neg (not_not.mpr helem), hcount, htarget, ok_bind, if_neg hmax,
    get_of_le (by omega), hslice]
  rfl

theorem textAt_of_dataAt {v : View} {t : String} (h : v.dataAt i = .ok (utf8 t ++ [0])) :
    v.textAt i = .ok t := by
  rw [View.textAt, h, ok_bind, if_pos List.getLast?_concat, List.dropLast_concat]
  dsimp only
  rw [fromUtf8_utf8]
  rfl

end Views

/-! ### The values of the data -/

theorem ofLe_zeros (n : ℕ) : ofLe (zeros n) = 0 := by
  induction n with
  | zero => rfl
  | succ n ih =>
    rw [zeros] at ih
    rw [zeros, List.replicate_succ, ofLe, ih]
    rfl

theorem toNat_bitMask (bit : ℕ) : (Builder.bitMask bit).toNat = 2 ^ (bit % 8) := by
  have hlt := Nat.mod_lt bit (show 0 < 8 by decide)
  rw [Builder.bitMask]
  generalize bit % 8 = k at hlt
  revert k
  decide

/-- What a byte has under the mask of a bit. -/
theorem and_bitMask (x : UInt8) (bit : ℕ) :
    (x &&& Builder.bitMask bit != 0) = x.toNat.testBit (bit % 8) := by
  have hand : (x &&& Builder.bitMask bit).toNat =
      (x.toNat.testBit (bit % 8)).toNat * 2 ^ (bit % 8) := by
    rw [UInt8.toNat_and, toNat_bitMask, Nat.and_two_pow]
  rcases hbit : x.toNat.testBit (bit % 8) with - | -
  · rw [hbit, Bool.toNat_false, Nat.zero_mul] at hand
    exact bne_eq_false_iff_eq.mpr (UInt8.toNat_inj.mp hand)
  · rw [hbit, Bool.toNat_true, Nat.one_mul] at hand
    refine bne_iff_ne.mpr fun hzero => ?_
    rw [hzero] at hand
    exact absurd hand.symm (Nat.two_pow_pos _).ne'

namespace Record

variable {r : Record} {k n off off' bit : ℕ} {raw : Bytes}

/-- The number in the `n` bytes at `off`, the low byte first; zero where the data ends before. -/
def number (r : Record) (n off : ℕ) : ℕ :=
  if off + n ≤ r.data.length then ofLe (slice r.data off n) else 0

/-- The bit at an offset in bits; zero behind the data. -/
def flag (r : Record) (bit : ℕ) : Bool := (r.data[bit / 8]?.getD 0).toNat.testBit (bit % 8)

/-- A field holds the number that was written there last, -/
theorem number_setBytes (h : off + k ≤ r.data.length) (hn : n < 256 ^ k) :
    (r.setBytes off (leBytes k n)).number k off = n := by
  have hfits : off + (leBytes k n).length ≤ r.data.length := by rwa [leBytes_length]
  have hslice := slice_overwrite hfits
  rw [leBytes_length] at hslice
  rw [number, setBytes, overwrite_length hfits, if_pos h, hslice, ofLe_leBytes_of_lt hn]

/-- and what is written beside it leaves it. -/
theorem number_setBytes_apart (h : off + raw.length ≤ r.data.length)
    (hapart : off' + n ≤ off ∨ off + raw.length ≤ off') :
    (r.setBytes off raw).number n off' = r.number n off' := by
  rw [number, number, setBytes, overwrite_length h]
  refine if_congr Iff.rfl (congrArg ofLe (slice_congr fun i hi hi' => ?_)) rfl
  exact getElem?_overwrite_of_outside h (by omega)

/-- A bit that is set is set, and the others stay. -/
theorem flag_setBool (h : bit / 8 < r.data.length) (v : Bool) (bit' : ℕ) :
    (r.setBool bit v).flag bit' = (r.flag bit' || v && decide (bit = bit')) := by
  rw [setBool]
  rcases v with - | -
  · rw [if_pos rfl, Bool.false_and, Bool.or_false]
  rw [if_neg (by decide), Bool.true_and, flag, flag, setBytes]
  generalize hx : r.data[bit / 8]?.getD 0 = x
  have hfits : bit / 8 + [x ||| Builder.bitMask bit].length ≤ r.data.length := h
  by_cases hbyte : bit' / 8 = bit / 8
  · have hget : (overwrite r.data (bit / 8) [x ||| Builder.bitMask bit])[bit / 8]? =
        some (x ||| Builder.bitMask bit) := by
      have hslice := congrArg (·[0]?) (slice_overwrite hfits)
      rwa [slice, List.length_singleton, List.getElem?_take_of_lt Nat.one_pos,
        List.getElem?_drop] at hslice
    rw [hbyte, hget, hx, Option.getD_some, UInt8.toNat_or, toNat_bitMask, Nat.testBit_or,
      Nat.testBit_two_pow]
    congr 2
    rw [eq_iff_iff]
    omega
  · rw [getElem?_overwrite_of_outside hfits (by rw [List.length_singleton]; omega),
      decide_eq_false (fun heq : bit = bit' => hbyte (by rw [heq])), Bool.or_false]

end Record

/-! ### What a view shows -/

/-- The bytes behind the pointer `i` are a list of pointers, as the pointers of a struct without
data would be; the reader has no call for it. -/
structure ListAt (v : View) (i n : ℕ) (w : View) : Prop where
  seg : w.seg = v.seg
  null : w.null = false
  dataWords : w.dataWords = 0
  ptrWords : w.ptrWords = n
  pointer : ∃ at' p, v.ptr i = .ok (some at') ∧ word v.seg at' = .ok p ∧ p &&& 3 = 1 ∧
    p >>> 32 &&& 7 = elemPointer ∧ p >>> 35 = n ∧ target at' p = .ok w.data

/-- The reader finds this value behind the pointer `i`. -/
def ShowsSlot (views : ℕ → View) (v : View) (i : ℕ) : Value → Prop
  | .null => (∃ w, v.structAt i = .ok w ∧ w.isNull = true) ∧ v.dataAt i = .ok [] ∧
    v.textAt i = .ok ""
  | .struct k => v.structAt i = .ok (views k)
  | .text t => v.textAt i = .ok t
  | .data b => v.dataAt i = .ok b
  | .texts vs => ∃ w, ListAt v i vs.length w ∧ ∀ m t, vs[m]? = some t → w.textAt m = .ok t
  | .emptyList => ∃ at' p, v.ptr i = .ok (some at') ∧ word v.seg at' = .ok p ∧ p &&& 3 = 1 ∧
    p >>> 35 = 0

/-- The reader finds this record in the struct: each field of its data, zeros behind them, the number
or the flag in each, and each pointer, null pointers behind them. -/
structure Renders (views : ℕ → View) (v : View) (r : Record) : Prop where
  present : v.isNull = false
  field : ∀ n off, off + n ≤ r.data.length → v.field n off = .ok (slice r.data off n)
  past : ∀ n off, r.data.length < off + n → off + n ≤ u64Max → v.field n off = .ok (zeros n)
  u16 : ∀ off, off + 2 ≤ u64Max → v.u16 off = .ok (r.number 2 off)
  u32 : ∀ off, off + 4 ≤ u64Max → v.u32 off = .ok (r.number 4 off)
  i64 : ∀ off, off + 8 ≤ u64Max → v.i64 off = .ok (BitVec.ofNat 64 (r.number 8 off)).toInt
  bool : ∀ bit, bit / 8 + 1 ≤ u64Max → v.bool bit = .ok (r.flag bit)
  slots : ∀ i, ShowsSlot views v i (r.slots[i]?.getD .null)

/-- Texts and data are short enough for the count of a pointer. -/
def Value.Short : Value → Prop
  | .text v => (utf8 v).length + 1 < 2 ^ 29
  | .data v => v.length < 2 ^ 29
  | .texts vs => ∀ v ∈ vs, (utf8 v).length + 1 < 2 ^ 29
  | _ => True

/-- So are all of a document. -/
def Short (doc : Document) : Prop := ∀ r ∈ doc, ∀ v ∈ r.slots, v.Short

/-- The message of a finished segment. -/
def message (seg : Bytes) : Bytes := leBytes 4 0 ++ leBytes 4 (seg.length / 8) ++ seg

section RoundTrip

variable {seg : Bytes} {bound : ℕ} {hs : List Struct} {doc : Document}

/-- What a segment holds, its front holds. -/
theorem Holds.take (h : Holds seg bound hs doc) : Holds (seg.take bound) bound hs doc := by
  have hf : Frame seg bound hs (seg.take bound) bound hs :=
    ⟨le_rfl, fun _ _ h => h, fun _ _ _ h => h, fun a n ha _ => slice_take ha⟩
  refine ⟨?_, h.aligned, h.length_eq, ?_, h.inside, h.apart, ?_⟩
  · rw [List.length_take]
    exact le_min le_rfl h.bound_le
  · obtain ⟨s, hs, hword⟩ := h.first
    obtain ⟨h8, -, hend, -⟩ := h.inside s (List.mem_of_getElem? hs)
    refine ⟨s, hs, ?_⟩
    rw [← hword, wordAt, slice_take (by omega), wordAt]
  · intro k s r hk hr
    have hend := (h.inside s (List.mem_of_getElem? hk)).2.2.1
    exact (h.shows k s r hk hr).frame hf fun a n _ ha => slice_take (by omega)

/-- The view of the struct with a number. -/
def viewAt (seg : Bytes) (hs : List Struct) (k : ℕ) : View :=
  match hs[k]? with
  | some s => viewOf seg s
  | none => .empty seg

theorem viewAt_of_some {k : ℕ} {s : Struct} (h : hs[k]? = some s) :
    viewAt seg hs k = viewOf seg s := by
  rw [viewAt, h]

/-- Where a pointer says nothing, the reader finds the default. -/
theorem showsSlot_null {views : ℕ → View} {v : View} {i : ℕ}
    (h : v.ptr i = .ok none ∨
      ∃ at', v.ptr i = .ok (some at') ∧ word v.seg at' = .ok 0) : ShowsSlot views v i .null := by
  have hstruct : v.structAt i = .ok (View.empty v.seg) := by
    rcases h with h | ⟨at', h, hword⟩
    · rw [View.structAt, h, ok_bind]
      rfl
    · rw [View.structAt, h, ok_bind]
      dsimp only
      rw [View.follow, hword, ok_bind, if_pos rfl]
      rfl
  have hdata : v.dataAt i = .ok [] := by
    rcases h with h | ⟨at', h, hword⟩
    · rw [View.dataAt, h, ok_bind]
      rfl
    · rw [View.dataAt, h, ok_bind]
      dsimp only
      rw [hword, ok_bind, if_pos rfl]
      rfl
  refine ⟨⟨_, hstruct, rfl⟩, hdata, ?_⟩
  rw [View.textAt, hdata, ok_bind]
  rfl

/-- What stands in a slot is what the reader finds there. -/
theorem showsSlot_of_stands (h : Holds seg seg.length hs doc) (hseg : seg.length ≤ 2 ^ 32)
    {s : Struct} (hs' : s ∈ hs) {i : ℕ} (hi : i < s.ptrWords) {v : Value} (hshort : v.Short)
    (hv : Stands seg seg.length hs (s.slot i) (wordAt seg (s.slot i)) v) :
    ShowsSlot (viewAt seg hs) (viewOf seg s) i v := by
  obtain ⟨h8, hdvd, hend, -⟩ := h.inside s hs'
  have hslot := Struct.slot_le hi
  have hptr := ptr_of_lt hend hseg hi
  have hviewSeg : (viewOf seg s).seg = seg := by rw [viewOf_of_le hend]
  have haligned : 8 ∣ s.slot i := by
    rw [Struct.slot]
    omega
  have hdata : ∀ {raw : Bytes} {a : ℕ}, raw.length < 2 ^ 29 →
      Points seg seg.length hs (s.slot i) (wordAt seg (s.slot i)) raw a →
      (viewOf seg s).dataAt i = .ok raw := by
    intro raw a hraw hpoints
    rw [← hviewSeg] at hpoints
    have hall := dataAt_of_points haligned le_rfl (by rw [hviewSeg]; exact hseg) hptr hpoints
    rwa [Nat.mod_eq_of_lt hraw, List.take_length] at hall
  have hword : word (viewOf seg s).seg (s.slot i) = .ok (wordAt seg (s.slot i)) := by
    rw [hviewSeg]
    exact word_of_le (by omega) hseg
  cases v with
  | null =>
    rw [hv] at hword
    exact showsSlot_null (.inr ⟨_, hptr, hword⟩)
  | struct k =>
    obtain ⟨s', hk, hle, hw⟩ := hv
    obtain ⟨-, hdvd', hend', hwords⟩ := h.inside s' (List.mem_of_getElem? hk)
    change (viewOf seg s).structAt i = .ok (viewAt seg hs k)
    rw [View.structAt, hptr, ok_bind, viewAt_of_some hk]
    dsimp only
    rw [hviewSeg]
    exact follow_struct haligned hdvd' hle hend' hseg hwords hw
  | text t =>
    obtain ⟨a, ha⟩ := hv
    refine textAt_of_dataAt (hdata ?_ ha)
    rw [List.length_append]
    exact hshort
  | data b =>
    obtain ⟨a, ha⟩ := hv
    exact hdata hshort ha
  | texts vs =>
    obtain ⟨a, ha⟩ := hv
    have hbelow := ha.below
    have hbehind := ha.behind
    have hcount : vs.length < 2 ^ 29 := by omega
    have hle : a ≤ 2 ^ 32 := by omega
    obtain ⟨-, hkind, helem, hn, hskips⟩ :=
      listWord_parts (s.slot i) a vs.length (show elemPointer < 8 by decide)
    have hin : a + (⟨a, 0, vs.length⟩ : Struct).size ≤ seg.length := by
      rw [Struct.size, Nat.zero_add]
      exact hbelow
    refine ⟨viewOf seg ⟨a, 0, vs.length⟩, ?_, fun m t hm => ?_⟩
    · have hview : viewOf seg ⟨a, 0, vs.length⟩ = ⟨seg, a, 0, vs.length, false, fun _ => hin⟩ :=
        viewOf_of_le hin
      rw [hview]
      refine ⟨hviewSeg.symm, rfl, rfl, rfl, s.slot i, _, hptr, hword, ?_, ?_, ?_, ?_⟩
      · rw [ha.word, hkind]
      · rw [ha.word, helem]
      · rw [ha.word, hn, Nat.mod_eq_of_lt hcount]
      · rw [ha.word]
        exact target_of_skips haligned ha.aligned hbehind hle hskips
    · obtain ⟨c, hc⟩ := ha.each m t hm
      have hlt : m < vs.length := (List.getElem?_eq_some_iff.mp hm).1
      have hptr' := ptr_of_lt hin hseg (show m < (⟨a, 0, vs.length⟩ : Struct).ptrWords from hlt)
      have hslot' : (⟨a, 0, vs.length⟩ : Struct).slot m = a + m * 8 := rfl
      have hviewSeg' : (viewOf seg ⟨a, 0, vs.length⟩).seg = seg := by rw [viewOf_of_le hin]
      have hdvd' := ha.aligned
      rw [hslot'] at hptr'
      rw [← hviewSeg'] at hc
      have hall := dataAt_of_points (show 8 ∣ a + m * 8 by omega) le_rfl
        (by rw [hviewSeg']; exact hseg) hptr' hc
      have hlen : (utf8 t ++ [0]).length < 2 ^ 29 := by
        rw [List.length_append]
        exact hshort t (List.mem_of_getElem? hm)
      rw [Nat.mod_eq_of_lt hlen, List.take_length] at hall
      exact textAt_of_dataAt hall
  | emptyList =>
    exact ⟨_, _, hptr, hword, by rw [hv]; decide, by rw [hv]; decide⟩

/-- The number of a field, with its sign. -/
theorem View.i64_eq {v : View} {off : ℕ} {raw : Bytes} (h : v.field 8 off = .ok raw)
    (hlen : raw.length = 8) : v.i64 off = .ok (BitVec.ofNat 64 (ofLe raw)).toInt := by
  have hlt : ofLe raw < 2 ^ 64 := (ofLe_lt raw).trans_eq (by rw [hlen]; rfl)
  rw [View.i64, h, ok_bind]
  dsimp only
  rw [BitVec.toInt_eq_toNat_cond, BitVec.toNat_ofNat, Nat.mod_eq_of_lt hlt]
  refine congrArg Except.ok (if_congr ?_ rfl rfl)
  omega

theorem View.bool_eq {v : View} {bit : ℕ} {raw : Bytes} (h : v.field 1 (bit / 8) = .ok raw) :
    v.bool bit = .ok ((raw.headD 0).toNat.testBit (bit % 8)) := by
  rw [View.bool, h, ← and_bitMask]
  rfl

section Scalars

variable {v : View} {r : Record}
  (hfield : ∀ n off, off + n ≤ r.data.length → v.field n off = .ok (slice r.data off n))
  (hpast : ∀ n off, r.data.length < off + n → off + n ≤ u64Max → v.field n off = .ok (zeros n))

include hfield hpast

/-- The bytes of a field, as a number. -/
theorem number_of_field {n off : ℕ} (hmax : off + n ≤ u64Max) :
    ∃ raw, v.field n off = .ok raw ∧ raw.length = n ∧ ofLe raw = r.number n off := by
  rw [Record.number]
  by_cases hle : off + n ≤ r.data.length
  · exact ⟨_, hfield n off hle, slice_length hle, (if_pos hle).symm⟩
  · exact ⟨_, hpast n off (Nat.not_le.mp hle) hmax, List.length_replicate,
      (ofLe_zeros n).trans (if_neg hle).symm⟩

theorem bool_of_field {bit : ℕ} (hmax : bit / 8 + 1 ≤ u64Max) :
    v.bool bit = .ok (r.flag bit) := by
  rw [Record.flag]
  by_cases hlt : bit / 8 < r.data.length
  · have hslice : slice r.data (bit / 8) 1 = [r.data[bit / 8]] := by
      rw [slice, List.drop_eq_getElem_cons hlt, List.take_succ_cons, List.take_zero]
    rw [View.bool_eq (hfield 1 _ hlt), hslice, List.getElem?_eq_getElem hlt]
    rfl
  · rw [View.bool_eq (hpast 1 _ (by omega) hmax), List.getElem?_eq_none (Nat.not_lt.mp hlt)]
    rfl

end Scalars

theorem renders_of_holds (h : Holds seg seg.length hs doc) (hseg : seg.length ≤ 2 ^ 32)
    (hshort : Short doc) {k : ℕ} {r : Record} (hr : doc[k]? = some r) :
    Renders (viewAt seg hs) (viewAt seg hs k) r := by
  have hk : k < hs.length := h.length_eq ▸ (List.getElem?_eq_some_iff.mp hr).1
  have hs' : hs[k]? = some hs[k] := List.getElem?_eq_getElem hk
  have hmem := List.mem_of_getElem? hs'
  have hshows := h.shows k _ r hs' hr
  obtain ⟨-, -, hend, -⟩ := h.inside _ hmem
  have hlen := hshows.data_length
  rw [viewAt_of_some hs']
  generalize hs[k] = s at hs' hmem hshows hend hlen
  have hsize : s.dataWords * 8 ≤ s.size := by
    rw [Struct.size]
    omega
  have hwords : s.dataWords * 8 ≤ u64Max :=
    le_u64Max (show s.dataWords * 8 ≤ seg.length by omega) hseg
  have hfield : ∀ n off, off + n ≤ r.data.length →
      (viewOf seg s).field n off = .ok (slice r.data off n) := by
    intro n off hoff
    rw [hlen] at hoff
    have hin : s.data + off + n ≤ seg.length := by omega
    rw [viewOf_of_le hend, View.field, if_neg Bool.false_ne_true,
      usize_of_le (le_u64Max (show off + n ≤ seg.length by omega) hseg), ok_bind,
      usize_of_le hwords, ok_bind, if_pos hoff, usize_of_le (le_u64Max hin hseg), ok_bind,
      get_of_le hin, ← hshows.data, slice_slice seg s.data hoff]
    rfl
  have hpast : ∀ n off, r.data.length < off + n → off + n ≤ u64Max →
      (viewOf seg s).field n off = .ok (zeros n) := by
    intro n off hoff hmax
    rw [hlen] at hoff
    rw [viewOf_of_le hend, View.field, if_neg Bool.false_ne_true, usize_of_le hmax, ok_bind,
      usize_of_le hwords, ok_bind, if_neg (Nat.not_le.mpr hoff)]
    rfl
  refine ⟨by rw [viewOf_of_le hend]; rfl, hfield, hpast, fun off hmax => ?_, fun off hmax => ?_,
    fun off hmax => ?_, fun bit hmax => bool_of_field hfield hpast hmax,
    fun i => ?_⟩
  · obtain ⟨raw, hraw, -, hnumber⟩ := number_of_field hfield hpast hmax
    rw [View.u16, hraw, ← hnumber]
    rfl
  · obtain ⟨raw, hraw, -, hnumber⟩ := number_of_field hfield hpast hmax
    rw [View.u32, hraw, ← hnumber]
    rfl
  · obtain ⟨raw, hraw, hlen', hnumber⟩ := number_of_field hfield hpast hmax
    rw [View.i64_eq hraw hlen', hnumber]
  · rcases hi : r.slots[i]? with - | v
    · rw [List.getElem?_eq_none_iff, hshows.slots_length] at hi
      exact showsSlot_null (.inl (ptr_of_ge hend hi))
    · have hlt : i < s.ptrWords := hshows.slots_length ▸ (List.getElem?_eq_some_iff.mp hi).1
      exact showsSlot_of_stands h hseg hmem hlt
        (hshort r (List.mem_of_getElem? hr) v (List.mem_of_getElem? hi)) (hshows.slots i v hi)

/-- The message of a builder without an error. -/
theorem finish_of_good (h : Good b hs doc) (hlen : b.len ≤ 2 ^ 32) :
    b.finish = .ok (message (b.seg.take b.len)) ∧ (b.seg.take b.len).length = b.len := by
  have hfits := h.fits
  have hbound := h.holds.bound_le
  have htake : (b.seg.take b.len).length = b.len := by
    rw [List.length_take]
    omega
  have htable : (leBytes 4 0 ++ leBytes 4 (b.len / 8)).length = table := by
    rw [List.length_append, leBytes_length, leBytes_length]
    rfl
  have hwrite : overwrite b.buf 0 (leBytes 4 0 ++ leBytes 4 (b.len / 8)) =
      leBytes 4 0 ++ leBytes 4 (b.len / 8) ++ b.seg := by
    rw [overwrite, List.take_zero, List.nil_append, Nat.zero_add, htable]
    rfl
  refine ⟨?_, htake⟩
  rw [Builder.finish, h.err]
  dsimp only
  rw [if_neg (by omega), if_neg (by omega), hwrite, get, if_pos ⟨Nat.zero_le _, by
    rw [List.length_append, htable, Builder.seg_length]; omega⟩]
  dsimp only
  rw [slice_zero, Nat.sub_zero, ← htable, List.take_length_add_append, message, htake]

theorem finish_of_err (h : b.err.isSome = true) : ∃ e, b.finish = .error e := by
  obtain ⟨e, he⟩ := Option.isSome_iff_exists.mp h
  refine ⟨e, ?_⟩
  rw [Builder.finish, he]

end RoundTrip

/-! ### Any segment -/

section Sound

variable {α β : Type}

/-- A value for which this holds, or an error; no overflow. -/
def Sound (x : Checked α) (P : α → Prop) : Prop :=
  x ≠ .error .overflow ∧ ∀ a, x = .ok a → P a

theorem sound_ok {a : α} {P : α → Prop} (h : P a) : Sound (.ok a) P := by
  refine ⟨nofun, fun b hb => ?_⟩
  cases hb
  exact h

theorem sound_refuse {P : α → Prop} (e : Error) : Sound (refuse e) P := by
  refine ⟨fun h => ?_, fun b hb => ?_⟩
  · cases h
  · cases hb

theorem Sound.bind {x : Checked α} {f : α → Checked β} {P : α → Prop} {Q : β → Prop}
    (hx : Sound x P) (hf : ∀ a, P a → Sound (f a) Q) : Sound (x >>= f) Q := by
  rcases x with e | a
  · refine ⟨fun h => hx.1 ?_, fun b hb => ?_⟩
    · cases h
      rfl
    · cases hb
  · exact hf a (hx.2 a rfl)

theorem Sound.usize {n : ℕ} (h : n ≤ u64Max) : Sound (usize n) fun _ => True := by
  rw [usize_of_le h]
  exact sound_ok trivial

theorem sound_int64 {x : ℤ} (h : i64Min ≤ x ∧ x ≤ i64Max) : Sound (int64 x) fun _ => True := by
  rw [int64, if_pos h]
  exact sound_ok trivial

theorem signedOffset_bounds (p : ℕ) : -2 ^ 29 ≤ signedOffset p ∧ signedOffset p < 2 ^ 29 := by
  have hlt := Nat.mod_lt p (Nat.two_pow_pos 32)
  rw [signedOffset]
  generalize p % 2 ^ 32 = x at hlt ⊢
  split_ifs
  · omega
  · omega

theorem sound_target (p : ℕ) (h : at' ≤ 2 ^ 32) :
    Sound (target at' p) fun a => a ≤ 2 ^ 34 := by
  obtain ⟨hlow, hhigh⟩ := signedOffset_bounds p
  have hmax : at' + 8 ≤ u64Max := by
    rw [u64Max]
    omega
  rw [target]
  refine (Sound.usize hmax).bind fun _ _ => ?_
  generalize signedOffset p = x at hlow hhigh
  by_cases hbase : ((at' + 8 : ℕ) : ℤ) > i64Max
  · rw [if_pos hbase]
    exact sound_refuse _
  · rw [if_neg hbase]
    refine (sound_int64 ?_).bind fun _ _ => ?_
    · rw [i64Min, i64Max]
      omega
    refine (sound_int64 ?_).bind fun _ _ => ?_
    · rw [i64Min, i64Max]
      omega
    split_ifs with hneg
    · exact sound_refuse _
    · refine sound_ok ?_
      omega

theorem sound_word {seg : Bytes} (h : at' + 8 ≤ 2 ^ 34) :
    Sound (word seg at') fun _ => at' + 8 ≤ seg.length := by
  have hmax : at' + 8 ≤ u64Max := by
    rw [u64Max]
    omega
  rw [word]
  refine (Sound.usize hmax).bind fun _ _ => ?_
  rw [get]
  split_ifs with hin
  · exact sound_ok hin.2
  · exact sound_refuse _

end Sound

namespace View

/-- No call of the reader overflows, and what it returns lies in the segment. The offsets of fields
are numbers of the program; they are at most so large that their own sum is a `usize`. -/
structure Safe (v : View) : Prop where
  field : ∀ n off, off + n ≤ u64Max →
    ∃ b, v.field n off = .ok b ∧ (b = zeros n ∨ ∃ a, a + n ≤ v.seg.length ∧ b = slice v.seg a n)
  u16 : ∀ off, off + 2 ≤ u64Max → ∃ b, v.field 2 off = .ok b ∧ v.u16 off = .ok (ofLe b)
  u32 : ∀ off, off + 4 ≤ u64Max → ∃ b, v.field 4 off = .ok b ∧ v.u32 off = .ok (ofLe b)
  i64 : ∀ off, off + 8 ≤ u64Max →
    ∃ b, v.field 8 off = .ok b ∧ v.i64 off = .ok (BitVec.ofNat 64 (ofLe b)).toInt
  bool : ∀ bit, bit / 8 + 1 ≤ u64Max →
    ∃ b, v.field 1 (bit / 8) = .ok b ∧ v.bool bit = .ok ((b.headD 0).toNat.testBit (bit % 8))
  structAt : ∀ i, Sound (v.structAt i) fun w => w.seg = v.seg
  dataAt : ∀ i, Sound (v.dataAt i) fun b => ∃ a, a + b.length ≤ v.seg.length ∧
    b = slice v.seg a b.length
  textAt : ∀ i, Sound (v.textAt i) fun t => v.dataAt i = .ok (utf8 t) ∨
    v.dataAt i = .ok (utf8 t ++ [0])

variable {v : View}

theorem sound_span {seg : Bytes} {data x y : ℕ} (hdata : data ≤ 2 ^ 34) (hx : x < 2 ^ 16)
    (hy : y < 2 ^ 16) :
    Sound (do
      usize ((x + y) * 8)
      usize (data + (x + y) * 8)
      if h : seg.length < data + (x + y) * 8 then refuse .outOfBounds
      else pure (⟨seg, data, x, y, false, fun _ => Nat.not_lt.mp h⟩ : View)) fun w => w.seg = seg := by
  refine (Sound.usize (by rw [u64Max]; omega)).bind fun _ _ => ?_
  refine (Sound.usize (by rw [u64Max]; omega)).bind fun _ _ => ?_
  split_ifs
  · exact sound_refuse _
  · exact sound_ok rfl

theorem sound_follow {seg : Bytes} (h : at' ≤ 2 ^ 32) :
    Sound (follow seg at') fun w => w.seg = seg := by
  rw [follow]
  refine (sound_word (by omega)).bind fun p _ => ?_
  split_ifs
  · exact sound_ok rfl
  · exact sound_refuse _
  · have hdata := Nat.mod_lt (p >>> 32) (Nat.two_pow_pos 16)
    have hptr := Nat.mod_lt (p >>> 48) (Nat.two_pow_pos 16)
    exact (sound_target p h).bind fun data hle => sound_span hle hdata hptr

theorem sound_ptr (hseg : v.seg.length < 2 ^ 32) (i : ℕ) :
    Sound (v.ptr i) fun o => ∀ at' ∈ o, at' + 8 ≤ v.seg.length := by
  rw [ptr]
  split_ifs with h
  · have hin := v.inside h.1
    refine (Sound.usize (by rw [u64Max]; omega)).bind fun _ _ => ?_
    refine (Sound.usize (by rw [u64Max]; omega)).bind fun _ _ => ?_
    refine sound_ok fun at' hat => ?_
    cases hat
    omega
  · exact sound_ok nofun

theorem field_eq_ok (hseg : v.seg.length < 2 ^ 32) {n off : ℕ} (hoff : off + n ≤ u64Max) :
    ∃ b, v.field n off = .ok b ∧
      (b = zeros n ∨ ∃ a, a + n ≤ v.seg.length ∧ b = slice v.seg a n) := by
  rw [field]
  rcases hnull : v.null with - | -
  · have hin := v.inside hnull
    rw [if_neg Bool.false_ne_true, usize_of_le hoff, ok_bind,
      usize_of_le (le_u64Max (show v.dataWords * 8 ≤ v.seg.length by omega) hseg.le), ok_bind]
    split_ifs with hle
    · have hfits : v.data + off + n ≤ v.seg.length := by omega
      rw [usize_of_le (le_u64Max hfits hseg.le), ok_bind, get_of_le hfits]
      exact ⟨_, rfl, .inr ⟨_, hfits, rfl⟩⟩
    · exact ⟨_, rfl, .inl rfl⟩
  · exact ⟨_, rfl, .inl rfl⟩

theorem sound_dataAt (hseg : v.seg.length < 2 ^ 32) (i : ℕ) :
    Sound (v.dataAt i) fun b => ∃ a, a + b.length ≤ v.seg.length ∧ b = slice v.seg a b.length := by
  rw [dataAt]
  refine (sound_ptr hseg i).bind fun o ho => ?_
  rcases o with - | at'
  · exact sound_ok ⟨0, Nat.zero_le _, rfl⟩
  · have hat := ho at' rfl
    dsimp only
    refine (sound_word (by omega)).bind fun p _ => ?_
    split_ifs
    · exact sound_ok ⟨0, Nat.zero_le _, rfl⟩
    · exact sound_refuse _
    · exact sound_refuse _
    · refine (sound_target p (by omega)).bind fun start _ => ?_
      split_ifs
      · exact sound_refuse _
      · rw [get]
        split_ifs with hin
        · have hlen : (slice v.seg start (start + p >>> 35 - start)).length = p >>> 35 := by
            rw [slice_length (by omega)]
            omega
          refine sound_ok ⟨start, ?_, ?_⟩
          · rw [hlen]
            exact hin.2
          · rw [hlen, Nat.add_sub_cancel_left]
        · exact sound_refuse _

/-- **The reader is safe** on every segment of less than 2^32 bytes. -/
theorem safe (hseg : v.seg.length < 2 ^ 32) : Safe v := by
  refine ⟨fun n off hoff => field_eq_ok hseg hoff, fun off hoff => ?_, fun off hoff => ?_,
    fun off hoff => ?_, fun bit hoff => ?_, fun i => ?_, sound_dataAt hseg, fun i => ?_⟩
  · obtain ⟨b, hb, -⟩ := field_eq_ok hseg hoff
    exact ⟨b, hb, by rw [u16, hb]; rfl⟩
  · obtain ⟨b, hb, -⟩ := field_eq_ok hseg hoff
    exact ⟨b, hb, by rw [u32, hb]; rfl⟩
  · obtain ⟨b, hb, hbytes⟩ := field_eq_ok hseg hoff
    refine ⟨b, hb, i64_eq hb ?_⟩
    rcases hbytes with rfl | ⟨a, ha, rfl⟩
    · exact List.length_replicate
    · exact slice_length ha
  · obtain ⟨b, hb, -⟩ := field_eq_ok hseg hoff
    exact ⟨b, hb, bool_eq hb⟩
  · rw [structAt]
    refine (sound_ptr hseg i).bind fun o ho => ?_
    rcases o with - | at'
    · exact sound_ok rfl
    · have hat := ho at' rfl
      exact sound_follow (by omega)
  · obtain ⟨hover, hdata⟩ := sound_dataAt hseg i
    rcases hraw : v.dataAt i with e | raw
    · rw [textAt, hraw]
      refine ⟨fun h => hover ?_, fun t ht => by cases ht⟩
      cases h
      exact hraw
    · rw [textAt, hraw, ok_bind]
      dsimp only
      rcases htext : fromUtf8 (if raw.getLast? = some 0 then raw.dropLast else raw) with - | t
      · exact sound_refuse _
      · refine sound_ok ?_
        have hutf := utf8_of_fromUtf8 htext
        split_ifs at hutf with hlast
        · have hne : raw ≠ [] := by
            rintro rfl
            cases hlast
          rw [List.getLast?_eq_some_getLast hne] at hlast
          have hback := List.dropLast_concat_getLast hne
          rw [Option.some.inj hlast] at hback
          rw [hutf, hback]
          exact .inr rfl
        · rw [hutf]
          exact .inl rfl

end View

/-! ### Both together -/

/-- The message has `n` bytes behind its table, the table says so, and the reader finds the
document. -/
structure Delivers (msg : Bytes) (n : ℕ) (doc : Document) : Prop where
  count : segmentCount (msg.take 4) = .ok 1
  body : n / 8 ≤ maxMessageWords → bodyLen (slice msg 4 (tableRest 1)) 1 = .ok n
  renders : ∃ (seg : Bytes) (views : ℕ → View), msg = message seg ∧ seg.length = n ∧ 8 ∣ n ∧
    View.root seg = .ok (views 0) ∧ ∀ k r, doc[k]? = some r → Renders views (views k) r

section Both

variable {seg : Bytes} {n : ℕ}

theorem segmentCount_message (seg : Bytes) : segmentCount ((message seg).take 4) = .ok 1 := by
  have htake : (message seg).take 4 = leBytes 4 0 := by
    rw [message, List.append_assoc, List.take_append_of_le_length (leBytes_length 4 0).ge,
      List.take_of_length_le (leBytes_length 4 0).le]
  rw [htake]
  rfl

theorem slice_message (seg : Bytes) :
    slice (message seg) 4 (tableRest 1) = leBytes 4 (seg.length / 8) := by
  have hdrop : (message seg).drop 4 = leBytes 4 (seg.length / 8) ++ seg := by
    rw [message, List.append_assoc, List.drop_append_of_le_length (leBytes_length 4 0).ge,
      List.drop_of_length_le (leBytes_length 4 0).le, List.nil_append]
  have hrest : tableRest 1 = 4 := by decide
  rw [slice, hdrop, hrest, List.take_append_of_le_length (leBytes_length _ _).ge,
    List.take_of_length_le (leBytes_length _ _).le]

theorem bodyLen_message (h8 : 8 ∣ seg.length) (hpos : 0 < seg.length)
    (hmax : seg.length / 8 ≤ maxMessageWords) :
    bodyLen (slice (message seg) 4 (tableRest 1)) 1 = .ok seg.length := by
  have hlt : seg.length / 8 < 256 ^ 4 := hmax.trans_lt (by decide)
  have hget : get (leBytes 4 (seg.length / 8)) (0 * 4) (0 * 4 + 4) =
      some (leBytes 4 (seg.length / 8)) := by
    rw [get, if_pos ⟨Nat.zero_le _, (leBytes_length 4 _).ge⟩, Nat.zero_mul, Nat.zero_add,
      Nat.sub_zero, slice_zero, List.take_of_length_le (leBytes_length _ _).le]
  have hwords : sumWords (leBytes 4 (seg.length / 8)) 0 1 = .ok (seg.length / 8) := by
    rw [sumWords, hget]
    dsimp only
    rw [sumWords, ofLe_leBytes_of_lt hlt]
    rfl
  rw [slice_message, bodyLen, hwords]
  dsimp only
  rw [if_neg (by omega), if_neg (Nat.not_lt.mpr hmax), Nat.div_mul_cancel h8]

/-- The root of a segment that holds a document. -/
theorem root_of_holds (h : Holds seg seg.length hs doc) (hseg : seg.length ≤ 2 ^ 32) :
    View.root seg = .ok (viewAt seg hs 0) := by
  obtain ⟨s, hs', hword⟩ := h.first
  obtain ⟨hfront, h8, hend, hwords⟩ := h.inside s (List.mem_of_getElem? hs')
  rw [viewAt_of_some hs', View.root]
  exact follow_struct (Nat.dvd_zero 8) h8 hfront hend hseg hwords hword

/-- The front of the segment of a builder, as a segment of its own. -/
theorem holds_front (h : Good b hs doc) :
    Holds (b.seg.take b.len) (b.seg.take b.len).length hs doc := by
  have hlen : (b.seg.take b.len).length = b.len := by
    rw [List.length_take]
    exact min_eq_left h.holds.bound_le
  rw [hlen]
  exact h.holds.take

/-- A finished message delivers its document. -/
theorem delivers_of_good (h : Good b hs doc) (hlen : b.len ≤ 2 ^ 32) (hpos : 0 < b.len)
    (hshort : Short doc) :
    ∃ msg, b.finish = .ok msg ∧ Delivers msg b.len doc := by
  obtain ⟨hfinish, htake⟩ := finish_of_good h hlen
  have hholds := holds_front h
  have h8 : 8 ∣ (b.seg.take b.len).length := hholds.aligned
  refine ⟨_, hfinish, segmentCount_message _, fun hmax => ?_, ?_⟩
  · rw [← htake] at hmax hpos
    exact (bodyLen_message h8 hpos hmax).trans (congrArg Except.ok htake)
  · refine ⟨b.seg.take b.len, viewAt (b.seg.take b.len) hs, rfl, htake, htake ▸ h8,
      root_of_holds hholds (htake.trans_le hlen), fun k r hr => ?_⟩
    exact renders_of_holds hholds (htake.trans_le hlen) hshort hr

/-- **The round trip, and the safety of the reader.** Every sequence of calls, each for a field that
its struct has: into a buffer with the room, `finish` gives a message of one segment of exactly the
words written, and the reader finds every field as it was written last and else its default; into a
buffer without it, `finish` gives an error. And on any segment the reader gives a value or an error,
with no overflow and from bytes of the segment only. -/
theorem round_trip :
    (∀ (buf : Bytes) (dataWords ptrWords : ℕ) (ops : List Op),
      0 < dataWords + ptrWords ∧ dataWords < 2 ^ 16 ∧ ptrWords < 2 ^ 16 →
      ValidAll [Record.blank dataWords ptrWords] ops →
      (table + needed dataWords ptrWords ops ≤ buf.length →
        needed dataWords ptrWords ops ≤ 2 ^ 32 → Short (document dataWords ptrWords ops) →
        ∃ msg, (build buf dataWords ptrWords ops).1.finish = .ok msg ∧
          Delivers msg (needed dataWords ptrWords ops) (document dataWords ptrWords ops)) ∧
      (buf.length < table + needed dataWords ptrWords ops →
        ∃ e, (build buf dataWords ptrWords ops).1.finish = .error e)) ∧
    ∀ seg : Bytes, seg.length < 2 ^ 32 →
      Sound (View.root seg) (fun v => v.seg = seg) ∧ ∀ v : View, v.seg = seg → v.Safe := by
  refine ⟨fun buf dataWords ptrWords ops hwords hops => ?_, fun seg hseg => ?_⟩
  · obtain ⟨hgood, hfull⟩ := build_good buf hwords hops
    refine ⟨fun hfits hlen hshort => ?_, fun hover => finish_of_err (hfull ?_)⟩
    · obtain ⟨hall, hb, -⟩ := hgood (by dsimp only; omega)
      rw [Nat.zero_add] at hb
      obtain ⟨msg, hmsg, hdelivers⟩ := delivers_of_good hall (hb.trans_le hlen)
        (hb ▸ by rw [needed]; omega) hshort
      exact ⟨msg, hmsg, hb ▸ hdelivers⟩
    · dsimp only
      omega
  · refine ⟨View.sound_follow (Nat.zero_le _), fun v hv => View.safe ?_⟩
    rw [hv]
    exact hseg

/-- A struct in a struct, with a scalar and a text, in a buffer of exactly the room. -/
theorem round_trip_nested :
    (∃ msg, (build (zeros 48) 0 1 [.struct 0 0 1 1, .scalar 1 2 (.u16 7443),
        .text 1 0 "hop"]).1.finish = .ok msg ∧
      Delivers msg 40 [⟨[], [.struct 1]⟩, ⟨[0, 0, 0x13, 0x1d, 0, 0, 0, 0], [.text "hop"]⟩]) ∧
    (View.empty [0xff]).Safe := by
  obtain ⟨hbuilt, hread⟩ := round_trip
  have hops : ValidAll [Record.blank 0 1] [.struct 0 0 1 1, .scalar 1 2 (.u16 7443),
      .text 1 0 "hop"] :=
    ⟨⟨⟨_, rfl, by decide⟩, by decide⟩, ⟨_, rfl, by decide⟩, ⟨_, rfl, by decide⟩, trivial⟩
  have hneeded : needed 0 1 [.struct 0 0 1 1, .scalar 1 2 (.u16 7443), .text 1 0 "hop"] = 40 := by
    decide
  have hfound := (hbuilt (zeros 48) 0 1 _ (by decide) hops).1
  rw [hneeded] at hfound
  have hshort : Short (document 0 1 [.struct 0 0 1 1, .scalar 1 2 (.u16 7443),
      .text 1 0 "hop"]) := by
    intro r hr v hv
    rcases List.mem_pair.mp hr with rfl | rfl
    · rw [List.mem_singleton.mp hv]
      trivial
    · rw [List.mem_singleton.mp hv]
      show (utf8 "hop").length + 1 < 2 ^ 29
      decide
  exact ⟨hfound (by decide) (by decide) hshort,
    (hread [0xff] (by decide)).2 (.empty [0xff]) rfl⟩

/-- The bytes of a data field, as far as the count of the pointer goes. -/
theorem dataAt_of_holds {k i : ℕ} {r : Record} {raw : Bytes} (h : Holds seg seg.length hs doc)
    (hseg : seg.length ≤ 2 ^ 32) (hr : doc[k]? = some r) (hi : r.slots[i]? = some (.data raw)) :
    (viewAt seg hs k).dataAt i = .ok (raw.take (raw.length % 2 ^ 29)) := by
  have hk : k < hs.length := h.length_eq ▸ (List.getElem?_eq_some_iff.mp hr).1
  have hs' : hs[k]? = some hs[k] := List.getElem?_eq_getElem hk
  generalize hs[k] = s at hs'
  have hshows := h.shows k s r hs' hr
  obtain ⟨-, h8, hend, -⟩ := h.inside s (List.mem_of_getElem? hs')
  obtain ⟨a, hpoints⟩ := hshows.slots i _ hi
  have hlt : i < s.ptrWords := hshows.slots_length ▸ (List.getElem?_eq_some_iff.mp hi).1
  have hviewSeg : (viewOf seg s).seg = seg := by rw [viewOf_of_le hend]
  have haligned : 8 ∣ s.slot i := by
    rw [Struct.slot]
    omega
  rw [← hviewSeg] at hpoints
  rw [viewAt_of_some hs']
  exact dataAt_of_points haligned le_rfl (by rw [hviewSeg]; exact hseg) (ptr_of_lt hend hseg hlt)
    hpoints

/-- A struct with one data field, in a buffer of exactly the room. -/
theorem good_data (raw : Bytes) (h8 : 8 ∣ raw.length) :
    ∃ b hs, (build (zeros (24 + raw.length)) 0 1 [.data 0 0 raw]).1 = b ∧
      Good b hs [⟨[], [.data raw]⟩] ∧ b.len = 16 + raw.length := by
  have hops : ValidAll [Record.blank 0 1] [.data 0 0 raw] :=
    ⟨⟨_, rfl, Nat.one_pos⟩, trivial⟩
  obtain ⟨hgood, -⟩ := build_good (zeros (24 + raw.length))
    ⟨Nat.one_pos, by decide, by decide⟩ hops
  have hneeded : needed 0 1 [.data 0 0 raw] = 16 + raw.length := by
    rw [needed, List.map_singleton, List.sum_singleton, Op.cost, padded]
    omega
  have hbuf : (zeros (24 + raw.length)).length = 24 + raw.length := List.length_replicate
  rw [hneeded] at hgood
  dsimp only at hgood
  rw [hbuf, table] at hgood
  obtain ⟨hall, hlen, -⟩ := hgood (by omega)
  exact ⟨_, _, rfl, hall, by omega⟩

/-- Data whose length has no place in a pointer is read as if there were none. -/
theorem dataAt_of_long (raw : Bytes) (hmod : raw.length % 2 ^ 29 = 0) (hmax : raw.length ≤ 2 ^ 30) :
    ∃ seg v, (build (zeros (24 + raw.length)) 0 1 [.data 0 0 raw]).1.finish = .ok (message seg) ∧
      View.root seg = .ok v ∧ v.dataAt 0 = .ok [] := by
  obtain ⟨b, hs, hbuild, hall, hlen⟩ := good_data raw (by omega)
  rw [hbuild]
  obtain ⟨hfinish, htake⟩ := finish_of_good hall (by omega)
  have hholds := holds_front hall
  have hseg := htake.trans_le (show b.len ≤ 2 ^ 32 by omega)
  refine ⟨_, _, hfinish, root_of_holds hholds hseg, ?_⟩
  have hread := dataAt_of_holds (k := 0) (i := 0) (r := ⟨[], [.data raw]⟩) hholds hseg rfl rfl
  rwa [hmod, List.take_zero] at hread

/-- A segment whose words are no `u32` has no table. -/
theorem finish_of_long (raw : Bytes) (h8 : 8 ∣ raw.length) (hlen : 2 ^ 35 ≤ raw.length) :
    ∃ e, (build (zeros (24 + raw.length)) 0 1 [.data 0 0 raw]).1.finish = .error e := by
  obtain ⟨b, hs, hbuild, hall, hb⟩ := good_data raw h8
  rw [hbuild, Builder.finish, hall.err]
  dsimp only
  rw [if_pos (by omega)]
  exact ⟨_, rfl⟩

/-- The limits: 2^29 zeros are read as nothing; 2^35 zeros are not written, whatever the room; and a
field whose end is no `usize` overflows. -/
theorem round_trip_limits :
    (∃ seg v,
      (build (zeros (24 + 2 ^ 29)) 0 1 [.data 0 0 (zeros (2 ^ 29))]).1.finish = .ok (message seg) ∧
        View.root seg = .ok v ∧ v.dataAt 0 = .ok []) ∧
    (∃ e, (build (zeros (24 + 2 ^ 35)) 0 1 [.data 0 0 (zeros (2 ^ 35))]).1.finish = .error e) ∧
    ∃ v : View, v.seg.length < 2 ^ 32 ∧ v.u16 u64Max = .error .overflow := by
  have hlen : ∀ n, (zeros n).length = n := fun n => List.length_replicate
  refine ⟨?_, ?_, ⟨[], 0, 0, 0, false, fun _ => Nat.le_refl 0⟩, by decide, rfl⟩
  · have hread := dataAt_of_long (zeros (2 ^ 29)) (by rw [hlen, Nat.mod_self])
      (by rw [hlen]; decide)
    rwa [hlen] at hread
  · have hfinish := finish_of_long (zeros (2 ^ 35)) (by rw [hlen]; decide) (by rw [hlen])
    rwa [hlen] at hfinish

end Both

end Hop.Cloudflared.Capnp
