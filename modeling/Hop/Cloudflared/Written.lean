import Hop.Cloudflared.Document

/-!
# Every call writes what it should

`step_good`: a call keeps that the segment holds the document, if the buffer has the room for it;
else an error stays. `build_good` is this for all the calls of a message.
-/

namespace Hop.Cloudflared.Capnp

variable {raw v : Bytes}

/-! ### Errors stay -/

/-- The buffer keeps its length, and an error stays. -/
structure Kept (b b' : Builder) : Prop where
  length : b'.buf.length = b.buf.length
  sticky : b.err.isSome = true → b'.err.isSome = true

theorem Kept.refl (b : Builder) : Kept b b := ⟨rfl, id⟩

theorem Kept.trans {b b' b'' : Builder} (h : Kept b b') (h' : Kept b' b'') : Kept b b'' :=
  ⟨h'.length.trans h.length, h'.sticky ∘ h.sticky⟩

namespace Builder

variable {b b' : Builder}

theorem isSome_fail (b : Builder) (e : Error) : (b.fail e).err.isSome = true := by
  rw [fail]
  rcases b.err with - | e'
  · rfl
  · rfl

theorem kept_fail (b : Builder) (e : Error) : Kept b (b.fail e) := ⟨rfl, fun _ => isSome_fail b e⟩

theorem kept_alloc (b : Builder) (n : ℕ) : Kept b (b.alloc n).2 := by
  rw [alloc]
  split_ifs with h
  · refine ⟨overwrite_length ?_, id⟩
    rw [zeros, List.length_replicate]
    omega
  · exact kept_fail _ _

theorem kept_write (b : Builder) (at' : ℕ) (v : Bytes) : Kept b (b.write at' v) := by
  rw [write]
  split_ifs with h
  · exact ⟨overwrite_length h, id⟩
  · exact kept_fail _ _

theorem kept_newBare (b : Builder) (dataWords ptrWords : ℕ) :
    Kept b (b.newBare dataWords ptrWords).2 := kept_alloc b _

theorem kept_ptrAt (b : Builder) (s : Struct) (i : ℕ) : Kept b (b.ptrAt s i).2 := by
  rw [ptrAt]
  split_ifs
  · exact kept_fail _ _
  · exact Kept.refl b

theorem kept_newStruct (b : Builder) (s : Struct) (i dataWords ptrWords : ℕ) :
    Kept b (b.newStruct s i dataWords ptrWords).2 := by
  have hbare := kept_newBare b dataWords ptrWords
  have hptr := kept_ptrAt (b.newBare dataWords ptrWords).2 s i
  rw [newStruct]
  dsimp only
  split
  · exact (hbare.trans hptr).trans (kept_write _ _ _)
  · exact hbare.trans hptr

theorem kept_setBytes (b : Builder) (s : Struct) (off : ℕ) (v : Bytes) :
    Kept b (b.setBytes s off v) := by
  rw [setBytes]
  split_ifs
  · exact kept_fail _ _
  · exact kept_write _ _ _

theorem kept_setBool (b : Builder) (s : Struct) (bit : ℕ) (v : Bool) :
    Kept b (b.setBool s bit v) := by
  rw [setBool]
  split_ifs
  · exact Kept.refl b
  · exact kept_fail _ _
  · split
    · exact ⟨List.length_set, id⟩
    · exact kept_fail _ _

theorem kept_bytes (b : Builder) (raw : Bytes) (nul : ℕ) : Kept b (b.bytes raw nul).2 := by
  have halloc := kept_alloc b ((raw.length + nul + 7) / 8 * 8)
  rw [bytes]
  rcases h : b.alloc ((raw.length + nul + 7) / 8 * 8) with ⟨- | start, b'⟩
  · rw [h] at halloc
    exact halloc
  · rw [h] at halloc
    dsimp only
    split_ifs with hfits
    · exact halloc.trans ⟨overwrite_length hfits, id⟩
    · exact halloc

theorem kept_setListBytes (b : Builder) (s : Struct) (i : ℕ) (v : Bytes) (nul : ℕ) :
    Kept b (b.setListBytes s i v nul) := by
  have hptr := kept_ptrAt b s i
  rw [setListBytes]
  rcases h : b.ptrAt s i with ⟨- | at', b'⟩
  · rw [h] at hptr
    exact hptr
  · rw [h] at hptr
    have hbytes := kept_bytes b' v nul
    dsimp only
    rcases h' : b'.bytes v nul with ⟨- | ⟨start, n⟩, b''⟩
    · rw [h'] at hbytes
      exact hptr.trans hbytes
    · rw [h'] at hbytes
      exact (hptr.trans hbytes).trans (kept_write _ _ _)

theorem kept_setTexts (b : Builder) (at' : ℕ) (vs : List String) : Kept b (b.setTexts at' vs) := by
  induction vs generalizing b at' with
  | nil => exact Kept.refl b
  | cons v vs ih =>
    have hbytes := kept_bytes b (utf8 v) 1
    rw [setTexts]
    rcases h : b.bytes (utf8 v) 1 with ⟨- | ⟨start, n⟩, b'⟩
    · rw [h] at hbytes
      exact hbytes.trans (ih _ _)
    · rw [h] at hbytes
      exact (hbytes.trans (kept_write _ _ _)).trans (ih _ _)

theorem kept_setTextList (b : Builder) (s : Struct) (i : ℕ) (vs : List String) :
    Kept b (b.setTextList s i vs) := by
  have hptr := kept_ptrAt b s i
  rw [setTextList]
  rcases h : b.ptrAt s i with ⟨- | at', b'⟩
  · rw [h] at hptr
    exact hptr
  · rw [h] at hptr
    have halloc := kept_alloc b' (vs.length * 8)
    dsimp only
    rcases h' : b'.alloc (vs.length * 8) with ⟨- | start, b''⟩
    · rw [h'] at halloc
      exact hptr.trans halloc
    · rw [h'] at halloc
      exact ((hptr.trans halloc).trans (kept_write _ _ _)).trans (kept_setTexts _ _ _)

theorem kept_setEmptyList (b : Builder) (s : Struct) (i : ℕ) : Kept b (b.setEmptyList s i) := by
  have hptr := kept_ptrAt b s i
  rw [setEmptyList]
  rcases h : b.ptrAt s i with ⟨- | at', b'⟩
  · rw [h] at hptr
    exact hptr
  · rw [h] at hptr
    exact hptr.trans (kept_write _ _ _)

end Builder

/-- What is done with a struct by its number. -/
theorem kept_handle (st : Builder × List Struct) (k : ℕ) (f : Struct → Builder × List Struct)
    (hf : ∀ s, Kept st.1 (f s).1) :
    Kept st.1 (match st.2[k]? with | none => st | some s => f s).1 := by
  rcases st.2[k]? with - | s
  · exact Kept.refl _
  · exact hf s

theorem kept_step (st : Builder × List Struct) (op : Op) : Kept st.1 (step st op).1 := by
  rcases op with ⟨k, i, dataWords, ptrWords⟩ | ⟨k, off, v⟩ | ⟨k, bit, v⟩ | ⟨k, i, v⟩ | ⟨k, i, v⟩ |
    ⟨k, i, vs⟩ | ⟨k, i⟩
  · exact kept_handle st k _ fun s => Builder.kept_newStruct _ _ _ _ _
  · refine kept_handle st k _ fun s => ?_
    rcases v with v | v | v | v
    · exact Builder.kept_setBytes _ _ _ _
    · exact Builder.kept_setBytes _ _ _ _
    · exact Builder.kept_setBytes _ _ _ _
    · exact Builder.kept_setBytes _ _ _ _
  · exact kept_handle st k _ fun s => Builder.kept_setBool _ _ _ _
  · exact kept_handle st k _ fun s => Builder.kept_setListBytes _ _ _ _ _
  · exact kept_handle st k _ fun s => Builder.kept_setListBytes _ _ _ _ _
  · exact kept_handle st k _ fun s => Builder.kept_setTextList _ _ _ _
  · exact kept_handle st k _ fun s => Builder.kept_setEmptyList _ _ _

/-! ### What a call does that has room -/

namespace Builder

variable {b : Builder}

/-- The segment, with the room behind it. -/
def seg (b : Builder) : Bytes := b.buf.drop table

theorem seg_length (b : Builder) : b.seg.length = b.buf.length - table := List.length_drop

theorem seg_overwrite {p : ℕ} (h : table + p + v.length ≤ b.buf.length) :
    ({ b with buf := overwrite b.buf (table + p) v } : Builder).seg = overwrite b.seg p v :=
  drop_overwrite h

theorem write_of_fits {at' : ℕ} (h : table + at' + v.length ≤ b.buf.length) :
    b.write at' v = { b with buf := overwrite b.buf (table + at') v } := if_pos h

theorem zeros_length (n : ℕ) : (zeros n).length = n := List.length_replicate

/-- What was there stays, and behind it there is more. -/
structure Adds (b b' : Builder) (n : ℕ) : Prop where
  err : b'.err = b.err
  len : b'.len = b.len + n
  length : b'.buf.length = b.buf.length
  same : ∀ i < b.len, b'.seg[i]? = b.seg[i]?

theorem alloc_of_fits {n : ℕ} (h : table + (b.len + n) ≤ b.buf.length) :
    ∃ b', b.alloc n = (some b.len, b') ∧ Adds b b' n ∧ slice b'.seg b.len n = zeros n := by
  have hfits : table + b.len + (zeros n).length ≤ b.buf.length := by
    rw [zeros_length]
    omega
  have hseg : b.len + (zeros n).length ≤ b.seg.length := by
    rw [seg_length]
    omega
  have heq : ({ b with buf := overwrite b.buf (table + b.len) (zeros n), len := b.len + n } :
      Builder).seg = overwrite b.seg b.len (zeros n) := drop_overwrite hfits
  refine ⟨_, if_pos h, ⟨rfl, rfl, overwrite_length hfits, fun i hi => ?_⟩, ?_⟩
  · rw [heq, getElem?_overwrite_of_lt hseg hi]
  · have hslice := slice_overwrite hseg
    rw [zeros_length] at hslice
    rw [heq, hslice]

theorem le_padded (n : ℕ) : n ≤ padded n := by
  rw [padded]
  omega

theorem dvd_padded (n : ℕ) : 8 ∣ padded n := Nat.dvd_mul_left 8 _

theorem bytes_of_fits {nul : ℕ} (h : table + (b.len + padded (raw.length + nul)) ≤ b.buf.length) :
    ∃ b', b.bytes raw nul = (some (b.len, raw.length + nul), b') ∧
      Adds b b' (padded (raw.length + nul)) ∧
      slice b'.seg b.len (raw.length + nul) = raw ++ zeros nul := by
  obtain ⟨b', halloc, hadds, hzeros⟩ := alloc_of_fits h
  have hpad := le_padded (raw.length + nul)
  have hlen := hadds.length
  have hfits : table + b.len + raw.length ≤ b'.buf.length := by omega
  have hseg : b.len + (raw.length + nul) ≤ b'.seg.length := by
    rw [seg_length]
    omega
  have heq : ({ b' with buf := overwrite b'.buf (table + b.len) raw } : Builder).seg =
      overwrite b'.seg b.len raw := drop_overwrite hfits
  refine ⟨{ b' with buf := overwrite b'.buf (table + b.len) raw }, ?_, ⟨hadds.err, hadds.len,
    (overwrite_length hfits).trans hlen, fun i hi => ?_⟩, ?_⟩
  · rw [bytes]
    rw [padded] at halloc
    rw [halloc]
    dsimp only
    rw [if_pos hfits]
  · rw [heq, getElem?_overwrite_of_lt (by omega) hi]
    exact hadds.same i hi
  · -- the zeros that the bytes leave are those behind them
    have hfront : slice b'.seg b.len (raw.length + nul) = zeros (raw.length + nul) := by
      have hslice := slice_slice b'.seg b.len
        (show 0 + (raw.length + nul) ≤ padded (raw.length + nul) by omega)
      rw [hzeros, Nat.add_zero] at hslice
      rw [← hslice, slice_zero, zeros, zeros, List.take_replicate, Nat.min_eq_left hpad]
    rw [heq, slice_overwrite_around le_rfl (by omega) hseg, hfront, Nat.sub_self, overwrite,
      List.take_zero, List.nil_append, Nat.zero_add, zeros, zeros, List.drop_replicate,
      Nat.add_sub_cancel_left]

/-- A word is written. -/
theorem put_of_fits {at' v : ℕ} (h : at' + 8 ≤ b.len) (hfits : table + b.len ≤ b.buf.length)
    (hv : v < 256 ^ 8) : (b.put at' v).err = b.err ∧ (b.put at' v).len = b.len ∧
      (b.put at' v).buf.length = b.buf.length ∧
      (∀ i, (i < at' ∨ at' + 8 ≤ i) → (b.put at' v).seg[i]? = b.seg[i]?) ∧
      wordAt (b.put at' v).seg at' = v := by
  have hlen := leBytes_length 8 v
  have hfits' : table + at' + (leBytes 8 v).length ≤ b.buf.length := by omega
  have hseg : at' + (leBytes 8 v).length ≤ b.seg.length := by
    rw [seg_length]
    omega
  rw [put, write_of_fits hfits', seg_overwrite hfits']
  refine ⟨rfl, rfl, overwrite_length hfits', fun i hi => ?_, ?_⟩
  · rw [← hlen] at hi
    exact getElem?_overwrite_of_outside hseg hi
  · have hslice := slice_overwrite hseg
    rw [hlen] at hslice
    rw [wordAt, hslice, ofLe_leBytes_of_lt hv]

end Builder

/-! ### Every call keeps the document -/

/-- The builder has no error, and what it has written holds the document. -/
structure Good (b : Builder) (hs : List Struct) (doc : Document) : Prop where
  err : b.err = none
  fits : table + b.len ≤ b.buf.length
  holds : Holds b.seg b.len hs doc

section Calls

variable {b b' : Builder} {hs : List Struct} {doc : Document} {k i : ℕ} {s : Struct} {r : Record}

theorem modify_eq_set {f : Record → Record} (hr : doc[k]? = some r) :
    doc.modify k f = doc.set k (f r) := by
  apply List.ext_getElem?
  intro j
  by_cases hkj : k = j
  · subst hkj
    rw [List.getElem?_modify_eq, hr, List.getElem?_set_self (List.getElem?_eq_some_iff.mp hr).1]
    rfl
  · rw [List.getElem?_modify_ne _ _ hkj, List.getElem?_set_ne hkj]

/-- The struct with a number that the document has. -/
theorem Good.struct (h : Good b hs doc) (hr : doc[k]? = some r) :
    ∃ s, hs[k]? = some s ∧ Shows b.seg b.len hs s r ∧ s ∈ hs ∧ s.data + s.size ≤ b.len := by
  have hk : k < hs.length := h.holds.length_eq ▸ (List.getElem?_eq_some_iff.mp hr).1
  have hs : hs[k]? = some hs[k] := List.getElem?_eq_getElem hk
  have hmem := List.mem_of_getElem? hs
  exact ⟨_, hs, h.holds.shows k _ r hs hr, hmem, (h.holds.inside _ hmem).2.2.1⟩

/-- A slot is written, and what is behind the segment. -/
theorem Good.setSlot {v : Value} (h : Good b hs doc) (hk : hs[k]? = some s) (hr : doc[k]? = some r)
    (hi : i < s.ptrWords) (herr : b'.err = none) (hfits : table + b'.len ≤ b'.buf.length)
    (hle : b.len ≤ b'.len) (haligned : 8 ∣ b'.len)
    (hsame : ∀ j < b.len, (j < s.slot i ∨ s.slot i + 8 ≤ j) → b'.seg[j]? = b.seg[j]?)
    (hv : Stands b'.seg b'.len hs (s.slot i) (wordAt b'.seg (s.slot i)) v) :
    Good b' hs (doc.modify k (·.setSlot i v)) := by
  have hmem := List.mem_of_getElem? hk
  have hend := (h.holds.inside s hmem).2.2.1
  have hslot := s.le_slot i
  have hbound : b'.len ≤ b'.seg.length := by
    rw [Builder.seg_length]
    omega
  refine ⟨herr, hfits, ?_⟩
  rw [modify_eq_set hr]
  exact h.holds.update hk (by omega) (Struct.slot_le hi) hle hbound haligned hsame
    ((h.holds.shows k s r hk hr).setSlot hmem hend hi hle hsame hv)

theorem ptrAt_of_lt (hi : i < s.ptrWords) : b.ptrAt s i = (some (s.slot i), b) :=
  if_neg (Nat.not_le.mpr hi)

/-- What is behind the segment belongs to no struct. -/
theorem Good.clear (h : Good b hs doc) {a n : ℕ} (ha : b.len ≤ a) : Clear hs a n := fun s hs =>
  .inr ((h.holds.inside s hs).2.2.1.trans ha)

/-- Texts and data. -/
theorem Good.setListBytes {v : Value} {nul : ℕ} (h : Good b hs doc) (hk : hs[k]? = some s)
    (hr : doc[k]? = some r) (hi : i < s.ptrWords)
    (hfits : table + (b.len + padded (raw.length + nul)) ≤ b.buf.length)
    (hv : ∀ seg bound at' w, (∃ a, Points seg bound hs at' w (raw ++ zeros nul) a) →
      Stands seg bound hs at' w v) :
    Good (b.setListBytes s i raw nul) hs (doc.modify k (·.setSlot i v)) ∧
      (b.setListBytes s i raw nul).len = b.len + padded (raw.length + nul) ∧
      (b.setListBytes s i raw nul).buf.length = b.buf.length := by
  obtain ⟨b₁, hbytes, hadds, hslice⟩ := Builder.bytes_of_fits hfits
  have hend := (h.holds.inside s (List.mem_of_getElem? hk)).2.2.1
  have hslot := Struct.slot_le hi
  have hlen := hadds.len
  have hlength := hadds.length
  have hpad := Builder.le_padded (raw.length + nul)
  obtain ⟨herr, hlen', hlength', hsame, hword⟩ := Builder.put_of_fits (b := b₁)
    (show s.slot i + 8 ≤ b₁.len by omega) (by omega)
    (Builder.listWord_lt (s.slot i) b.len (raw.length + nul) (show elemByte < 8 by decide))
  have heq : b.setListBytes s i raw nul =
      b₁.put (s.slot i) (Builder.listWord (s.slot i) b.len elemByte (raw.length + nul)) := by
    rw [Builder.setListBytes, ptrAt_of_lt hi]
    dsimp only
    rw [hbytes]
    rfl
  have hraw : (raw ++ zeros nul).length = raw.length + nul := by
    rw [List.length_append, Builder.zeros_length]
  rw [heq]
  refine ⟨h.setSlot hk hr hi (herr.trans (hadds.err.trans h.err)) (by omega) (by omega) ?_ ?_ ?_,
    by omega, by omega⟩
  · rw [hlen', hlen]
    exact (Nat.dvd_add_right h.holds.aligned).mpr (Builder.dvd_padded _)
  · intro j hj hout
    rw [hsame j hout, hadds.same j hj]
  · refine hv _ _ _ _ ⟨b.len, ?_, by omega, h.holds.aligned, by omega, h.clear le_rfl, ?_⟩
    · rw [hword, hraw]
    · rw [hraw, ← hslice]
      exact slice_congr fun j hj _ => hsame j (.inr (by omega))

theorem Good.setText {v : String} (h : Good b hs doc) (hk : hs[k]? = some s)
    (hr : doc[k]? = some r) (hi : i < s.ptrWords)
    (hfits : table + (b.len + padded ((utf8 v).length + 1)) ≤ b.buf.length) :
    Good (b.setText s i v) hs (doc.modify k (·.setSlot i (.text v))) ∧
      (b.setText s i v).len = b.len + padded ((utf8 v).length + 1) ∧
      (b.setText s i v).buf.length = b.buf.length :=
  h.setListBytes hk hr hi hfits fun _ _ _ _ ha => ha

theorem Good.setData (h : Good b hs doc) (hk : hs[k]? = some s) (hr : doc[k]? = some r)
    (hi : i < s.ptrWords) (hfits : table + (b.len + padded v.length) ≤ b.buf.length) :
    Good (b.setData s i v) hs (doc.modify k (·.setSlot i (.data v))) ∧
      (b.setData s i v).len = b.len + padded v.length ∧
      (b.setData s i v).buf.length = b.buf.length := by
  rw [Builder.setData]
  refine h.setListBytes hk hr hi hfits fun seg bound at' w ha => ?_
  rwa [zeros, List.replicate_zero, List.append_nil] at ha

/-- Bytes of a struct are written. -/
theorem Good.setBytes {off : ℕ} (h : Good b hs doc) (hk : hs[k]? = some s) (hr : doc[k]? = some r)
    (hoff : off + v.length ≤ r.data.length) :
    Good (b.setBytes s off v) hs (doc.modify k (·.setBytes off v)) ∧
      (b.setBytes s off v).len = b.len ∧ (b.setBytes s off v).buf.length = b.buf.length := by
  have hmem := List.mem_of_getElem? hk
  have hend := (h.holds.inside s hmem).2.2.1
  have hshows := h.holds.shows k s r hk hr
  have hfits := h.fits
  have hsize : s.dataWords * 8 ≤ s.size := by
    rw [Struct.size]
    omega
  rw [hshows.data_length] at hoff
  have hfits' : table + (s.data + off) + v.length ≤ b.buf.length := by omega
  have hseg : s.data + off + v.length ≤ b.seg.length := by
    rw [Builder.seg_length]
    omega
  have hlen : (overwrite b.seg (s.data + off) v).length = b.seg.length := overwrite_length hseg
  have heq : b.setBytes s off v =
      { b with buf := overwrite b.buf (table + (s.data + off)) v } := by
    rw [Builder.setBytes, if_neg (Nat.not_lt.mpr hoff), Builder.write_of_fits hfits']
  rw [heq]
  refine ⟨⟨h.err, ?_, ?_⟩, rfl, overwrite_length hfits'⟩
  · rw [overwrite_length hfits']
    exact hfits
  · rw [Builder.seg_overwrite hfits', modify_eq_set hr]
    exact h.holds.update hk (Nat.le_add_right _ _) (show s.data + off + v.length ≤ _ by omega) le_rfl
      (hlen ▸ h.holds.bound_le) h.holds.aligned
      (fun i _ hi => getElem?_overwrite_of_outside hseg hi)
      (hshows.setBytes hmem hend h.holds.bound_le hoff)

theorem set_eq_overwrite {l : Bytes} {p : ℕ} {x : UInt8} (h : p < l.length) :
    l.set p x = overwrite l p [x] := by
  rw [overwrite, List.set_eq_take_append_cons_drop, if_pos h, List.append_assoc]
  rfl

/-- A bit is set in the byte that was there. -/
theorem Good.setBool {bit : ℕ} {v : Bool} (h : Good b hs doc) (hk : hs[k]? = some s)
    (hr : doc[k]? = some r) (hbit : bit / 8 + 1 ≤ r.data.length) :
    Good (b.setBool s bit v) hs (doc.modify k (·.setBool bit v)) ∧
      (b.setBool s bit v).len = b.len ∧ (b.setBool s bit v).buf.length = b.buf.length := by
  rcases v with - | -
  · have hsame : doc.modify k (·.setBool bit false) = doc := by
      rw [modify_eq_set hr, Record.setBool, if_pos rfl]
      obtain ⟨hlt, rfl⟩ := List.getElem?_eq_some_iff.mp hr
      exact List.set_getElem_self hlt
    rw [hsame, Builder.setBool, if_pos rfl]
    exact ⟨h, rfl, rfl⟩
  · have hshows := h.holds.shows k s r hk hr
    have hend := (h.holds.inside s (List.mem_of_getElem? hk)).2.2.1
    have hfits := h.fits
    have hlt : bit / 8 < s.dataWords * 8 := hshows.data_length ▸ hbit
    have hbyte : b.buf[table + s.data + bit / 8]? = r.data[bit / 8]? := by
      rw [← hshows.data, getElem?_slice _ _ hlt, Builder.seg, List.getElem?_drop, Nat.add_assoc]
    have hbuf : table + s.data + bit / 8 < b.buf.length := by
      rw [Struct.size] at hend
      omega
    obtain ⟨x, hx⟩ : ∃ x, b.buf[table + s.data + bit / 8]? = some x :=
      ⟨_, List.getElem?_eq_getElem hbuf⟩
    rw [hx] at hbyte
    have heq : b.setBool s bit true = b.setBytes s (bit / 8) [x ||| Builder.bitMask bit] := by
      have hone : ¬ s.dataWords * 8 < bit / 8 + [x ||| Builder.bitMask bit].length :=
        Nat.not_lt.mpr hlt
      rw [Builder.setBool, if_neg Bool.noConfusion, if_neg (Nat.not_le.mpr hlt), Builder.setBytes,
        if_neg hone, Builder.write_of_fits (by rw [List.length_singleton]; omega), hx]
      dsimp only
      rw [set_eq_overwrite hbuf, Nat.add_assoc]
    have hoff : bit / 8 + [x ||| Builder.bitMask bit].length ≤ r.data.length := hbit
    have hset := h.setBytes hk hr hoff
    rw [modify_eq_set hr] at hset ⊢
    rw [heq, Record.setBool, if_neg Bool.noConfusion, ← hbyte]
    exact hset

theorem Good.setEmptyList (h : Good b hs doc) (hk : hs[k]? = some s) (hr : doc[k]? = some r)
    (hi : i < s.ptrWords) :
    Good (b.setEmptyList s i) hs (doc.modify k (·.setSlot i .emptyList)) ∧
      (b.setEmptyList s i).len = b.len ∧ (b.setEmptyList s i).buf.length = b.buf.length := by
  have hend := (h.holds.inside s (List.mem_of_getElem? hk)).2.2.1
  have hslot := Struct.slot_le hi
  obtain ⟨herr, hlen, hlength, hsame, hword⟩ := Builder.put_of_fits (b := b)
    (show s.slot i + 8 ≤ b.len by omega) h.fits
    (show 1 ||| elemPointer <<< 32 < 256 ^ 8 by decide)
  have heq : b.setEmptyList s i = b.put (s.slot i) (1 ||| elemPointer <<< 32) := by
    rw [Builder.setEmptyList, ptrAt_of_lt hi]
  rw [heq]
  refine ⟨h.setSlot hk hr hi (herr.trans h.err) ?_ hlen.ge ?_ (fun j _ hj => hsame j hj) hword,
    hlen, hlength⟩
  · rw [hlen, hlength]
    exact h.fits
  · rw [hlen]
    exact h.holds.aligned

/-- A new struct has zeros and null pointers. -/
theorem shows_blank {seg : Bytes} {bound dataWords ptrWords a : ℕ}
    (h : slice seg a ((dataWords + ptrWords) * 8) = zeros ((dataWords + ptrWords) * 8)) :
    Shows seg bound hs ⟨a, dataWords, ptrWords⟩ (Record.blank dataWords ptrWords) := by
  have hsub : ∀ i m, i + m ≤ (dataWords + ptrWords) * 8 → slice seg (a + i) m = zeros m := by
    intro i m hle
    rw [← slice_slice seg a hle, h, slice, zeros, zeros, List.drop_replicate, List.take_replicate,
      Nat.min_eq_left (by omega)]
  refine ⟨Builder.zeros_length _, List.length_replicate, hsub 0 _ (by dsimp only; omega),
    fun i v hi => ?_⟩
  have hlt : i < (List.replicate ptrWords Value.null).length := (List.getElem?_eq_some_iff.mp hi).1
  rw [List.length_replicate] at hlt
  have hword := hsub (dataWords * 8 + i * 8) 8 (by omega)
  rw [List.eq_of_mem_replicate (List.mem_of_getElem? hi)]
  change wordAt seg (a + dataWords * 8 + i * 8) = 0
  rw [wordAt, Nat.add_assoc, hword]
  rfl

/-- A new struct, and the pointer to it. -/
theorem Good.newStruct {dataWords ptrWords : ℕ} (h : Good b hs doc) (hk : hs[k]? = some s)
    (hr : doc[k]? = some r) (hi : i < s.ptrWords)
    (hwords : 0 < dataWords + ptrWords ∧ dataWords < 2 ^ 16 ∧ ptrWords < 2 ^ 16)
    (hfits : table + (b.len + (dataWords + ptrWords) * 8) ≤ b.buf.length) :
    Good (b.newStruct s i dataWords ptrWords).2 (hs ++ [(b.newStruct s i dataWords ptrWords).1])
        (doc.modify k (·.setSlot i (.struct doc.length)) ++ [Record.blank dataWords ptrWords]) ∧
      (b.newStruct s i dataWords ptrWords).2.len = b.len + (dataWords + ptrWords) * 8 ∧
      (b.newStruct s i dataWords ptrWords).2.buf.length = b.buf.length := by
  obtain ⟨b₁, halloc, hadds, hzeros⟩ := Builder.alloc_of_fits hfits
  have hend := (h.holds.inside s (List.mem_of_getElem? hk)).2.2.1
  have hslot := Struct.slot_le hi
  have hlen := hadds.len
  have hlength := hadds.length
  have heq : b.newStruct s i dataWords ptrWords =
      (⟨b.len, dataWords, ptrWords⟩, b₁.structPtr (s.slot i) ⟨b.len, dataWords, ptrWords⟩) := by
    rw [Builder.newStruct, Builder.newBare, halloc]
    dsimp only [Option.getD]
    rw [ptrAt_of_lt hi]
  have hgood : Good b₁ (hs ++ [⟨b.len, dataWords, ptrWords⟩])
      (doc ++ [Record.blank dataWords ptrWords]) := by
    refine ⟨hadds.err.trans h.err, by omega, ?_⟩
    exact h.holds.push rfl hlen.symm (by rw [Builder.seg_length]; omega) hwords hadds.same
      (shows_blank hzeros)
  have hlt := (List.getElem?_eq_some_iff.mp hk).1
  have hlt' := (List.getElem?_eq_some_iff.mp hr).1
  have hbound : Builder.structWord (s.slot i) ⟨b.len, dataWords, ptrWords⟩ < 256 ^ 8 :=
    Builder.structWord_lt hwords.2.1 hwords.2.2
  obtain ⟨herr, hlen', hlength', hsame, hword⟩ := Builder.put_of_fits (b := b₁)
    (show s.slot i + 8 ≤ b₁.len by omega) (by omega) hbound
  have hset := hgood.setSlot ((List.getElem?_append_left hlt).trans hk)
    ((List.getElem?_append_left hlt').trans hr) hi (herr.trans hgood.err) (by omega) hlen'.ge
    (by rw [hlen']; exact hgood.holds.aligned) (fun j _ hj => hsame j hj)
    (show Stands _ _ _ _ _ (.struct doc.length) from
      ⟨_, by rw [← h.holds.length_eq, List.getElem?_concat_length], by dsimp only; omega, hword⟩)
  rw [heq]
  refine ⟨?_, hlen'.trans hlen, hlength'.trans hlength⟩
  rw [modify_eq_set ((List.getElem?_append_left hlt').trans hr), List.set_append_left _ _ hlt']
    at hset
  rw [modify_eq_set hr]
  exact hset

/-- How many bytes the texts of a list take. -/
def textsCost (vs : List String) : ℕ := (vs.map fun v => padded ((utf8 v).length + 1)).sum

theorem textsCost_cons (v : String) (vs : List String) :
    textsCost (v :: vs) = padded ((utf8 v).length + 1) + textsCost vs := List.sum_cons

theorem dvd_textsCost (vs : List String) : 8 ∣ textsCost vs := by
  induction vs with
  | nil => exact Nat.dvd_zero 8
  | cons v vs ih =>
    rw [textsCost_cons]
    exact Nat.dvd_add (Builder.dvd_padded _) ih

/-- The texts of a list, one behind the other; their pointers are at `at'`. -/
theorem setTexts_of_fits {at' : ℕ} (vs : List String) (haligned : 8 ∣ b.len)
    (hle : at' + vs.length * 8 ≤ b.len) (hclear : ∀ s ∈ hs, s.data + s.size ≤ at')
    (hfits : table + (b.len + textsCost vs) ≤ b.buf.length) :
    (b.setTexts at' vs).err = b.err ∧ (b.setTexts at' vs).len = b.len + textsCost vs ∧
      (b.setTexts at' vs).buf.length = b.buf.length ∧
      (∀ i < b.len, (i < at' ∨ at' + vs.length * 8 ≤ i) →
        (b.setTexts at' vs).seg[i]? = b.seg[i]?) ∧
      ∀ m v, vs[m]? = some v → ∃ c, Points (b.setTexts at' vs).seg (b.setTexts at' vs).len hs
        (at' + m * 8) (wordAt (b.setTexts at' vs).seg (at' + m * 8)) (utf8 v ++ [0]) c := by
  induction vs generalizing b at' with
  | nil => exact ⟨rfl, rfl, rfl, fun _ _ _ => rfl, nofun⟩
  | cons v vs ih =>
    rw [textsCost_cons] at hfits ⊢
    rw [List.length_cons] at hle ⊢
    have hroom : table + (b.len + padded ((utf8 v).length + 1)) ≤ b.buf.length := by omega
    obtain ⟨b₁, hbytes, hadds, hslice⟩ := Builder.bytes_of_fits hroom
    have hzero : zeros 1 = [0] := rfl
    rw [hzero] at hslice
    have hlen := hadds.len
    have hlength := hadds.length
    have hpad := Builder.le_padded ((utf8 v).length + 1)
    obtain ⟨herr, hlen', hlength', hsame, hword⟩ := Builder.put_of_fits (b := b₁)
      (show at' + 8 ≤ b₁.len by omega) (by omega)
      (Builder.listWord_lt at' b.len ((utf8 v).length + 1) (show elemByte < 8 by decide))
    have heq : b.setTexts at' (v :: vs) = Builder.setTexts
        (b₁.put at' (Builder.listWord at' b.len elemByte ((utf8 v).length + 1))) (at' + 8) vs := by
      rw [Builder.setTexts, hbytes]
      rfl
    rw [heq]
    have hclear' : ∀ s ∈ hs, s.data + s.size ≤ at' + 8 := fun s hs =>
      (hclear s hs).trans (Nat.le_add_right _ _)
    obtain ⟨herr₂, hlen₂, hlength₂, hsame₂, heach⟩ := ih (b := b₁.put at' _)
      (by rw [hlen', hlen]; exact Nat.dvd_add haligned (Builder.dvd_padded _))
      (by rw [hlen', hlen]; omega) hclear' (by rw [hlen', hlen, hlength', hlength]; omega)
    refine ⟨herr₂.trans (herr.trans hadds.err), by omega, by omega, fun i hi hout => ?_, ?_⟩
    · rw [hsame₂ i (by omega) (by omega), hsame i (by omega), hadds.same i hi]
    · intro m w hm
      rcases m with - | m
      · cases hm
        have hraw : (utf8 v ++ [0]).length = (utf8 v).length + 1 := List.length_append
        have hword₂ : wordAt (Builder.setTexts (b₁.put at' _) (at' + 8) vs).seg at' = _ :=
          (congrArg ofLe (slice_congr fun i hi hi' => hsame₂ i (by omega) (by omega))).trans hword
        refine ⟨b.len, ?_, by omega, haligned, by omega, fun s hs => .inr ?_, ?_⟩
        · simp only [Nat.zero_mul, Nat.add_zero]
          rw [hword₂, hraw]
        · exact (hclear s hs).trans (by omega)
        · rw [hraw, ← hslice]
          exact slice_congr fun i hi hi' => (hsame₂ i (by omega) (by omega)).trans
            (hsame i (by omega))
      · obtain ⟨c, hc⟩ := heach m w hm
        have hnext : at' + (m + 1) * 8 = at' + 8 + m * 8 := by omega
        rw [hnext]
        exact ⟨c, hc⟩

/-- A list of texts. -/
theorem Good.setTextList {vs : List String} (h : Good b hs doc) (hk : hs[k]? = some s)
    (hr : doc[k]? = some r) (hi : i < s.ptrWords)
    (hfits : table + (b.len + (vs.length * 8 + textsCost vs)) ≤ b.buf.length) :
    Good (b.setTextList s i vs) hs (doc.modify k (·.setSlot i (.texts vs))) ∧
      (b.setTextList s i vs).len = b.len + (vs.length * 8 + textsCost vs) ∧
      (b.setTextList s i vs).buf.length = b.buf.length := by
  obtain ⟨b₁, halloc, hadds, -⟩ := Builder.alloc_of_fits (b := b) (n := vs.length * 8) (by omega)
  have hend := (h.holds.inside s (List.mem_of_getElem? hk)).2.2.1
  have hslot := Struct.slot_le hi
  have hlen := hadds.len
  have hlength := hadds.length
  obtain ⟨herr, hlen', hlength', hsame, hword⟩ := Builder.put_of_fits (b := b₁)
    (show s.slot i + 8 ≤ b₁.len by omega) (by omega)
    (Builder.listWord_lt (s.slot i) b.len vs.length (show elemPointer < 8 by decide))
  have heq : b.setTextList s i vs = Builder.setTexts
      (b₁.put (s.slot i) (Builder.listWord (s.slot i) b.len elemPointer vs.length)) b.len vs := by
    rw [Builder.setTextList, ptrAt_of_lt hi]
    dsimp only
    rw [halloc]
    rfl
  have haligned : 8 ∣ b₁.len := by
    rw [hlen]
    exact Nat.dvd_add h.holds.aligned (Nat.dvd_mul_left 8 _)
  have hclear : ∀ s ∈ hs, s.data + s.size ≤ b.len := fun s hs => (h.holds.inside s hs).2.2.1
  obtain ⟨herr₂, hlen₂, hlength₂, hsame₂, heach⟩ := setTexts_of_fits
    (b := b₁.put (s.slot i) (Builder.listWord (s.slot i) b.len elemPointer vs.length)) vs
    (by rw [hlen']; exact haligned) (by omega) hclear (by omega)
  rw [heq]
  refine ⟨h.setSlot hk hr hi (herr₂.trans (herr.trans (hadds.err.trans h.err))) (by omega)
    (by omega) ?_ ?_ ?_, by omega, by omega⟩
  · rw [hlen₂, hlen']
    exact Nat.dvd_add haligned (dvd_textsCost vs)
  · intro j hj hout
    rw [hsame₂ j (by omega) (by omega), hsame j hout, hadds.same j hj]
  · refine ⟨b.len, ?_, by omega, h.holds.aligned, by omega, h.clear le_rfl, heach⟩
    exact (congrArg ofLe (slice_congr fun j hj hj' => hsame₂ j (by omega) (by omega))).trans hword

/-! ### A buffer that is too small -/

theorem alloc_of_full {n : ℕ} (h : b.buf.length < table + (b.len + n)) :
    ∃ b', b.alloc n = (none, b') ∧ b'.err.isSome = true :=
  ⟨_, if_neg (Nat.not_le.mpr h), Builder.isSome_fail b _⟩

theorem bytes_of_full {nul : ℕ} (h : b.buf.length < table + (b.len + padded (raw.length + nul))) :
    ∃ b', b.bytes raw nul = (none, b') ∧ b'.err.isSome = true := by
  obtain ⟨b', halloc, herr⟩ := alloc_of_full h
  refine ⟨b', ?_, herr⟩
  rw [padded] at halloc
  rw [Builder.bytes, halloc]

theorem setListBytes_of_full {nul : ℕ} (hi : i < s.ptrWords)
    (h : b.buf.length < table + (b.len + padded (raw.length + nul))) :
    (b.setListBytes s i raw nul).err.isSome = true := by
  obtain ⟨b', hbytes, herr⟩ := bytes_of_full h
  rw [Builder.setListBytes, ptrAt_of_lt hi]
  dsimp only
  rw [hbytes]
  exact herr

theorem setData_of_full (hi : i < s.ptrWords) (h : b.buf.length < table + (b.len + padded v.length)) :
    (b.setData s i v).err.isSome = true := by
  rw [Builder.setData]
  refine setListBytes_of_full hi ?_
  rwa [Nat.add_zero]

theorem newStruct_of_full {dataWords ptrWords : ℕ} (hi : i < s.ptrWords)
    (h : b.buf.length < table + (b.len + (dataWords + ptrWords) * 8)) :
    (b.newStruct s i dataWords ptrWords).2.err.isSome = true := by
  obtain ⟨b', halloc, herr⟩ := alloc_of_full h
  rw [Builder.newStruct, Builder.newBare, halloc]
  dsimp only
  rw [ptrAt_of_lt hi]
  exact (Builder.kept_write _ _ _).sticky herr

theorem write_len (b : Builder) (at' : ℕ) (v : Bytes) : (b.write at' v).len = b.len := by
  rw [Builder.write]
  split_ifs
  · rfl
  · rfl

theorem setTexts_of_full {at' : ℕ} (vs : List String) (hroom : table + b.len ≤ b.buf.length)
    (h : b.buf.length < table + (b.len + textsCost vs)) :
    (b.setTexts at' vs).err.isSome = true := by
  induction vs generalizing b at' with
  | nil => exact absurd h (Nat.not_lt.mpr hroom)
  | cons v vs ih =>
    rw [textsCost_cons] at h
    rcases Nat.lt_or_ge b.buf.length (table + (b.len + padded ((utf8 v).length + 1))) with hfull | hfits
    · obtain ⟨b', hbytes, herr⟩ := bytes_of_full hfull
      rw [Builder.setTexts, hbytes]
      exact (Builder.kept_setTexts _ _ _).sticky herr
    · obtain ⟨b₁, hbytes, hadds, -⟩ := Builder.bytes_of_fits hfits
      have hlen := hadds.len
      have hlength := hadds.length
      have hput : (b₁.listPtr at' b.len elemByte ((utf8 v).length + 1)).len = b₁.len :=
        write_len _ _ _
      have hkept := (Builder.kept_write b₁ at' (leBytes 8 (Builder.listWord at' b.len elemByte
        ((utf8 v).length + 1)))).length
      have hrest := @ih (b₁.listPtr at' b.len elemByte ((utf8 v).length + 1)) (at' + 8)
        (by rw [hput, Builder.listPtr, Builder.put, hkept]; omega)
        (by rw [hput, Builder.listPtr, Builder.put, hkept]; omega)
      rw [Builder.setTexts, hbytes]
      exact hrest

theorem setTextList_of_full {vs : List String} (hi : i < s.ptrWords)
    (h : b.buf.length < table + (b.len + (vs.length * 8 + textsCost vs))) :
    (b.setTextList s i vs).err.isSome = true := by
  rw [Builder.setTextList, ptrAt_of_lt hi]
  dsimp only
  rcases Nat.lt_or_ge b.buf.length (table + (b.len + vs.length * 8)) with hfull | hfits
  · obtain ⟨b', halloc, herr⟩ := alloc_of_full hfull
    rw [halloc]
    exact herr
  · obtain ⟨b₁, halloc, hadds, -⟩ := Builder.alloc_of_fits hfits
    have hlen := hadds.len
    have hlength := hadds.length
    have hput : (b₁.listPtr (s.slot i) b.len elemPointer vs.length).len = b₁.len := write_len _ _ _
    have hkept := (Builder.kept_write b₁ (s.slot i) (leBytes 8 (Builder.listWord (s.slot i) b.len
      elemPointer vs.length))).length
    rw [halloc]
    refine setTexts_of_full vs ?_ ?_
    · rw [hput, Builder.listPtr, Builder.put, hkept]
      omega
    · rw [hput, Builder.listPtr, Builder.put, hkept]
      omega

/-! ### All calls -/

/-- What comes of a call that takes `n` bytes: with the room, the document is there; without it, an
error. -/
def Outcome (b : Builder) (n : ℕ) (st : Builder × List Struct) (doc : Document) : Prop :=
  (table + (b.len + n) ≤ b.buf.length →
    Good st.1 st.2 doc ∧ st.1.len = b.len + n ∧ st.1.buf.length = b.buf.length) ∧
  (b.buf.length < table + (b.len + n) → st.1.err.isSome = true)

/-- A call that takes nothing. -/
theorem Outcome.of_zero {st : Builder × List Struct} (hroom : table + b.len ≤ b.buf.length)
    (h : Good st.1 st.2 doc ∧ st.1.len = b.len ∧ st.1.buf.length = b.buf.length) :
    Outcome b 0 st doc :=
  ⟨fun _ => h, fun hfull => absurd hfull (Nat.not_lt.mpr hroom)⟩

theorem HasSlot.elim (h : HasSlot doc k i) (hgood : Good b hs doc) :
    ∃ s r, hs[k]? = some s ∧ doc[k]? = some r ∧ i < s.ptrWords := by
  obtain ⟨r, hr, hi⟩ := h
  obtain ⟨s, hk, hshows, -⟩ := hgood.struct hr
  exact ⟨s, r, hk, hr, hshows.slots_length ▸ hi⟩

/-- **A call keeps the document**, if there is room for it; else an error stays. -/
theorem step_good {op : Op} (h : Good b hs doc) (hop : op.Valid doc) :
    Outcome b op.cost (step (b, hs) op) (op.apply doc) := by
  rcases op with ⟨k, i, dataWords, ptrWords⟩ | ⟨k, off, v⟩ | ⟨k, bit, v⟩ | ⟨k, i, v⟩ | ⟨k, i, v⟩ |
    ⟨k, i, vs⟩ | ⟨k, i⟩
  · obtain ⟨hslot, hwords⟩ := hop
    obtain ⟨s, r, hk, hr, hi⟩ := hslot.elim h
    simp only [Outcome, step, hk, Op.apply, Op.cost]
    exact ⟨h.newStruct hk hr hi hwords, newStruct_of_full hi⟩
  · obtain ⟨r, hr, hoff⟩ := hop
    obtain ⟨s, hk, -⟩ := h.struct hr
    refine Outcome.of_zero h.fits ?_
    simp only [step, hk, Op.apply]
    rcases v with v | v | v | v
    · exact h.setBytes hk hr hoff
    · exact h.setBytes hk hr hoff
    · exact h.setBytes hk hr hoff
    · exact h.setBytes hk hr hoff
  · obtain ⟨r, hr, hbit⟩ := hop
    obtain ⟨s, hk, -⟩ := h.struct hr
    refine Outcome.of_zero h.fits ?_
    simp only [step, hk, Op.apply]
    exact h.setBool hk hr hbit
  · obtain ⟨s, r, hk, hr, hi⟩ := HasSlot.elim hop h
    simp only [Outcome, step, hk, Op.apply, Op.cost]
    exact ⟨h.setText hk hr hi, fun hfull => setListBytes_of_full hi hfull⟩
  · obtain ⟨s, r, hk, hr, hi⟩ := HasSlot.elim hop h
    simp only [Outcome, step, hk, Op.apply, Op.cost]
    exact ⟨h.setData hk hr hi, setData_of_full hi⟩
  · obtain ⟨s, r, hk, hr, hi⟩ := HasSlot.elim hop h
    simp only [Outcome, step, hk, Op.apply, Op.cost]
    exact ⟨h.setTextList hk hr hi, setTextList_of_full hi⟩
  · obtain ⟨s, r, hk, hr, hi⟩ := HasSlot.elim hop h
    refine Outcome.of_zero h.fits ?_
    simp only [step, hk, Op.apply]
    exact h.setEmptyList hk hr hi

theorem kept_foldl (ops : List Op) (st : Builder × List Struct) :
    Kept st.1 (ops.foldl step st).1 := by
  induction ops generalizing st with
  | nil => exact Kept.refl _
  | cons op ops ih => exact (kept_step st op).trans (ih _)

/-- All calls, one after the other. -/
theorem foldl_good {ops : List Op} (h : Good b hs doc) (hops : ValidAll doc ops) :
    Outcome b (ops.map Op.cost).sum (ops.foldl step (b, hs)) (ops.foldl Op.apply doc) := by
  induction ops generalizing b hs doc with
  | nil => exact Outcome.of_zero h.fits ⟨h, rfl, rfl⟩
  | cons op ops ih =>
    obtain ⟨hop, hrest⟩ := hops
    obtain ⟨hgood, hfull⟩ := step_good h hop
    rw [List.map_cons, List.sum_cons, List.foldl_cons, List.foldl_cons]
    rcases Nat.lt_or_ge b.buf.length (table + (b.len + op.cost)) with hlt | hge
    · have herr := (kept_foldl ops _).sticky (hfull hlt)
      exact ⟨fun hfits => by omega, fun _ => herr⟩
    · obtain ⟨hgood, hlen, hlength⟩ := hgood hge
      obtain ⟨hyes, hno⟩ := ih hgood hrest
      rw [hlen, hlength] at hyes hno
      refine ⟨fun hfits => ?_, fun hover => hno (by omega)⟩
      obtain ⟨hall, hlen', hlength'⟩ := hyes (by omega)
      exact ⟨hall, hlen'.trans (Nat.add_assoc _ _ _), hlength'⟩

/-- The root. -/
theorem root_good (buf : Bytes) {dataWords ptrWords : ℕ}
    (hwords : 0 < dataWords + ptrWords ∧ dataWords < 2 ^ 16 ∧ ptrWords < 2 ^ 16) :
    Outcome { buf := buf } (8 + (dataWords + ptrWords) * 8)
      ((Builder.root { buf := buf } dataWords ptrWords).2,
        [(Builder.root { buf := buf } dataWords ptrWords).1])
      [Record.blank dataWords ptrWords] := by
  constructor
  · intro hfits
    dsimp only at hfits
    obtain ⟨b₁, halloc, hadds, -⟩ := Builder.alloc_of_fits (b := { buf := buf }) (n := 8)
      (by dsimp only; omega)
    have hlen := hadds.len
    have hlength := hadds.length
    dsimp only at hlen hlength
    obtain ⟨b₂, halloc', hadds', hzeros⟩ := Builder.alloc_of_fits (b := b₁)
      (n := (dataWords + ptrWords) * 8) (by omega)
    have hlen' := hadds'.len
    have hlength' := hadds'.length
    have hlt : Builder.structWord 0 ⟨8, dataWords, ptrWords⟩ < 256 ^ 8 :=
      Builder.structWord_lt hwords.2.1 hwords.2.2
    obtain ⟨herr, hlen'', hlength'', hsame, hword⟩ := Builder.put_of_fits (b := b₂)
      (show 0 + 8 ≤ b₂.len by omega) (by omega) hlt
    have heq : Builder.root { buf := buf } dataWords ptrWords =
        (⟨8, dataWords, ptrWords⟩, b₂.put 0 (Builder.structWord 0 ⟨8, dataWords, ptrWords⟩)) := by
      rw [Builder.root, halloc]
      dsimp only
      rw [Builder.newBare, halloc']
      dsimp only [Option.getD]
      rw [hlen]
      rfl
    rw [heq]
    refine ⟨⟨herr.trans (hadds'.err.trans hadds.err), by dsimp only; omega, ?_⟩, ?_, ?_⟩
    · refine ⟨?_, ?_, rfl, ⟨_, rfl, hword⟩, ?_, ?_, ?_⟩
      · rw [Builder.seg_length]
        dsimp only
        omega
      · dsimp only
        rw [hlen'', hlen', hlen]
        omega
      · intro s hs
        rw [List.mem_singleton.mp hs]
        refine ⟨le_rfl, Nat.dvd_refl 8, ?_, hwords⟩
        rw [Struct.size]
        dsimp only
        omega
      · intro k k' s s' hk hk' hne
        have hzero := (List.getElem?_eq_some_iff.mp hk).1
        have hzero' := (List.getElem?_eq_some_iff.mp hk').1
        rw [List.length_singleton] at hzero hzero'
        omega
      · intro k s r hk hr
        have hzero := (List.getElem?_eq_some_iff.mp hk).1
        rw [List.length_singleton] at hzero
        obtain rfl : k = 0 := by omega
        cases hk
        cases hr
        refine shows_blank ?_
        rw [hlen] at hzeros
        rw [← hzeros]
        exact slice_congr fun i hi _ => hsame i (.inr hi)
    · dsimp only
      omega
    · dsimp only
      omega
  · intro hfull
    dsimp only at hfull ⊢
    rcases Nat.lt_or_ge buf.length (table + (0 + 8)) with hlt | hge
    · obtain ⟨b', halloc, herr⟩ := alloc_of_full (b := { buf := buf }) (n := 8) hlt
      rw [Builder.root, halloc]
      exact ((Builder.kept_newBare _ _ _).trans (Builder.kept_write _ _ _)).sticky herr
    · obtain ⟨b₁, halloc, hadds, -⟩ := Builder.alloc_of_fits (b := { buf := buf }) (n := 8) hge
      have hlen := hadds.len
      have hlength := hadds.length
      dsimp only at hlen hlength
      obtain ⟨b', halloc', herr⟩ := alloc_of_full (b := b₁) (n := (dataWords + ptrWords) * 8)
        (by omega)
      rw [Builder.root, halloc]
      dsimp only
      rw [Builder.newBare, halloc']
      exact (Builder.kept_write _ _ _).sticky herr

/-- How many bytes the segment of a message needs. -/
def needed (dataWords ptrWords : ℕ) (ops : List Op) : ℕ :=
  8 + (dataWords + ptrWords) * 8 + (ops.map Op.cost).sum

/-- **All the calls of a message.** -/
theorem build_good (buf : Bytes) {dataWords ptrWords : ℕ} {ops : List Op}
    (hwords : 0 < dataWords + ptrWords ∧ dataWords < 2 ^ 16 ∧ ptrWords < 2 ^ 16)
    (hops : ValidAll [Record.blank dataWords ptrWords] ops) :
    Outcome { buf := buf } (needed dataWords ptrWords ops) (build buf dataWords ptrWords ops)
      (document dataWords ptrWords ops) := by
  obtain ⟨hgood, hfull⟩ := root_good buf hwords
  rcases Nat.lt_or_ge buf.length (table + (0 + (8 + (dataWords + ptrWords) * 8))) with hlt | hge
  · have herr := (kept_foldl ops ((Builder.root { buf := buf } dataWords ptrWords).2,
      [(Builder.root { buf := buf } dataWords ptrWords).1])).sticky (hfull hlt)
    refine ⟨fun hfits => ?_, fun _ => herr⟩
    rw [needed] at hfits
    dsimp only at hfits
    omega
  · obtain ⟨hroot, hlen, hlength⟩ := hgood hge
    obtain ⟨hyes, hno⟩ := foldl_good hroot hops
    dsimp only at hlen hlength hyes hno
    rw [hlen, hlength] at hyes hno
    rw [Outcome, needed]
    dsimp only
    refine ⟨fun hfits => ?_, fun hover => hno (by omega)⟩
    obtain ⟨hall, hlen', hlength'⟩ := hyes (by omega)
    exact ⟨hall, hlen'.trans (by omega), hlength'⟩

end Calls

end Hop.Cloudflared.Capnp
