import Hop.Cloudflared.Capnp

/-!
# What a builder writes

A document is what a message is to say: structs with the bytes of their scalars and with what stands
in their slots. `Op.apply` is what each operation of the builder does to it. `Holds` says that a
segment holds a document; every operation keeps it, if the buffer has the room (`step_good`), and
else an error stays (`finish_of_err`).
-/

namespace Hop.Cloudflared.Capnp

/-! ### Documents -/

/-- What stands in a slot of a struct. -/
inductive Value
  | null
  /-- The struct with this number. -/
  | struct (k : ℕ)
  | text (v : String)
  | data (v : Bytes)
  | texts (vs : List String)
  | emptyList

/-- A struct. -/
structure Record where
  data : Bytes
  slots : List Value

/-- The structs, in the order in which they were made. -/
abbrev Document : Type := List Record

/-- The value of a scalar field. -/
inductive Scalar
  | u8 (v : UInt8)
  | u16 (v : UInt16)
  | u32 (v : UInt32)
  | u64 (v : UInt64)

def Scalar.bytes : Scalar → Bytes
  | .u8 v => [v]
  | .u16 v => leBytes 2 v.toNat
  | .u32 v => leBytes 4 v.toNat
  | .u64 v => leBytes 8 v.toNat

/-- A call of the builder, for the struct with number `k`. -/
inductive Op
  | struct (k i dataWords ptrWords : ℕ)
  | scalar (k off : ℕ) (v : Scalar)
  | bool (k bit : ℕ) (v : Bool)
  | text (k i : ℕ) (v : String)
  | data (k i : ℕ) (v : Bytes)
  | textList (k i : ℕ) (vs : List String)
  | emptyList (k i : ℕ)

/-- A struct of zeros and null pointers. -/
def Record.blank (dataWords ptrWords : ℕ) : Record :=
  ⟨zeros (dataWords * 8), List.replicate ptrWords .null⟩

def Record.setSlot (r : Record) (i : ℕ) (v : Value) : Record := { r with slots := r.slots.set i v }

def Record.setBytes (r : Record) (off : ℕ) (v : Bytes) : Record :=
  { r with data := overwrite r.data off v }

/-- A bit; `false` is what it was. -/
def Record.setBool (r : Record) (bit : ℕ) (v : Bool) : Record :=
  if v = false then r
  else r.setBytes (bit / 8) [r.data[bit / 8]?.getD 0 ||| Builder.bitMask bit]

/-- What a call does to the document. -/
def Op.apply (doc : Document) : Op → Document
  | .struct k i dataWords ptrWords =>
    doc.modify k (·.setSlot i (.struct doc.length)) ++ [Record.blank dataWords ptrWords]
  | .scalar k off v => doc.modify k (·.setBytes off v.bytes)
  | .bool k bit v => doc.modify k (·.setBool bit v)
  | .text k i v => doc.modify k (·.setSlot i (.text v))
  | .data k i v => doc.modify k (·.setSlot i (.data v))
  | .textList k i vs => doc.modify k (·.setSlot i (.texts vs))
  | .emptyList k i => doc.modify k (·.setSlot i .emptyList)

/-- The struct is there, and has this slot. -/
def HasSlot (doc : Document) (k i : ℕ) : Prop := ∃ r, doc[k]? = some r ∧ i < r.slots.length

/-- The struct is there, and has these bytes. -/
def HasBytes (doc : Document) (k off n : ℕ) : Prop :=
  ∃ r, doc[k]? = some r ∧ off + n ≤ r.data.length

/-- The call is for a field that its struct has; every struct has a word. -/
def Op.Valid (doc : Document) : Op → Prop
  | .struct k i dataWords ptrWords => HasSlot doc k i ∧ 0 < dataWords + ptrWords ∧
    dataWords < 2 ^ 16 ∧ ptrWords < 2 ^ 16
  | .scalar k off v => HasBytes doc k off v.bytes.length
  | .bool k bit _ => HasBytes doc k (bit / 8) 1
  | .text k i _ | .data k i _ | .textList k i _ | .emptyList k i => HasSlot doc k i

/-- So are all calls, one after the other. -/
def ValidAll (doc : Document) : List Op → Prop
  | [] => True
  | op :: ops => op.Valid doc ∧ ValidAll (op.apply doc) ops

/-- So many bytes, padded to words. -/
def padded (n : ℕ) : ℕ := (n + 7) / 8 * 8

/-- How many bytes of the segment a call takes. -/
def Op.cost : Op → ℕ
  | .struct _ _ dataWords ptrWords => (dataWords + ptrWords) * 8
  | .text _ _ v => padded ((utf8 v).length + 1)
  | .data _ _ v => padded v.length
  | .textList _ _ vs => vs.length * 8 + (vs.map fun v => padded ((utf8 v).length + 1)).sum
  | _ => 0

/-! ### The calls -/

/-- A call of the builder; structs that were made are known by their numbers. -/
def step (st : Builder × List Struct) (op : Op) : Builder × List Struct :=
  match op with
  | .struct k i dataWords ptrWords =>
    match st.2[k]? with
    | none => st
    | some s =>
      let (child, b) := st.1.newStruct s i dataWords ptrWords
      (b, st.2 ++ [child])
  | .scalar k off v =>
    match st.2[k]? with
    | none => st
    | some s =>
      (match v with
        | .u8 v => st.1.setU8 s off v
        | .u16 v => st.1.setU16 s off v
        | .u32 v => st.1.setU32 s off v
        | .u64 v => st.1.setU64 s off v, st.2)
  | .bool k bit v =>
    match st.2[k]? with
    | none => st
    | some s => (st.1.setBool s bit v, st.2)
  | .text k i v =>
    match st.2[k]? with
    | none => st
    | some s => (st.1.setText s i v, st.2)
  | .data k i v =>
    match st.2[k]? with
    | none => st
    | some s => (st.1.setData s i v, st.2)
  | .textList k i vs =>
    match st.2[k]? with
    | none => st
    | some s => (st.1.setTextList s i vs, st.2)
  | .emptyList k i =>
    match st.2[k]? with
    | none => st
    | some s => (st.1.setEmptyList s i, st.2)

/-- The builder after the root and these calls. -/
def build (buf : Bytes) (dataWords ptrWords : ℕ) (ops : List Op) : Builder × List Struct :=
  let (s, b) := Builder.root { buf := buf } dataWords ptrWords
  ops.foldl step (b, [s])

/-- The document of these calls. -/
def document (dataWords ptrWords : ℕ) (ops : List Op) : Document :=
  ops.foldl Op.apply [Record.blank dataWords ptrWords]

/-! ### What a segment holds -/

namespace Struct

/-- How many bytes a struct has. -/
def size (s : Struct) : ℕ := (s.dataWords + s.ptrWords) * 8

/-- Where a slot is. -/
def slot (s : Struct) (i : ℕ) : ℕ := s.data + s.dataWords * 8 + i * 8

theorem slot_le {s : Struct} {i : ℕ} (h : i < s.ptrWords) : s.slot i + 8 ≤ s.data + s.size := by
  rw [slot, size]
  omega

theorem le_slot (s : Struct) (i : ℕ) : s.data + s.dataWords * 8 ≤ s.slot i := Nat.le_add_right _ _

end Struct

/-- The word at `a`. -/
def wordAt (seg : Bytes) (a : ℕ) : ℕ := ofLe (slice seg a 8)

/-- Nothing there belongs to a struct. -/
def Clear (hs : List Struct) (a n : ℕ) : Prop :=
  ∀ s ∈ hs, a + n ≤ s.data ∨ s.data + s.size ≤ a

/-- The word `w` at `at'` points to these bytes. -/
structure Points (seg : Bytes) (bound : ℕ) (hs : List Struct) (at' w : ℕ) (v : Bytes) (a : ℕ) :
    Prop where
  word : w = Builder.listWord at' a elemByte v.length
  behind : at' + 8 ≤ a
  aligned : 8 ∣ a
  below : a + v.length ≤ bound
  clear : Clear hs a v.length
  bytes : slice seg a v.length = v

/-- A list of pointers at `a`, one to each text. -/
structure PointsAll (seg : Bytes) (bound : ℕ) (hs : List Struct) (at' w : ℕ) (vs : List String)
    (a : ℕ) : Prop where
  word : w = Builder.listWord at' a elemPointer vs.length
  behind : at' + 8 ≤ a
  aligned : 8 ∣ a
  below : a + vs.length * 8 ≤ bound
  clear : Clear hs a (vs.length * 8)
  each : ∀ m v, vs[m]? = some v → ∃ c,
    Points seg bound hs (a + m * 8) (wordAt seg (a + m * 8)) (utf8 v ++ [0]) c

/-- The word `w` at `at'` says this value. -/
def Stands (seg : Bytes) (bound : ℕ) (hs : List Struct) (at' w : ℕ) : Value → Prop
  | .null => w = 0
  | .struct k => ∃ s, hs[k]? = some s ∧ at' + 8 ≤ s.data ∧ w = Builder.structWord at' s
  | .text v => ∃ a, Points seg bound hs at' w (utf8 v ++ [0]) a
  | .data v => ∃ a, Points seg bound hs at' w v a
  | .texts vs => ∃ a, PointsAll seg bound hs at' w vs a
  | .emptyList => w = 1 ||| elemPointer <<< 32

/-- The struct says what the record does. -/
structure Shows (seg : Bytes) (bound : ℕ) (hs : List Struct) (s : Struct) (r : Record) : Prop where
  data_length : r.data.length = s.dataWords * 8
  slots_length : r.slots.length = s.ptrWords
  data : slice seg s.data (s.dataWords * 8) = r.data
  slots : ∀ i v, r.slots[i]? = some v → Stands seg bound hs (s.slot i) (wordAt seg (s.slot i)) v

/-- The first `bound` bytes of the segment hold the document, the structs where `hs` says. -/
structure Holds (seg : Bytes) (bound : ℕ) (hs : List Struct) (doc : Document) : Prop where
  bound_le : bound ≤ seg.length
  aligned : 8 ∣ bound
  length_eq : hs.length = doc.length
  first : ∃ s, hs[0]? = some s ∧ wordAt seg 0 = Builder.structWord 0 s
  inside : ∀ s ∈ hs, 8 ≤ s.data ∧ 8 ∣ s.data ∧ s.data + s.size ≤ bound ∧
    0 < s.dataWords + s.ptrWords ∧ s.dataWords < 2 ^ 16 ∧ s.ptrWords < 2 ^ 16
  apart : ∀ (k k' : ℕ) (s s' : Struct), hs[k]? = some s → hs[k']? = some s' → k ≠ k' →
    s.data + s.size ≤ s'.data ∨ s'.data + s'.size ≤ s.data
  shows : ∀ (k : ℕ) (s : Struct) (r : Record), hs[k]? = some s → doc[k]? = some r → Shows seg bound hs s r

section Frame

variable {seg seg' : Bytes} {bound bound' : ℕ} {hs hs' : List Struct} {doc : Document}
  {at' w a n k : ℕ} {s : Struct} {r : Record}

theorem Clear.sub {m : ℕ} (h : Clear hs a n) (ha : a ≤ k) (hn : k + m ≤ a + n) :
    Clear hs k m := by
  intro s hs
  have hout := h s hs
  omega

/-- What is kept of a segment: what belongs to no struct, below the bound. -/
structure Frame (seg : Bytes) (bound : ℕ) (hs : List Struct) (seg' : Bytes) (bound' : ℕ)
    (hs' : List Struct) : Prop where
  bound_le : bound ≤ bound'
  structs : ∀ (j : ℕ) (s : Struct), hs[j]? = some s → hs'[j]? = some s
  clear : ∀ a n, a + n ≤ bound → Clear hs a n → Clear hs' a n
  same : ∀ a n, a + n ≤ bound → Clear hs a n → slice seg' a n = slice seg a n

theorem Points.frame {v : Bytes} (h : Points seg bound hs at' w v a)
    (hf : Frame seg bound hs seg' bound' hs') : Points seg' bound' hs' at' w v a where
  word := h.word
  behind := h.behind
  aligned := h.aligned
  below := h.below.trans hf.bound_le
  clear := hf.clear _ _ h.below h.clear
  bytes := (hf.same _ _ h.below h.clear).trans h.bytes

theorem PointsAll.frame {vs : List String} (h : PointsAll seg bound hs at' w vs a)
    (hf : Frame seg bound hs seg' bound' hs') : PointsAll seg' bound' hs' at' w vs a where
  word := h.word
  behind := h.behind
  aligned := h.aligned
  below := h.below.trans hf.bound_le
  clear := hf.clear _ _ h.below h.clear
  each m v hv := by
    obtain ⟨c, hc⟩ := h.each m v hv
    have hm : m < vs.length := (List.getElem?_eq_some_iff.mp hv).1
    have hbelow := h.below
    have hword : wordAt seg' (a + m * 8) = wordAt seg (a + m * 8) :=
      congrArg ofLe (hf.same _ _ (by omega) (h.clear.sub (by omega) (by omega)))
    rw [hword]
    exact ⟨c, hc.frame hf⟩

/-- What stands in a slot stays, if the word in the slot does. -/
theorem Stands.frame {v : Value} (h : Stands seg bound hs at' w v)
    (hf : Frame seg bound hs seg' bound' hs') : Stands seg' bound' hs' at' w v := by
  match v, h with
  | .null, h => exact h
  | .struct k, ⟨s, hk, hle, hw⟩ => exact ⟨s, hf.structs k s hk, hle, hw⟩
  | .text v, ⟨a, ha⟩ => exact ⟨a, ha.frame hf⟩
  | .data v, ⟨a, ha⟩ => exact ⟨a, ha.frame hf⟩
  | .texts vs, ⟨a, ha⟩ => exact ⟨a, ha.frame hf⟩
  | .emptyList, h => exact h

/-- A struct that is not touched says what it said. -/
theorem Shows.frame (h : Shows seg bound hs s r) (hf : Frame seg bound hs seg' bound' hs')
    (hsame : ∀ a n, s.data ≤ a → a + n ≤ s.data + s.size → slice seg' a n = slice seg a n) :
    Shows seg' bound' hs' s r where
  data_length := h.data_length
  slots_length := h.slots_length
  data := by
    rw [hsame _ _ le_rfl (by rw [Struct.size]; omega), h.data]
  slots i v hv := by
    have hi : i < s.ptrWords := h.slots_length ▸ (List.getElem?_eq_some_iff.mp hv).1
    have hword : wordAt seg' (s.slot i) = wordAt seg (s.slot i) :=
      congrArg ofLe (hsame _ _ ((Nat.le_add_right _ _).trans (s.le_slot i)) (Struct.slot_le hi))
    rw [hword]
    exact (h.slots i v hv).frame hf

/-- What belongs to no struct is the same if only a struct was written to. -/
theorem frame_of_inside {p m : ℕ} (hmem : s ∈ hs) (hp : s.data ≤ p) (hpm : p + m ≤ s.data + s.size)
    (hle : bound ≤ bound')
    (hsame : ∀ i < bound, (i < p ∨ p + m ≤ i) → seg'[i]? = seg[i]?) :
    Frame seg bound hs seg' bound' hs where
  bound_le := hle
  structs _ _ h := h
  clear _ _ _ h := h
  same a n hbelow hclear := by
    have hout := hclear s hmem
    exact slice_congr fun i hi hi' => hsame i (by omega) (by omega)

/-- One struct is written to, and what is behind the bound. -/
theorem Holds.update {p m : ℕ} {r' : Record} (h : Holds seg bound hs doc) (hk : hs[k]? = some s)
    (hp : s.data ≤ p) (hpm : p + m ≤ s.data + s.size) (hle : bound ≤ bound')
    (hbound : bound' ≤ seg'.length) (haligned : 8 ∣ bound')
    (hsame : ∀ i < bound, (i < p ∨ p + m ≤ i) → seg'[i]? = seg[i]?)
    (hrec : Shows seg' bound' hs s r') : Holds seg' bound' hs (doc.set k r') := by
  have hmem := List.mem_of_getElem? hk
  obtain ⟨hlow, -, hhigh, -⟩ := h.inside s hmem
  have hf : Frame seg bound hs seg' bound' hs := frame_of_inside hmem hp hpm hle hsame
  refine ⟨hbound, haligned, ?_, ?_, ?_, h.apart, ?_⟩
  · rw [List.length_set, h.length_eq]
  · obtain ⟨s₀, hs₀, hword⟩ := h.first
    refine ⟨s₀, hs₀, ?_⟩
    rw [← hword]
    exact congrArg ofLe (slice_congr fun i hi hi' => hsame i (by omega) (by omega))
  · intro s' hs'
    obtain ⟨h8, hdvd, hend, hsize⟩ := h.inside s' hs'
    exact ⟨h8, hdvd, hend.trans hle, hsize⟩
  · intro j s' r₁ hj hr₁
    by_cases hkj : k = j
    · subst hkj
      rw [hk] at hj
      cases hj
      rw [List.getElem?_set_self (by
        rw [← h.length_eq]
        exact (List.getElem?_eq_some_iff.mp hk).1)] at hr₁
      cases hr₁
      exact hrec
    · rw [List.getElem?_set_ne hkj] at hr₁
      obtain ⟨-, -, hend, -⟩ := h.inside s' (List.mem_of_getElem? hj)
      have hout := h.apart k j s s' hk hj hkj
      refine (h.shows j s' r₁ hj hr₁).frame hf fun a n ha hn => ?_
      exact slice_congr fun i hi hi' => hsame i (by omega) (by omega)

/-- One more struct, behind the others. -/
theorem Holds.push (h : Holds seg bound hs doc) (hdata : s.data = bound)
    (hend : bound + s.size = bound') (hbound : bound' ≤ seg'.length)
    (hwords : 0 < s.dataWords + s.ptrWords ∧ s.dataWords < 2 ^ 16 ∧ s.ptrWords < 2 ^ 16)
    (hsame : ∀ i < bound, seg'[i]? = seg[i]?) (hrec : Shows seg' bound' (hs ++ [s]) s r) :
    Holds seg' bound' (hs ++ [s]) (doc ++ [r]) := by
  obtain ⟨s₀, hs₀, hword⟩ := h.first
  have hone : 8 ≤ bound := by
    obtain ⟨h8, -, hend₀, -⟩ := h.inside s₀ (List.mem_of_getElem? hs₀)
    omega
  have hf : Frame seg bound hs seg' bound' (hs ++ [s]) := by
    refine ⟨by omega, ?_, ?_, ?_⟩
    · intro j s' hj
      rw [List.getElem?_append_left (List.getElem?_eq_some_iff.mp hj).1, hj]
    · intro a n hbelow hclear s' hs'
      rcases List.mem_append.mp hs' with hs' | hs'
      · exact hclear s' hs'
      · rw [List.mem_singleton.mp hs']
        exact .inl (by omega)
    · exact fun a n hbelow _ => slice_congr fun i hi hi' => hsame i (by omega)
  have hcases : ∀ (j : ℕ) (s' : Struct), (hs ++ [s])[j]? = some s' →
      hs[j]? = some s' ∨ (j = hs.length ∧ s' = s) := by
    intro j s' hj
    rcases Nat.lt_or_ge j hs.length with hlt | hge
    · rw [List.getElem?_append_left hlt] at hj
      exact .inl hj
    · rw [List.getElem?_append_right hge, List.getElem?_singleton] at hj
      split_ifs at hj with hzero
      cases hj
      exact .inr ⟨by omega, rfl⟩
  have hold : ∀ (j : ℕ) (s' : Struct), hs[j]? = some s' → s'.data + s'.size ≤ bound :=
    fun j s' hj => (h.inside s' (List.mem_of_getElem? hj)).2.2.1
  refine ⟨hbound, ?_, ?_, ?_, ?_, ?_, ?_⟩
  · rw [← hend, Struct.size]
    exact (Nat.dvd_add_right h.aligned).mpr (Nat.dvd_mul_left 8 _)
  · rw [List.length_append, List.length_append, h.length_eq]
    rfl
  · refine ⟨s₀, hf.structs 0 s₀ hs₀, ?_⟩
    rw [← hword]
    exact congrArg ofLe (slice_congr fun i hi hi' => hsame i (by omega))
  · intro s' hs'
    rcases List.mem_append.mp hs' with hs' | hs'
    · obtain ⟨h8, hdvd, hend', hsize⟩ := h.inside s' hs'
      exact ⟨h8, hdvd, by omega, hsize⟩
    · rw [List.mem_singleton.mp hs']
      exact ⟨by omega, hdata ▸ h.aligned, by omega, hwords⟩
  · intro j j' s₁ s₂ hj hj' hne
    rcases hcases j s₁ hj with hin | ⟨rfl, rfl⟩
    · rcases hcases j' s₂ hj' with hin' | ⟨rfl, rfl⟩
      · exact h.apart j j' s₁ s₂ hin hin' hne
      · have hle := hold j s₁ hin
        omega
    · rcases hcases j' s₂ hj' with hin' | ⟨rfl, rfl⟩
      · have hle := hold j' s₂ hin'
        omega
      · exact absurd rfl hne
  · intro j s' r' hj hr'
    rcases hcases j s' hj with hj | ⟨rfl, rfl⟩
    · rw [List.getElem?_append_left (by
        rw [← h.length_eq]
        exact (List.getElem?_eq_some_iff.mp hj).1)] at hr'
      have hle := hold j s' hj
      exact (h.shows j s' r' hj hr').frame hf fun a n ha hn =>
        slice_congr fun i hi hi' => hsame i (by omega)
    · rw [h.length_eq, List.getElem?_concat_length] at hr'
      cases hr'
      exact hrec

/-- A slot is written. -/
theorem Shows.setSlot {i : ℕ} {v : Value} (h : Shows seg bound hs s r) (hmem : s ∈ hs)
    (hend : s.data + s.size ≤ bound) (hi : i < s.ptrWords) (hle : bound ≤ bound')
    (hsame : ∀ j < bound, (j < s.slot i ∨ s.slot i + 8 ≤ j) → seg'[j]? = seg[j]?)
    (hv : Stands seg' bound' hs (s.slot i) (wordAt seg' (s.slot i)) v) :
    Shows seg' bound' hs s (r.setSlot i v) := by
  have hslot := Struct.slot_le hi
  have hdata := s.le_slot i
  have hf : Frame seg bound hs seg' bound' hs :=
    frame_of_inside hmem (by omega) hslot hle hsame
  refine ⟨h.data_length, ?_, ?_, ?_⟩
  · rw [Record.setSlot, List.length_set, h.slots_length]
  · rw [Record.setSlot, ← h.data]
    exact slice_congr fun j hj hj' => hsame j (by omega) (by omega)
  · intro j v' hj
    by_cases hij : i = j
    · subst hij
      rw [Record.setSlot, List.getElem?_set_self (by rw [h.slots_length]; exact hi)] at hj
      cases hj
      exact hv
    · rw [Record.setSlot, List.getElem?_set_ne hij] at hj
      have hj' : j < s.ptrWords := h.slots_length ▸ (List.getElem?_eq_some_iff.mp hj).1
      have hend' := Struct.slot_le hj'
      have hword : wordAt seg' (s.slot j) = wordAt seg (s.slot j) := by
        refine congrArg ofLe (slice_congr fun x hx hx' => hsame x (by omega) ?_)
        simp only [Struct.slot] at hx hx' ⊢
        omega
      rw [hword]
      exact (h.slots j v' hj).frame hf

/-- The data are written to. -/
theorem Shows.setBytes {off : ℕ} {v : Bytes} (h : Shows seg bound hs s r) (hmem : s ∈ hs)
    (hend : s.data + s.size ≤ bound) (hbound : bound ≤ seg.length)
    (hoff : off + v.length ≤ s.dataWords * 8) :
    Shows (overwrite seg (s.data + off) v) bound hs s (r.setBytes off v) := by
  have hwhole : s.data + off + v.length ≤ seg.length := by
    rw [Struct.size] at hend
    omega
  have hf : Frame seg bound hs (overwrite seg (s.data + off) v) bound hs :=
    frame_of_inside hmem (Nat.le_add_right _ _)
      (by rw [Struct.size]; omega) le_rfl fun i _ hi => getElem?_overwrite_of_outside hwhole hi
  have hlen := h.data_length
  refine ⟨?_, h.slots_length, ?_, ?_⟩
  · rw [Record.setBytes, overwrite_length (by omega), hlen]
  · rw [Record.setBytes, slice_overwrite_around (Nat.le_add_right _ _) (by omega) (by
      rw [Struct.size] at hend; omega), h.data, Nat.add_sub_cancel_left]
  · intro i v' hi
    have hi' : i < s.ptrWords := h.slots_length ▸ (List.getElem?_eq_some_iff.mp hi).1
    have hslot := s.le_slot i
    have hword : wordAt (overwrite seg (s.data + off) v) (s.slot i) = wordAt seg (s.slot i) :=
      congrArg ofLe (slice_congr fun x hx hx' =>
        getElem?_overwrite_of_outside hwhole (.inr (by omega)))
    rw [hword]
    exact (h.slots i v' hi).frame hf

end Frame

end Hop.Cloudflared.Capnp
