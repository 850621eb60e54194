import Mathlib

/-!
# Text as bytes

The UTF-8 form of a text and back, and decimal digits. A text is known here by three facts: what
is written is read back (`fromUtf8_utf8`), a byte of a character beyond ASCII is at least `0x80`
(`le_of_mem_utf8EncodeChar`), and the decimal digits of a number have that number as their value
(`ofDigits_decimal`).
-/

namespace Hop

variable {c : Char} {n : ℕ} {cs : List Char}

abbrev Bytes : Type := List UInt8

/-- Bytes by their value, and so texts as `str::cmp` has them. -/
instance linearOrderUInt8 : LinearOrder UInt8 where
  le_refl := UInt8.le_refl
  le_trans _ _ _ := UInt8.le_trans
  le_antisymm _ _ := UInt8.le_antisymm
  le_total := UInt8.le_total
  lt_iff_le_not_ge a b := by
    simp only [UInt8.lt_iff_toNat_lt, UInt8.le_iff_toNat_le]
    omega
  toDecidableLE := inferInstance

/-- A run of bytes of one kind, and where it ends. -/
theorem takeWhile_dropWhile {f : UInt8 → Bool} {a tail : Bytes} (ha : ∀ b ∈ a, f b = true)
    (htail : ∀ b ∈ tail.head?, f b = false) :
    (a ++ tail).takeWhile f = a ∧ (a ++ tail).dropWhile f = tail := by
  have hstop : tail.takeWhile f = [] ∧ tail.dropWhile f = tail := by
    cases tail with
    | nil => exact ⟨rfl, rfl⟩
    | cons b tail =>
      have hb := htail b rfl
      simp [hb]
  constructor
  · rw [List.takeWhile_append_of_pos ha, hstop.1, List.append_nil]
  · rw [List.dropWhile_append_of_pos ha, hstop.2]

/-! ### UTF-8 -/

/-- The UTF-8 form of a run of characters. -/
def utf8Chars (cs : List Char) : Bytes := cs.flatMap String.utf8EncodeChar

/-- The bytes of a text. -/
def utf8 (s : String) : Bytes := utf8Chars s.toList

/-- The text of these bytes, if they are UTF-8. -/
def fromUtf8 (b : Bytes) : Option String :=
  b.toByteArray.utf8Decode?.map fun cs => String.ofList cs.toList

/-- The length of the longest beginning that is UTF-8. -/
def validUpTo (b : Bytes) : ℕ :=
  Nat.findGreatest (fun n => (fromUtf8 (b.take n)).isSome = true) b.length

@[simp] theorem utf8Chars_nil : utf8Chars [] = [] := rfl

theorem utf8Chars_cons (c : Char) (cs : List Char) :
    utf8Chars (c :: cs) = String.utf8EncodeChar c ++ utf8Chars cs := by
  simp [utf8Chars]

theorem utf8Chars_append (cs ds : List Char) :
    utf8Chars (cs ++ ds) = utf8Chars cs ++ utf8Chars ds := by
  simp [utf8Chars]

@[simp] theorem utf8_ofList (cs : List Char) : utf8 (String.ofList cs) = utf8Chars cs := by
  simp [utf8]

theorem fromUtf8_utf8Chars (cs : List Char) :
    fromUtf8 (utf8Chars cs) = some (String.ofList cs) := by
  have h := List.utf8Decode?_utf8Encode (l := cs)
  unfold List.utf8Encode at h
  simp [fromUtf8, utf8Chars, h]

/-- Reading undoes writing. -/
theorem fromUtf8_utf8 (s : String) : fromUtf8 (utf8 s) = some s := by
  unfold utf8
  rw [fromUtf8_utf8Chars, String.ofList_toList]

theorem utf8_injective {s t : String} (h : utf8 s = utf8 t) : s = t := by
  have hback := fromUtf8_utf8 s
  rw [h, fromUtf8_utf8] at hback
  exact (Option.some.inj hback).symm

/-- Only the bytes of a text are read as it. -/
theorem utf8_of_fromUtf8 {b : Bytes} {s : String} (h : fromUtf8 b = some s) : utf8 s = b := by
  obtain ⟨cs, hcs, -⟩ := Option.map_eq_some_iff.mp h
  have hsome : b.toByteArray.utf8Decode?.isSome = true := by
    rw [hcs]
    rfl
  obtain ⟨l, hl⟩ := ByteArray.isSome_utf8Decode?_iff.mp hsome
  have hb : b = utf8Chars l := List.toByteArray_inj.mp hl
  rw [hb, fromUtf8_utf8Chars] at h
  rw [← Option.some.inj h, utf8_ofList, hb]

/-! ### ASCII and the rest -/

theorem utf8EncodeChar_ascii (h : c.toNat ≤ 0x7f) :
    String.utf8EncodeChar c = [c.val.toUInt8] := by
  have hval : c.val ≤ 0x7f := UInt32.le_iff_toNat_le.mpr h
  exact String.utf8EncodeChar_eq_singleton (by simp [Char.utf8Size, hval])

theorem utf8Chars_ascii (h : ∀ c ∈ cs, c.toNat ≤ 0x7f) :
    utf8Chars cs = cs.map fun c => c.val.toUInt8 := by
  induction cs with
  | nil => rfl
  | cons c cs ih =>
    rw [utf8Chars_cons, utf8EncodeChar_ascii (h c List.mem_cons_self),
      ih fun d hd => h d (List.mem_cons_of_mem c hd), List.map_cons, List.singleton_append]

/-- No byte of a character beyond ASCII looks like ASCII. -/
theorem le_of_mem_utf8EncodeChar (h : 0x7f < c.toNat) {b : UInt8} (hb : b ∈ String.utf8EncodeChar c)
    : 0x80 ≤ b := by
  have hc : ¬ c.val.toNat ≤ 0x7f := Nat.not_le.mpr h
  unfold String.utf8EncodeChar at hb
  simp only [hc, if_false] at hb
  rw [UInt8.le_iff_toNat_le]
  split_ifs at hb <;>
    simp only [List.mem_cons, List.not_mem_nil, or_false] at hb <;>
    rcases hb with rfl | rfl | rfl | rfl <;>
    simp <;> omega

/-! ### Decimal digits -/

/-- `u8::is_ascii_digit`. -/
def isDigit (b : UInt8) : Bool := 48 ≤ b && b ≤ 57

/-- The value of a digit. -/
def digitVal (b : UInt8) : ℕ := b.toNat - 48

/-- The number that a row of digits spells. -/
def ofDigits (bs : Bytes) : ℕ := bs.foldl (fun v b => v * 10 + digitVal b) 0

/-- The decimal digits of a number, without leading zeros. -/
def decimal (n : ℕ) : Bytes := utf8Chars (Nat.toDigits 10 n)

theorem ofDigits_append (a b : Bytes) :
    ofDigits (a ++ b) = ofDigits a * 10 ^ b.length + ofDigits b := by
  have hfold : ∀ (b : Bytes) (v : ℕ), b.foldl (fun v b => v * 10 + digitVal b) v =
      v * 10 ^ b.length + ofDigits b := by
    intro b
    induction b with
    | nil => intro v; simp [ofDigits]
    | cons x b ih =>
      intro v
      have hone : ofDigits (x :: b) = digitVal x * 10 ^ b.length + ofDigits b := by
        rw [← ih, ofDigits, List.foldl_cons, Nat.zero_mul, Nat.zero_add]
      rw [List.foldl_cons, ih, hone, List.length_cons, pow_succ]
      ring
  unfold ofDigits
  rw [List.foldl_append, hfold]
  rfl

theorem digitVal_lt {b : UInt8} (h : isDigit b = true) : digitVal b < 10 := by
  simp only [isDigit, Bool.and_eq_true, decide_eq_true_eq, UInt8.le_iff_toNat_le] at h
  have hb : b.toNat ≤ 57 := h.2
  unfold digitVal
  omega

theorem ofDigits_lt {ds : Bytes} (h : ∀ b ∈ ds, isDigit b = true) :
    ofDigits ds < 10 ^ ds.length := by
  induction ds using List.reverseRecOn with
  | nil => decide
  | append_singleton ds d ih =>
    have hd := digitVal_lt (h d (by simp))
    have hds := ih fun b hb => h b (by simp [hb])
    have hone : ofDigits [d] = digitVal d := by simp [ofDigits]
    rw [ofDigits_append, hone]
    simp only [List.length_append, List.length_singleton, pow_succ, pow_zero]
    omega

theorem toNat_le_of_isDigit (h : c.isDigit = true) : c.toNat ≤ 0x7f := by
  have h' : 48 ≤ c.toNat ∧ c.toNat ≤ 57 := by
    simpa [Char.isDigit, UInt32.le_iff_toNat_le] using h
  omega

theorem isDigit_toUInt8 (h : c.isDigit = true) : isDigit c.val.toUInt8 = true := by
  have h' : 48 ≤ c.toNat ∧ c.toNat ≤ 57 := by
    simpa [Char.isDigit, UInt32.le_iff_toNat_le] using h
  have hval : c.val.toUInt8.toNat = c.toNat := by
    simp only [UInt32.toNat_toUInt8]
    exact Nat.mod_eq_of_lt (by have : c.val.toNat = c.toNat := rfl; omega)
  simp only [isDigit, Bool.and_eq_true, decide_eq_true_eq, UInt8.le_iff_toNat_le, hval]
  exact h'

/-- The digits of a number as bytes. -/
theorem utf8Chars_digits (h : ∀ c ∈ cs, c.isDigit = true) :
    utf8Chars cs = cs.map fun c => c.val.toUInt8 :=
  utf8Chars_ascii fun c hc => toNat_le_of_isDigit (h c hc)

theorem isDigit_of_mem_utf8Chars (h : ∀ c ∈ cs, c.isDigit = true) {b : UInt8}
    (hb : b ∈ utf8Chars cs) : isDigit b = true := by
  rw [utf8Chars_digits h, List.mem_map] at hb
  obtain ⟨c, hc, rfl⟩ := hb
  exact isDigit_toUInt8 (h c hc)

theorem digitVal_toUInt8 (h : c.isDigit = true) :
    digitVal c.val.toUInt8 = c.toNat - 48 := by
  have hle := toNat_le_of_isDigit h
  have hval : c.val.toNat = c.toNat := rfl
  unfold digitVal
  rw [UInt32.toNat_toUInt8, Nat.mod_eq_of_lt (by omega), hval]

/-- The bytes of a row of digits spell what its characters spell. -/
theorem ofDigits_utf8Chars (h : ∀ c ∈ cs, c.isDigit = true) :
    ofDigits (utf8Chars cs) = Nat.ofDigitChars 10 cs 0 := by
  have hfold : ∀ (cs : List Char) (v : ℕ), (∀ c ∈ cs, c.isDigit = true) →
      (cs.map fun c => c.val.toUInt8).foldl (fun v b => v * 10 + digitVal b) v =
        Nat.ofDigitChars 10 cs v := by
    intro cs
    induction cs with
    | nil => intro v _; simp
    | cons c cs ih =>
      intro v hcs
      rw [List.map_cons, List.foldl_cons, Nat.ofDigitChars_cons,
        digitVal_toUInt8 (hcs c List.mem_cons_self), Nat.mul_comm v 10]
      exact ih _ fun d hd => hcs d (List.mem_cons_of_mem c hd)
  unfold ofDigits
  rw [utf8Chars_digits h]
  exact hfold cs 0 h

theorem isDigit_of_mem_toDigits : ∀ c ∈ Nat.toDigits 10 n, c.isDigit = true :=
  fun _ hc => Nat.isDigit_of_mem_toDigits (by decide) (by decide) hc

theorem isDigit_of_mem_decimal {b : UInt8} (hb : b ∈ decimal n) : isDigit b = true :=
  isDigit_of_mem_utf8Chars isDigit_of_mem_toDigits hb

/-- **The digits of a number spell the number.** -/
theorem ofDigits_decimal (n : ℕ) : ofDigits (decimal n) = n := by
  unfold decimal
  rw [ofDigits_utf8Chars isDigit_of_mem_toDigits, Nat.ofDigitChars_ten_toDigits]

theorem decimal_ne_nil (n : ℕ) : decimal n ≠ [] := by
  unfold decimal
  rw [utf8Chars_digits isDigit_of_mem_toDigits]
  simp

theorem decimal_of_lt (h : n < 10) : decimal n = utf8Chars [n.digitChar] := by
  unfold decimal
  rw [Nat.toDigits_of_lt_base h]

theorem decimal_of_le (h : 10 ≤ n) :
    decimal n = decimal (n / 10) ++ utf8Chars [(n % 10).digitChar] := by
  unfold decimal
  rw [Nat.toDigits_of_base_le (by decide) h, utf8Chars_append]

/-- A positive number does not begin with 0. -/
theorem head?_decimal_ne (h : 0 < n) : (decimal n).head? ≠ some 48 := by
  induction n using Nat.strong_induction_on with
  | _ n ih =>
    rcases Nat.lt_or_ge n 10 with hn | hn
    · rw [decimal_of_lt hn]
      interval_cases n <;> decide
    · rw [decimal_of_le hn, List.head?_append_of_ne_nil _ (decimal_ne_nil _)]
      exact ih (n / 10) (by omega) (by omega)

end Hop
