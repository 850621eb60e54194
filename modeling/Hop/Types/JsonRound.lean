import Hop.Types.Accepts

/-!
# Reading back what was written

`parse_write`: the text of a value with integers, arbitrary strings, arrays, and objects without
a key twice, nested less than `maxDepth` deep, parses to that value within every limit that it
fits. A float is written as a decimal, which may be that of an integer; `reread` is the value that
the text of a value with floats parses to (`parse_legible`). The writer stays in the grammar of the
parser (`denotes_write`), which reads all that has it.
The length of the text is `size`, which counts without writing.
-/

namespace Hop.Types.Json

open Input (charOf numberOf parseU64 parseI64)

variable {v : Value}

/-! ### Strings -/

theorem writeRuns_eq (run cs : List Char) :
    writeRuns run cs = utf8Chars run ++ writeRuns [] cs := by
  induction cs generalizing run with
  | nil => simp [writeRuns]
  | cons c cs ih =>
    unfold writeRuns
    split
    · rw [ih (run ++ [c]), ih ([] ++ [c]), utf8Chars_append, List.append_assoc]
      simp
    · simp

theorem plainChar_of_escaped_none {c : Char} (h : escaped c = none) : PlainChar c := by
  unfold escaped at h
  split_ifs at h with hq hs hn hr ht hx
  push Not at hx
  exact ⟨hq, hs, hx.1⟩

/-- A character that is not escaped is written in plain bytes. -/
theorem isPlain_of_escaped_none {c : Char} (h : escaped c = none) {b : UInt8}
    (hb : b ∈ String.utf8EncodeChar c) : isPlain b = true :=
  Input.isPlain_of_plainChar (plainChar_of_escaped_none h) hb

theorem hexVal_hexDigit {d : ℕ} (h : d < 16) : hexVal (hexDigit d) = some d := by
  interval_cases d <;> decide

theorem hex4_hex04 {n : ℕ} (h : n < 65536) : Hex4 (hex04 n) n := by
  have h16 : ∀ m : ℕ, m % 16 < 16 := fun m => Nat.mod_lt m (by decide)
  refine ⟨n / 4096 % 16, n / 256 % 16, n / 16 % 16, n % 16, map_hexVal_iff.mp ?_, by omega⟩
  simp only [hex04, List.map_cons, List.map_nil, hexVal_hexDigit (h16 _)]

/-- An escape begins with a backslash and means its character. -/
theorem escape_escaped {c : Char} {esc : Bytes} (h : escaped c = some esc) :
    ∃ e, esc = backslash :: e ∧ Escape e c := by
  unfold escaped at h
  split_ifs at h with hq hs hn hr ht hx
  · cases h
    exact ⟨_, rfl, .letter (by rw [hq]; decide)⟩
  · cases h
    exact ⟨_, rfl, .letter (by rw [hs]; decide)⟩
  · cases h
    exact ⟨_, rfl, .letter (by rw [hn]; decide)⟩
  · cases h
    exact ⟨_, rfl, .letter (by rw [hr]; decide)⟩
  · cases h
    exact ⟨_, rfl, .letter (by rw [ht]; decide)⟩
  · cases h
    -- the characters that are written in hex are below the surrogates
    have hlt : c.toNat < 0xD800 := by
      rcases hx with hx | rfl | rfl | rfl | rfl | rfl
      · omega
      all_goals decide
    have hchar : charOf c.toNat = c := by rw [charOf, if_pos (Or.inl hlt), Char.ofNat_toNat]
    have hesc := Escape.unicode (hex4_hex04 (n := c.toNat) (by omega)) fun h =>
      absurd h.1 (Nat.not_le.mpr hlt)
    rw [hchar] at hesc
    exact ⟨_, rfl, hesc⟩

/-- **What is written says the string.** By induction on the characters that are left, with the run
that is being collected. -/
theorem says_writeRuns (cs : List Char) {run : List Char} (hrun : ∀ c ∈ run, PlainChar c) :
    ∃ b, writeRuns run cs = b ++ [quote] ∧ Says b (run ++ cs) := by
  induction cs generalizing run with
  | nil => exact ⟨utf8Chars run, by rw [writeRuns], by rw [List.append_nil]; exact .run hrun⟩
  | cons c cs ih =>
    rw [writeRuns]
    cases hc : escaped c with
    | none =>
      have hrun' : ∀ d ∈ run ++ [c], PlainChar d := List.forall_mem_append.mpr
        ⟨hrun, fun d hd => List.mem_singleton.mp hd ▸ plainChar_of_escaped_none hc⟩
      obtain ⟨b, hb, hsays⟩ := ih hrun'
      exact ⟨b, hb, by rwa [List.append_assoc] at hsays⟩
    | some esc =>
      obtain ⟨e, rfl, he⟩ := escape_escaped hc
      obtain ⟨b, hb, hsays⟩ := @ih [] fun d hd => absurd hd List.not_mem_nil
      refine ⟨utf8Chars run ++ backslash :: (e ++ b), ?_, .escape hrun he hsays⟩
      dsimp only
      rw [hb]
      simp only [List.append_assoc, List.cons_append]

theorem exists_says (s : String) :
    ∃ b, writeString s = quote :: (b ++ [quote]) ∧ Says b s.toList := by
  obtain ⟨b, hb, hsays⟩ := @says_writeRuns s.toList [] fun d hd => absurd hd List.not_mem_nil
  exact ⟨b, by rw [writeString, hb], hsays⟩

/-! ### The size of a text -/

/-- How many bytes a character takes in a string. -/
def charSize (c : Char) : ℕ :=
  if c = '"' ∨ c = '\\' ∨ c = '\n' ∨ c = '\r' ∨ c = '\t' then 2
  else if c.toNat ≤ 0x1f ∨ c = '<' ∨ c = '>' ∨ c = '&' ∨ c = '\u2028' ∨ c = '\u2029' then 6
  else c.utf8Size

/-- How many bytes a string takes, with its quotes. -/
def stringSize (s : String) : ℕ := (s.toList.map charSize).sum + 2

def numberSize : Number → ℕ
  | .int v => if v.toInt < 0 then (Nat.toDigits 10 v.toInt.natAbs).length + 1
    else (Nat.toDigits 10 v.toInt.natAbs).length
  | .uint v => (Nat.toDigits 10 v.toNat).length
  | .float text => text.length

mutual

/-- How many bytes the text of a value takes. -/
def size : Value → ℕ
  | .null => 4
  | .bool true => 4
  | .bool false => 5
  | .number n => numberSize n
  | .string s => stringSize s
  | .array [] => 2
  | .array (item :: items) => size item + itemsSize items + 2
  | .object [] => 2
  | .object ((k, item) :: pairs) => stringSize k + size item + pairsSize pairs + 3

/-- The same for items, with a comma before each. -/
def itemsSize : List Value → ℕ
  | [] => 0
  | item :: items => size item + 1 + itemsSize items

/-- The same for pairs, with a comma before each. -/
def pairsSize : List (String × Value) → ℕ
  | [] => 0
  | (k, item) :: pairs => stringSize k + size item + 2 + pairsSize pairs

end

theorem length_decimal (n : ℕ) : (decimal n).length = (Nat.toDigits 10 n).length := by
  unfold decimal
  rw [utf8Chars_digits isDigit_of_mem_toDigits, List.length_map]

theorem charSize_eq (c : Char) :
    charSize c = ((escaped c).getD (String.utf8EncodeChar c)).length := by
  unfold charSize escaped
  by_cases hq : c = '"'
  · simp [hq]
  by_cases hs : c = '\\'
  · simp [hs]
  by_cases hn : c = '\n'
  · simp [hn]
  by_cases hr : c = '\r'
  · simp [hr]
  by_cases ht : c = '\t'
  · simp [ht]
  simp only [hq, hs, hn, hr, ht, or_self, if_false]
  split_ifs
  · rfl
  · simp

theorem length_writeRuns (cs : List Char) :
    (writeRuns [] cs).length = (cs.map charSize).sum + 1 := by
  induction cs with
  | nil => rfl
  | cons c cs ih =>
    have hc := charSize_eq c
    unfold writeRuns
    cases he : escaped c with
    | none =>
      rw [he, Option.getD_none] at hc
      dsimp only
      rw [writeRuns_eq, List.length_append, ih, List.map_cons, List.sum_cons, hc,
        List.nil_append, utf8Chars_cons, utf8Chars_nil, List.append_nil, Nat.add_assoc]
    | some esc =>
      rw [he, Option.getD_some] at hc
      dsimp only
      rw [List.length_append, ih, List.map_cons, List.sum_cons, hc, utf8Chars_nil,
        List.nil_append, Nat.add_assoc]

theorem length_writeString (s : String) : (writeString s).length = stringSize s := by
  unfold writeString stringSize
  rw [List.length_cons, length_writeRuns]

theorem length_writeNumber (n : Number) : (writeNumber n).length = numberSize n := by
  cases n with
  | int v =>
    simp only [writeNumber, numberSize]
    split_ifs
    · rw [List.length_cons, length_decimal]
    · exact length_decimal _
  | uint v => exact length_decimal _
  | float text => rfl

mutual

/-- **The size of a value is the length of its text.** -/
theorem length_write : (v : Value) → (write v).length = size v
  | .null => by rfl
  | .bool true => by rfl
  | .bool false => by rfl
  | .number n => by simpa only [write, size] using length_writeNumber n
  | .string s => by simpa only [write, size] using length_writeString s
  | .array [] => by rfl
  | .array (item :: items) => by
    have hitem := length_write item
    have hitems := length_writeItems items
    simp only [write, size, List.length_cons, List.length_append, List.length_nil, hitem, hitems]
    omega
  | .object [] => by rfl
  | .object ((k, item) :: pairs) => by
    have hitem := length_write item
    have hpairs := length_writePairs pairs
    simp only [write, size, List.length_cons, List.length_append, List.length_nil,
      length_writeString, hitem, hpairs]
    omega

theorem length_writeItems : (items : List Value) → (writeItems items).length = itemsSize items
  | [] => by rfl
  | item :: items => by
    have hitem := length_write item
    have hitems := length_writeItems items
    simp only [writeItems, itemsSize, List.length_cons, List.length_append, hitem, hitems]

theorem length_writePairs : (pairs : List (String × Value)) →
    (writePairs pairs).length = pairsSize pairs
  | [] => by rfl
  | (k, item) :: pairs => by
    have hitem := length_write item
    have hpairs := length_writePairs pairs
    simp only [writePairs, pairsSize, List.length_cons, List.length_append, length_writeString,
      hitem, hpairs]
    omega

end

/-! ### Numbers -/

theorem digitRow_decimal (n : ℕ) : DigitRow (decimal n) :=
  ⟨decimal_ne_nil n, fun _ hb => isDigit_of_mem_decimal hb⟩

theorem intText_decimal (n : ℕ) : IntText (decimal n) := by
  rcases Nat.eq_zero_or_pos n with rfl | hn
  · exact .inl (by decide)
  · exact .inr ⟨digitRow_decimal n, head?_decimal_ne hn⟩

/-- A number without an exponent. -/
theorem numberText_of {sign int frac : Bytes} (hsign : sign = [] ∨ sign = [minus])
    (hint : IntText int) (hfrac : FracText frac) :
    NumberText (decide (frac ≠ [])) (sign ++ (int ++ frac)) where
  parts := ⟨sign, int, frac, [], by rw [List.append_nil], hsign, hint, hfrac, .inl rfl, by simp⟩

theorem numberText_decimal (n : ℕ) : NumberText false (decimal n) := by
  have h := numberText_of (.inl rfl) (intText_decimal n) (.inl rfl)
  rwa [List.append_nil] at h

theorem numberText_minus (n : ℕ) : NumberText false (minus :: decimal n) := by
  have h := numberText_of (.inr rfl) (intText_decimal n) (.inl rfl)
  rwa [List.append_nil] at h

theorem all_isDigit_decimal (n : ℕ) : (decimal n).all isDigit = true :=
  List.all_eq_true.mpr fun _ hb => isDigit_of_mem_decimal hb

theorem numberOf_decimal {n : ℕ} (hn : n ≤ u64Max) :
    numberOf false (decimal n) = .uint (UInt64.ofNat n) := by
  have hparse : parseU64 (decimal n) = some (UInt64.ofNat n) := by
    unfold parseU64
    rw [ofDigits_decimal, if_pos ⟨decimal_ne_nil n, all_isDigit_decimal n, hn⟩]
  simp [numberOf, hparse]

theorem numberOf_minus {n : ℕ} (hn : i64Min ≤ -(n : ℤ)) :
    numberOf false (minus :: decimal n) = .int (Int64.ofInt (-(n : ℤ))) := by
  have hu : parseU64 (minus :: decimal n) = none := by
    unfold parseU64
    rw [if_neg]
    rintro ⟨-, h, -⟩
    exact absurd (List.all_eq_true.mp h minus List.mem_cons_self) (by decide)
  have hi : parseI64 (minus :: decimal n) = some (Int64.ofInt (-(n : ℤ))) := by
    unfold parseI64
    dsimp only
    rw [ofDigits_decimal, if_pos ⟨rfl, decimal_ne_nil n, all_isDigit_decimal n, hn⟩]
  simp [numberOf, hu, hi]

/-- A number in the form in which it is read: an `int` is negative. -/
def Number.Canonical : Number → Prop
  | .int v => v.toInt < 0
  | .uint _ => True
  | .float _ => False

/-- A number as it is read back: the text of a float may be that of an integer. -/
def Number.reread : Number → Number
  | .float text => Input.numberOf (text.contains dot) text
  | n => n

/-- A number that can be read back: an `int` is negative, a float is finite. -/
def Number.Legible : Number → Prop
  | .int v => v.toInt < 0
  | .uint _ => True
  | .float text => ∃ d : Decimal, text = d.text

theorem Number.Canonical.legible {n : Number} (h : n.Canonical) : n.Legible ∧ n.reread = n := by
  rcases n with v | v | text
  · exact ⟨h, rfl⟩
  · exact ⟨trivial, rfl⟩
  · exact h.elim

theorem contains_dot_text (d : Decimal) : d.text.contains dot = decide (d.frac ≠ []) := by
  have hwhole : dot ∉ decimal d.whole := fun h => absurd (isDigit_of_mem_decimal h) (by decide)
  have hsign : dot ∉ d.sign := by
    rw [Decimal.sign]
    split_ifs <;> decide
  rw [Bool.eq_iff_iff, List.contains_iff_mem, decide_eq_true_iff, Decimal.text, List.mem_append,
    List.mem_append, Decimal.point]
  constructor
  · rintro ((h | h) | h) hfrac
    · exact hsign h
    · exact hwhole h
    · rw [if_pos hfrac] at h
      cases h
  · intro hfrac
    rw [if_neg hfrac]
    exact .inr List.mem_cons_self

theorem fracText_point (d : Decimal) :
    FracText d.point ∧ decide (d.point ≠ []) = decide (d.frac ≠ []) := by
  by_cases hfrac : d.frac = []
  · rw [Decimal.point, if_pos hfrac]
    exact ⟨.inl rfl, by rw [hfrac]⟩
  · rw [Decimal.point, if_neg hfrac]
    exact ⟨.inr ⟨d.frac, ⟨hfrac, d.digits⟩, rfl⟩, by simp [hfrac]⟩

/-- **A number has the grammar**, and what it is read as. -/
theorem number_legible {n : Number} (hn : n.Legible) :
    ∃ float, NumberText float (writeNumber n) ∧ numberOf float (writeNumber n) = n.reread := by
  rcases n with v | v | text
  · have hv : v.toInt < 0 := hn
    have habs : -(v.toInt.natAbs : ℤ) = v.toInt := by omega
    have hw : writeNumber (.int v) = minus :: decimal v.toInt.natAbs := if_pos hv
    refine ⟨false, hw ▸ numberText_minus _, ?_⟩
    rw [hw, numberOf_minus (habs.symm ▸ v.le_toInt), habs, Int64.ofInt_toInt]
    rfl
  · refine ⟨false, numberText_decimal v.toNat, ?_⟩
    rw [writeNumber, numberOf_decimal (Nat.le_pred_of_lt v.toNat_lt), UInt64.ofNat_toNat]
    rfl
  · obtain ⟨d, rfl⟩ := hn
    obtain ⟨hpoint, hfloat⟩ := fracText_point d
    have hsign : d.sign = [] ∨ d.sign = [minus] := by
      rw [Decimal.sign]
      split_ifs
      · exact .inr rfl
      · exact .inl rfl
    have htext := numberText_of hsign (intText_decimal d.whole) hpoint
    rw [hfloat, ← contains_dot_text, ← List.append_assoc] at htext
    exact ⟨d.text.contains dot, htext, rfl⟩

/-! ### Values -/

/-- A value that is read back: integers in their form, no key twice in an object, and at most
this deep. -/
def Fits : ℕ → Value → Prop
  | 0, _ => False
  | _ + 1, .null => True
  | _ + 1, .bool _ => True
  | _ + 1, .number n => n.Canonical
  | _ + 1, .string _ => True
  | left + 1, .array items => ∀ v ∈ items, Fits left v
  | left + 1, .object pairs => (pairs.map Prod.fst).Nodup ∧ ∀ kv ∈ pairs, Fits left kv.2

/-- The same with floats, whose text may be read as that of an integer. -/
def Legible : ℕ → Value → Prop
  | 0, _ => False
  | _ + 1, .null => True
  | _ + 1, .bool _ => True
  | _ + 1, .number n => n.Legible
  | _ + 1, .string _ => True
  | left + 1, .array items => ∀ v ∈ items, Legible left v
  | left + 1, .object pairs => (pairs.map Prod.fst).Nodup ∧ ∀ kv ∈ pairs, Legible left kv.2

mutual

/-- A value as it is read back. -/
def reread : Value → Value
  | .null => .null
  | .bool b => .bool b
  | .number n => .number n.reread
  | .string s => .string s
  | .array items => .array (rereadItems items)
  | .object pairs => .object (rereadPairs pairs)

def rereadItems : List Value → List Value
  | [] => []
  | v :: items => reread v :: rereadItems items

def rereadPairs : List (String × Value) → List (String × Value)
  | [] => []
  | (k, v) :: pairs => (k, reread v) :: rereadPairs pairs

end

theorem rereadItems_eq (items : List Value) : rereadItems items = items.map reread := by
  induction items with
  | nil => rfl
  | cons v items ih => rw [rereadItems, ih, List.map_cons]

theorem rereadPairs_eq (pairs : List (String × Value)) :
    rereadPairs pairs = pairs.map fun kv => (kv.1, reread kv.2) := by
  induction pairs with
  | nil => rfl
  | cons kv pairs ih => rw [rereadPairs, ih, List.map_cons]

theorem reread_array (items : List Value) : reread (.array items) = .array (items.map reread) := by
  rw [reread, rereadItems_eq]

theorem reread_object (pairs : List (String × Value)) :
    reread (.object pairs) = .object (pairs.map fun kv => (kv.1, reread kv.2)) := by
  rw [reread, rereadPairs_eq]

/-- What has no floats is read back as it is. -/
theorem Fits.legible {left : ℕ} (h : Fits left v) : Legible left v ∧ reread v = v := by
  induction left generalizing v with
  | zero => exact h.elim
  | succ left ih =>
    match v with
    | .null => exact ⟨trivial, by rw [reread]⟩
    | .bool b => exact ⟨trivial, by rw [reread]⟩
    | .number n =>
      obtain ⟨hlegible, heq⟩ := Number.Canonical.legible h
      exact ⟨hlegible, by rw [reread, heq]⟩
    | .string s => exact ⟨trivial, by rw [reread]⟩
    | .array items =>
      refine ⟨fun v hv => (ih (h v hv)).1, ?_⟩
      rw [reread_array, List.map_congr_left fun v hv => (ih (h v hv)).2, List.map_id']
    | .object pairs =>
      refine ⟨⟨h.1, fun kv hkv => (ih (h.2 kv hkv)).1⟩, ?_⟩
      have hpairs : (pairs.map fun kv => (kv.1, reread kv.2)) = pairs.map id :=
        List.map_congr_left fun kv hkv => Prod.ext rfl (ih (h.2 kv hkv)).2
      rw [reread_object, hpairs, List.map_id]

/-! ### The writer stays in the grammar -/

theorem ws_nil : Ws [] := fun _ hb => absurd hb List.not_mem_nil

section

variable {G : Bytes → Value → Prop} {f : Value → Value}

theorem items_write (items : List Value) (v : Value) (h : ∀ w ∈ v :: items, G (write w) (f w)) :
    Items G (write v ++ writeItems items) (f v :: items.map f) := by
  induction items generalizing v with
  | nil =>
    rw [writeItems]
    exact .one ws_nil (h v List.mem_cons_self) ws_nil
  | cons w items ih =>
    rw [writeItems]
    exact .more ws_nil (h v List.mem_cons_self) ws_nil
      (ih w fun u hu => h u (List.mem_cons_of_mem v hu))

theorem pair_write (k : String) (h : G (write v) (f v)) :
    Pair strict G (writeString k ++ colon :: write v) (k, f v) := by
  obtain ⟨b, hb, hsays⟩ := exists_says k
  have hpair := Pair.mk (R := strict) ws_nil hsays ws_nil ws_nil h ws_nil
  simp only [List.nil_append, List.append_nil] at hpair
  rw [hb]
  simpa only [List.cons_append, List.append_assoc, List.nil_append] using hpair

theorem pairs_write (pairs : List (String × Value)) (k : String) (v : Value)
    (h : ∀ kv ∈ (k, v) :: pairs, G (write kv.2) (f kv.2)) :
    Pairs strict G (writeString k ++ colon :: (write v ++ writePairs pairs))
      ((k, f v) :: pairs.map fun kv => (kv.1, f kv.2)) := by
  have hfirst := pair_write k (h (k, v) List.mem_cons_self)
  induction pairs generalizing k v with
  | nil =>
    rw [writePairs, List.append_nil]
    exact .one hfirst
  | cons kw pairs ih =>
    have hrest : ∀ kv ∈ kw :: pairs, G (write kv.2) (f kv.2) := fun kv hkv =>
      h kv (List.mem_cons_of_mem _ hkv)
    have hpairs := ih kw.1 kw.2 hrest (pair_write kw.1 (hrest kw List.mem_cons_self))
    have hmore := Pairs.more hfirst hpairs
    rw [writePairs, List.map_cons]
    simpa only [List.append_assoc, List.cons_append] using hmore

end

/-- **The text of a value has the grammar**, with the value that it is read back as, where there is
room for its nesting. -/
theorem denotes_write {left : ℕ} (h : Legible left v) :
    Denotes strict left (write v) (reread v) := by
  induction left generalizing v with
  | zero => exact h.elim
  | succ left ih =>
    change ValueText strict (Denotes strict left) (write v) (reread v)
    match v with
    | .null =>
      rw [write, reread]
      exact .null
    | .bool true =>
      rw [write, reread]
      exact .true
    | .bool false =>
      rw [write, reread]
      exact .false
    | .number n =>
      obtain ⟨float, htext, hnumber⟩ := number_legible (n := n) h
      rw [write, reread, ← hnumber]
      exact .number htext
    | .string s =>
      obtain ⟨b, hb, hsays⟩ := exists_says s
      rw [write, reread, hb]
      exact .string hsays
    | .array [] =>
      rw [write, reread, rereadItems]
      exact .emptyArray ws_nil
    | .array (item :: items) =>
      have htext := ValueText.array (R := strict) (items_write items item fun w hw => ih (h w hw))
      rw [write, reread_array, List.map_cons]
      simpa only [List.cons_append] using htext
    | .object [] =>
      rw [write, reread, rereadPairs]
      exact .emptyObject ws_nil
    | .object ((k, item) :: pairs) =>
      have hpairs := pairs_write (f := reread) pairs k item fun kv hkv => ih (h.2 kv hkv)
      have hkeys : (((k, reread item) :: pairs.map fun kv => (kv.1, reread kv.2)).map
          Prod.fst).Nodup := by
        rw [List.map_cons, List.map_map]
        exact h.1
      have htext := ValueText.object (R := strict) hpairs hkeys
      rw [write, reread_object, List.map_cons]
      simpa only [List.append_assoc, List.cons_append] using htext

/-- Parsing undoes writing, up to the kinds of the floats, within every limit that the text fits. -/
theorem parseWithLimit_legible (h : Legible maxDepth v) {limit : ℕ} (hlen : size v ≤ limit) :
    parseWithLimit (write v) limit = .ok (reread v) :=
  parse_document ((length_write v).trans_le hlen)
    ⟨[], write v, [], by rw [List.append_nil, List.nil_append], ws_nil, denotes_write h, ws_nil⟩

/-- **Parsing undoes writing**, within every limit that the text fits. -/
theorem parseWithLimit_write (h : Fits maxDepth v) {limit : ℕ} (hlen : size v ≤ limit) :
    parseWithLimit (write v) limit = .ok v := by
  obtain ⟨hlegible, hsame⟩ := h.legible
  rw [parseWithLimit_legible hlegible hlen, hsame]

theorem parse_legible (h : Legible maxDepth v) (hlen : size v ≤ maxInput) :
    parse (write v) = .ok (reread v) := parseWithLimit_legible h hlen

theorem parse_write (h : Fits maxDepth v) (hlen : size v ≤ maxInput) :
    parse (write v) = .ok v := parseWithLimit_write h hlen

/-- What does not fit is refused. -/
theorem parse_write_tooLarge (hlen : maxInput < size v) :
    parse (write v) = .error (.tooLarge (size v) maxInput) := by
  rw [← length_write] at hlen ⊢
  exact if_pos hlen

/-! ### Values without floats -/

/-- What is built without floats: no key stands twice in an object, and an `int` is negative. -/
inductive Built : Value → Prop
  | null : Built .null
  | bool (b : Bool) : Built (.bool b)
  | uint (v : UInt64) : Built (.number (.uint v))
  | int (v : Int64) (neg : v.toInt < 0) : Built (.number (.int v))
  | string (s : String) : Built (.string s)
  | array (items : List Value) (built : ∀ v ∈ items, Built v) : Built (.array items)
  | object (pairs : List (String × Value)) (keys : (pairs.map Prod.fst).Nodup)
      (built : ∀ kv ∈ pairs, Built kv.2) : Built (.object pairs)

mutual

/-- How deep a value is nested: how many arrays and objects are around its innermost part. -/
def nesting : Value → ℕ
  | .array items => nestingItems items
  | .object pairs => nestingPairs pairs
  | _ => 0

def nestingItems : List Value → ℕ
  | [] => 0
  | v :: items => max (nesting v + 1) (nestingItems items)

def nestingPairs : List (String × Value) → ℕ
  | [] => 0
  | (_, v) :: pairs => max (nesting v + 1) (nestingPairs pairs)

end

theorem nesting_lt_of_mem_items {items : List Value} (h : v ∈ items) :
    nesting v < nestingItems items := by
  induction items with
  | nil => exact absurd h List.not_mem_nil
  | cons w items ih =>
    rw [nestingItems]
    rcases List.mem_cons.mp h with rfl | h
    · exact lt_max_of_lt_left (Nat.lt_succ_self _)
    · exact lt_max_of_lt_right (ih h)

theorem nesting_lt_of_mem_pairs {pairs : List (String × Value)} {kv : String × Value}
    (h : kv ∈ pairs) : nesting kv.2 < nestingPairs pairs := by
  induction pairs with
  | nil => exact absurd h List.not_mem_nil
  | cons w pairs ih =>
    rw [nestingPairs]
    rcases List.mem_cons.mp h with rfl | h
    · exact lt_max_of_lt_left (Nat.lt_succ_self _)
    · exact lt_max_of_lt_right (ih h)

/-- What is nested less deep than the room that is left fits in. -/
theorem Built.fits (h : Built v) {left : ℕ} (hleft : nesting v < left) :
    Fits left v := by
  induction h generalizing left with
  | null | bool | uint | string =>
    obtain ⟨left, rfl⟩ := Nat.exists_eq_succ_of_ne_zero (Nat.ne_zero_of_lt hleft)
    trivial
  | int v neg =>
    obtain ⟨left, rfl⟩ := Nat.exists_eq_succ_of_ne_zero (Nat.ne_zero_of_lt hleft)
    exact neg
  | array items _ ih =>
    obtain ⟨left, rfl⟩ := Nat.exists_eq_succ_of_ne_zero (Nat.ne_zero_of_lt hleft)
    rw [nesting] at hleft
    intro w hw
    exact ih w hw ((nesting_lt_of_mem_items hw).trans_le (Nat.le_of_lt_succ hleft))
  | object pairs keys _ ih =>
    obtain ⟨left, rfl⟩ := Nat.exists_eq_succ_of_ne_zero (Nat.ne_zero_of_lt hleft)
    rw [nesting] at hleft
    exact ⟨keys, fun kv hkv =>
      ih kv hkv ((nesting_lt_of_mem_pairs hkv).trans_le (Nat.le_of_lt_succ hleft))⟩

/-- **Writing is faithful**: what was built without floats and is not nested too deep is read back
under every limit that its text fits, and no other value has that text. -/
theorem write_faithful {v : Value} (hv : Built v) (hdeep : nesting v < maxDepth) :
    (∀ limit, (write v).length ≤ limit → parseWithLimit (write v) limit = .ok v) ∧
      ∀ w, Built w → nesting w < maxDepth → write w = write v → w = v := by
  have hread : ∀ w, Built w → nesting w < maxDepth → ∀ limit, (write w).length ≤ limit →
      parseWithLimit (write w) limit = .ok w := by
    intro w hw hd limit hlimit
    exact parseWithLimit_write (hw.fits hd) ((length_write w).symm.le.trans hlimit)
  refine ⟨hread v hv hdeep, fun w hw hd htext => ?_⟩
  have hback := hread w hw hd _ le_rfl
  rw [htext, hread v hv hdeep _ le_rfl] at hback
  exact (Except.ok.inj hback).symm

/-- A document with a key that has to be escaped, a negative number and two levels. -/
theorem write_faithful_sample :
    (∀ limit, (write (.object [("<\n", .array [.null, .number (.int (-7))])])).length ≤ limit →
      parseWithLimit (write (.object [("<\n", .array [.null, .number (.int (-7))])])) limit =
        .ok (.object [("<\n", .array [.null, .number (.int (-7))])])) ∧
      ∀ w, Built w → nesting w < maxDepth →
        write w = write (.object [("<\n", .array [.null, .number (.int (-7))])]) →
        w = .object [("<\n", .array [.null, .number (.int (-7))])] := by
  refine write_faithful (.object _ (by decide) ?_) (by decide)
  intro kv hkv
  rw [List.mem_singleton.mp hkv]
  refine .array _ fun v hv => ?_
  rcases List.mem_cons.mp hv with rfl | hv
  · exact .null
  · rw [List.mem_singleton.mp hv]
    exact .int (-7) (by decide)

end Hop.Types.Json
