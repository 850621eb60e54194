import Hop.Types.Grammar

/-!
# The JSON parser accepts its grammar

Each text of the grammar is read with its value (`value_denotes`), whatever follows that cannot be
part of it (`Follows`): only a number does not see its own end. With `meets_value` this is
`parse_exact`, which says what the parser accepts.

The loops of the parser are bounded by the bytes that are left, and a larger bound changes nothing
(`stringLoop_fuel`, `arrayLoop_fuel`, `objectLoop_fuel`).
-/

namespace Hop.Types.Json

open Input (Meets Took numberOf parseU64 parseI64)

variable {t : Bytes} {b : UInt8} {v : Value}

/-- What can follow a value: nothing that could go on with a number. -/
def Follows (tail : Bytes) : Prop :=
  ∀ b ∈ tail.head?, isDigit b = false ∧ b ≠ dot ∧ b ≠ 101 ∧ b ≠ 69

/-- The end of an item: a comma or a closing bracket. -/
def Closes (b : UInt8) : Prop := b = comma ∨ b = closeBracket ∨ b = closeBrace

theorem Closes.isWs_eq (h : Closes b) : isWs b = false := by
  rcases h with rfl | rfl | rfl <;> decide

theorem follows_of_ws (h : b = 32 ∨ b = 9 ∨ b = 10 ∨ b = 13) :
    isDigit b = false ∧ b ≠ dot ∧ b ≠ 101 ∧ b ≠ 69 := by
  rcases h with rfl | rfl | rfl | rfl
  · decide
  · decide
  · decide
  · decide

/-- Space and the end of an item follow a value. -/
theorem follows_space {w : Bytes} {tail : Bytes} (hw : Ws w) (hb : Closes b) :
    Follows (w ++ b :: tail) := by
  intro c hc
  cases w with
  | nil =>
    obtain rfl : b = c := by simpa using hc
    rcases hb with rfl | rfl | rfl
    · decide
    · decide
    · decide
  | cons d w =>
    obtain rfl : d = c := by simpa using hc
    exact follows_of_ws (hw d List.mem_cons_self)

namespace Input

variable {tail : Bytes} {pos : ℕ}

theorem skipWs_append {w : Bytes} (hw : Ws w) (htail : ∀ b ∈ tail.head?, isWs b = false) :
    (Input.mk (w ++ tail) pos).skipWs = ⟨tail, pos + w.length⟩ :=
  skip_append (fun b hb => isWs_iff.mpr (hw b hb)) htail

theorem skipWs_skipWs (p : Input) : p.skipWs.skipWs = p.skipWs := by
  refine skipWs_of_head fun b hb => ?_
  have hrest : p.skipWs.rest = p.rest.dropWhile isWs :=
    List.append_cancel_left
      ((Took.skip p isWs).rest.symm.trans (List.takeWhile_append_dropWhile (l := p.rest)).symm)
  rw [hrest] at hb
  have hne : p.rest.dropWhile isWs ≠ [] := fun h => by
    rw [h] at hb
    cases hb
  have hhead := List.head_dropWhile_not isWs hne
  rw [List.head?_eq_some_head hne] at hb
  rw [← Option.some.inj hb]
  exact hhead

/-! ### Strings -/

theorem hexDigits_append {ds : List ℕ} (h : t.map hexVal = ds.map some) (v pos : ℕ) :
    hexDigits ds.length v ⟨t ++ tail, pos⟩ =
      .ok (ds.foldl (fun v d => v * 16 + d) v, ⟨tail, pos + t.length⟩) := by
  induction ds generalizing t v pos with
  | nil =>
    obtain rfl : t = [] := List.map_eq_nil_iff.mp h
    rfl
  | cons d ds ih =>
    cases t with
    | nil => cases h
    | cons b t =>
      obtain ⟨hb, ht⟩ := List.cons.inj h
      have hpeek : (Input.mk (b :: t ++ tail) pos).peek.bind hexVal = some d := hb
      rw [List.length_cons, hexDigits, hpeek]
      dsimp only
      rw [List.cons_append, advance_one, ih ht, List.length_cons, Nat.add_right_comm]
      rfl

theorem hex4_append {n : ℕ} (h : Hex4 t n) (pos : ℕ) :
    hex4 ⟨t ++ tail, pos⟩ = .ok (n, ⟨tail, pos + t.length⟩) := by
  obtain ⟨a, b, c, d, hdigits, rfl⟩ := h
  have hread : hexDigits 4 0 ⟨t ++ tail, pos⟩ =
      .ok ([a, b, c, d].foldl (fun v d => v * 16 + d) 0, ⟨tail, pos + t.length⟩) :=
    hexDigits_append (map_hexVal_iff.mpr hdigits) 0 pos
  rw [List.foldl_cons, Nat.zero_mul, Nat.zero_add] at hread
  exact hread

theorem escape_append {e : Bytes} {c : Char} (h : Escape e c) (pos : ℕ) :
    escape ⟨e ++ tail, pos⟩ = .ok (c, ⟨tail, pos + e.length⟩) := by
  cases h with
  | @letter e c h =>
    have hne : (Input.mk ([e] ++ tail) pos).peek ≠ some 117 := by
      intro hpeek
      obtain rfl : e = 117 := Option.some.inj hpeek
      have hnone : escapeChar 117 = none := by decide
      cases hnone.symm.trans (escapeChar_iff.mpr h)
    have hpeek : (Input.mk ([e] ++ tail) pos).peek.bind escapeChar = some c := escapeChar_iff.mpr h
    rw [escape, if_neg hne, hpeek]
    rfl
  | @unicode t n ht hn =>
    rw [escape, List.cons_append, peek_cons, if_pos rfl, advance_one, unicode, hex4_append ht]
    have hn' : ¬ (0xD800 ≤ n ∧ n < 0xDC00) := hn
    dsimp only
    rw [if_neg hn', List.length_cons, Nat.add_assoc, Nat.add_comm 1]
  | @pair t u hi lo ht hhi hu hlo =>
    have htake : (Input.mk (backslash :: 117 :: u ++ tail) (pos + 1 + t.length)).rest.take 2 =
        [backslash, 117] := rfl
    have hadv : (Input.mk (backslash :: 117 :: u ++ tail) (pos + 1 + t.length)).advance 2 =
        ⟨u ++ tail, pos + 1 + t.length + 2⟩ := rfl
    rw [escape, List.cons_append, peek_cons, if_pos rfl, advance_one, List.append_assoc, unicode,
      hex4_append ht]
    have hhi' : 0xD800 ≤ hi ∧ hi < 0xDC00 := hhi
    have hlo' : 0xDC00 ≤ lo ∧ lo < 0xE000 := hlo
    dsimp only
    rw [if_pos hhi', if_pos htake, hadv, hex4_append hu]
    dsimp only
    rw [if_pos hlo']
    congr 3
    simp only [List.length_cons, List.length_append]
    omega

theorem isPlain_of_plainChar {c : Char} (h : PlainChar c) (hb : b ∈ String.utf8EncodeChar c) :
    isPlain b = true := by
  obtain ⟨hquote, hback, hlow⟩ := h
  simp only [isPlain, decide_eq_true_eq, ne_eq]
  by_cases hascii : c.toNat ≤ 0x7f
  · rw [utf8EncodeChar_ascii hascii, List.mem_singleton] at hb
    have hval : c.val.toNat = c.toNat := rfl
    have hbyte : b.toNat = c.toNat := by
      rw [hb, UInt32.toNat_toUInt8, hval, Nat.mod_eq_of_lt (by omega)]
    have hne : ∀ d : Char, c ≠ d → ∀ x : UInt8, x.toNat = d.toNat → b ≠ x := by
      rintro d hd x hx rfl
      exact hd (Char.toNat_inj.mp (hbyte.symm.trans hx))
    refine ⟨hne '"' hquote quote rfl, hne '\\' hback backslash rfl, ?_⟩
    rw [UInt8.le_iff_toNat_le, hbyte]
    exact hlow
  · have hhigh := le_of_mem_utf8EncodeChar (Nat.not_le.mp hascii) hb
    rw [UInt8.le_iff_toNat_le] at hhigh
    have h80 : (0x80 : UInt8).toNat = 128 := rfl
    have hne : ∀ x : UInt8, x.toNat < 128 → b ≠ x := by
      rintro x hx rfl
      omega
    refine ⟨hne quote (by decide), hne backslash (by decide), ?_⟩
    rw [UInt8.le_iff_toNat_le]
    have h32 : (32 : UInt8).toNat = 32 := rfl
    omega

/-- One run of the loop, up to a quote or a backslash. -/
theorem takeWhile_run {cs : List Char} (h : ∀ c ∈ cs, PlainChar c) (hb : isPlain b = false)
    (tail : Bytes) :
    (utf8Chars cs ++ b :: tail).takeWhile isPlain = utf8Chars cs := by
  refine (takeWhile_dropWhile (fun d hd => ?_) fun d hd => ?_).1
  · obtain ⟨c, hc, hdc⟩ := List.mem_flatMap.mp hd
    exact isPlain_of_plainChar (h c hc) hdc
  · obtain rfl : b = d := Option.some.inj hd
    exact hb

theorem stringLoop_says {b : Bytes} {cs : List Char} (h : Says b cs) (fuel : ℕ)
    (hfuel : b.length < fuel) (out : String) (pos : ℕ) :
    stringLoop fuel out ⟨b ++ quote :: tail, pos⟩ =
      .ok (out ++ String.ofList cs, ⟨tail, pos + b.length + 1⟩) := by
  induction h generalizing fuel out pos with
  | @run cs h =>
    obtain ⟨fuel, rfl⟩ := Nat.exists_eq_succ_of_ne_zero (Nat.ne_zero_of_lt hfuel)
    have htake := takeWhile_run h (b := quote) (by decide) tail
    simp only [stringLoop, htake, fromUtf8_utf8Chars, advance_append, peek_cons, if_true,
      advance_one]
  | @escape cs ds e b c h he hb ih =>
    obtain ⟨fuel, rfl⟩ := Nat.exists_eq_succ_of_ne_zero (Nat.ne_zero_of_lt hfuel)
    have htake := takeWhile_run h (b := backslash) (by decide) (e ++ b ++ quote :: tail)
    have hlen : b.length < fuel := by
      simp only [List.length_append, List.length_cons] at hfuel
      omega
    rw [List.append_assoc, List.cons_append]
    simp only [stringLoop, htake, fromUtf8_utf8Chars, advance_append, peek_cons, advance_one]
    rw [if_neg (by decide), if_pos trivial, List.append_assoc, escape_append he]
    dsimp only
    have hout : (out ++ String.ofList cs).push c ++ String.ofList ds =
        out ++ String.ofList (cs ++ c :: ds) := String.toList_inj.mp (by simp)
    have hpos : pos + (utf8Chars cs).length + 1 + e.length + b.length + 1 =
        pos + (utf8Chars cs ++ backslash :: (e ++ b)).length + 1 := by
      simp only [List.length_append, List.length_cons]
      omega
    rw [ih fuel hlen, hout, hpos]

theorem string_says {b : Bytes} {s : String} (h : Says b s.toList) (pos : ℕ) :
    (Input.mk (quote :: (b ++ quote :: tail)) pos).string =
      .ok (s, ⟨tail, pos + b.length + 2⟩) := by
  have hfuel : b.length < (quote :: (b ++ quote :: tail)).length := by
    simp only [List.length_cons, List.length_append]
    omega
  rw [string, advance_one, stringLoop_says h _ hfuel, String.empty_append, String.ofList_toList]
  congr 3
  omega

/-! ### Numbers -/

theorem digits_append {ds : Bytes} (h : DigitRow ds) (htail : ∀ b ∈ tail.head?, isDigit b = false)
    (pos : ℕ) : digits ⟨ds ++ tail, pos⟩ = .ok ⟨tail, pos + ds.length⟩ := by
  have hskip : (Input.mk (ds ++ tail) pos).skip isDigit = ⟨tail, pos + ds.length⟩ :=
    skip_append h.2 htail
  have hne : ¬ pos + ds.length - pos = 0 := by
    rw [Nat.add_sub_cancel_left]
    exact fun h0 => h.1 (List.length_eq_zero_iff.mp h0)
  rw [digits, hskip, if_neg hne]

theorem intPart_append (h : IntText t) (htail : ∀ b ∈ tail.head?, isDigit b = false) (pos : ℕ) :
    intPart ⟨t ++ tail, pos⟩ = .ok ⟨tail, pos + t.length⟩ := by
  rcases h with rfl | ⟨hrow, h0⟩
  · rw [intPart, List.singleton_append, peek_cons, if_pos rfl]
    rfl
  · obtain ⟨b, ds, rfl⟩ := List.exists_cons_of_ne_nil hrow.1
    have hpeek : (Input.mk (b :: ds ++ tail) pos).peek = some b := rfl
    have hskip : (Input.mk (b :: ds ++ tail) pos).skip isDigit =
        ⟨tail, pos + (b :: ds).length⟩ := skip_append hrow.2 htail
    have hdigit : (some b).any isDigit = true := hrow.2 b List.mem_cons_self
    have h0' : ¬ some b = some 48 := h0
    rw [intPart, hpeek, if_neg h0', if_pos hdigit, hskip]

theorem fraction_append (h : FracText t) (htail : ∀ b ∈ tail.head?, isDigit b = false ∧ b ≠ dot)
    (pos : ℕ) :
    fraction ⟨t ++ tail, pos⟩ = .ok (decide (t ≠ []), ⟨tail, pos + t.length⟩) := by
  rcases h with rfl | ⟨ds, hds, rfl⟩
  · exact if_neg fun hdot => (htail dot hdot).2 rfl
  · rw [fraction, List.cons_append, peek_cons, if_pos rfl, advance_one,
      digits_append hds fun b hb => (htail b hb).1]
    simp only [Except.map, List.length_cons]
    congr 3
    omega

theorem exponent_append (h : ExpText t) (htail : Follows tail) (pos : ℕ) :
    exponent ⟨t ++ tail, pos⟩ = .ok (decide (t ≠ []), ⟨tail, pos + t.length⟩) := by
  rcases h with rfl | ⟨e, s, ds, he, hs, hds, rfl⟩
  · refine if_neg ?_
    rintro (hpeek | hpeek)
    · exact (htail 101 hpeek).2.2.1 rfl
    · exact (htail 69 hpeek).2.2.2 rfl
  · have hpeek : (Input.mk (e :: (s ++ ds) ++ tail) pos).peek = some 101 ∨
        (Input.mk (e :: (s ++ ds) ++ tail) pos).peek = some 69 := by
      rcases he with rfl | rfl
      · exact .inl rfl
      · exact .inr rfl
    have hdigits := fun pos => digits_append hds (fun b hb => (htail b hb).1) pos
    rw [exponent, if_pos hpeek, List.cons_append, advance_one, List.append_assoc]
    have hsign : (if (Input.mk (s ++ (ds ++ tail)) (pos + 1)).peek = some 43 ∨
        (Input.mk (s ++ (ds ++ tail)) (pos + 1)).peek = some minus then
        (Input.mk (s ++ (ds ++ tail)) (pos + 1)).advance 1
        else Input.mk (s ++ (ds ++ tail)) (pos + 1)) = ⟨ds ++ tail, pos + 1 + s.length⟩ := by
      rcases hs with rfl | rfl | rfl
      · refine if_neg ?_
        obtain ⟨d, ds, rfl⟩ := List.exists_cons_of_ne_nil hds.1
        have hd := hds.2 d List.mem_cons_self
        rintro (h | h)
        · obtain rfl : d = 43 := Option.some.inj h
          exact absurd hd (by decide)
        · obtain rfl : d = minus := Option.some.inj h
          exact absurd hd (by decide)
      · exact if_pos (.inl rfl)
      · exact if_pos (.inr rfl)
    dsimp only
    rw [hsign, hdigits]
    simp only [Except.map, List.length_cons, List.length_append]
    congr 3
    omega

theorem number_append {float : Bool} (h : NumberText float t) (htail : Follows tail) (pos : ℕ) :
    number ⟨t ++ tail, pos⟩ = .ok (numberOf float t, ⟨tail, pos + t.length⟩) := by
  obtain ⟨sign, int, frac, exp, rfl, hsign, hint, hfrac, hexp, hfloat⟩ := h.parts
  -- the first byte of what follows each part
  have hexpHead : ∀ b ∈ (exp ++ tail).head?, isDigit b = false ∧ b ≠ dot := by
    intro b hb
    rcases hexp with rfl | ⟨e, s, ds, he, -, -, rfl⟩
    · exact ⟨(htail b hb).1, (htail b hb).2.1⟩
    · obtain rfl : e = b := Option.some.inj hb
      rcases he with rfl | rfl
      · decide
      · decide
  have hfracHead : ∀ b ∈ (frac ++ (exp ++ tail)).head?, isDigit b = false := by
    intro b hb
    rcases hfrac with rfl | ⟨ds, -, rfl⟩
    · exact (hexpHead b hb).1
    · obtain rfl : dot = b := Option.some.inj hb
      decide
  have hminus : (if (Input.mk (sign ++ (int ++ (frac ++ (exp ++ tail)))) pos).peek = some minus
      then (Input.mk (sign ++ (int ++ (frac ++ (exp ++ tail)))) pos).advance 1
      else Input.mk (sign ++ (int ++ (frac ++ (exp ++ tail)))) pos) =
        ⟨int ++ (frac ++ (exp ++ tail)), pos + sign.length⟩ := by
    rcases hsign with rfl | rfl
    · refine if_neg fun h => ?_
      rcases hint with rfl | ⟨hrow, -⟩
      · exact absurd (Option.some.inj h : (48 : UInt8) = minus) (by decide)
      · obtain ⟨d, ds, rfl⟩ := List.exists_cons_of_ne_nil hrow.1
        obtain rfl : d = minus := Option.some.inj h
        exact absurd (hrow.2 minus List.mem_cons_self) (by decide)
    · exact if_pos rfl
  have hfloat' : (decide (frac ≠ []) || decide (exp ≠ [])) = float := by
    rw [Bool.eq_iff_iff, Bool.or_eq_true, decide_eq_true_eq, decide_eq_true_eq, hfloat]
  have htake : ∀ n, n = (sign ++ (int ++ (frac ++ exp))).length →
      (sign ++ (int ++ (frac ++ (exp ++ tail)))).take n = sign ++ (int ++ (frac ++ exp)) := by
    rintro n rfl
    have hassoc : sign ++ (int ++ (frac ++ (exp ++ tail))) =
        sign ++ (int ++ (frac ++ exp)) ++ tail := by
      simp only [List.append_assoc]
    rw [hassoc, List.take_left]
  simp only [List.append_assoc]
  rw [number, hminus, intPart_append hint hfracHead]
  simp only [bind, Except.bind]
  rw [fraction_append hfrac hexpHead]
  dsimp only
  rw [exponent_append hexp htail]
  dsimp only
  rw [hfloat', htake]
  · congr 3
    simp only [List.length_append]
    omega
  · simp only [List.length_append]
    omega

/-! ### More fuel changes nothing -/

theorem length_next {p : Input} (h : p.peek = some b) :
    (p.advance 1).rest.length < p.rest.length := by
  rw [(Took.next h).rest, List.singleton_append, List.length_cons]
  exact Nat.lt_succ_self _

theorem stringLoop_fuel {f g : ℕ} (out : String) {p : Input} (hf : p.rest.length < f)
    (hg : p.rest.length < g) : stringLoop f out p = stringLoop g out p := by
  induction f generalizing g out p with
  | zero => exact absurd hf (Nat.not_lt_zero _)
  | succ f ih =>
    obtain ⟨g, rfl⟩ := Nat.exists_eq_succ_of_ne_zero (Nat.ne_zero_of_lt hg)
    have hrun : Took p (p.rest.takeWhile isPlain) (p.advance (p.rest.takeWhile isPlain).length) :=
      Took.skip p isPlain
    have hrunLen := hrun.length_le
    rw [stringLoop, stringLoop]
    dsimp only
    generalize p.advance (p.rest.takeWhile isPlain).length = q at *
    rcases fromUtf8 (p.rest.takeWhile isPlain) with _ | text
    · rfl
    dsimp only
    by_cases hquote : q.peek = some quote
    · rw [if_pos hquote, if_pos hquote]
    rw [if_neg hquote, if_neg hquote]
    by_cases hback : q.peek = some backslash
    · rw [if_pos hback, if_pos hback]
      have hesc := meets_escape (q.advance 1)
      rcases hread : (q.advance 1).escape with e | ⟨c, r⟩
      · rfl
      · obtain ⟨t, ht, -⟩ := (hread ▸ hesc : Meets _ _ (.ok (c, r)))
        have hlen := ht.length_le
        have hnext := length_next hback
        exact ih _ (by omega) (by omega)
    · rw [if_neg hback, if_neg hback]

section Fuel

variable {G : Bytes → Value → Prop} {item : Input → Except Error (Value × Input)}

theorem arrayLoop_fuel (hitem : ∀ p, Meets p G (item p)) {f g : ℕ} (arr : List Value) {p : Input}
    (hf : p.rest.length < f) (hg : p.rest.length < g) :
    arrayLoop item f arr p = arrayLoop item g arr p := by
  induction f generalizing g arr p with
  | zero => exact absurd hf (Nat.not_lt_zero _)
  | succ f ih =>
    obtain ⟨g, rfl⟩ := Nat.exists_eq_succ_of_ne_zero (Nat.ne_zero_of_lt hg)
    have hone := meets_itemOf hitem p
    rw [arrayLoop_succ, arrayLoop_succ]
    rcases hread : itemOf item p with e | ⟨v, q⟩ <;> rw [hread] at hone
    · rfl
    obtain ⟨t, ht, -⟩ := hone
    have hlen := ht.length_le
    simp only [bind, Except.bind]
    by_cases hcomma : q.peek = some comma
    · have hnext := length_next hcomma
      rw [if_pos hcomma, if_pos hcomma]
      exact ih _ (by omega) (by omega)
    · rw [if_neg hcomma, if_neg hcomma]

theorem objectLoop_fuel (hitem : ∀ p, Meets p G (item p)) {f g : ℕ} (obj : List (String × Value))
    {p : Input} (hf : p.rest.length < f) (hg : p.rest.length < g) :
    objectLoop item f obj p = objectLoop item g obj p := by
  induction f generalizing g obj p with
  | zero => exact absurd hf (Nat.not_lt_zero _)
  | succ f ih =>
    obtain ⟨g, rfl⟩ := Nat.exists_eq_succ_of_ne_zero (Nat.ne_zero_of_lt hg)
    have hone := meets_pairOf hitem obj p
    rw [objectLoop_succ, objectLoop_succ]
    rcases hread : pairOf item obj p with e | ⟨kv, q⟩ <;> rw [hread] at hone
    · rfl
    obtain ⟨t, ht, -⟩ := hone
    have hlen := ht.length_le
    simp only [bind, Except.bind]
    by_cases hcomma : q.peek = some comma
    · have hnext := length_next hcomma
      rw [if_pos hcomma, if_pos hcomma]
      exact ih _ (by omega) (by omega)
    · rw [if_neg hcomma, if_neg hcomma]

end Fuel

/-! ### Values -/

/-- Every text of `G` is read with its value, and does not begin with space or a closing
bracket. -/
structure Completes (G : Bytes → Value → Prop) (item : Input → Except Error (Value × Input)) :
    Prop where
  starts : ∀ {t v}, G t v → ∃ b r, t = b :: r ∧ isWs b = false ∧ b ≠ closeBracket
  reads : ∀ {t v tail} pos, G t v → Follows tail →
    item ⟨t ++ tail, pos⟩ = .ok (v, ⟨tail, pos + t.length⟩)

section Loops

variable {G : Bytes → Value → Prop} {item : Input → Except Error (Value × Input)}

theorem itemOf_append (hitem : Completes G item) {w w' : Bytes} (hw : Ws w) (ht : G t v)
    (hw' : Ws w') (hb : Closes b) (pos : ℕ) :
    itemOf item ⟨w ++ (t ++ w') ++ b :: tail, pos⟩ =
      .ok (v, ⟨b :: tail, pos + (w ++ (t ++ w')).length⟩) := by
  obtain ⟨c, r, hc, hcws, -⟩ := hitem.starts ht
  have hhead : ∀ d ∈ (t ++ (w' ++ b :: tail)).head?, isWs d = false := by
    rw [hc]
    rintro d ⟨⟩
    exact hcws
  have hend : ∀ d ∈ (b :: tail).head?, isWs d = false := by
    rintro d ⟨⟩
    exact hb.isWs_eq
  rw [List.append_assoc, List.append_assoc, itemOf, skipWs_append hw hhead,
    hitem.reads _ ht (follows_space hw' hb)]
  simp only [bind, Except.bind]
  rw [skipWs_append hw' hend]
  congr 3
  simp only [List.length_append]
  omega

theorem pairOf_append (hitem : Completes G item) {c : Bytes} {kv : String × Value}
    (h : Pair strict G c kv) {obj : List (String × Value)} (hnew : kv.1 ∉ obj.map Prod.fst)
    (hb : Closes b) (pos : ℕ) :
    pairOf item obj ⟨c ++ b :: tail, pos⟩ = .ok (kv, ⟨b :: tail, pos + c.length⟩) := by
  obtain ⟨hw, hk, hw₁, hw₂, ht, hw₃⟩ := h
  rename_i w k w₁ w₂ t w₃ s v
  obtain ⟨x, r, hx, hxws, -⟩ := hitem.starts ht
  have hhead : ∀ d ∈ (t ++ (w₃ ++ b :: tail)).head?, isWs d = false := by
    rw [hx]
    rintro d ⟨⟩
    exact hxws
  have hcons : ∀ {y : UInt8} {l : Bytes}, isWs y = false → ∀ d ∈ (y :: l).head?, isWs d = false := by
    rintro y l hy d ⟨⟩
    exact hy
  have hfresh : ¬ obj.any (fun kv => kv.1 = s) = true := by
    intro hany
    obtain ⟨kv, hkv, hkey⟩ := List.any_eq_true.mp hany
    exact hnew (List.mem_map.mpr ⟨kv, hkv, by simpa using hkey⟩)
  have htext : w ++ quote :: (k ++ quote :: (w₁ ++ colon :: (w₂ ++ (t ++ w₃)))) ++ b :: tail =
      w ++ quote :: (k ++ quote :: (w₁ ++ colon :: (w₂ ++ (t ++ (w₃ ++ b :: tail))))) := by
    simp only [List.append_assoc, List.cons_append]
  rw [htext, pairOf, skipWs_append hw (hcons (by decide)), peek_cons, if_neg (not_not_intro rfl),
    string_says hk]
  simp only [bind, Except.bind]
  rw [if_neg hfresh, skipWs_append hw₁ (hcons (by decide)), eat, peek_cons, if_pos rfl]
  dsimp only
  rw [advance_one, skipWs_append hw₂ hhead, hitem.reads _ ht (follows_space hw₃ hb)]
  dsimp only
  rw [skipWs_append hw₃ (hcons hb.isWs_eq)]
  congr 3
  simp only [List.length_append, List.length_cons]
  omega

theorem arrayLoop_items (hitem : Completes G item) {b : Bytes} {vs : List Value}
    (h : Items G b vs) (fuel : ℕ) (hfuel : b.length < fuel) (arr : List Value) (pos : ℕ) :
    arrayLoop item fuel arr ⟨b ++ closeBracket :: tail, pos⟩ =
      .ok (.array (arr ++ vs), ⟨tail, pos + b.length + 1⟩) := by
  induction h generalizing fuel arr pos with
  | one hw ht hw' =>
    obtain ⟨fuel, rfl⟩ := Nat.exists_eq_succ_of_ne_zero (Nat.ne_zero_of_lt hfuel)
    rw [arrayLoop_succ, itemOf_append hitem hw ht hw' (.inr (.inl rfl))]
    rfl
  | @more w t w' b v vs hw ht hw' hb ih =>
    obtain ⟨fuel, rfl⟩ := Nat.exists_eq_succ_of_ne_zero (Nat.ne_zero_of_lt hfuel)
    have hlen : b.length < fuel := by
      simp only [List.length_append, List.length_cons] at hfuel
      omega
    have htext : w ++ (t ++ (w' ++ comma :: b)) ++ closeBracket :: tail =
        w ++ (t ++ w') ++ comma :: (b ++ closeBracket :: tail) := by
      simp only [List.append_assoc, List.cons_append]
    rw [htext, arrayLoop_succ, itemOf_append hitem hw ht hw' (.inl rfl)]
    simp only [bind, Except.bind, peek_cons, if_true, advance_one]
    rw [ih fuel hlen, List.append_assoc, List.singleton_append]
    congr 3
    simp only [List.length_append, List.length_cons]
    omega

theorem objectLoop_pairs (hitem : Completes G item) {b : Bytes} {kvs : List (String × Value)}
    (h : Pairs strict G b kvs) (fuel : ℕ) (hfuel : b.length < fuel) (obj : List (String × Value))
    (hkeys : ((obj ++ kvs).map Prod.fst).Nodup) (pos : ℕ) :
    objectLoop item fuel obj ⟨b ++ closeBrace :: tail, pos⟩ =
      .ok (.object (obj ++ kvs), ⟨tail, pos + b.length + 1⟩) := by
  have hfresh : ∀ {obj kvs : List (String × Value)} {kv}, ((obj ++ kv :: kvs).map Prod.fst).Nodup →
      kv.1 ∉ obj.map Prod.fst := by
    intro obj kvs kv hkeys hmem
    rw [List.map_append, List.map_cons, List.nodup_append] at hkeys
    exact hkeys.2.2 _ hmem _ List.mem_cons_self rfl
  induction h generalizing fuel obj pos with
  | one h =>
    obtain ⟨fuel, rfl⟩ := Nat.exists_eq_succ_of_ne_zero (Nat.ne_zero_of_lt hfuel)
    rw [objectLoop_succ, pairOf_append hitem h (hfresh hkeys) (.inr (.inr rfl))]
    rfl
  | @more b b' kv kvs h hb ih =>
    obtain ⟨fuel, rfl⟩ := Nat.exists_eq_succ_of_ne_zero (Nat.ne_zero_of_lt hfuel)
    have hlen : b'.length < fuel := by
      simp only [List.length_append, List.length_cons] at hfuel
      omega
    have hkeys' : ((obj ++ [kv] ++ kvs).map Prod.fst).Nodup := by
      rwa [List.append_assoc, List.singleton_append]
    rw [List.append_assoc, List.cons_append, objectLoop_succ,
      pairOf_append hitem h (hfresh hkeys) (.inl rfl)]
    simp only [bind, Except.bind, peek_cons, if_true, advance_one]
    rw [ih fuel hlen _ hkeys', List.append_assoc, List.singleton_append]
    congr 3
    simp only [List.length_append, List.length_cons]
    omega

theorem itemOf_skipWs (p : Input) : itemOf item p.skipWs = itemOf item p := by
  rw [itemOf, itemOf, skipWs_skipWs]

theorem pairOf_skipWs (obj : List (String × Value)) (p : Input) :
    pairOf item obj p.skipWs = pairOf item obj p := by
  rw [pairOf, pairOf, skipWs_skipWs]

theorem array_items (hitem : Completes G item) {b : Bytes} {vs : List Value} (h : Items G b vs)
    (pos : ℕ) : (Input.mk (openBracket :: (b ++ closeBracket :: tail)) pos).array item =
      .ok (.array vs, ⟨tail, pos + b.length + 2⟩) := by
  -- the first item begins with no closing bracket
  have hfirst : (Input.mk (b ++ closeBracket :: tail) (pos + 1)).skipWs.peek ≠
      some closeBracket := by
    obtain ⟨w, t, r, v, hb, hw, ht⟩ : ∃ w t r v, b = w ++ (t ++ r) ∧ Ws w ∧ G t v := by
      cases h with
      | one hw ht _ => exact ⟨_, _, _, _, rfl, hw, ht⟩
      | more hw ht _ _ => exact ⟨_, _, _, _, rfl, hw, ht⟩
    obtain ⟨c, t, rfl, hcws, hc⟩ := hitem.starts ht
    have hhead : ∀ d ∈ (c :: t ++ (r ++ closeBracket :: tail)).head?, isWs d = false := by
      rintro d ⟨⟩
      exact hcws
    rw [hb, List.append_assoc, List.append_assoc, skipWs_append hw hhead]
    exact fun hpeek => hc (Option.some.inj hpeek)
  rw [array, advance_one, if_neg hfirst, List.length_cons, arrayLoop_succ, itemOf_skipWs,
    ← arrayLoop_succ, arrayLoop_items hitem h]
  · congr 3
    omega
  · simp only [List.length_append, List.length_cons]
    omega

theorem object_pairs (hitem : Completes G item) {b : Bytes} {kvs : List (String × Value)}
    (h : Pairs strict G b kvs) (hkeys : (kvs.map Prod.fst).Nodup) (pos : ℕ) :
    (Input.mk (openBrace :: (b ++ closeBrace :: tail)) pos).object item =
      .ok (.object kvs, ⟨tail, pos + b.length + 2⟩) := by
  -- the first pair begins with a quote
  have hfirst : (Input.mk (b ++ closeBrace :: tail) (pos + 1)).skipWs.peek ≠ some closeBrace := by
    obtain ⟨w, r, hb, hw⟩ : ∃ w r, b = w ++ quote :: r ∧ Ws w := by
      cases h with
      | one h => obtain ⟨hw⟩ := h; exact ⟨_, _, rfl, hw⟩
      | more h _ =>
        obtain ⟨hw⟩ := h
        exact ⟨_, _, by rw [List.append_assoc, List.cons_append], hw⟩
    have hhead : ∀ d ∈ (quote :: (r ++ closeBrace :: tail)).head?, isWs d = false := by
      rintro d ⟨⟩
      decide
    rw [hb, List.append_assoc, List.cons_append, skipWs_append hw hhead]
    exact fun hpeek => absurd (Option.some.inj hpeek) (by decide)
  rw [object, advance_one, if_neg hfirst, List.length_cons, objectLoop_succ, pairOf_skipWs,
    ← objectLoop_succ, objectLoop_pairs hitem h _ _ [] hkeys]
  · congr 3
    omega
  · simp only [List.length_append, List.length_cons]
    omega

end Loops

/-! ### The value -/

theorem isWs_of_isDigit (h : isDigit b = true) : isWs b = false ∧ b ≠ closeBracket := by
  refine ⟨?_, ?_⟩
  · rw [Bool.eq_false_iff]
    intro hws
    simp only [isWs, decide_eq_true_eq] at hws
    rcases hws with rfl | rfl | rfl | rfl
    · exact absurd h (by decide)
    · exact absurd h (by decide)
    · exact absurd h (by decide)
    · exact absurd h (by decide)
  · rintro rfl
    exact absurd h (by decide)

/-- A number begins with a minus or a digit. -/
theorem numberText_head {float : Bool} (h : NumberText float t) :
    ∃ b r, t = b :: r ∧ (b = minus ∨ isDigit b = true) := by
  obtain ⟨sign, int, frac, exp, rfl, hsign, hint, -, -, -⟩ := h.parts
  rcases hsign with rfl | rfl
  · rcases hint with rfl | ⟨hrow, -⟩
    · exact ⟨48, _, rfl, .inr (by decide)⟩
    · obtain ⟨d, ds, rfl⟩ := List.exists_cons_of_ne_nil hrow.1
      exact ⟨d, _, rfl, .inr (hrow.2 d List.mem_cons_self)⟩
  · exact ⟨minus, _, rfl, .inl rfl⟩

theorem valueText_starts {G : Bytes → Value → Prop} (h : ValueText strict G t v) :
    ∃ b r, t = b :: r ∧ isWs b = false ∧ b ≠ closeBracket := by
  cases h with
  | null => exact ⟨110, _, rfl, by decide, by decide⟩
  | true => exact ⟨116, _, rfl, by decide, by decide⟩
  | false => exact ⟨102, _, rfl, by decide, by decide⟩
  | number h =>
    obtain ⟨b, r, rfl, hb⟩ := numberText_head h
    rcases hb with rfl | hb
    · exact ⟨minus, r, rfl, by decide, by decide⟩
    · exact ⟨b, r, rfl, isWs_of_isDigit hb⟩
  | string _ => exact ⟨quote, _, rfl, by decide, by decide⟩
  | emptyArray _ => exact ⟨openBracket, _, rfl, by decide, by decide⟩
  | array _ => exact ⟨openBracket, _, rfl, by decide, by decide⟩
  | emptyObject _ => exact ⟨openBrace, _, rfl, by decide, by decide⟩
  | object _ _ => exact ⟨openBrace, _, rfl, by decide, by decide⟩

theorem literal_append (word : Bytes) (v : Value) (pos : ℕ) :
    (Input.mk (word ++ tail) pos).literal word v = .ok (v, ⟨tail, pos + word.length⟩) := by
  rw [literal, List.take_left, if_pos rfl, advance_append]

theorem value_literal {left : ℕ} {word : Bytes} (pos : ℕ)
    (h : value (left + 1) ⟨word ++ tail, pos⟩ = (Input.mk (word ++ tail) pos).literal word v) :
    value (left + 1) ⟨word ++ tail, pos⟩ = .ok (v, ⟨tail, pos + word.length⟩) := by
  rw [h, literal_append]

theorem length_between (o c : UInt8) (b : Bytes) : (o :: (b ++ [c])).length = b.length + 2 := by
  rw [List.length_cons, List.length_append, List.length_singleton]

theorem value_reads {left : ℕ} (hitem : Completes (Denotes strict left) (value left))
    (h : ValueText strict (Denotes strict left) t v) (htail : Follows tail) (pos : ℕ) :
    value (left + 1) ⟨t ++ tail, pos⟩ = .ok (v, ⟨tail, pos + t.length⟩) := by
  have hends : ∀ {b : UInt8} {r : Bytes}, isWs b = false →
      ∀ d ∈ (b :: r).head?, isWs d = false := by
    rintro b r hb d ⟨⟩
    exact hb
  cases h with
  | null => exact value_literal pos rfl
  | true => exact value_literal pos rfl
  | false => exact value_literal pos rfl
  | @number t float h =>
    obtain ⟨b, r, rfl, hb⟩ := numberText_head h
    rw [value_number left (b := b) rfl hb, number_append h htail]
    rfl
  | @string b s h =>
    rw [value_string left rfl, List.cons_append, List.append_assoc, List.singleton_append,
      string_says h, length_between]
    rfl
  | @emptyArray w hw =>
    rw [value_array left rfl, List.cons_append, List.append_assoc, List.singleton_append, array,
      advance_one, skipWs_append hw (hends (by decide))]
    dsimp only
    rw [peek_cons, if_pos rfl, advance_one, length_between, Nat.add_right_comm pos 1]
    rfl
  | @array b vs h =>
    rw [value_array left rfl, List.cons_append, List.append_assoc, List.singleton_append,
      array_items hitem h, length_between]
    rfl
  | @emptyObject w hw =>
    rw [value_object left rfl, List.cons_append, List.append_assoc, List.singleton_append, object,
      advance_one, skipWs_append hw (hends (by decide))]
    dsimp only
    rw [peek_cons, if_pos rfl, advance_one, length_between, Nat.add_right_comm pos 1]
    rfl
  | @object b kvs h hkeys =>
    rw [value_object left rfl, List.cons_append, List.append_assoc, List.singleton_append,
      object_pairs hitem h hkeys, length_between]
    rfl

/-- **The parser reads all that has the grammar.** -/
theorem value_denotes (left : ℕ) : Completes (Denotes strict left) (value left) := by
  induction left with
  | zero => exact ⟨False.elim, fun _ h _ => h.elim⟩
  | succ left ih => exact ⟨valueText_starts, fun pos h htail => value_reads ih h htail pos⟩

end Input

/-! ### Integers -/

/-- The integer that a text without fraction and exponent stands for. -/
def intOf : Bytes → ℤ
  | [] => 0
  | b :: ds => if b = minus then -(ofDigits ds : ℤ) else ofDigits (b :: ds)

/-- The number, if it is kept as an integer. -/
def Number.integer : Number → Option ℤ
  | .int v => some v.toInt
  | .uint v => some v.toNat
  | .float _ => none

theorem IntText.row (h : IntText t) : DigitRow t := by
  rcases h with rfl | ⟨h, -⟩
  · exact ⟨List.cons_ne_nil _ _, fun b hb => by rw [List.mem_singleton.mp hb]; decide⟩
  · exact h

/-- A number without fraction and exponent: the sign and the integer part. -/
theorem NumberText.integer (h : NumberText false t) :
    DigitRow t ∨ ∃ ds, t = minus :: ds ∧ DigitRow ds := by
  obtain ⟨sign, int, frac, exp, rfl, hsign, hint, -, -, hfloat⟩ := h.parts
  obtain ⟨rfl, rfl⟩ : frac = [] ∧ exp = [] := by simpa using hfloat
  simp only [List.append_nil]
  rcases hsign with rfl | rfl
  · exact .inl hint.row
  · exact .inr ⟨int, rfl, hint.row⟩

/-- **An integer that fits is exact.** -/
theorem numberOf_integer (h : NumberText false t)
    (hfits : i64Min ≤ intOf t ∧ intOf t ≤ i64Max ∨ 0 ≤ intOf t ∧ intOf t ≤ u64Max) :
    (numberOf false t).integer = some (intOf t) := by
  rcases h.integer with hrow | ⟨ds, rfl, hrow⟩
  · obtain ⟨d, ds, rfl⟩ := List.exists_cons_of_ne_nil hrow.1
    have hne : d ≠ minus := by
      rintro rfl
      exact absurd (hrow.2 minus List.mem_cons_self) (by decide)
    have hint : intOf (d :: ds) = ofDigits (d :: ds) := if_neg hne
    rw [hint] at hfits ⊢
    have hle : ofDigits (d :: ds) ≤ u64Max := by
      simp only [i64Max, u64Max] at hfits ⊢
      omega
    have hparse : parseU64 (d :: ds) = some (UInt64.ofNat (ofDigits (d :: ds))) :=
      if_pos ⟨hrow.1, List.all_eq_true.mpr hrow.2, hle⟩
    have hval : (UInt64.ofNat (ofDigits (d :: ds))).toNat = ofDigits (d :: ds) :=
      UInt64.toNat_ofNat_of_lt' (Nat.lt_succ_of_le hle)
    rw [numberOf, if_neg Bool.false_ne_true, hparse, Number.integer, hval]
  · have hint : intOf (minus :: ds) = -(ofDigits ds : ℤ) := by rw [intOf, if_pos rfl]
    rw [hint] at hfits ⊢
    have hge : i64Min ≤ -(ofDigits ds : ℤ) := by
      simp only [i64Min] at hfits ⊢
      omega
    have hu : parseU64 (minus :: ds) = none := by
      refine if_neg ?_
      rintro ⟨-, hall, -⟩
      exact absurd (List.all_eq_true.mp hall minus List.mem_cons_self) (by decide)
    have hi : parseI64 (minus :: ds) = some (Int64.ofInt (-(ofDigits ds : ℤ))) :=
      if_pos ⟨rfl, hrow.1, List.all_eq_true.mpr hrow.2, hge⟩
    have hval : (Int64.ofInt (-(ofDigits ds : ℤ))).toInt = -(ofDigits ds : ℤ) := by
      rw [Int64.toInt_ofInt_of_le]
      · simp only [i64Min] at hge
        omega
      · omega
    rw [numberOf, if_neg Bool.false_ne_true, hu]
    dsimp only
    rw [hi, Number.integer, hval]

/-! ### Documents -/

/-- What the parser makes of a whole input. -/
theorem parse_meets {b : Bytes} {limit : ℕ} (h : b.length ≤ limit) :
    match parseWithLimit b limit with
    | .ok v => Document b v
    | .error e => ∀ o ∈ e.offset?, o ≤ b.length := by
  obtain ⟨w, hw, hws⟩ := Took.skipWs (Input.mk b 0)
  have hbound : (Input.mk b 0).bound = b.length := Nat.zero_add _
  have hvalue := Meets.after hw (Input.meets_value maxDepth (Input.mk b 0).skipWs)
  rw [parseWithLimit, if_neg (Nat.not_lt.mpr h)]
  rcases hread : Input.value maxDepth (Input.mk b 0).skipWs with e | ⟨v, q⟩ <;>
    rw [hread] at hvalue
  · exact hbound ▸ hvalue
  obtain ⟨_, hq, t, rfl, ht⟩ := hvalue
  obtain ⟨w', hw', hws'⟩ := Took.skipWs q
  have hall := hq.trans hw'
  simp only [bind, Except.bind]
  by_cases hrest : q.skipWs.rest = []
  · rw [if_neg (not_not_intro hrest)]
    refine ⟨w, t, w', ?_, hws, ht, hws'⟩
    rw [← List.append_assoc, ← List.append_nil (w ++ t ++ w'), ← hrest]
    exact hall.rest
  · rw [if_pos hrest]
    rintro o ⟨⟩
    rw [← hbound, ← hall.bound_eq]
    exact Input.pos_le _

theorem parse_document {b : Bytes} {limit : ℕ} (h : b.length ≤ limit) (hdoc : Document b v) :
    parseWithLimit b limit = .ok v := by
  obtain ⟨w, t, w', rfl, hw, ht, hw'⟩ := hdoc
  obtain ⟨c, r, hc, hcws, -⟩ := (Input.value_denotes maxDepth).starts ht
  have hhead : ∀ d ∈ (t ++ w').head?, isWs d = false := by
    rw [hc]
    rintro d ⟨⟩
    exact hcws
  have hend : ∀ d ∈ ([] : Bytes).head?, isWs d = false := fun d hd => nomatch hd
  have hfollows : Follows w' := by
    intro d hd
    obtain ⟨r, rfl⟩ := List.head?_eq_some_iff.mp hd
    exact follows_of_ws (hw' d List.mem_cons_self)
  have hlast : (Input.mk w' (0 + w.length + t.length)).skipWs =
      ⟨[], 0 + w.length + t.length + w'.length⟩ := by
    rw [← Input.skipWs_append hw' hend, List.append_nil]
  rw [parseWithLimit, if_neg (Nat.not_lt.mpr h), Input.skipWs_append hw hhead,
    (Input.value_denotes maxDepth).reads _ ht hfollows]
  simp only [bind, Except.bind, hlast]
  rfl

/-- **The parser accepts exactly its grammar.** The bytes of a document are read with the value that
they have, and no others are read; what is read, and the place of an error, is in the input; the
bounds of the loops cut nothing short; integers that fit are exact. -/
theorem parse_exact {b : Bytes} {limit : ℕ} (h : b.length ≤ limit) :
    (∀ v, parseWithLimit b limit = .ok v ↔ Document b v) ∧
      (∀ e, parseWithLimit b limit = .error e → ∀ o ∈ e.offset?, o ≤ b.length) ∧
      (∀ left p q v, Input.value left p = .ok (v, q) → ∃ t, Took p t q) ∧
      (∀ left f g p, p.rest.length < f → p.rest.length < g →
        (∀ out, Input.stringLoop f out p = Input.stringLoop g out p) ∧
          (∀ arr, Input.arrayLoop (Input.value left) f arr p =
            Input.arrayLoop (Input.value left) g arr p) ∧
          ∀ obj, Input.objectLoop (Input.value left) f obj p =
            Input.objectLoop (Input.value left) g obj p) ∧
      ∀ t, NumberText false t →
        i64Min ≤ intOf t ∧ intOf t ≤ i64Max ∨ 0 ≤ intOf t ∧ intOf t ≤ u64Max →
        (numberOf false t).integer = some (intOf t) := by
  have hmeets := parse_meets h
  refine ⟨fun v => ⟨fun hv => ?_, parse_document h⟩, fun e he => ?_, fun left p q v hv => ?_,
    fun left f g p hf hg => ⟨fun out => Input.stringLoop_fuel out hf hg, fun arr =>
      Input.arrayLoop_fuel (Input.meets_value left) arr hf hg, fun obj =>
      Input.objectLoop_fuel (Input.meets_value left) obj hf hg⟩, fun t => numberOf_integer⟩
  · rw [hv] at hmeets
    exact hmeets
  · rw [he] at hmeets
    exact hmeets
  · have hread := Input.meets_value left p
    rw [hv] at hread
    obtain ⟨t, ht, -⟩ := hread
    exact ⟨t, ht⟩

theorem parse_exact_sample :
    Document (utf8 " [1, -2]") (.array [.number (.uint 1), .number (.int (-2))]) :=
  have h : (utf8 " [1, -2]").length ≤ maxInput := by decide
  ((parse_exact h).1 _).mp rfl

end Hop.Types.Json
