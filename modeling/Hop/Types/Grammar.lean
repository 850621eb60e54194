import Hop.Lib.Fallible
import Hop.Types.Json

/-!
# What the JSON parser accepts

The grammar of RFC 8259 over bytes, with the value that each text has. `Rules` are what a grammar of
JSON can leave open: what a string may hold and what the keys of an object may be. The parser has
the `strict` ones: strings are UTF-8, a high surrogate is followed by a low one, and the keys of an
object differ.

Soundness (`Meets`) and completeness (`Completes`) go through the functions of the parser one by
one; `parse_exact` is both, with the bounds on the places that errors name and on the loops.
-/

namespace Hop.Types

/-- The place in the input that an error names. -/
def Error.offset? : Error → Option ℕ
  | .tooDeep offset _ => some offset
  | .syntaxError offset _ => some offset
  | .trailing offset => some offset
  | _ => none

namespace Json

open Input (escapeChar charOf numberOf)

/-! ### The grammar -/

/-- White space: blanks, tabs, line feeds and carriage returns. -/
def Ws (w : Bytes) : Prop := ∀ b ∈ w, b = 32 ∨ b = 9 ∨ b = 10 ∨ b = 13

/-- Digits, one at least. -/
def DigitRow (ds : Bytes) : Prop := ds ≠ [] ∧ ∀ b ∈ ds, isDigit b = true

/-- The integer part of a number: no leading zero. -/
def IntText (t : Bytes) : Prop := t = [48] ∨ DigitRow t ∧ t.head? ≠ some 48

def FracText (t : Bytes) : Prop := t = [] ∨ ∃ ds, DigitRow ds ∧ t = dot :: ds

def ExpText (t : Bytes) : Prop :=
  t = [] ∨ ∃ e s ds, (e = 101 ∨ e = 69) ∧ (s = [] ∨ s = [43] ∨ s = [minus]) ∧ DigitRow ds ∧
    t = e :: (s ++ ds)

/-- A number; `float` if it has a fraction or an exponent. -/
structure NumberText (float : Bool) (t : Bytes) : Prop where
  parts : ∃ sign int frac exp, t = sign ++ (int ++ (frac ++ exp)) ∧
    (sign = [] ∨ sign = [minus]) ∧ IntText int ∧ FracText frac ∧ ExpText exp ∧
    (float = true ↔ frac ≠ [] ∨ exp ≠ [])

/-- A hex digit, in small or capital letters, and its value. -/
def HexDigit (b : UInt8) (d : ℕ) : Prop :=
  48 ≤ b ∧ b ≤ 57 ∧ b.toNat = 48 + d ∨ 97 ≤ b ∧ b ≤ 102 ∧ b.toNat = 87 + d ∨
    65 ≤ b ∧ b ≤ 70 ∧ b.toNat = 55 + d

/-- Four hex digits and their number. -/
def Hex4 (t : Bytes) (n : ℕ) : Prop :=
  ∃ a b c d, List.Forall₂ HexDigit t [a, b, c, d] ∧ n = ((a * 16 + b) * 16 + c) * 16 + d

def High (n : ℕ) : Prop := 0xD800 ≤ n ∧ n < 0xDC00

def Low (n : ℕ) : Prop := 0xDC00 ≤ n ∧ n < 0xE000

/-- The letters that may stand behind a backslash, and the characters that they mean: `"`, `\`, `/`,
and `b`, `f`, `n`, `r`, `t`. -/
def escapeLetters : List (UInt8 × Char) :=
  [(34, '"'), (92, '\\'), (47, '/'), (98, Char.ofNat 8), (102, Char.ofNat 12), (110, '\n'),
    (114, '\r'), (116, '\t')]

/-- What stands behind a backslash, and the character that it means. -/
inductive Escape : Bytes → Char → Prop
  | letter {e : UInt8} {c : Char} (h : (e, c) ∈ escapeLetters) : Escape [e] c
  /-- A low surrogate alone is U+FFFD. -/
  | unicode {t : Bytes} {n : ℕ} (ht : Hex4 t n) (hn : ¬ High n) : Escape (117 :: t) (charOf n)
  | pair {t u : Bytes} {hi lo : ℕ} (ht : Hex4 t hi) (hhi : High hi) (hu : Hex4 u lo)
      (hlo : Low lo) :
      Escape (117 :: (t ++ backslash :: 117 :: u))
        (charOf (0x10000 + (hi - 0xD800) * 1024 + (lo - 0xDC00)))

/-- A character that stands for itself in a string. -/
def PlainChar (c : Char) : Prop := c ≠ '"' ∧ c ≠ '\\' ∧ 0x20 ≤ c.toNat

/-- What stands between the quotes of a string, and the characters that it means: runs of UTF-8
between escapes. -/
inductive Says : Bytes → List Char → Prop
  | run {cs : List Char} (h : ∀ c ∈ cs, PlainChar c) : Says (utf8Chars cs) cs
  | escape {cs ds : List Char} {e b : Bytes} {c : Char} (h : ∀ c ∈ cs, PlainChar c)
      (he : Escape e c) (hb : Says b ds) :
      Says (utf8Chars cs ++ backslash :: (e ++ b)) (cs ++ c :: ds)

/-- What a grammar of JSON leaves open. -/
structure Rules where
  /-- What may stand between quotes, and what it means. -/
  string : Bytes → String → Prop
  /-- What the keys of one object may be. -/
  keys : List String → Prop

/-- The rules of the parser. -/
def strict : Rules := ⟨fun b s => Says b s.toList, List.Nodup⟩

section Values

variable (R : Rules) (item : Bytes → Value → Prop)

/-- The items of an array, with the space around them. -/
inductive Items : Bytes → List Value → Prop
  | one {w t w' : Bytes} {v : Value} (hw : Ws w) (ht : item t v) (hw' : Ws w') :
      Items (w ++ (t ++ w')) [v]
  | more {w t w' b : Bytes} {v : Value} {vs : List Value} (hw : Ws w) (ht : item t v) (hw' : Ws w')
      (hb : Items b vs) : Items (w ++ (t ++ (w' ++ comma :: b))) (v :: vs)

/-- A key, its colon, and the item. -/
inductive Pair : Bytes → String × Value → Prop
  | mk {w k w₁ w₂ t w₃ : Bytes} {s : String} {v : Value} (hw : Ws w) (hk : R.string k s)
      (hw₁ : Ws w₁) (hw₂ : Ws w₂) (ht : item t v) (hw₃ : Ws w₃) :
      Pair (w ++ quote :: (k ++ quote :: (w₁ ++ colon :: (w₂ ++ (t ++ w₃))))) (s, v)

/-- The pairs of an object. -/
inductive Pairs : Bytes → List (String × Value) → Prop
  | one {b : Bytes} {kv : String × Value} (h : Pair R item b kv) : Pairs b [kv]
  | more {b b' : Bytes} {kv : String × Value} {kvs : List (String × Value)} (h : Pair R item b kv)
      (hb : Pairs b' kvs) : Pairs (b ++ comma :: b') (kv :: kvs)

/-- The text of a value, without space around it. -/
inductive ValueText : Bytes → Value → Prop
  | null : ValueText (utf8 "null") .null
  | true : ValueText (utf8 "true") (.bool true)
  | false : ValueText (utf8 "false") (.bool false)
  | number {t : Bytes} {float : Bool} (h : NumberText float t) :
      ValueText t (.number (numberOf float t))
  | string {b : Bytes} {s : String} (h : R.string b s) :
      ValueText (quote :: (b ++ [quote])) (.string s)
  | emptyArray {w : Bytes} (h : Ws w) : ValueText (openBracket :: (w ++ [closeBracket])) (.array [])
  | array {b : Bytes} {vs : List Value} (h : Items item b vs) :
      ValueText (openBracket :: (b ++ [closeBracket])) (.array vs)
  | emptyObject {w : Bytes} (h : Ws w) : ValueText (openBrace :: (w ++ [closeBrace])) (.object [])
  | object {b : Bytes} {kvs : List (String × Value)} (h : Pairs R item b kvs)
      (hkeys : R.keys (kvs.map Prod.fst)) :
      ValueText (openBrace :: (b ++ [closeBrace])) (.object kvs)

end Values

/-- Space in front of the items. -/
theorem Items.space {item : Bytes → Value → Prop} {w b : Bytes} {vs : List Value}
    (h : Items item b vs) (hw : Ws w) : Items item (w ++ b) vs := by
  cases h with
  | one hw' ht hw'' =>
    rw [← List.append_assoc]
    exact .one (List.forall_mem_append.mpr ⟨hw, hw'⟩) ht hw''
  | more hw' ht hw'' hb =>
    rw [← List.append_assoc]
    exact .more (List.forall_mem_append.mpr ⟨hw, hw'⟩) ht hw'' hb

theorem Pair.space {R : Rules} {item : Bytes → Value → Prop} {w b : Bytes} {kv : String × Value}
    (h : Pair R item b kv) (hw : Ws w) : Pair R item (w ++ b) kv := by
  cases h with
  | mk hw' hk hw₁ hw₂ ht hw₃ =>
    rw [← List.append_assoc]
    exact .mk (List.forall_mem_append.mpr ⟨hw, hw'⟩) hk hw₁ hw₂ ht hw₃

/-- Space in front of the pairs. -/
theorem Pairs.space {R : Rules} {item : Bytes → Value → Prop} {w b : Bytes}
    {kvs : List (String × Value)} (h : Pairs R item b kvs) (hw : Ws w) :
    Pairs R item (w ++ b) kvs := by
  cases h with
  | one h => exact .one (h.space hw)
  | more h hb =>
    rw [← List.append_assoc]
    exact .more (h.space hw) hb

/-- The text of a value that is nested less than this deep. -/
def Denotes (R : Rules) : ℕ → Bytes → Value → Prop
  | 0 => fun _ _ => False
  | left + 1 => ValueText R (Denotes R left)

/-- One value with space around it, nested less than `maxDepth` deep. -/
def Document (b : Bytes) (v : Value) : Prop :=
  ∃ w t w', b = w ++ (t ++ w') ∧ Ws w ∧ Denotes strict maxDepth t v ∧ Ws w'

/-! ### The tables of the parser -/

theorem isWs_iff {b : UInt8} : isWs b = true ↔ b = 32 ∨ b = 9 ∨ b = 10 ∨ b = 13 :=
  decide_eq_true_iff

theorem escapeChar_iff {e : UInt8} {c : Char} :
    escapeChar e = some c ↔ (e, c) ∈ escapeLetters := by
  constructor
  · intro h
    unfold escapeChar at h
    split_ifs at h
    all_goals
      cases h
      subst e
      decide
  · intro h
    fin_cases h <;> rfl

/-- A hex digit is what the parser takes for one. -/
theorem hexVal_iff {b : UInt8} {d : ℕ} : hexVal b = some d ↔ HexDigit b d := by
  simp only [hexVal, HexDigit, UInt8.le_iff_toNat_le, UInt8.reduceToNat]
  split_ifs with hdigit hsmall hlarge
  · rw [Option.some.injEq]
    omega
  · rw [Option.some.injEq]
    omega
  · rw [Option.some.injEq]
    omega
  · refine iff_of_false (by simp) ?_
    omega

theorem map_hexVal_iff {t : Bytes} {ds : List ℕ} :
    t.map hexVal = ds.map some ↔ List.Forall₂ HexDigit t ds := by
  rw [← List.forall₂_eq_eq_eq, List.forall₂_map_left_iff, List.forall₂_map_right_iff]
  exact ⟨fun h => h.imp fun _ _ => hexVal_iff.mp, fun h => h.imp fun _ _ => hexVal_iff.mpr⟩

namespace Input

section

variable {p : Input} {a tail : Bytes} {pos : ℕ}

theorem peek_cons (b : UInt8) : (Input.mk (b :: tail) pos).peek = some b := rfl

theorem advance_one (b : UInt8) : (Input.mk (b :: tail) pos).advance 1 = ⟨tail, pos + 1⟩ := rfl

theorem advance_append : (Input.mk (a ++ tail) pos).advance a.length = ⟨tail, pos + a.length⟩ := by
  simp [advance]

/-- Over `a`, if the bytes of `a` satisfy `f` and the next one does not. -/
theorem skip_append {f : UInt8 → Bool} (ha : ∀ b ∈ a, f b = true)
    (htail : ∀ b ∈ tail.head?, f b = false) :
    (Input.mk (a ++ tail) pos).skip f = ⟨tail, pos + a.length⟩ := by
  have hstop : tail.takeWhile f = [] := by
    cases tail with
    | nil => rfl
    | cons b tail => exact List.takeWhile_cons_of_neg (by simp [htail b rfl])
  unfold skip
  rw [List.takeWhile_append_of_pos ha, hstop, List.append_nil, advance_append]

theorem skipWs_of_head (h : ∀ b ∈ p.rest.head?, isWs b = false) : p.skipWs = p :=
  skip_append (a := []) (fun _ hb => absurd hb List.not_mem_nil) h

end

/-! ### The first byte decides -/

section

variable {p : Input} (left : ℕ)

theorem value_object (h : p.peek = some openBrace) :
    Input.value (left + 1) p = p.object (Input.value left) := by
  rw [Input.value, if_pos h]

theorem value_array (h : p.peek = some openBracket) :
    Input.value (left + 1) p = p.array (Input.value left) := by
  rw [Input.value, if_neg (by rw [h]; decide), if_pos h]

theorem value_string (h : p.peek = some quote) :
    Input.value (left + 1) p = p.string.map fun (s, q) => (.string s, q) := by
  rw [Input.value, if_neg (by rw [h]; decide), if_neg (by rw [h]; decide), if_pos h]

theorem value_number {b : UInt8} (h : p.peek = some b) (hb : b = minus ∨ isDigit b = true) :
    Input.value (left + 1) p = p.number.map fun (n, q) => (.number n, q) := by
  have hother : ∀ c : UInt8, c ≠ minus → isDigit c = false → p.peek ≠ some c := by
    intro c hm hd hc
    obtain rfl : b = c := Option.some.inj (h.symm.trans hc)
    rcases hb with rfl | hb
    · exact hm rfl
    · rw [hd] at hb
      cases hb
  rw [Input.value, if_neg (hother openBrace (by decide) (by decide)),
    if_neg (hother openBracket (by decide) (by decide)),
    if_neg (hother quote (by decide) (by decide)), if_neg (hother 116 (by decide) (by decide)),
    if_neg (hother 102 (by decide) (by decide)), if_neg (hother 110 (by decide) (by decide)),
    if_pos (by simpa [h] using hb)]

end

/-! ### What is read -/

/-- From `p` to `q` stand the bytes `t`. -/
structure Took (p : Input) (t : Bytes) (q : Input) : Prop where
  rest : p.rest = t ++ q.rest
  pos : q.pos = p.pos + t.length

/-- The place behind the last byte. -/
def bound (p : Input) : ℕ := p.pos + p.rest.length

namespace Took

variable {p q r : Input} {t u : Bytes}

theorem refl (p : Input) : Took p [] p := ⟨rfl, rfl⟩

theorem trans (h : Took p t q) (h' : Took q u r) : Took p (t ++ u) r where
  rest := by rw [h.rest, h'.rest, List.append_assoc]
  pos := by rw [h'.pos, h.pos, List.length_append, Nat.add_assoc]

theorem bound_eq (h : Took p t q) : q.bound = p.bound := by
  rw [bound, bound, h.pos, h.rest, List.length_append, Nat.add_assoc]

theorem length_le (h : Took p t q) : q.rest.length ≤ p.rest.length := by
  rw [h.rest, List.length_append]
  exact Nat.le_add_left _ _

/-- Over a beginning of what is left. -/
theorem advance {rest : Bytes} (h : p.rest = t ++ rest) : Took p t (p.advance t.length) where
  rest := by rw [Input.advance, h, List.drop_left]
  pos := rfl

/-- Over the next byte. -/
theorem next {b : UInt8} (h : p.peek = some b) : Took p [b] (p.advance 1) := by
  obtain ⟨rest, hrest⟩ := List.head?_eq_some_iff.mp h
  exact advance (t := [b]) hrest

theorem skip (p : Input) (f : UInt8 → Bool) : Took p (p.rest.takeWhile f) (p.skip f) :=
  advance (List.takeWhile_append_dropWhile (p := f) (l := p.rest)).symm

theorem skipWs (p : Input) : ∃ w, Took p w p.skipWs ∧ Ws w :=
  ⟨_, skip p isWs, fun _ hb => isWs_iff.mp (List.mem_takeWhile_imp hb)⟩

end Took

/-- What a function of the parser makes of the input at `p`: a text of this form is read, or the
error names a place in the input. -/
def Meets {α : Type} (p : Input) (G : Bytes → α → Prop) : Except Error (α × Input) → Prop
  | .ok (a, q) => ∃ t, Took p t q ∧ G t a
  | .error e => ∀ o ∈ e.offset?, o ≤ p.bound

/-- The same for a function that yields no value. -/
def Moves (p : Input) (G : Bytes → Prop) : Except Error Input → Prop
  | .ok q => ∃ t, Took p t q ∧ G t
  | .error e => ∀ o ∈ e.offset?, o ≤ p.bound

section Meets

variable {α β : Type} {p q : Input} {G : Bytes → α → Prop} {H : Bytes → β → Prop}
  {M : Bytes → Prop} {t : Bytes} {x : Except Error (α × Input)}

theorem pos_le (p : Input) : p.pos ≤ p.bound := Nat.le_add_right _ _

theorem Meets.err (h : Took p t q) (expected : String) :
    Meets p G (.error (q.err expected)) := by
  rintro o ⟨⟩
  exact h.bound_eq ▸ q.pos_le

theorem Moves.err (h : Took p t q) (expected : String) : Moves p M (.error (q.err expected)) := by
  rintro o ⟨⟩
  exact h.bound_eq ▸ q.pos_le

/-- **One function after the other.** -/
theorem Meets.bind {f : α × Input → Except Error (β × Input)} (hx : Meets p G x)
    (hf : ∀ t a q, Took p t q → G t a → Meets p H (f (a, q))) : Meets p H (x >>= f) := by
  rcases x with e | ⟨a, q⟩
  · exact hx
  · obtain ⟨t, ht, ha⟩ := hx
    exact hf t a q ht ha

theorem Moves.bind {x : Except Error Input} {f : Input → Except Error (β × Input)}
    (hx : Moves p M x) (hf : ∀ t q, Took p t q → M t → Meets p H (f q)) : Meets p H (x >>= f) := by
  rcases x with e | q
  · exact hx
  · obtain ⟨t, ht, hm⟩ := hx
    exact hf t q ht hm

/-- What is read from a later place on. -/
theorem Meets.after (h : Took p t q) (hx : Meets q G x) :
    Meets p (fun u a => ∃ w, u = t ++ w ∧ G w a) x := by
  rcases x with e | ⟨a, r⟩
  · intro o ho
    exact h.bound_eq ▸ hx o ho
  · obtain ⟨w, hw, ha⟩ := hx
    exact ⟨t ++ w, h.trans hw, w, rfl, ha⟩

theorem Moves.after {x : Except Error Input} (h : Took p t q) (hx : Moves q M x) :
    Moves p (fun u => ∃ w, u = t ++ w ∧ M w) x := by
  rcases x with e | r
  · intro o ho
    exact h.bound_eq ▸ hx o ho
  · obtain ⟨w, hw, hm⟩ := hx
    exact ⟨t ++ w, h.trans hw, w, rfl, hm⟩

theorem Meets.imp {G' : Bytes → α → Prop} (hx : Meets p G x) (h : ∀ t a, G t a → G' t a) :
    Meets p G' x := by
  rcases x with e | ⟨a, q⟩
  · exact hx
  · obtain ⟨t, ht, ha⟩ := hx
    exact ⟨t, ht, h t a ha⟩

theorem Meets.map {f : α → β} (hx : Meets p G x) (h : ∀ t a, G t a → H t (f a)) :
    Meets p H (x.map fun r => (f r.1, r.2)) := by
  rcases x with e | ⟨a, q⟩
  · exact hx
  · obtain ⟨t, ht, ha⟩ := hx
    exact ⟨t, ht, h t a ha⟩

theorem Meets.ite {c : Prop} [Decidable c] {y : Except Error (α × Input)} (hx : c → Meets p G x)
    (hy : ¬ c → Meets p G y) : Meets p G (if c then x else y) := by
  split_ifs with h
  · exact hx h
  · exact hy h

theorem Moves.ite {c : Prop} [Decidable c] {x y : Except Error Input} (hx : c → Moves p M x)
    (hy : ¬ c → Moves p M y) : Moves p M (if c then x else y) := by
  split_ifs with h
  · exact hx h
  · exact hy h

end Meets

/-! ### Tokens -/

variable {p : Input}

theorem moves_eat (p : Input) (c : UInt8) (expected : String) :
    Moves p (· = [c]) (p.eat c expected) :=
  .ite (fun h => ⟨[c], .next h, rfl⟩) fun _ => .err (.refl p) expected

theorem meets_literal (p : Input) (word : Bytes) (v : Value) :
    Meets p (fun t w => t = word ∧ w = v) (p.literal word v) := by
  refine .ite (fun h => ?_) fun _ => .err (.refl p) _
  have hrest : p.rest = word ++ p.rest.drop word.length := by
    conv_lhs => rw [← List.take_append_drop word.length p.rest, h]
  exact ⟨word, .advance hrest, rfl, rfl⟩

theorem meets_hexDigits (n v : ℕ) (p : Input) :
    Meets p (fun t m => ∃ ds : List ℕ, t.map hexVal = ds.map some ∧ ds.length = n ∧
      m = ds.foldl (fun v d => v * 16 + d) v) (hexDigits n v p) := by
  induction n generalizing v p with
  | zero => exact ⟨[], .refl p, [], rfl, rfl, rfl⟩
  | succ n ih =>
    rw [hexDigits]
    rcases hpeek : p.peek.bind hexVal with _ | d
    · exact .err (.refl p) _
    · obtain ⟨b, hb, hd⟩ := Option.bind_eq_some_iff.mp hpeek
      refine (Meets.after (.next hb) (ih (v * 16 + d) (p.advance 1))).imp ?_
      rintro t m ⟨w, rfl, ds, hw, hlen, hm⟩
      refine ⟨d :: ds, ?_, congrArg Nat.succ hlen, hm⟩
      rw [List.singleton_append, List.map_cons, List.map_cons, hd, hw]

theorem meets_hex4 (p : Input) : Meets p Hex4 p.hex4 := by
  refine (meets_hexDigits 4 0 p).imp ?_
  rintro t m ⟨ds, hmap, hlen, rfl⟩
  match ds, hlen with
  | [a, b, c, d], _ => exact ⟨a, b, c, d, map_hexVal_iff.mp hmap, by simp only [List.foldl_cons, List.foldl_nil,
      Nat.zero_mul, Nat.zero_add]⟩

theorem meets_unicode (p : Input) : Meets p (fun t c => Escape (117 :: t) c) p.unicode := by
  have hhex := meets_hex4 p
  rw [unicode]
  rcases hfirst : p.hex4 with e | ⟨hi, q⟩ <;> rw [hfirst] at hhex
  · exact hhex
  obtain ⟨t, ht, hhi⟩ := hhex
  refine .ite (fun hhigh => .ite (fun htake => ?_) fun _ => .err ht _) fun hhigh =>
    ⟨t, ht, .unicode hhi hhigh⟩
  -- a high surrogate, and an escape behind it
  have hrest : q.rest = [backslash, 117] ++ q.rest.drop 2 := by
    conv_lhs => rw [← List.take_append_drop 2 q.rest, htake]
  have hq : Took q [backslash, 117] (q.advance 2) := .advance hrest
  have hhex' := meets_hex4 (q.advance 2)
  rcases hsecond : (q.advance 2).hex4 with e | ⟨lo, r⟩ <;> rw [hsecond] at hhex'
  · intro o ho
    exact ht.bound_eq ▸ hq.bound_eq ▸ hhex' o ho
  obtain ⟨u, hu, hlo⟩ := hhex'
  refine .ite (fun hlow => ?_) fun _ => .err ((ht.trans hq).trans hu) _
  refine ⟨_, (ht.trans hq).trans hu, ?_⟩
  rw [List.append_assoc]
  exact .pair hhi hhigh hlo hlow

theorem meets_escape (p : Input) : Meets p Escape p.escape := by
  rw [escape]
  refine .ite (fun hu => ?_) fun _ => ?_
  · refine (Meets.after (.next hu) (meets_unicode (p.advance 1))).imp ?_
    rintro t c ⟨w, rfl, hw⟩
    exact hw
  · rcases hpeek : p.peek.bind escapeChar with _ | c
    · exact .err (.refl p) _
    · obtain ⟨b, hb, hc⟩ := Option.bind_eq_some_iff.mp hpeek
      exact ⟨[b], .next hb, .letter (escapeChar_iff.mp hc)⟩

/-! ### Strings -/

/-- A run of bytes that stand for themselves, as UTF-8. -/
theorem plain_of_run {run : Bytes} {text : String} (hrun : ∀ b ∈ run, isPlain b = true)
    (h : fromUtf8 run = some text) :
    run = utf8Chars text.toList ∧ ∀ c ∈ text.toList, PlainChar c := by
  have hutf : run = utf8Chars text.toList := (utf8_of_fromUtf8 h).symm
  refine ⟨hutf, fun c hc => ?_⟩
  by_cases hascii : c.toNat ≤ 0x7f
  · have hmem : c.val.toUInt8 ∈ run := by
      rw [hutf, utf8Chars, List.mem_flatMap]
      exact ⟨c, hc, by rw [utf8EncodeChar_ascii hascii]; exact List.mem_singleton_self _⟩
    have hplain := hrun _ hmem
    simp only [isPlain, decide_eq_true_eq, ne_eq] at hplain
    obtain ⟨hquote, hback, hlow⟩ := hplain
    refine ⟨?_, ?_, ?_⟩
    · rintro rfl
      exact hquote rfl
    · rintro rfl
      exact hback rfl
    · have hval : c.val.toNat = c.toNat := rfl
      rw [UInt8.le_iff_toNat_le, UInt32.toNat_toUInt8, hval, Nat.mod_eq_of_lt (by omega)] at hlow
      exact hlow
  · refine ⟨?_, ?_, by omega⟩
    · rintro rfl
      exact hascii (by decide)
    · rintro rfl
      exact hascii (by decide)

theorem meets_stringLoop (fuel : ℕ) (out : String) (p : Input) :
    Meets p (fun t s => ∃ b cs, t = b ++ [quote] ∧ Says b cs ∧ s = out ++ String.ofList cs)
      (stringLoop fuel out p) := by
  induction fuel generalizing out p with
  | zero => exact .err (.refl p) _
  | succ fuel ih =>
    rw [stringLoop]
    have hrun : ∀ b ∈ p.rest.takeWhile isPlain, isPlain b = true :=
      fun b hb => List.mem_takeWhile_imp hb
    have htook : Took p (p.rest.takeWhile isPlain) (p.advance (p.rest.takeWhile isPlain).length) :=
      Took.skip p isPlain
    dsimp only
    rcases htext : fromUtf8 (p.rest.takeWhile isPlain) with _ | text
    · -- the place is in the run
      rintro o ⟨⟩
      refine Nat.add_le_add_left ?_ _
      refine (Nat.findGreatest_le _).trans ?_
      exact (List.takeWhile_prefix _).length_le
    obtain ⟨hutf, hplain⟩ := plain_of_run hrun htext
    refine .ite (fun hquote => ?_) fun _ => .ite (fun hback => ?_) fun _ => .err htook _
    · refine ⟨_, htook.trans (.next hquote), _, text.toList, rfl, ?_, by rw [String.ofList_toList]⟩
      rw [hutf]
      exact .run hplain
    · have hesc := meets_escape ((p.advance (p.rest.takeWhile isPlain).length).advance 1)
      have hbefore := htook.trans (.next hback)
      rcases hread : ((p.advance (p.rest.takeWhile isPlain).length).advance 1).escape with
        e | ⟨c, q⟩ <;> rw [hread] at hesc
      · intro o ho
        exact hbefore.bound_eq ▸ hesc o ho
      obtain ⟨e, he, hc⟩ := hesc
      refine (Meets.after (hbefore.trans he) (ih ((out ++ text).push c) q)).imp ?_
      rintro t s ⟨w, rfl, b, ds, rfl, hsays, rfl⟩
      refine ⟨utf8Chars text.toList ++ backslash :: (e ++ b), text.toList ++ c :: ds, ?_,
        .escape hplain hc hsays, ?_⟩
      · rw [← hutf]
        simp only [List.append_assoc, List.cons_append, List.nil_append]
      · apply String.toList_injective
        simp

theorem meets_string (h : p.peek = some quote) :
    Meets p (fun t s => ∃ b, t = quote :: (b ++ [quote]) ∧ strict.string b s) p.string := by
  refine (Meets.after (.next h) (meets_stringLoop p.rest.length "" (p.advance 1))).imp ?_
  rintro t s ⟨w, rfl, b, cs, rfl, hsays, rfl⟩
  refine ⟨b, rfl, ?_⟩
  rw [String.empty_append]
  exact (String.toList_ofList ▸ hsays : Says b (String.ofList cs).toList)

/-! ### Numbers -/

theorem moves_intPart (p : Input) : Moves p IntText p.intPart := by
  refine .ite (fun h => ⟨[48], .next h, .inl rfl⟩) fun h0 => .ite (fun hdigit => ?_) fun _ =>
    .err (.refl p) _
  obtain ⟨b, hb, hbdigit⟩ := Option.any_eq_true .. |>.mp hdigit
  obtain ⟨rest, hrest⟩ := List.head?_eq_some_iff.mp hb
  refine ⟨_, .skip p isDigit, .inr ⟨⟨?_, fun _ h => List.mem_takeWhile_imp h⟩, ?_⟩⟩
  · rw [hrest, List.takeWhile_cons_of_pos hbdigit]
    exact List.cons_ne_nil _ _
  · rw [hrest, List.takeWhile_cons_of_pos hbdigit]
    intro h
    exact h0 (hb.trans h)

theorem moves_digits (p : Input) : Moves p DigitRow p.digits := by
  have hpos : (p.skip isDigit).pos - p.pos = (p.rest.takeWhile isDigit).length :=
    Nat.add_sub_cancel_left _ _
  refine .ite (fun _ => .err (.skip p isDigit) _) fun hne => ?_
  rw [hpos] at hne
  exact ⟨_, .skip p isDigit, fun h => hne (by rw [h]; rfl), fun _ h => List.mem_takeWhile_imp h⟩

theorem Moves.map {M : Bytes → Prop} {β : Type} {H : Bytes → β → Prop} {x : Except Error Input}
    {b : β} (hx : Moves p M x) (h : ∀ t, M t → H t b) : Meets p H (x.map fun q => (b, q)) := by
  rcases x with e | q
  · exact hx
  · obtain ⟨t, ht, hm⟩ := hx
    exact ⟨t, ht, h t hm⟩

theorem meets_fraction (p : Input) :
    Meets p (fun t f => FracText t ∧ (f = true ↔ t ≠ [])) p.fraction := by
  refine .ite (fun hdot => ?_) fun _ => ⟨[], .refl p, .inl rfl, by simp⟩
  refine Moves.map (Moves.after (.next hdot) (moves_digits (p.advance 1))) ?_
  rintro t ⟨ds, rfl, hds⟩
  exact ⟨.inr ⟨ds, hds, rfl⟩, by simp⟩

theorem meets_exponent (p : Input) :
    Meets p (fun t f => ExpText t ∧ (f = true ↔ t ≠ [])) p.exponent := by
  refine .ite (fun he => ?_) fun _ => ⟨[], .refl p, .inl rfl, by simp⟩
  obtain ⟨e, hpeek, he⟩ : ∃ e, p.peek = some e ∧ (e = 101 ∨ e = 69) :=
    he.elim (fun h => ⟨_, h, .inl rfl⟩) fun h => ⟨_, h, .inr rfl⟩
  have hsign : ∃ s, (s = [] ∨ s = [43] ∨ s = [minus]) ∧ Took (p.advance 1) s
      (if (p.advance 1).peek = some 43 ∨ (p.advance 1).peek = some minus then
        (p.advance 1).advance 1 else p.advance 1) := by
    split_ifs with hs
    · rcases hs with hs | hs
      · exact ⟨[43], .inr (.inl rfl), .next hs⟩
      · exact ⟨[minus], .inr (.inr rfl), .next hs⟩
    · exact ⟨[], .inl rfl, .refl _⟩
  obtain ⟨s, hs, htook⟩ := hsign
  refine Moves.map (Moves.after ((Took.next hpeek).trans htook) (moves_digits _)) ?_
  rintro t ⟨ds, rfl, hds⟩
  exact ⟨.inr ⟨e, s, ds, he, hs, hds, by simp⟩, by simp⟩

theorem meets_number (p : Input) :
    Meets p (fun t n => ∃ float, NumberText float t ∧ n = numberOf float t) p.number := by
  have hsign : ∃ s, (s = [] ∨ s = [minus]) ∧
      Took p s (if p.peek = some minus then p.advance 1 else p) := by
    split_ifs with hs
    · exact ⟨[minus], .inr rfl, .next hs⟩
    · exact ⟨[], .inl rfl, .refl p⟩
  obtain ⟨s, hs, htook⟩ := hsign
  refine Moves.bind (Moves.after htook (moves_intPart _)) ?_
  rintro _ q₁ h₁ ⟨int, rfl, hint⟩
  refine Meets.bind (Meets.after h₁ (meets_fraction q₁)) ?_
  rintro _ frac q₂ h₂ ⟨f, rfl, hf, hfrac⟩
  refine Meets.bind (Meets.after h₂ (meets_exponent q₂)) ?_
  rintro _ exp q₃ h₃ ⟨e, rfl, he, hexp⟩
  have htext : p.rest.take (q₃.pos - p.pos) = s ++ int ++ f ++ e := by
    rw [h₃.rest, h₃.pos, Nat.add_sub_cancel_left, List.take_left]
  refine ⟨_, h₃, frac || exp, ⟨s, int, f, e, ?_, hs, hint, hf, he, ?_⟩, by rw [htext]⟩
  · simp only [List.append_assoc]
  · rw [Bool.or_eq_true, hfrac, hexp]

/-! ### Arrays and objects -/

section Loops

variable {G : Bytes → Value → Prop} {item : Input → Except Error (Value × Input)}

/-- An item of an array with the space around it: what one turn of the loop reads. -/
def itemOf (item : Input → Except Error (Value × Input)) (p : Input) :
    Except Error (Value × Input) := do
  let (v, p) ← item p.skipWs
  .ok (v, p.skipWs)

/-- A pair of an object with the space around it: what one turn of the loop reads. -/
def pairOf (item : Input → Except Error (Value × Input)) (obj : List (String × Value))
    (p : Input) : Except Error ((String × Value) × Input) :=
  if p.skipWs.peek ≠ some quote then .error (p.skipWs.err "a string key")
  else do
    let (key, p) ← p.skipWs.string
    if obj.any (fun kv => kv.1 = key) then .error (.duplicateKey (.new key))
    else do
      let p ← p.skipWs.eat colon "':'"
      let (v, p) ← item p.skipWs
      .ok ((key, v), p.skipWs)

theorem arrayLoop_succ (fuel : ℕ) (arr : List Value) (p : Input) :
    arrayLoop item (fuel + 1) arr p = itemOf item p >>= fun (v, q) =>
      if q.peek = some comma then arrayLoop item fuel (arr ++ [v]) (q.advance 1)
      else if q.peek = some closeBracket then .ok (.array (arr ++ [v]), q.advance 1)
      else .error (q.err "',' or ']'") := by
  rw [arrayLoop, itemOf]
  rcases item p.skipWs with e | ⟨v, q⟩
  · rfl
  · rfl

theorem objectLoop_succ (fuel : ℕ) (obj : List (String × Value)) (p : Input) :
    objectLoop item (fuel + 1) obj p = pairOf item obj p >>= fun (kv, q) =>
      if q.peek = some comma then objectLoop item fuel (obj ++ [kv]) (q.advance 1)
      else if q.peek = some closeBrace then .ok (.object (obj ++ [kv]), q.advance 1)
      else .error (q.err "',' or '\x7d'") := by
  rw [objectLoop, pairOf]
  by_cases hquote : p.skipWs.peek ≠ some quote
  · rw [if_pos hquote, if_pos hquote]
    rfl
  rw [if_neg hquote, if_neg hquote]
  rcases p.skipWs.string with e | ⟨key, q⟩
  · rfl
  simp only [bind, Except.bind]
  by_cases hnew : obj.any (fun kv => kv.1 = key) = true
  · rw [if_pos hnew, if_pos hnew]
  rw [if_neg hnew, if_neg hnew]
  rcases q.skipWs.eat colon "':'" with e | r
  · rfl
  dsimp only
  rcases item r.skipWs with e | ⟨v, q'⟩
  · rfl
  · rfl

theorem meets_itemOf (hitem : ∀ p, Meets p G (item p)) (p : Input) :
    Meets p (fun b v => ∃ w t w', b = w ++ (t ++ w') ∧ Ws w ∧ G t v ∧ Ws w') (itemOf item p) := by
  obtain ⟨w, hw, hws⟩ := Took.skipWs p
  refine Meets.bind (Meets.after hw (hitem p.skipWs)) ?_
  rintro _ v q hq ⟨t, rfl, ht⟩
  obtain ⟨w', hw', hws'⟩ := Took.skipWs q
  exact ⟨_, hq.trans hw', w, t, w', List.append_assoc _ _ _, hws, ht, hws'⟩

theorem meets_pairOf (hitem : ∀ p, Meets p G (item p)) (obj : List (String × Value)) (p : Input) :
    Meets p (fun b kv => Pair strict G b kv ∧ kv.1 ∉ obj.map Prod.fst) (pairOf item obj p) := by
  obtain ⟨w, hw, hws⟩ := Took.skipWs p
  refine .ite (fun _ => .err hw _) fun hquote => ?_
  rw [not_not] at hquote
  refine Meets.bind (Meets.after hw (meets_string hquote)) ?_
  rintro _ key q hq ⟨_, rfl, k, rfl, hk⟩
  refine .ite (fun _ o ho => nomatch ho) fun hnew => ?_
  obtain ⟨w₁, hw₁, hws₁⟩ := Took.skipWs q
  refine Moves.bind (Moves.after (hq.trans hw₁) (moves_eat q.skipWs colon _)) ?_
  rintro _ r hr ⟨_, rfl, rfl⟩
  obtain ⟨w₂, hw₂, hws₂⟩ := Took.skipWs r
  refine Meets.bind (Meets.after (hr.trans hw₂) (hitem r.skipWs)) ?_
  rintro _ v q' hq' ⟨t, rfl, ht⟩
  obtain ⟨w₃, hw₃, hws₃⟩ := Took.skipWs q'
  refine ⟨_, hq'.trans hw₃, ?_, fun hmem => ?_⟩
  · have hpair := Pair.mk (R := strict) hws hk hws₁ hws₂ ht hws₃
    simpa only [List.append_assoc, List.cons_append, List.nil_append] using hpair
  · obtain ⟨kv, hkv, hkey⟩ := List.mem_map.mp hmem
    exact hnew (List.any_eq_true.mpr ⟨kv, hkv, by simpa using hkey⟩)

theorem meets_arrayLoop (hitem : ∀ p, Meets p G (item p)) (fuel : ℕ) (arr : List Value)
    (p : Input) : Meets p (fun t v => ∃ b vs, t = b ++ [closeBracket] ∧ Items G b vs ∧
      v = .array (arr ++ vs)) (arrayLoop item fuel arr p) := by
  induction fuel generalizing arr p with
  | zero => exact .err (.refl p) _
  | succ fuel ih =>
    rw [arrayLoop_succ]
    refine Meets.bind (meets_itemOf hitem p) ?_
    rintro _ v q hq ⟨w, t, w', rfl, hw, ht, hw'⟩
    refine .ite (fun hcomma => ?_) fun _ => .ite (fun hclose => ?_) fun _ => .err hq _
    · refine (Meets.after (hq.trans (.next hcomma)) (ih (arr ++ [v]) _)).imp ?_
      rintro _ _ ⟨_, rfl, b, vs, rfl, hb, rfl⟩
      refine ⟨_, v :: vs, ?_, .more hw ht hw' hb, ?_⟩
      · simp only [List.append_assoc, List.cons_append, List.nil_append]
      · rw [List.append_assoc, List.singleton_append]
    · exact ⟨_, hq.trans (.next hclose), _, [v], rfl, .one hw ht hw', rfl⟩

theorem meets_objectLoop (hitem : ∀ p, Meets p G (item p)) (fuel : ℕ)
    (obj : List (String × Value)) (hobj : (obj.map Prod.fst).Nodup) (p : Input) :
    Meets p (fun t v => ∃ b kvs, t = b ++ [closeBrace] ∧ Pairs strict G b kvs ∧
      v = .object (obj ++ kvs) ∧ ((obj ++ kvs).map Prod.fst).Nodup)
      (objectLoop item fuel obj p) := by
  induction fuel generalizing obj p with
  | zero => exact .err (.refl p) _
  | succ fuel ih =>
    rw [objectLoop_succ]
    refine Meets.bind (meets_pairOf hitem obj p) ?_
    rintro b kv q hq ⟨hpair, hnew⟩
    have hadd : ((obj ++ [kv]).map Prod.fst).Nodup := by
      rw [List.map_append, List.map_singleton, List.nodup_append]
      refine ⟨hobj, List.pairwise_singleton _ _, fun a ha b hb hab => hnew ?_⟩
      rwa [← List.mem_singleton.mp hb, ← hab]
    refine .ite (fun hcomma => ?_) fun _ => .ite (fun hclose => ?_) fun _ => .err hq _
    · refine (Meets.after (hq.trans (.next hcomma)) (ih (obj ++ [kv]) hadd _)).imp ?_
      rintro _ _ ⟨_, rfl, b', kvs, rfl, hb', rfl, hnodup⟩
      rw [List.append_assoc, List.singleton_append] at hnodup
      refine ⟨_, kv :: kvs, ?_, .more hpair hb', ?_, hnodup⟩
      · simp only [List.append_assoc, List.cons_append, List.nil_append]
      · rw [List.append_assoc, List.singleton_append]
    · exact ⟨_, hq.trans (.next hclose), _, [kv], rfl, .one hpair, rfl, hadd⟩

theorem meets_array (hitem : ∀ p, Meets p G (item p)) (h : p.peek = some openBracket) :
    Meets p (ValueText strict G) (p.array item) := by
  obtain ⟨w, hw, hws⟩ := Took.skipWs (p.advance 1)
  have hq := (Took.next h).trans hw
  refine .ite (fun hclose => ?_) fun _ => ?_
  · exact ⟨_, hq.trans (.next hclose), .emptyArray hws⟩
  · refine (Meets.after hq (meets_arrayLoop hitem p.rest.length [] _)).imp ?_
    rintro _ _ ⟨_, rfl, b, vs, rfl, hb, rfl⟩
    have hvalue := ValueText.array (R := strict) (hb.space hws)
    simpa only [List.append_assoc, List.cons_append, List.nil_append] using hvalue

theorem meets_object (hitem : ∀ p, Meets p G (item p)) (h : p.peek = some openBrace) :
    Meets p (ValueText strict G) (p.object item) := by
  obtain ⟨w, hw, hws⟩ := Took.skipWs (p.advance 1)
  have hq := (Took.next h).trans hw
  refine .ite (fun hclose => ?_) fun _ => ?_
  · exact ⟨_, hq.trans (.next hclose), .emptyObject hws⟩
  · refine (Meets.after hq (meets_objectLoop hitem p.rest.length [] List.nodup_nil _)).imp ?_
    rintro _ _ ⟨_, rfl, b, kvs, rfl, hb, rfl, hnodup⟩
    have hvalue := ValueText.object (R := strict) (hb.space hws) hnodup
    simpa only [List.append_assoc, List.cons_append, List.nil_append] using hvalue

/-- One value, whatever an item is. -/
theorem meets_valueText (hitem : ∀ p, Meets p G (item p)) (p : Input) :
    Meets p (ValueText strict G)
      (if p.peek = some openBrace then p.object item
      else if p.peek = some openBracket then p.array item
      else if p.peek = some quote then p.string.map fun (s, q) => (.string s, q)
      else if p.peek = some 116 then p.literal (utf8 "true") (.bool true)
      else if p.peek = some 102 then p.literal (utf8 "false") (.bool false)
      else if p.peek = some 110 then p.literal (utf8 "null") .null
      else if p.peek = some minus ∨ p.peek.any isDigit then
        p.number.map fun (n, q) => (.number n, q)
      else .error (p.err "a value")) := by
  refine .ite (fun h => meets_object hitem h) fun _ => .ite (fun h => meets_array hitem h) fun _ =>
    .ite (fun h => ?_) fun _ => .ite (fun _ => ?_) fun _ => .ite (fun _ => ?_) fun _ =>
    .ite (fun _ => ?_) fun _ => .ite (fun _ => ?_) fun _ => .err (.refl p) _
  · refine Meets.map (meets_string h) ?_
    rintro _ s ⟨b, rfl, hs⟩
    exact .string hs
  · refine (meets_literal p _ _).imp ?_
    rintro _ _ ⟨rfl, rfl⟩
    exact .true
  · refine (meets_literal p _ _).imp ?_
    rintro _ _ ⟨rfl, rfl⟩
    exact .false
  · refine (meets_literal p _ _).imp ?_
    rintro _ _ ⟨rfl, rfl⟩
    exact .null
  · refine Meets.map (meets_number p) ?_
    rintro t _ ⟨float, ht, rfl⟩
    exact .number ht

end Loops

/-- **What the parser reads has the grammar.** -/
theorem meets_value (left : ℕ) (p : Input) : Meets p (Denotes strict left) (value left p) := by
  induction left generalizing p with
  | zero =>
    rintro o ⟨⟩
    exact p.pos_le
  | succ left ih =>
    rw [value]
    exact meets_valueText ih p

end Input

end Json

end Hop.Types
