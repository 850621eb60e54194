import Hop.Lib.Text

/-!
# Taking texts apart

The functions of `str` on texts as lists of characters: splitting once, splitting at line ends,
trimming, comparing without regard to ASCII case. Each comes with what it does to a text that was
put together from parts, which is what a reader of written text needs.
-/

namespace Hop

abbrev Text : Type := List Char

/-- `str::eq_ignore_ascii_case`. -/
def eqIgnoreAsciiCase (a b : Text) : Bool := a.map Char.toLower = b.map Char.toLower

/-- `char::is_whitespace`. -/
def isWhitespace (c : Char) : Bool :=
  let n := c.toNat
  (9 ≤ n && n ≤ 13) || n == 0x20 || n == 0x85 || n == 0xA0 || n == 0x1680 ||
    (0x2000 ≤ n && n ≤ 0x200A) || n == 0x2028 || n == 0x2029 || n == 0x202F || n == 0x205F ||
    n == 0x3000

/-- `str::trim_matches`. -/
def trimMatches (p : Char → Bool) (s : Text) : Text :=
  ((s.dropWhile p).reverse.dropWhile p).reverse

/-- `str::trim`. -/
def trimText (s : Text) : Text := trimMatches isWhitespace s

/-- `str::strip_suffix`. -/
def stripSuffix (s t : Text) : Option Text :=
  if t.isSuffixOf s then some (s.take (s.length - t.length)) else none

/-- `str::strip_prefix`. -/
def stripPrefix (s t : Text) : Option Text :=
  if t.isPrefixOf s then some (s.drop t.length) else none

/-- `str::find` of a character. -/
def findChar (c : Char) : Text → Option ℕ
  | [] => none
  | x :: s => if x = c then some 0 else (findChar c s).map (· + 1)

/-- `str::rfind` of a character. -/
def rfindChar (c : Char) : Text → Option ℕ
  | [] => none
  | x :: s =>
    match rfindChar c s with
    | some i => some (i + 1)
    | none => if x = c then some 0 else none

/-- `str::split_once` at a character. -/
def splitOnce (c : Char) : Text → Option (Text × Text)
  | [] => none
  | x :: s => if x = c then some ([], s) else (splitOnce c s).map fun p => (x :: p.1, p.2)

/-- The end of a line. -/
def crlf : Text := ['\r', '\n']

/-- `str::split_once("\r\n")`. -/
def splitOnceCrlf : Text → Option (Text × Text)
  | [] => none
  | x :: s =>
    if x = '\r' ∧ s.head? = some '\n' then some ([], s.tail)
    else (splitOnceCrlf s).map fun p => (x :: p.1, p.2)

theorem length_splitOnceCrlf {s : Text} {p : Text × Text} (h : splitOnceCrlf s = some p) :
    p.2.length < s.length := by
  induction s generalizing p with
  | nil => simp [splitOnceCrlf] at h
  | cons x s ih =>
    rw [splitOnceCrlf] at h
    split_ifs at h with hx
    · obtain rfl := Option.some.inj h
      simp only [List.length_tail, List.length_cons]
      omega
    · obtain ⟨q, hq, rfl⟩ := Option.map_eq_some_iff.mp h
      exact (ih hq).trans (Nat.lt_succ_self _)

/-- `str::split("\r\n")`. -/
def splitCrlf (s : Text) : List Text :=
  match _h : splitOnceCrlf s with
  | none => [s]
  | some p => p.1 :: splitCrlf p.2
termination_by s.length
decreasing_by exact length_splitOnceCrlf ‹_›

variable {a b s t : Text} {c : Char} {p : Char → Bool}

/-! ### Finding -/

theorem findChar_append (h : c ∉ a) : findChar c (a ++ c :: b) = some a.length := by
  induction a with
  | nil => rw [List.nil_append, findChar, if_pos rfl, List.length_nil]
  | cons x a ih =>
    rw [List.mem_cons, not_or] at h
    rw [List.cons_append, findChar, if_neg (Ne.symm h.1), ih h.2, Option.map_some, List.length_cons]

theorem findChar_eq_none (h : c ∉ s) : findChar c s = none := by
  induction s with
  | nil => rfl
  | cons x s ih =>
    rw [List.mem_cons, not_or] at h
    rw [findChar, if_neg (Ne.symm h.1), ih h.2, Option.map_none]

/-- The first of the characters cuts the text. -/
theorem exists_cut_first (h : c ∈ s) : ∃ a b, s = a ++ c :: b ∧ c ∉ a := by
  induction s with
  | nil => cases h
  | cons x s ih =>
    by_cases hx : x = c
    · exact ⟨[], s, by rw [hx, List.nil_append], List.not_mem_nil⟩
    · obtain ⟨a, b, rfl, ha⟩ := ih ((List.mem_cons.mp h).resolve_left (Ne.symm hx))
      exact ⟨x :: a, b, rfl, by rw [List.mem_cons, not_or]; exact ⟨Ne.symm hx, ha⟩⟩

theorem rfindChar_eq_none (h : c ∉ s) : rfindChar c s = none := by
  induction s with
  | nil => rfl
  | cons x s ih =>
    rw [List.mem_cons, not_or] at h
    simp only [rfindChar, ih h.2, if_neg (Ne.symm h.1)]

theorem rfindChar_append (h : c ∉ b) : rfindChar c (a ++ c :: b) = some a.length := by
  induction a with
  | nil => simp only [List.nil_append, rfindChar, rfindChar_eq_none h, if_true, List.length_nil]
  | cons x a ih => simp only [List.cons_append, rfindChar, ih, List.length_cons]

/-- The text up to the first of the characters, and the text from it on. -/
theorem take_findChar (c : Char) (s : Text) :
    s.take ((findChar c s).getD s.length) = s.takeWhile (· ≠ c) ∧
      s.drop ((findChar c s).getD s.length) = s.dropWhile (· ≠ c) := by
  induction s with
  | nil => exact ⟨rfl, rfl⟩
  | cons x s ih =>
    by_cases hx : x = c
    · simp [findChar, hx]
    · have hlen : ((findChar c (x :: s)).getD (x :: s).length) =
          (findChar c s).getD s.length + 1 := by
        rw [findChar, if_neg hx]
        rcases findChar c s with _ | i
        · rfl
        · rfl
      rw [hlen, List.take_succ_cons, List.drop_succ_cons, ih.1, ih.2]
      simp [hx]

/-! ### Splitting -/

theorem splitOnce_append (h : c ∉ a) : splitOnce c (a ++ c :: b) = some (a, b) := by
  induction a with
  | nil => simp [splitOnce]
  | cons x a ih =>
    rw [List.mem_cons, not_or] at h
    rw [List.cons_append, splitOnce, if_neg (Ne.symm h.1), ih h.2, Option.map_some]

theorem splitOnceCrlf_append (h : '\n' ∉ a) : splitOnceCrlf (a ++ (crlf ++ b)) = some (a, b) := by
  induction a with
  | nil => simp [splitOnceCrlf, crlf]
  | cons x a ih =>
    rw [List.mem_cons, not_or] at h
    -- what follows `x` is in `a`, or the carriage return of the line end
    have hnext : (a ++ (crlf ++ b)).head? ≠ some '\n' := by
      cases a with
      | nil => simp [crlf]
      | cons y a =>
        have hy : '\n' ≠ y := fun hy => h.2 (hy ▸ List.mem_cons_self)
        simpa using hy.symm
    rw [List.cons_append, splitOnceCrlf, if_neg fun hx => hnext hx.2, ih h.2, Option.map_some]

theorem splitOnceCrlf_eq_none (h : '\n' ∉ a) : splitOnceCrlf a = none := by
  induction a with
  | nil => rfl
  | cons x a ih =>
    rw [List.mem_cons, not_or] at h
    have hnext : a.head? ≠ some '\n' := fun hx => h.2 (List.mem_of_mem_head? hx)
    rw [splitOnceCrlf, if_neg fun hx => hnext hx.2, ih h.2, Option.map_none]

theorem splitCrlf_of_notMem (h : '\n' ∉ a) : splitCrlf a = [a] := by
  rw [splitCrlf]
  split
  · rfl
  · rename_i hs
    rw [splitOnceCrlf_eq_none h] at hs
    cases hs

theorem splitCrlf_append (h : '\n' ∉ a) : splitCrlf (a ++ (crlf ++ b)) = a :: splitCrlf b := by
  rw [splitCrlf]
  split
  · rename_i hs
    rw [splitOnceCrlf_append h] at hs
    cases hs
  · rename_i hs
    rw [splitOnceCrlf_append h] at hs
    obtain rfl := Option.some.inj hs
    rfl

/-- **Lines that are joined are split again.** -/
theorem splitCrlf_intercalate {l : Text} {ls : List Text} (h : ∀ x ∈ l :: ls, '\n' ∉ x) :
    splitCrlf (crlf.intercalate (l :: ls)) = l :: ls := by
  induction ls generalizing l with
  | nil => simpa using splitCrlf_of_notMem (h l List.mem_cons_self)
  | cons m ls ih =>
    have hsplit : crlf.intercalate (l :: m :: ls) = l ++ (crlf ++ crlf.intercalate (m :: ls)) := by
      simp [List.intercalate]
    rw [hsplit, splitCrlf_append (h l List.mem_cons_self),
      ih fun x hx => h x (List.mem_cons_of_mem _ hx)]

theorem flatMap_crlf {l : Text} {ls : List Text} :
    (l :: ls).flatMap (· ++ crlf) = crlf.intercalate (l :: ls) ++ crlf := by
  induction ls generalizing l with
  | nil => simp [List.intercalate]
  | cons m ls ih =>
    have hsplit : crlf.intercalate (l :: m :: ls) = l ++ (crlf ++ crlf.intercalate (m :: ls)) := by
      simp [List.intercalate]
    rw [List.flatMap_cons, ih, hsplit]
    simp only [List.append_assoc]

theorem stripSuffix_append : stripSuffix (s ++ t) t = some s := by
  unfold stripSuffix
  rw [if_pos (by simp), List.length_append, Nat.add_sub_cancel, List.take_left]

/-! ### Trimming -/

theorem trimMatches_cons (h : p c = true) : trimMatches p (c :: s) = trimMatches p s := by
  simp only [trimMatches, List.dropWhile_cons, h, if_true]

theorem dropWhile_dropWhile (s : Text) : (s.dropWhile p).dropWhile p = s.dropWhile p := by
  induction s with
  | nil => rfl
  | cons x s ih =>
    by_cases hx : p x = true
    · simpa only [List.dropWhile_cons, hx, if_true] using ih
    · simp [hx]

/-- What is left after trimming does not begin with what is trimmed off. -/
theorem dropWhile_trimMatches (s : Text) : (trimMatches p s).dropWhile p = trimMatches p s := by
  unfold trimMatches
  generalize hd : s.dropWhile p = d
  have hdd : d.dropWhile p = d := hd ▸ dropWhile_dropWhile s
  rcases d with _ | ⟨x, d⟩
  · rfl
  · have hx : p x = false := by
      by_contra hx
      rw [Bool.not_eq_false] at hx
      rw [List.dropWhile_cons, if_pos hx] at hdd
      have := congrArg List.length hdd
      have := (List.dropWhile_sublist p (l := d)).length_le
      simp at *
      omega
    -- `x` stays in front, so nothing is dropped there again
    have hfront : ∃ e, ((x :: d).reverse.dropWhile p).reverse = x :: e := by
      rw [List.reverse_cons, List.dropWhile_append]
      split
      · exact ⟨[], by simp [hx]⟩
      · exact ⟨(d.reverse.dropWhile p).reverse, by simp⟩
    obtain ⟨e, he⟩ := hfront
    rw [he, List.dropWhile_cons, if_neg (by simp [hx])]

/-- Trimming twice is trimming once. -/
theorem trimMatches_trimMatches (s : Text) :
    trimMatches p (trimMatches p s) = trimMatches p s := by
  conv_lhs => rw [trimMatches, dropWhile_trimMatches]
  unfold trimMatches
  rw [List.reverse_reverse, dropWhile_dropWhile]

/-- Nothing is trimmed off a text without such characters. -/
theorem trimMatches_eq_self (h : ∀ c ∈ s, p c = false) : trimMatches p s = s := by
  have hdrop : ∀ t : Text, (∀ c ∈ t, p c = false) → t.dropWhile p = t := by
    intro t ht
    rcases t with _ | ⟨c, t⟩
    · rfl
    · rw [List.dropWhile_cons, if_neg (by rw [ht c List.mem_cons_self]; decide)]
  rw [trimMatches, hdrop s h, hdrop s.reverse (fun c hc => h c (List.mem_reverse.mp hc)),
    List.reverse_reverse]

theorem mem_of_mem_trimMatches (h : c ∈ trimMatches p s) : c ∈ s := by
  unfold trimMatches at h
  rw [List.mem_reverse] at h
  exact (List.dropWhile_sublist p).subset
    (List.mem_reverse.mp ((List.dropWhile_sublist p).subset h))

theorem eqIgnoreAsciiCase_self (a : Text) : eqIgnoreAsciiCase a a = true := by
  simp [eqIgnoreAsciiCase]

theorem eqIgnoreAsciiCase_comm (a b : Text) : eqIgnoreAsciiCase a b = eqIgnoreAsciiCase b a := by
  simp [eqIgnoreAsciiCase, eq_comm]

/-- Names that are equal up to case are equal to the same names. -/
theorem eqIgnoreAsciiCase_congr (h : eqIgnoreAsciiCase a b = true) (d : Text) :
    eqIgnoreAsciiCase a d = eqIgnoreAsciiCase b d := by
  simp only [eqIgnoreAsciiCase, decide_eq_true_eq] at h ⊢
  rw [h]

/-! ### ASCII characters among the bytes of a text -/

theorem mem_utf8Chars_of_mem {x : UInt8} (h : c ∈ s) (hascii : c.toNat ≤ 0x7f)
    (hx : c.val.toUInt8 = x) : x ∈ utf8Chars s := by
  unfold utf8Chars
  refine List.mem_flatMap.mpr ⟨c, h, ?_⟩
  rw [utf8EncodeChar_ascii hascii, hx]
  exact List.mem_singleton_self x

theorem mem_utf8Chars_mono {x : UInt8} (h : x ∈ utf8Chars s) (hs : s ⊆ t) : x ∈ utf8Chars t := by
  unfold utf8Chars at *
  obtain ⟨c, hc, hxc⟩ := List.mem_flatMap.mp h
  exact List.mem_flatMap.mpr ⟨c, hs hc, hxc⟩

end Hop
