import Hop.Lib.Text
import Hop.Types.Error

/-!
# Time without a clock

The RFC 3339 form of an instant, the civil calendar behind it, and durations as Go writes them:
`types/src/time.rs`. A text is read at fixed places, so the reader works on the bytes and on
offsets into them.
-/

namespace Hop.Types

/-- One microsecond. -/
def microsecond : Nanos := 1000

/-- One hour. -/
def hour : Nanos := 60 * minute

namespace Time

/-! ### The civil calendar -/

/-- Days since 1970-01-01 to year, month and day. -/
def civilFromDays (days : ℕ) : ℕ × ℕ × ℕ :=
  let z := days + 719468
  let era := z / 146097
  let doe := z - era * 146097
  let yoe := (doe - doe / 1460 + doe / 36524 - doe / 146096) / 365
  let doy := doe - (365 * yoe + yoe / 4 - yoe / 100)
  let mp := (5 * doy + 2) / 153
  let d := doy - (153 * mp + 2) / 5 + 1
  let m := if mp < 10 then mp + 3 else mp - 9
  let y := yoe + era * 400 + if m ≤ 2 then 1 else 0
  (y, m, d)

/-- Year, month and day to days since 1970-01-01, for years from 1970 on. -/
def daysFromCivil (y m d : ℕ) : ℕ :=
  let y := if m ≤ 2 then y - 1 else y
  let era := y / 400
  let yoe := y - era * 400
  let mp := if m > 2 then m - 3 else m + 9
  let doy := (153 * mp + 2) / 5 + d - 1
  let doe := yoe * 365 + yoe / 4 - yoe / 100 + doy
  era * 146097 + doe - 719468

/-- Centuries, groups of four years and years of an era of 400 years; only the last day of a leap
year is day 365. -/
theorem exists_year {doe : ℕ} (h : doe < 146097) :
    ∃ c q s r, doe = 36524 * c + 1461 * q + 365 * s + r ∧ c ≤ 3 ∧ q ≤ 24 ∧ s ≤ 3 ∧ r ≤ 365 ∧
      (r = 365 → s = 3 ∧ (q = 24 → c = 3)) := by
  obtain ⟨c, hc⟩ : ∃ c, c = min (doe / 36524) 3 := ⟨_, rfl⟩
  obtain ⟨q, hq⟩ : ∃ q, q = min ((doe - 36524 * c) / 1461) 24 := ⟨_, rfl⟩
  obtain ⟨s, hs⟩ : ∃ s, s = min ((doe - 36524 * c - 1461 * q) / 365) 3 := ⟨_, rfl⟩
  refine ⟨c, q, s, doe - (36524 * c + 1461 * q + 365 * s), ?_, ?_⟩
  · omega
  · omega

/-- The year of the era is found by taking the leap days out. -/
theorem yoe_eq {doe c q s r : ℕ} (hdoe : doe = 36524 * c + 1461 * q + 365 * s + r) (hc : c ≤ 3)
    (hq : q ≤ 24) (hs : s ≤ 3) (hr : r ≤ 365) (hleap : r = 365 → s = 3 ∧ (q = 24 → c = 3)) :
    (doe - doe / 1460 + doe / 36524 - doe / 146096) / 365 = 100 * c + 4 * q + s := by
  have hcentury : doe / 36524 = c ∨ doe / 36524 = 4 ∧ c = 3 ∧ doe = 146096 := by omega
  have hfour : doe / 1460 = 25 * c + q ∨ doe / 1460 = 25 * c + q + 1 := by omega
  rcases hcentury with hcentury | ⟨hcentury, rfl, hlast⟩
  · have hera : doe / 146096 = 0 := by omega
    rw [hcentury, hera]
    rcases hfour with hfour | hfour
    · rw [hfour]
      omega
    · have hcarry : 1460 ≤ 24 * c + q + 365 * s + r := by omega
      rw [hfour]
      omega
  · omega

/-- The first day of a year of the era. -/
theorem yearStart_eq {c q s : ℕ} (hq : q ≤ 24) (hs : s ≤ 3) :
    365 * (100 * c + 4 * q + s) + (100 * c + 4 * q + s) / 4 - (100 * c + 4 * q + s) / 100 =
      36524 * c + 1461 * q + 365 * s := by
  have hfour : (100 * c + 4 * q + s) / 4 = 25 * c + q := by omega
  have hcentury : (100 * c + 4 * q + s) / 100 = c := by omega
  rw [hfour, hcentury]
  omega

/-- The month and the day of a day of the year that begins in March. -/
def monthOf (doy : ℕ) : ℕ :=
  if (5 * doy + 2) / 153 < 10 then (5 * doy + 2) / 153 + 3 else (5 * doy + 2) / 153 - 9

def dayOf (doy : ℕ) : ℕ := doy - (153 * ((5 * doy + 2) / 153) + 2) / 5 + 1

/-- A day is a year of an era and a day of that year; day 365 is the 29th of February. -/
theorem civilFromDays_spec (days : ℕ) :
    ∃ era yoe doy, yoe < 400 ∧ doy ≤ 365 ∧
      (doy = 365 → (yoe + 1) % 4 = 0 ∧ ((yoe + 1) % 100 ≠ 0 ∨ (yoe + 1) % 400 = 0)) ∧
      days + 719468 = era * 146097 + (yoe * 365 + yoe / 4 - yoe / 100 + doy) ∧
      civilFromDays days =
        (yoe + era * 400 + (if monthOf doy ≤ 2 then 1 else 0), monthOf doy, dayOf doy) := by
  have hz := Nat.div_add_mod' (days + 719468) 146097
  have hdoe : (days + 719468) % 146097 < 146097 := Nat.mod_lt _ (by decide)
  have hmod : days + 719468 - (days + 719468) / 146097 * 146097 = (days + 719468) % 146097 := by
    omega
  obtain ⟨c, q, s, r, hsum, hc, hq, hs, hr, hleap⟩ := exists_year hdoe
  have hstart := yearStart_eq (c := c) hq hs
  have hlast : r = 365 → (100 * c + 4 * q + s + 1) % 4 = 0 ∧
      ((100 * c + 4 * q + s + 1) % 100 ≠ 0 ∨ (100 * c + 4 * q + s + 1) % 400 = 0) := by
    intro hr
    obtain ⟨rfl, hend⟩ := hleap hr
    refine ⟨by omega, ?_⟩
    by_cases h : q = 24
    · exact .inr (by rw [hend h, h])
    · exact .inl (by omega)
  refine ⟨(days + 719468) / 146097, 100 * c + 4 * q + s, r, by omega, hr, hlast, ?_, ?_⟩
  · rw [Nat.mul_comm _ 365, hstart]
    omega
  · unfold civilFromDays
    dsimp only
    rw [hmod, yoe_eq hsum hc hq hs hr hleap, hstart, hsum, Nat.add_sub_cancel_left]
    rfl

theorem month_bounds {doy : ℕ} (h : doy ≤ 365) :
    1 ≤ monthOf doy ∧ monthOf doy ≤ 12 ∧ 1 ≤ dayOf doy ∧ dayOf doy ≤ 31 := by
  unfold monthOf dayOf
  split_ifs
  · omega
  · omega

/-- **The two calendar functions are inverse.** -/
theorem daysFromCivil_civilFromDays (days : ℕ) :
    daysFromCivil (civilFromDays days).1 (civilFromDays days).2.1 (civilFromDays days).2.2 =
      days := by
  obtain ⟨era, yoe, doy, hyoe, hdoy, -, hdays, hcivil⟩ := civilFromDays_spec days
  rw [hcivil]
  unfold daysFromCivil monthOf dayOf
  dsimp only
  obtain ⟨mp, hmp⟩ : ∃ mp, mp = (5 * doy + 2) / 153 := ⟨_, rfl⟩
  have hera : (yoe + era * 400) / 400 = era := by omega
  have hday : (153 * mp + 2) / 5 + (doy - (153 * mp + 2) / 5 + 1) - 1 = doy := by omega
  rw [← hmp]
  by_cases hm : mp < 10
  · have hlate : ¬ mp + 3 ≤ 2 := by omega
    have hlate' : mp + 3 > 2 := by omega
    simp only [hm, if_true, hlate, if_false, hlate', Nat.add_zero, hera, Nat.add_sub_cancel, hday]
    omega
  · have hearly : mp - 9 ≤ 2 := by omega
    have hearly' : ¬ mp - 9 > 2 := by omega
    have hmonth : mp - 9 + 9 = mp := by omega
    simp only [hm, if_false, hearly, if_true, hearly', Nat.add_sub_cancel, hera, hmonth, hday]
    omega

/-- A date of 64 bits of nanoseconds has a year of four digits. -/
theorem civilFromDays_bounds {days : ℕ} (h : days ≤ 213503) :
    1970 ≤ (civilFromDays days).1 ∧ (civilFromDays days).1 < 10000 ∧
      1 ≤ (civilFromDays days).2.1 ∧ (civilFromDays days).2.1 ≤ 12 ∧
      1 ≤ (civilFromDays days).2.2 ∧ (civilFromDays days).2.2 ≤ 31 := by
  obtain ⟨era, yoe, doy, hyoe, hdoy, -, hdays, hcivil⟩ := civilFromDays_spec days
  rw [hcivil]
  have hera : era ≤ 6 := by omega
  refine ⟨?_, ?_, month_bounds hdoy⟩
  · have hyear : 1970 ≤ yoe + era * 400 ∨ yoe + era * 400 = 1969 ∧ 306 ≤ doy := by
      interval_cases era <;> omega
    rcases hyear with hyear | ⟨hyear, hday⟩
    · exact hyear.trans (Nat.le_add_right _ _)
    · have hmonth : monthOf doy ≤ 2 := by
        unfold monthOf
        rw [if_neg (by omega)]
        omega
      rw [if_pos hmonth, hyear]
  · dsimp only
    split_ifs
    · omega
    · omega

/-! ### The text of an instant -/

/-- The last `k` decimal digits. -/
def lastDigits : ℕ → ℕ → List Char
  | 0, _ => []
  | k + 1, n => lastDigits k (n / 10) ++ [(n % 10).digitChar]

/-- A number of at least `w` digits, with zeros in front. -/
def pad (w n : ℕ) : List Char := (Nat.toDigits 10 n).leftpad w '0'

/-- The nine digits of a fraction of a second, without the zeros at the end. -/
def fracText (frac : ℕ) : List Char :=
  if frac = 0 then [] else '.' :: (lastDigits 9 frac).rdropWhile (· = '0')

/-- RFC 3339 with as many digits as the fraction needs; no time is Go's zero time. -/
def writeRfc3339 (t : Nanos) : String :=
  if t = 0 then "0001-01-01T00:00:00Z"
  else
    let secs := t / second
    let rem := secs % 86400
    let (y, m, d) := civilFromDays (secs / 86400)
    String.ofList (pad 4 y ++ '-' :: pad 2 m ++ '-' :: pad 2 d ++ 'T' :: pad 2 (rem / 3600) ++
      ':' :: pad 2 (rem / 60 % 60) ++ ':' :: pad 2 (rem % 60) ++ fracText (t % second) ++ ['Z'])

/-- The one error of the reader. -/
def bad : Error := .invalid (.new "time") "not an RFC 3339 timestamp"

/-- The number of `len` digits at `start`. -/
def num (b : Bytes) (start len : ℕ) : Except Error ℕ :=
  if ((b.drop start).take len).length = len ∧ ((b.drop start).take len).all isDigit = true then
    .ok (ofDigits ((b.drop start).take len))
  else .error bad

/-- The fraction in nanoseconds, and where it ends; digits beyond the ninth are dropped. -/
def parseFrac (b : Bytes) : Except Error (ℕ × ℕ) :=
  if b[19]? = some 46 then
    let ds := (b.drop 20).takeWhile isDigit
    if ds = [] then .error bad
    else .ok (ofDigits (ds.take 9) * 10 ^ (9 - ds.length), 20 + ds.length)
  else .ok (0, 19)

/-- The offset in seconds: `Z`, or a sign with hours and minutes. -/
def parseOffset (b : Bytes) (i : ℕ) : Except Error ℤ :=
  if (b[i]? = some 90 ∨ b[i]? = some 122) ∧ b.length = i + 1 then .ok 0
  else if (b[i]? = some 43 ∨ b[i]? = some 45) ∧ b.length = i + 6 ∧ b[i + 3]? = some 58 then do
    let h ← num b (i + 1) 2
    let m ← num b (i + 4) 2
    .ok (if b[i]? = some 43 then (h * 3600 + m * 60 : ℕ) else -((h * 3600 + m * 60 : ℕ) : ℤ))
  else .error bad

/-- Read RFC 3339; a year before 1970 is no time. -/
def parseRfc3339 (s : String) : Except Error Nanos :=
  let b := utf8 s
  if b.length < 20 ∨ b[4]? ≠ some 45 ∨ b[7]? ≠ some 45 then .error bad
  else if (b[10]? ≠ some 84 ∧ b[10]? ≠ some 116) ∨ b[13]? ≠ some 58 ∨ b[16]? ≠ some 58 then
    .error bad
  else do
    let y ← num b 0 4
    let mo ← num b 5 2
    let d ← num b 8 2
    let h ← num b 11 2
    let mi ← num b 14 2
    let sec ← num b 17 2
    if ¬ (1 ≤ mo ∧ mo ≤ 12) ∨ ¬ (1 ≤ d ∧ d ≤ 31) ∨ 23 < h ∨ 59 < mi ∨ 60 < sec then .error bad
    else do
      let (frac, i) ← parseFrac b
      let offset ← parseOffset b i
      if y < 1970 then .ok 0
      else
        let secs : ℤ := (daysFromCivil y mo d * 86400 + h * 3600 + mi * 60 + sec : ℕ) - offset
        if secs < 0 then .error bad
        else if u64Max < secs.toNat * second + frac then .error bad
        else .ok (secs.toNat * second + frac)

/-! ### Digits -/

theorem isDigit_lastDigits {k n : ℕ} : ∀ c ∈ lastDigits k n, c.isDigit = true := by
  induction k generalizing n with
  | zero => exact fun _ hc => absurd hc List.not_mem_nil
  | succ k ih =>
    intro c hc
    rcases List.mem_append.mp hc with hc | hc
    · exact ih c hc
    · rw [List.mem_singleton.mp hc]
      simp [Nat.mod_lt]

theorem length_lastDigits (k n : ℕ) : (lastDigits k n).length = k := by
  induction k generalizing n with
  | zero => rfl
  | succ k ih => rw [lastDigits, List.length_append, ih, List.length_singleton]

theorem ofDigitChars_lastDigits (k n : ℕ) :
    Nat.ofDigitChars 10 (lastDigits k n) 0 = n % 10 ^ k := by
  induction k generalizing n with
  | zero => simp [lastDigits, Nat.mod_one]
  | succ k ih =>
    rw [lastDigits, Nat.ofDigitChars_append, ih,
      Nat.ofDigitChars_cons_digitChar_of_lt_ten (Nat.mod_lt n (by decide)),
      Nat.ofDigitChars_nil, Nat.pow_succ', Nat.mod_mul, Nat.add_comm]

theorem lastDigits_zero (k : ℕ) : lastDigits k 0 = List.replicate k '0' := by
  induction k with
  | zero => rfl
  | succ k ih =>
    rw [lastDigits, ih, List.replicate_succ']
    rfl

/-- A number of at most `w` digits is padded to exactly `w`. -/
theorem pad_eq {w n : ℕ} (hw : 0 < w) (h : n < 10 ^ w) : pad w n = lastDigits w n := by
  induction w generalizing n with
  | zero => exact absurd hw (lt_irrefl 0)
  | succ w ih =>
    unfold pad
    rcases Nat.lt_or_ge n 10 with hn | hn
    · have hdiv : n / 10 = 0 := Nat.div_eq_of_lt hn
      rw [Nat.toDigits_of_lt_base hn, lastDigits, hdiv, lastDigits_zero, Nat.mod_eq_of_lt hn]
      rfl
    · have hw' : 0 < w := by
        rcases Nat.eq_zero_or_pos w with rfl | hw'
        · omega
        · exact hw'
      have hdiv : n / 10 < 10 ^ w := by
        rw [Nat.pow_succ] at h
        omega
      have ih' := ih hw' hdiv
      unfold pad at ih'
      rw [Nat.toDigits_of_base_le (by decide) hn, lastDigits, ← ih']
      simp only [List.leftpad, List.length_append, List.length_singleton, Nat.add_sub_add_right,
        List.append_assoc]
/-- What is cut off at the end is zeros. -/
theorem exists_zeros (cs : List Char) :
    ∃ k, cs = cs.rdropWhile (· = '0') ++ List.replicate k '0' := by
  refine ⟨(cs.rtakeWhile (· = '0')).length, ?_⟩
  have hzeros : cs.rtakeWhile (· = '0') =
      List.replicate (cs.rtakeWhile (· = '0')).length '0' :=
    List.eq_replicate_of_mem fun c hc => by simpa using List.mem_rtakeWhile_imp hc
  rw [← hzeros]
  exact List.rdropWhile_append_rtakeWhile.symm

/-- The fraction without its last zeros spells the same fraction. -/
theorem frac_digits {frac : ℕ} (h0 : frac ≠ 0) (hlt : frac < 10 ^ 9) :
    ∃ ds : List Char, fracText frac = '.' :: ds ∧ (∀ c ∈ ds, c.isDigit = true) ∧ ds ≠ [] ∧
      ds.length ≤ 9 ∧ Nat.ofDigitChars 10 ds 0 * 10 ^ (9 - ds.length) = frac := by
  obtain ⟨k, hk⟩ := exists_zeros (lastDigits 9 frac)
  obtain ⟨ds, hds⟩ : ∃ ds, ds = (lastDigits 9 frac).rdropWhile (· = '0') := ⟨_, rfl⟩
  have htext : fracText frac = '.' :: ds := by
    unfold fracText
    rw [if_neg h0, hds]
  rw [← hds] at hk
  have hdigit : ∀ c ∈ ds, c.isDigit = true := by
    intro c hc
    have hmem : c ∈ lastDigits 9 frac := by
      rw [hk]
      exact List.mem_append_left _ hc
    exact isDigit_lastDigits c hmem
  have hlen : ds.length + k = 9 := by
    have h := congrArg List.length hk
    rw [length_lastDigits, List.length_append, List.length_replicate] at h
    exact h.symm
  have hval : 10 ^ k * Nat.ofDigitChars 10 ds 0 = frac := by
    have h := congrArg (fun cs => Nat.ofDigitChars 10 cs 0) hk
    simp only [Nat.ofDigitChars_append, Nat.ofDigitChars_replicate_zero,
      ofDigitChars_lastDigits] at h
    rw [← h, Nat.mod_eq_of_lt hlt]
  have hk9 : 9 - ds.length = k := by omega
  refine ⟨ds, htext, hdigit, ?_, by omega, by rw [hk9, Nat.mul_comm, hval]⟩
  rintro rfl
  exact h0 (by rw [← hval, Nat.ofDigitChars_nil, Nat.mul_zero])

/-! ### The text of an instant -/

/-- The bytes of a row of ASCII characters. -/
def ascii (cs : List Char) : Bytes := cs.map fun c => c.val.toUInt8

/-- The bytes of a stamp. -/
def stamp (y m d h mi s : ℕ) (frac : ℕ) : Bytes :=
  (ascii (lastDigits 4 y) ++ 45 :: ascii (lastDigits 2 m) ++ 45 :: ascii (lastDigits 2 d) ++
    84 :: ascii (lastDigits 2 h) ++ 58 :: ascii (lastDigits 2 mi) ++
      58 :: ascii (lastDigits 2 s)) ++ (ascii (fracText frac) ++ [90])

theorem isAscii_lastDigits {k n : ℕ} : ∀ c ∈ lastDigits k n, c.toNat ≤ 0x7f :=
  fun c hc => toNat_le_of_isDigit (isDigit_lastDigits c hc)

theorem isAscii_fracText {frac : ℕ} (hlt : frac < 10 ^ 9) :
    ∀ c ∈ fracText frac, c.toNat ≤ 0x7f := by
  by_cases h0 : frac = 0
  · subst h0
    exact fun _ hc => absurd hc List.not_mem_nil
  · obtain ⟨ds, htext, hdigit, -⟩ := frac_digits h0 hlt
    rw [htext]
    intro c hc
    rcases List.mem_cons.mp hc with rfl | hc
    · decide
    · exact toNat_le_of_isDigit (hdigit c hc)

/-- The date and the time of day of an instant. -/
theorem utf8_writeRfc3339 {t : Nanos} (h0 : t ≠ 0) (ht : t ≤ u64Max) :
    utf8 (writeRfc3339 t) = stamp (civilFromDays (t / second / 86400)).1
      (civilFromDays (t / second / 86400)).2.1 (civilFromDays (t / second / 86400)).2.2
      (t / second % 86400 / 3600) (t / second % 86400 / 60 % 60) (t / second % 86400 % 60)
      (t % second) := by
  have hdays : t / second / 86400 ≤ 213503 :=
    (Nat.div_le_div_right (Nat.div_le_div_right ht)).trans (by decide)
  obtain ⟨-, hy', -, hm', -, hd'⟩ := civilFromDays_bounds hdays
  have hfrac : t % second < 10 ^ 9 := Nat.mod_lt _ (by decide)
  unfold writeRfc3339
  rw [if_neg h0]
  dsimp only
  generalize civilFromDays (t / second / 86400) = ymd at *
  obtain ⟨y, m, d⟩ := ymd
  dsimp only at hy' hm' hd' ⊢
  rw [pad_eq (by decide) (by omega), pad_eq (by decide) (by omega), pad_eq (by decide) (by omega),
    pad_eq (by decide) (by omega), pad_eq (by decide) (by omega), pad_eq (by decide) (by omega),
    utf8_ofList]
  rw [utf8Chars_ascii]
  · simp only [stamp, ascii, List.map_append, List.map_cons, List.map_nil, List.append_assoc]
    rfl
  · simp only [List.cons_append, List.append_assoc, List.forall_mem_append, List.forall_mem_cons]
    have hd := @isAscii_lastDigits
    exact ⟨hd, by decide, hd, by decide, hd, by decide, hd, by decide, hd, by decide, hd,
      isAscii_fracText hfrac, by decide, fun _ hc => absurd hc List.not_mem_nil⟩

end Time

/-! ### Durations -/

/-- `u128::MAX`. -/
def u128Max : ℕ := 2 ^ 128 - 1

/-- What can go wrong when a duration is read. -/
inductive DurationError
  /-- The text is no duration. -/
  | invalid
  | negative
  /-- The duration does not fit 64 bits of nanoseconds. -/
  | overflow
  /-- The one addition that is not checked overflowed: the process aborts. -/
  | aborted
deriving DecidableEq, Repr

/-- The length of a unit in nanoseconds. -/
def unitScale (unit : Bytes) : Option ℕ :=
  if unit = utf8 "ns" then some 1
  else if unit = utf8 "us" ∨ unit = utf8 "\u00b5s" ∨ unit = utf8 "\u03bcs" then some microsecond
  else if unit = utf8 "ms" then some millisecond
  else if unit = utf8 "s" then some second
  else if unit = utf8 "m" then some minute
  else if unit = utf8 "h" then some hour
  else none

/-- Digits in 128 bits, with every step checked. -/
def checkedDigits (ds : Bytes) : Except DurationError ℕ :=
  ds.foldlM (fun v c => if u128Max < v * 10 + digitVal c then .error .overflow
    else .ok (v * 10 + digitVal c)) 0

/-- One number with its unit, and what is left. At most 18 digits of the fraction count. -/
def durationPart (rest : Bytes) : Except DurationError (ℕ × Bytes) :=
  let intPart := rest.takeWhile isDigit
  let after := rest.dropWhile isDigit
  let hasFrac := after.head? = some 46
  let fracPart := if hasFrac then after.tail.takeWhile isDigit else []
  let after := if hasFrac then after.tail.dropWhile isDigit else after
  if intPart = [] ∧ fracPart = [] then .error .invalid
  else match unitScale (after.takeWhile fun c => !isDigit c && c != 46) with
    | none => .error .invalid
    | some scale => do
      let v ← checkedDigits intPart
      if u128Max < v * scale then .error .overflow
      else
        let frac := fracPart.take 18
        let part := v * scale + ofDigits frac * scale / 10 ^ frac.length
        if u128Max < part then .error .aborted
        else .ok (part, after.dropWhile fun c => !isDigit c && c != 46)

/-- The sum of the parts that are left. -/
def durationLoop : ℕ → ℕ → Bytes → Except DurationError ℕ
  | 0, total, _ => .ok total
  | fuel + 1, total, rest =>
    if rest = [] then .ok total
    else do
      let (part, rest) ← durationPart rest
      if u128Max < total + part then .error .overflow
      else durationLoop fuel (total + part) rest

/-- Read a duration as Go does: `"30s"`, `"1m30s"`, `"1.5h"`, `"0"`. -/
def parseDuration (s : String) : Except DurationError Nanos :=
  let b := utf8 s
  let neg := b.head? = some 45
  let rest := if neg ∨ b.head? = some 43 then b.tail else b
  if rest = [48] then .ok 0
  else if rest = [] then .error .invalid
  else do
    let total ← durationLoop rest.length 0 rest
    if i64Max < total then .error .overflow
    else if neg ∧ 0 < total then .error .negative
    else .ok total

end Hop.Types
