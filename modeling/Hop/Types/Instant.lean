import Hop.Lib.Calendar
import Hop.Lib.Fallible
import Hop.Types.Time

/-!
# Instants as texts

RFC 3339 and what `types/src/time.rs` makes of it. A `Stamp` is what such a text says: a date, a time
of day, the digits of a fraction and an offset; `Spells` relates it to its texts, and `Stamp.nanos`
is the instant, counted with the calendar.

The writer writes the date and time of every instant but 0, which stands for "no time"
(`written_instant`). The reader looks neither at the length of the month nor at the range of the
offset: `readsReal_iff` says that these are the only texts that it takes without reason.
-/

namespace Hop.Types

open Calendar

variable {st : Stamp} {s : String}

/-- Behind the time of day: UTC, or so far east or west of it. -/
inductive Zone
  | utc
  | offset (east : Bool) (hours minutes : ℕ)

namespace Zone

/-- How many seconds local time is ahead. -/
def seconds : Zone → ℤ
  | .utc => 0
  | .offset true h m => (h * 3600 + m * 60 : ℕ)
  | .offset false h m => -((h * 3600 + m * 60 : ℕ) : ℤ)

/-- At most 23 hours and 59 minutes. -/
def Valid : Zone → Prop
  | .utc => True
  | .offset _ h m => h ≤ 23 ∧ m ≤ 59

end Zone

/-- What a text in the form of RFC 3339 says, valid or not. -/
structure Stamp where
  year : ℕ
  month : ℕ
  day : ℕ
  hour : ℕ
  minute : ℕ
  sec : ℕ
  /-- The digits after the point; none if there is no point. -/
  frac : Bytes
  zone : Zone

namespace Stamp

/-- The seconds since 1970-01-01T00:00:00Z; a second 60 is the first one of the next minute. -/
def seconds (st : Stamp) : ℤ :=
  ((ordinal st.year st.month st.day : ℤ) - ordinal 1970 1 1) * 86400 +
    (st.hour * 3600 + st.minute * 60 + st.sec : ℕ) - st.zone.seconds

/-- The fraction in nanoseconds, without what is less than one. -/
def fracNanos (st : Stamp) : ℕ := ofDigits st.frac * 10 ^ 9 / 10 ^ st.frac.length

/-- The instant in nanoseconds. -/
def nanos (st : Stamp) : ℤ := st.seconds * 10 ^ 9 + st.fracNanos

/-- Ranges of numbers that do not need the calendar. -/
structure InRange (st : Stamp) : Prop where
  month : 1 ≤ st.month ∧ st.month ≤ 12
  day : 1 ≤ st.day ∧ st.day ≤ 31
  hour : st.hour ≤ 23
  minute : st.minute ≤ 59
  sec : st.sec ≤ 60

/-- A real date, time of day and offset. -/
structure Real (st : Stamp) : Prop where
  date : IsDate st.year st.month st.day
  hour : st.hour ≤ 23
  minute : st.minute ≤ 59
  sec : st.sec ≤ 60
  zone : st.zone.Valid

theorem Real.inRange (h : st.Real) : st.InRange where
  month := ⟨h.date.one_le_month, h.date.month_le⟩
  day := by
    have hlen : monthLength st.year st.month ≤ 31 := by
      unfold monthLength
      split_ifs <;> omega
    exact ⟨h.date.one_le_day, h.date.day_le.trans hlen⟩
  hour := h.hour
  minute := h.minute
  sec := h.sec

end Stamp

/-- `ds` are `w` digits with the value `n`. -/
structure Digits (w n : ℕ) (ds : Bytes) : Prop where
  length : ds.length = w
  digit : ∀ b ∈ ds, isDigit b = true
  value : ofDigits ds = n

theorem Digits.of_all {w n : ℕ} {ds : Bytes} (hlen : ds.length = w) (hall : ds.all isDigit = true)
    (hvalue : ofDigits ds = n) : Digits w n ds :=
  ⟨hlen, List.all_eq_true.mp hall, hvalue⟩

/-- The text of a fraction. -/
def SpellsFrac (frac text : Bytes) : Prop :=
  (∀ b ∈ frac, isDigit b = true) ∧ text = if frac = [] then [] else 46 :: frac

/-- The text of an offset. -/
def SpellsZone : Zone → Bytes → Prop
  | .utc, text => text = [90] ∨ text = [122]
  | .offset east h m, text => ∃ hs ms, Digits 2 h hs ∧ Digits 2 m ms ∧
    text = (if east then 43 else 45) :: (hs ++ 58 :: ms)

/-- What these bytes say. -/
structure Spells (st : Stamp) (b : Bytes) : Prop where
  parts : ∃ y mo d t h mi s f z, Digits 4 st.year y ∧ Digits 2 st.month mo ∧ Digits 2 st.day d ∧
    (t = 84 ∨ t = 116) ∧ Digits 2 st.hour h ∧ Digits 2 st.minute mi ∧ Digits 2 st.sec s ∧
    SpellsFrac st.frac f ∧ SpellsZone st.zone z ∧
    b = y ++ 45 :: (mo ++ 45 :: (d ++ t :: (h ++ 58 :: (mi ++ 58 :: (s ++ (f ++ z))))))

namespace Time

/-! ### The calendar of the source -/

/-- The years that begin in March, as a formula. -/
theorem daysFromCivil_march (y m d : ℕ) : daysFromCivil y m d =
    365 * (if m ≤ 2 then y - 1 else y) + (if m ≤ 2 then y - 1 else y) / 4 -
      (if m ≤ 2 then y - 1 else y) / 100 + (if m ≤ 2 then y - 1 else y) / 400 +
      ((153 * (if m > 2 then m - 3 else m + 9) + 2) / 5 + d - 1) - 719468 := by
  unfold daysFromCivil
  dsimp only
  generalize (if m ≤ 2 then y - 1 else y) = y'
  generalize (153 * (if m > 2 then m - 3 else m + 9) + 2) / 5 + d - 1 = doy
  have hyoe : y' = 400 * (y' / 400) + (y' - y' / 400 * 400) := by omega
  generalize hq : y' / 400 = q at *
  generalize hr : y' - q * 400 = r at *
  have hlt : r < 400 := by omega
  have h4 : y' / 4 = 100 * q + r / 4 := by omega
  have h100 : y' / 100 = 4 * q + r / 100 := by omega
  omega

theorem daysBefore_early {y m : ℕ} (h1 : 1 ≤ m) (h2 : m ≤ 2) : daysBefore y m = 31 * (m - 1) := by
  have hno : ¬ (2 < m ∧ IsLeap y) := fun h => absurd h.1 (by omega)
  have htable : ∀ m ≤ 2, [0, 31, 59, 90, 120, 151, 181, 212, 243, 273, 304, 334].getD (m - 1) 0 =
      31 * (m - 1) := by decide
  rw [daysBefore, if_neg hno, htable m h2, Nat.add_zero]

/-- From March on the months have the lengths of the formula. -/
theorem daysBefore_late {y m : ℕ} (h3 : 2 < m) (h12 : m ≤ 12) :
    daysBefore y m = (153 * (m - 3) + 2) / 5 + 59 + if IsLeap y then 1 else 0 := by
  have htable : ∀ m ≤ 12, 2 < m →
      [0, 31, 59, 90, 120, 151, 181, 212, 243, 273, 304, 334].getD (m - 1) 0 =
        (153 * (m - 3) + 2) / 5 + 59 := by decide
  rw [daysBefore, htable m h12 h3]
  simp only [h3, true_and]

theorem ordinal_epoch : ordinal 1970 1 1 = 719528 := by
  rw [ordinal_eq (by decide) (by decide)]
  decide

/-- **The days that the source counts are the days of the calendar.** -/
theorem daysFromCivil_ordinal {y m d : ℕ} (hy : 1970 ≤ y) (hm : 1 ≤ m ∧ m ≤ 12) (hd : 1 ≤ d) :
    daysFromCivil y m d + ordinal 1970 1 1 = ordinal y m d := by
  obtain ⟨hm1, hm12⟩ := hm
  have hlarge := leapsBefore_large hy
  rw [ordinal_eq hm1 hm12, ordinal_epoch, daysFromCivil_march]
  by_cases hearly : m ≤ 2
  · -- January and February belong to the year before
    have hlate : ¬ m > 2 := Nat.not_lt.mpr hearly
    rw [if_pos hearly, if_neg hlate, daysBefore_early hm1 hearly]
    have hpred := leapsBefore_pred (by omega : 1 ≤ y)
    have hmonth : (153 * (m + 9) + 2) / 5 = 31 * (m - 1) + 306 := by
      interval_cases m
      · rfl
      · rfl
    have hle : (y - 1) / 100 ≤ (y - 1) / 4 := Nat.div_le_div_left (by decide) (by decide)
    rw [hmonth]
    generalize (y - 1) / 4 = a at *
    generalize (y - 1) / 100 = b at *
    generalize (y - 1) / 400 = c at *
    omega
  · have hlate : m > 2 := Nat.lt_of_not_le hearly
    rw [if_neg hearly, if_pos hlate, daysBefore_late hlate hm12]
    have hpred := leapsBefore_pred (Nat.le_add_left 1 y)
    rw [leapsBefore_succ, Nat.add_sub_cancel] at hpred
    have hle : y / 100 ≤ y / 4 := Nat.div_le_div_left (by decide) (by decide)
    generalize (153 * (m - 3) + 2) / 5 = days
    generalize (if IsLeap y then 1 else 0) = leap at *
    generalize y / 4 = a at *
    generalize y / 100 = b at *
    generalize y / 400 = c at *
    omega

/-- The date of a day is a day that exists. -/
theorem isDate_civilFromDays (days : ℕ) :
    IsDate (civilFromDays days).1 (civilFromDays days).2.1 (civilFromDays days).2.2 := by
  obtain ⟨era, yoe, doy, hyoe, hdoy, hleap, hdays, hcivil⟩ := civilFromDays_spec days
  obtain ⟨hm1, hm12, hd1, -⟩ := month_bounds hdoy
  rw [hcivil]
  refine ⟨hm1, hm12, hd1, ?_⟩
  dsimp only
  obtain ⟨mp, hmp⟩ : ∃ mp, mp = (5 * doy + 2) / 153 := ⟨_, rfl⟩
  have hmp12 : mp ≤ 11 := by omega
  unfold monthLength monthOf dayOf
  rw [← hmp]
  by_cases hlast : mp = 11
  · -- February: day 365 is there in leap years only
    subst hlast
    have hyear : doy = 365 → IsLeap (yoe + era * 400 + 1) := by
      intro h
      obtain ⟨h4, h100⟩ := hleap h
      unfold IsLeap
      omega
    simp only [show ¬ 11 < 10 by decide, if_false, if_true, Nat.reduceSub, Nat.le_refl]
    split_ifs with h
    · omega
    · have hne : doy ≠ 365 := fun he => h (hyear he)
      omega
  · interval_cases mp <;> simp <;> omega

/-! ### What is read at a place -/

theorem num_eq {b ds : Bytes} {i w n : ℕ} (hb : (b.drop i).take w = ds) (h : Digits w n ds) :
    num b i w = .ok n := by
  rw [num, hb, if_pos ⟨h.length, List.all_eq_true.mpr h.digit⟩, h.value]

theorem digits_of_num {b : Bytes} {i w n : ℕ} (h : num b i w = .ok n) :
    Digits w n ((b.drop i).take w) := by
  rw [num] at h
  split_ifs at h with hw
  · injection h with h
    exact .of_all hw.1 hw.2 h

/-- Nine digits of a fraction are as good as all of them. -/
theorem nineDigits (ds : Bytes) (h : ∀ b ∈ ds, isDigit b = true) :
    ofDigits (ds.take 9) * 10 ^ (9 - ds.length) = ofDigits ds * 10 ^ 9 / 10 ^ ds.length := by
  rcases Nat.le_total ds.length 9 with hle | hge
  · obtain ⟨k, hk⟩ : ∃ k, 9 = k + ds.length := ⟨9 - ds.length, by omega⟩
    rw [List.take_of_length_le hle, hk, Nat.add_sub_cancel, pow_add, ← Nat.mul_assoc,
      Nat.mul_div_cancel _ (by positivity)]
  · obtain ⟨k, hk⟩ : ∃ k, ds.length = 9 + k := ⟨ds.length - 9, by omega⟩
    have hsplit := ofDigits_append (ds.take 9) (ds.drop 9)
    have hrest : (ds.drop 9).length = k := by
      rw [List.length_drop]
      omega
    have hlt : ofDigits (ds.drop 9) < 10 ^ k :=
      hrest ▸ ofDigits_lt fun b hb => h b (List.mem_of_mem_drop hb)
    rw [List.take_append_drop, hrest] at hsplit
    rw [Nat.sub_eq_zero_of_le hge, pow_zero, Nat.mul_one, hsplit, hk, pow_add,
      Nat.mul_comm _ (10 ^ 9), Nat.mul_div_mul_left _ _ (by positivity), Nat.mul_comm,
      Nat.mul_add_div (by positivity), Nat.div_eq_of_lt hlt, Nat.add_zero]

/-- An offset does not begin like a fraction. -/
theorem head?_zone {zone : Zone} {z : Bytes} (h : SpellsZone zone z) :
    z.head? ≠ some 46 ∧ ∀ b ∈ z.head?, isDigit b = false := by
  rcases zone with _ | ⟨east, hours, minutes⟩
  · rcases h with rfl | rfl
    · exact ⟨by simp, by simp [isDigit]⟩
    · exact ⟨by simp, by simp [isDigit]⟩
  · obtain ⟨hs, ms, -, -, rfl⟩ := h
    cases east
    · exact ⟨by simp, by simp [isDigit]⟩
    · exact ⟨by simp, by simp [isDigit]⟩

theorem zone_ne_nil {zone : Zone} {z : Bytes} (h : SpellsZone zone z) : z ≠ [] := by
  rcases zone with _ | ⟨east, hours, minutes⟩
  · rcases h with rfl | rfl
    · exact List.cons_ne_nil _ _
    · exact List.cons_ne_nil _ _
  · obtain ⟨hs, ms, -, -, rfl⟩ := h
    exact List.cons_ne_nil _ _

theorem parseFrac_append {a : Bytes} (ha : a.length = 19) (rest : Bytes) : parseFrac (a ++ rest) =
    if rest.head? = some 46 then
      if rest.tail.takeWhile isDigit = [] then .error bad
      else .ok (ofDigits ((rest.tail.takeWhile isDigit).take 9) *
        10 ^ (9 - (rest.tail.takeWhile isDigit).length), 20 + (rest.tail.takeWhile isDigit).length)
    else .ok (0, 19) := by
  have hget : (a ++ rest)[19]? = rest.head? := by
    rw [List.getElem?_append_right ha.le, ha, List.head?_eq_getElem?]
  have hdrop : (a ++ rest).drop 20 = rest.tail := by
    rw [List.drop_append, ha, List.drop_of_length_le (by omega), List.nil_append, List.drop_one]
  rw [parseFrac, hget, hdrop]

theorem parseFrac_spelled {a f z : Bytes} (ha : a.length = 19) (hf : SpellsFrac st.frac f)
    (hz : SpellsZone st.zone z) :
    parseFrac (a ++ (f ++ z)) = .ok (st.fracNanos, 19 + f.length) := by
  obtain ⟨hdigit, rfl⟩ := hf
  obtain ⟨hpoint, hend⟩ := head?_zone hz
  rw [parseFrac_append ha, Stamp.fracNanos, ← nineDigits st.frac hdigit]
  by_cases hnil : st.frac = []
  · rw [if_pos hnil, List.nil_append, if_neg hpoint, hnil]
    rfl
  · have htake := (takeWhile_dropWhile hdigit hend).1
    rw [if_neg hnil, List.cons_append, if_pos List.head?_cons, List.tail_cons, htake, if_neg hnil,
      List.length_cons]
    congr 2
    omega

/-- Every fraction that is read is one. -/
theorem exists_frac {a rest : Bytes} (ha : a.length = 19) {n i : ℕ}
    (h : parseFrac (a ++ rest) = .ok (n, i)) :
    ∃ frac f z, SpellsFrac frac f ∧ rest = f ++ z ∧ i = 19 + f.length := by
  rw [parseFrac_append ha] at h
  split_ifs at h with hpoint hnil
  · obtain ⟨tail, rfl⟩ := List.head?_eq_some_iff.mp hpoint
    rw [List.tail_cons] at hnil h
    have hdigit : ∀ b ∈ tail.takeWhile isDigit, isDigit b = true :=
      fun b hb => List.mem_takeWhile_imp hb
    have hi : 20 + (tail.takeWhile isDigit).length = i := congrArg Prod.snd (Except.ok.inj h)
    refine ⟨tail.takeWhile isDigit, 46 :: tail.takeWhile isDigit, tail.dropWhile isDigit,
      ⟨hdigit, (if_neg hnil).symm⟩, ?_, ?_⟩
    · rw [List.cons_append, List.takeWhile_append_dropWhile]
    · rw [List.length_cons]
      omega
  · have hi : 19 = i := congrArg Prod.snd (Except.ok.inj h)
    exact ⟨[], [], rest, ⟨fun _ hb => absurd hb List.not_mem_nil, rfl⟩, rfl, hi.symm⟩

/-- The reader of an offset looks at what is behind the fraction only. -/
theorem parseOffset_append (a z : Bytes) : parseOffset (a ++ z) a.length = parseOffset z 0 := by
  have hget : ∀ k, (a ++ z)[a.length + k]? = z[0 + k]? := by
    intro k
    rw [List.getElem?_append_right (Nat.le_add_right _ _), Nat.add_sub_cancel_left, Nat.zero_add]
  have hnum : ∀ k w, num (a ++ z) (a.length + k) w = num z (0 + k) w := by
    intro k w
    rw [num, num, List.drop_append, List.drop_of_length_le (by omega), Nat.add_sub_cancel_left,
      List.nil_append, Nat.zero_add]
  have hlen : ∀ k, (a ++ z).length = a.length + k ↔ z.length = 0 + k := by
    intro k
    rw [List.length_append]
    omega
  have hhead := hget 0
  rw [Nat.add_zero, Nat.add_zero] at hhead
  rw [parseOffset, parseOffset, hhead, hget, hnum, hnum]
  simp only [hlen]

theorem parseOffset_spelled {zone : Zone} (a : Bytes) {z : Bytes} (h : SpellsZone zone z) :
    parseOffset (a ++ z) a.length = .ok zone.seconds := by
  rw [parseOffset_append]
  rcases zone with _ | ⟨east, hours, minutes⟩
  · rcases h with rfl | rfl
    · rfl
    · rfl
  · obtain ⟨hs, ms, hhs, hms, rfl⟩ := h
    obtain ⟨h0, h1, rfl⟩ := List.length_eq_two.mp hhs.length
    obtain ⟨m0, m1, rfl⟩ := List.length_eq_two.mp hms.length
    cases east
    · rw [parseOffset, if_neg (by simp), if_pos ⟨.inr rfl, rfl, rfl⟩, num_eq rfl hhs,
        num_eq rfl hms]
      rfl
    · rw [parseOffset, if_neg (by simp), if_pos ⟨.inl rfl, rfl, rfl⟩, num_eq rfl hhs,
        num_eq rfl hms]
      rfl

/-- Every offset that is read is one. -/
theorem exists_zone {a z : Bytes} {o : ℤ} (h : parseOffset (a ++ z) a.length = .ok o) :
    ∃ zone, SpellsZone zone z := by
  rw [parseOffset_append, parseOffset] at h
  by_cases hutc : (z[0]? = some 90 ∨ z[0]? = some 122) ∧ z.length = 0 + 1
  · obtain ⟨c, rfl⟩ := List.length_eq_one_iff.mp hutc.2
    refine ⟨.utc, ?_⟩
    rcases hutc.1 with hc | hc
    · exact .inl (by simpa using hc)
    · exact .inr (by simpa using hc)
  rw [if_neg hutc] at h
  by_cases hoffset : (z[0]? = some 43 ∨ z[0]? = some 45) ∧ z.length = 0 + 6 ∧ z[0 + 3]? = some 58
  · rw [if_pos hoffset] at h
    obtain ⟨hsign, hlen, hcolon⟩ := hoffset
    obtain ⟨c, h0, h1, sep, m0, m1, rfl⟩ : ∃ c h0 h1 sep m0 m1, z = [c, h0, h1, sep, m0, m1] := by
      match z, hlen with
      | [c, h0, h1, sep, m0, m1], _ => exact ⟨c, h0, h1, sep, m0, m1, rfl⟩
    obtain rfl : sep = 58 := by simpa using hcolon
    cases hhours : num [c, h0, h1, 58, m0, m1] 1 2 with
    | error e =>
      rw [hhours] at h
      exact absurd h (by simp [bind, Except.bind])
    | ok hours =>
      cases hminutes : num [c, h0, h1, 58, m0, m1] 4 2 with
      | error e =>
        rw [hhours, hminutes] at h
        exact absurd h (by simp [bind, Except.bind])
      | ok minutes =>
        refine ⟨.offset (c = 43) hours minutes, [h0, h1], [m0, m1], digits_of_num hhours,
          digits_of_num hminutes, ?_⟩
        rcases hsign with hc | hc
        · obtain rfl : c = 43 := by simpa using hc
          rfl
        · obtain rfl : c = 45 := by simpa using hc
          rfl
  · rw [if_neg hoffset] at h
    exact absurd h (by simp)

/-! ### What is read of a text -/

theorem length_four {w : Bytes} {n : ℕ} (h : Digits 4 n w) : ∃ a b c d, w = [a, b, c, d] := by
  match w, h.length with
  | [a, b, c, d], _ => exact ⟨a, b, c, d, rfl⟩

theorem length_two {w : Bytes} {n : ℕ} (h : Digits 2 n w) : ∃ a b, w = [a, b] :=
  List.length_eq_two.mp h.length

/-- The reader on what a text says: the ranges, the year, and the arithmetic. -/
theorem parse_spelled (h : Spells st (utf8 s)) : parseRfc3339 s =
    if ¬ (1 ≤ st.month ∧ st.month ≤ 12) ∨ ¬ (1 ≤ st.day ∧ st.day ≤ 31) ∨ 23 < st.hour ∨
      59 < st.minute ∨ 60 < st.sec then .error bad
    else if st.year < 1970 then .ok 0
    else
      let secs : ℤ := (daysFromCivil st.year st.month st.day * 86400 + st.hour * 3600 +
        st.minute * 60 + st.sec : ℕ) - st.zone.seconds
      if secs < 0 then .error bad
      else if u64Max < secs.toNat * second + st.fracNanos then .error bad
      else .ok (secs.toNat * second + st.fracNanos) := by
  obtain ⟨y, mo, d, t, hh, mi, sc, f, z, hy, hmo, hd, ht, hhh, hmi, hsc, hf, hz, hb⟩ := h.parts
  obtain ⟨y0, y1, y2, y3, rfl⟩ := length_four hy
  obtain ⟨o0, o1, rfl⟩ := length_two hmo
  obtain ⟨d0, d1, rfl⟩ := length_two hd
  obtain ⟨h0, h1, rfl⟩ := length_two hhh
  obtain ⟨i0, i1, rfl⟩ := length_two hmi
  obtain ⟨s0, s1, rfl⟩ := length_two hsc
  -- the nineteen bytes before the fraction
  obtain ⟨a, hlen, ha⟩ : ∃ a : Bytes, a.length = 19 ∧ a = [y0, y1, y2, y3, 45, o0, o1, 45, d0, d1,
    t, h0, h1, 58, i0, i1, 58, s0, s1] := ⟨_, rfl, rfl⟩
  have htext : utf8 s = a ++ (f ++ z) := by
    rw [hb, ha]
    rfl
  have hfrac : parseFrac (utf8 s) = .ok (st.fracNanos, 19 + f.length) := by
    rw [htext]
    exact parseFrac_spelled hlen hf hz
  have hzone : parseOffset (utf8 s) (19 + f.length) = .ok st.zone.seconds := by
    rw [htext, ← List.append_assoc, ← hlen, ← List.length_append]
    exact parseOffset_spelled _ hz
  have hlong : ¬ (utf8 s).length < 20 := by
    have hpos : 0 < z.length := List.length_pos_of_ne_nil (zone_ne_nil hz)
    rw [htext, List.length_append, List.length_append, hlen]
    omega
  have hdash : (utf8 s)[4]? = some 45 ∧ (utf8 s)[7]? = some 45 := by
    rw [hb]
    exact ⟨rfl, rfl⟩
  have hplaces : (utf8 s)[10]? = some t ∧ (utf8 s)[13]? = some 58 ∧ (utf8 s)[16]? = some 58 := by
    rw [hb]
    exact ⟨rfl, rfl, rfl⟩
  have hnums : num (utf8 s) 0 4 = .ok st.year ∧ num (utf8 s) 5 2 = .ok st.month ∧
      num (utf8 s) 8 2 = .ok st.day ∧ num (utf8 s) 11 2 = .ok st.hour ∧
      num (utf8 s) 14 2 = .ok st.minute ∧ num (utf8 s) 17 2 = .ok st.sec := by
    rw [hb]
    exact ⟨num_eq rfl hy, num_eq rfl hmo, num_eq rfl hd, num_eq rfl hhh, num_eq rfl hmi,
      num_eq rfl hsc⟩
  obtain ⟨hn0, hn1, hn2, hn3, hn4, hn5⟩ := hnums
  have hform : ¬ ((utf8 s).length < 20 ∨ (utf8 s)[4]? ≠ some 45 ∨ (utf8 s)[7]? ≠ some 45) :=
    not_or.mpr ⟨hlong, not_or.mpr ⟨not_not_intro hdash.1, not_not_intro hdash.2⟩⟩
  have hform' : ¬ (((utf8 s)[10]? ≠ some 84 ∧ (utf8 s)[10]? ≠ some 116) ∨
      (utf8 s)[13]? ≠ some 58 ∨ (utf8 s)[16]? ≠ some 58) := by
    rw [hplaces.1, hplaces.2.1, hplaces.2.2]
    rcases ht with rfl | rfl
    · simp
    · simp
  rw [parseRfc3339, if_neg hform, if_neg hform', hn0, hn1, hn2, hn3, hn4, hn5, hfrac]
  simp only [bind, Except.bind, hzone]

/-- **What is read says something.** -/
theorem exists_stamp {t : Nanos} (h : parseRfc3339 s = .ok t) :
    ∃ st, Spells st (utf8 s) := by
  rw [parseRfc3339] at h
  obtain ⟨hform, h⟩ := guard_eq_ok h
  obtain ⟨hform', h⟩ := guard_eq_ok h
  simp only [not_or, not_not, Nat.not_lt] at hform
  obtain ⟨hlen, hdash, hdash'⟩ := hform
  simp only [not_or, not_not, not_and_or] at hform'
  obtain ⟨ht, hcolon, hcolon'⟩ := hform'
  obtain ⟨y, hy, h⟩ := bind_eq_ok h
  obtain ⟨mo, hmo, h⟩ := bind_eq_ok h
  obtain ⟨d, hd, h⟩ := bind_eq_ok h
  obtain ⟨hh, hhh, h⟩ := bind_eq_ok h
  obtain ⟨mi, hmi, h⟩ := bind_eq_ok h
  obtain ⟨sc, hsc, h⟩ := bind_eq_ok h
  obtain ⟨-, h⟩ := guard_eq_ok h
  obtain ⟨⟨n, i⟩, hfrac, h⟩ := bind_eq_ok h
  obtain ⟨o, hzone, -⟩ := bind_eq_ok h
  generalize utf8 s = b at *
  -- nineteen bytes, and the rest
  obtain ⟨y0, y1, y2, y3, c4, o0, o1, c7, d0, d1, c10, h0, h1, c13, i0, i1, c16, s0, s1, rest,
    rfl⟩ : ∃ y0 y1 y2 y3 c4 o0 o1 c7 d0 d1 c10 h0 h1 c13 i0 i1 c16 s0 s1 rest,
      b = y0 :: y1 :: y2 :: y3 :: c4 :: o0 :: o1 :: c7 :: d0 :: d1 :: c10 :: h0 :: h1 :: c13 ::
        i0 :: i1 :: c16 :: s0 :: s1 :: rest := by
    match b, hlen with
    | y0 :: y1 :: y2 :: y3 :: c4 :: o0 :: o1 :: c7 :: d0 :: d1 :: c10 :: h0 :: h1 :: c13 ::
        i0 :: i1 :: c16 :: s0 :: s1 :: rest, _ =>
      exact ⟨y0, y1, y2, y3, c4, o0, o1, c7, d0, d1, c10, h0, h1, c13, i0, i1, c16, s0, s1, rest,
        rfl⟩
  obtain rfl : c4 = 45 := Option.some.inj hdash
  obtain rfl : c7 = 45 := Option.some.inj hdash'
  obtain rfl : c13 = 58 := Option.some.inj hcolon
  obtain rfl : c16 = 58 := Option.some.inj hcolon'
  have ht' : c10 = 84 ∨ c10 = 116 := ht.imp Option.some.inj Option.some.inj
  obtain ⟨frac, f, z, hf, rfl, rfl⟩ := exists_frac (a := [y0, y1, y2, y3, 45, o0, o1, 45, d0, d1,
    c10, h0, h1, 58, i0, i1, 58, s0, s1]) rfl hfrac
  obtain ⟨zone, hz⟩ := exists_zone (a := [y0, y1, y2, y3, 45, o0, o1, 45, d0, d1, c10, h0, h1, 58,
    i0, i1, 58, s0, s1] ++ f) (z := z) (o := o) (by
      rw [List.length_append, List.append_assoc]
      exact hzone)
  exact ⟨⟨y, mo, d, hh, mi, sc, frac, zone⟩, ⟨_, _, _, c10, _, _, _, f, z, digits_of_num hy,
    digits_of_num hmo, digits_of_num hd, ht', digits_of_num hhh, digits_of_num hmi,
    digits_of_num hsc, hf, hz, rfl⟩⟩

/-- The seconds of the source are those of the calendar. -/
theorem seconds_eq (h : st.InRange) (hy : 1970 ≤ st.year) :
    ((daysFromCivil st.year st.month st.day * 86400 + st.hour * 3600 + st.minute * 60 +
      st.sec : ℕ) : ℤ) - st.zone.seconds = st.seconds := by
  have hdays := daysFromCivil_ordinal hy h.month h.day.1
  rw [Stamp.seconds]
  push_cast
  rw [← hdays]
  push_cast
  ring

theorem fracNanos_lt {text : Bytes} (h : SpellsFrac st.frac text) :
    st.fracNanos < 10 ^ 9 := by
  have hlt := ofDigits_lt h.1
  rw [Stamp.fracNanos, Nat.div_lt_iff_lt_mul (by positivity), Nat.mul_comm]
  exact Nat.mul_lt_mul_of_pos_left hlt (by positivity)

/-- **What is read of numbers in range**: the instant, if it fits. -/
theorem parse_inRange (h : Spells st (utf8 s)) (hr : st.InRange) (hy : 1970 ≤ st.year) :
    parseRfc3339 s =
      if 0 ≤ st.nanos ∧ st.nanos ≤ u64Max then .ok st.nanos.toNat else .error bad := by
  obtain ⟨y, mo, d, t, hh, mi, sc, f, z, -, -, -, -, -, -, -, hf, -⟩ := h.parts
  have hfrac := fracNanos_lt hf
  have hpass : ¬ (¬ (1 ≤ st.month ∧ st.month ≤ 12) ∨ ¬ (1 ≤ st.day ∧ st.day ≤ 31) ∨
      23 < st.hour ∨ 59 < st.minute ∨ 60 < st.sec) := by
    obtain ⟨hmonth, hday, hhour, hminute, hsec⟩ := hr
    omega
  rw [parse_spelled h, if_neg hpass, if_neg (Nat.not_lt.mpr hy), seconds_eq hr hy]
  have hsecond : second = 10 ^ 9 := rfl
  dsimp only
  rw [Stamp.nanos, hsecond]
  rcases lt_or_ge st.seconds 0 with hneg | hpos
  · rw [if_pos hneg, if_neg (by omega)]
  · obtain ⟨n, hn⟩ := Int.eq_ofNat_of_zero_le hpos
    rw [if_neg (Int.not_lt.mpr hpos), hn, Int.toNat_natCast]
    by_cases hbig : u64Max < n * 10 ^ 9 + st.fracNanos
    · rw [if_pos hbig, if_neg (by omega)]
    · rw [if_neg hbig, if_pos (by omega)]
      congr 1

theorem parse_outOfRange (h : Spells st (utf8 s)) (hr : ¬ st.InRange) :
    parseRfc3339 s = .error bad := by
  rw [parse_spelled h, if_pos]
  by_contra hpass
  simp only [not_or, not_not, Nat.not_lt] at hpass
  obtain ⟨hmonth, hday, hhour, hminute, hsec⟩ := hpass
  exact hr ⟨hmonth, hday, hhour, hminute, hsec⟩

theorem parse_early (h : Spells st (utf8 s)) (hr : st.InRange) (hy : st.year < 1970) :
    parseRfc3339 s = .ok 0 := by
  have hpass : ¬ (¬ (1 ≤ st.month ∧ st.month ≤ 12) ∨ ¬ (1 ≤ st.day ∧ st.day ≤ 31) ∨
      23 < st.hour ∨ 59 < st.minute ∨ 60 < st.sec) := by
    obtain ⟨hmonth, hday, hhour, hminute, hsec⟩ := hr
    omega
  rw [parse_spelled h, if_neg hpass, if_pos hy]

end Time

open Time

/-- Only real instants are read of this text, and a real one is. -/
structure ReadsReal (s : String) : Prop where
  spelled : ∀ {t}, parseRfc3339 s = .ok t → ∃ st, Spells st (utf8 s)
  sound : ∀ {t st}, parseRfc3339 s = .ok t → Spells st (utf8 s) → 1970 ≤ st.year →
    st.Real ∧ st.nanos = t
  complete : ∀ {st}, Spells st (utf8 s) → st.Real → 0 ≤ st.nanos → st.nanos ≤ u64Max →
    ∃ t, parseRfc3339 s = .ok t

/-- The numbers of the text are in range, but there is no such day in its month, or no such offset;
from 1970 on, and the instant fits 64 bits. -/
def Unreal (s : String) : Prop :=
  ∃ st, Spells st (utf8 s) ∧ st.InRange ∧ 1970 ≤ st.year ∧ 0 ≤ st.nanos ∧ st.nanos ≤ u64Max ∧
    (monthLength st.year st.month < st.day ∨ ¬ st.zone.Valid)

/-- **Exactly these texts are read though they are no instant.** -/
theorem readsReal_iff (s : String) : ReadsReal s ↔ ¬ Unreal s := by
  constructor
  · rintro h ⟨st, hst, hrange, hyear, hpos, hmax, hbad⟩
    have hread := parse_inRange hst hrange hyear
    rw [if_pos ⟨hpos, hmax⟩] at hread
    have hreal := (h.sound hread hst hyear).1
    rcases hbad with hday | hzone
    · exact absurd hreal.date.day_le (Nat.not_le.mpr hday)
    · exact hzone hreal.zone
  · intro h
    refine ⟨exists_stamp, fun {t st} hread hst hyear => ?_, fun {st} hst hreal hpos hmax => ?_⟩
    · have hrange : st.InRange := by
        by_contra hrange
        rw [parse_outOfRange hst hrange] at hread
        cases hread
      rw [parse_inRange hst hrange hyear] at hread
      split_ifs at hread with hfits
      obtain rfl := Except.ok.inj hread
      -- what the reader does not look at holds because the text is not one of those
      have hday : st.day ≤ monthLength st.year st.month := by
        by_contra hday
        exact h ⟨st, hst, hrange, hyear, hfits.1, hfits.2, .inl (Nat.lt_of_not_le hday)⟩
      have hzone : st.zone.Valid := by
        by_contra hzone
        exact h ⟨st, hst, hrange, hyear, hfits.1, hfits.2, .inr hzone⟩
      exact ⟨⟨⟨hrange.month.1, hrange.month.2, hrange.day.1, hday⟩, hrange.hour, hrange.minute,
        hrange.sec, hzone⟩, (Int.toNat_of_nonneg hfits.1).symm⟩
    · rcases Nat.lt_or_ge st.year 1970 with hyear | hyear
      · exact ⟨0, parse_early hst hreal.inRange hyear⟩
      · refine ⟨st.nanos.toNat, ?_⟩
        rw [parse_inRange hst hreal.inRange hyear, if_pos ⟨hpos, hmax⟩]

/-- The 31st of February is read. -/
theorem reads_no_such_day : ¬ ∀ s, ReadsReal s := by
  intro h
  have hread : parseRfc3339 "2026-02-31T00:00:00Z" = .ok 1772496000000000000 := by decide
  have hspells : Spells ⟨2026, 2, 31, 0, 0, 0, [], .utc⟩ (utf8 "2026-02-31T00:00:00Z") :=
    ⟨[50, 48, 50, 54], [48, 50], [51, 49], 84, [48, 48], [48, 48], [48, 48], [], [90],
      .of_all rfl rfl rfl, .of_all rfl rfl rfl, .of_all rfl rfl rfl, .inl rfl, .of_all rfl rfl rfl,
      .of_all rfl rfl rfl, .of_all rfl rfl rfl, ⟨fun _ h => absurd h List.not_mem_nil, rfl⟩,
      .inl rfl, by decide⟩
  have hday := ((h _).sound hread hspells (by decide)).1.date.day_le
  exact absurd hday (by decide)

/-! ### What is written -/

theorem digits_lastDigits {k n : ℕ} (h : n < 10 ^ k) : Digits k n (ascii (lastDigits k n)) where
  length := by rw [ascii, List.length_map, length_lastDigits]
  digit b hb := by
    rw [ascii, ← utf8Chars_digits isDigit_lastDigits] at hb
    exact isDigit_of_mem_utf8Chars isDigit_lastDigits hb
  value := by
    rw [ascii, ← utf8Chars_digits isDigit_lastDigits, ofDigits_utf8Chars isDigit_lastDigits,
      ofDigitChars_lastDigits, Nat.mod_eq_of_lt h]

/-- The fraction as it is written: its digits and its value. -/
theorem fracText_spells {frac : ℕ} (hlt : frac < 10 ^ 9) :
    SpellsFrac (ascii (fracText frac).tail) (ascii (fracText frac)) ∧
      ofDigits (ascii (fracText frac).tail) * 10 ^ 9 / 10 ^ (ascii (fracText frac).tail).length =
        frac := by
  by_cases h0 : frac = 0
  · subst h0
    exact ⟨⟨fun _ hb => absurd hb List.not_mem_nil, rfl⟩, by decide⟩
  · obtain ⟨ds, htext, hdigit, hne, hlen, hvalue⟩ := frac_digits h0 hlt
    have hbytes : ascii ds = utf8Chars ds := (utf8Chars_digits hdigit).symm
    have hdigits : ∀ b ∈ ascii ds, isDigit b = true :=
      fun b hb => isDigit_of_mem_utf8Chars hdigit (hbytes ▸ hb)
    have hlen' : (ascii ds).length = ds.length := by rw [ascii, List.length_map]
    rw [htext, List.tail_cons]
    refine ⟨⟨hdigits, ?_⟩, ?_⟩
    · have hne' : ascii ds ≠ [] := fun h => hne (List.map_eq_nil_iff.mp h)
      rw [if_neg hne']
      rfl
    · rw [← nineDigits _ hdigits, List.take_of_length_le (by omega), hlen', hbytes,
        ofDigits_utf8Chars hdigit, hvalue]

/-- Hours, minutes and seconds of a number of seconds. -/
theorem clock (n : ℕ) : n % 86400 / 3600 ≤ 23 ∧ n % 86400 / 60 % 60 ≤ 59 ∧ n % 86400 % 60 ≤ 60 ∧
    n / 86400 * 86400 + n % 86400 / 3600 * 3600 + n % 86400 / 60 % 60 * 60 + n % 86400 % 60 =
      n := by
  refine ⟨?_, ?_, ?_, ?_⟩ <;> omega

/-- What is written is the date and time of the instant. -/
theorem spells_written {t : Nanos} (ht : t ≤ u64Max) (h0 : t ≠ 0) :
    ∃ st, Spells st (utf8 (writeRfc3339 t)) ∧ st.Real ∧ 1970 ≤ st.year ∧ st.zone = .utc ∧
      st.nanos = t := by
  have hdays : t / second / 86400 ≤ 213503 :=
    (Nat.div_le_div_right (Nat.div_le_div_right ht)).trans (by decide)
  obtain ⟨hy, hy', hm, hm', hd, hd'⟩ := civilFromDays_bounds hdays
  have hdate := isDate_civilFromDays (t / second / 86400)
  have hinv := daysFromCivil_civilFromDays (t / second / 86400)
  have htext := utf8_writeRfc3339 h0 ht
  generalize civilFromDays (t / second / 86400) = ymd at *
  obtain ⟨y, m, d⟩ := ymd
  dsimp only at hy hy' hm hm' hd hd' hdate hinv htext
  have hfrac : t % second < 10 ^ 9 := Nat.mod_lt _ (by decide)
  obtain ⟨hspells, hvalue⟩ := fracText_spells hfrac
  obtain ⟨st, hst⟩ : ∃ st : Stamp, st = ⟨y, m, d, t / second % 86400 / 3600,
    t / second % 86400 / 60 % 60, t / second % 86400 % 60, ascii (fracText (t % second)).tail,
    .utc⟩ := ⟨_, rfl⟩
  obtain ⟨hhour, hminute, hsec, hclock⟩ := clock (t / second)
  have hreal : st.Real := by
    subst hst
    exact ⟨hdate, hhour, hminute, hsec, trivial⟩
  refine ⟨st, ?_, hreal, hst ▸ hy, by rw [hst], ?_⟩
  · have hlt : ∀ {n k : ℕ}, n ≤ k → k < 10 ^ 2 → n < 10 ^ 2 := lt_of_le_of_lt
    rw [htext, hst]
    exact ⟨_, _, _, 84, _, _, _, _, _, digits_lastDigits hy', digits_lastDigits (hlt hm' (by decide)),
      digits_lastDigits (hlt hd' (by decide)), .inl rfl, digits_lastDigits (hlt hhour (by decide)),
      digits_lastDigits (hlt hminute (by decide)), digits_lastDigits (hlt hsec (by decide)), hspells,
      .inl rfl, by simp only [stamp, List.append_assoc, List.cons_append]⟩
  · have hseconds := seconds_eq hreal.inRange (hst ▸ hy)
    have hnanos : st.fracNanos = t % second := by
      rw [Stamp.fracNanos, hst]
      exact hvalue
    rw [Stamp.nanos, ← hseconds, hnanos, hst]
    dsimp only
    rw [hinv, hclock, Zone.seconds, Int.sub_zero]
    exact_mod_cast Nat.div_add_mod' t second

/-- **Every instant is read back.** -/
theorem Time.parseRfc3339_writeRfc3339 {t : Nanos} (ht : t ≤ u64Max) :
    parseRfc3339 (writeRfc3339 t) = .ok t := by
  by_cases h0 : t = 0
  · subst h0
    decide
  · obtain ⟨st, hspells, hreal, hyear, -, hnanos⟩ := spells_written ht h0
    have hfits : 0 ≤ st.nanos ∧ st.nanos ≤ u64Max := by
      rw [hnanos]
      exact ⟨Int.natCast_nonneg t, Int.ofNat_le.mpr ht⟩
    rw [parse_inRange hspells hreal.inRange hyear, if_pos hfits, hnanos, Int.toNat_natCast]

/-- **What is written is read back, and is the date and time of the instant.** No time is written
as Go does. -/
theorem written_instant {t : Nanos} (ht : t ≤ u64Max) :
    parseRfc3339 (writeRfc3339 t) = .ok t ∧
      (t ≠ 0 → ∃ st, Spells st (utf8 (writeRfc3339 t)) ∧ st.Real ∧ st.zone = .utc ∧
        st.nanos = t) := by
  refine ⟨Time.parseRfc3339_writeRfc3339 ht, fun h0 => ?_⟩
  obtain ⟨st, hspells, hreal, -, hzone, hnanos⟩ := spells_written ht h0
  exact ⟨st, hspells, hreal, hzone, hnanos⟩

theorem written_instant_max : parseRfc3339 (writeRfc3339 u64Max) = .ok u64Max ∧
    (u64Max ≠ 0 → ∃ st, Spells st (utf8 (writeRfc3339 u64Max)) ∧ st.Real ∧ st.zone = .utc ∧
      st.nanos = u64Max) :=
  written_instant le_rfl

/-- What is written for 0 is a date of the year 1. -/
theorem written_zero : ¬ ∀ t ≤ u64Max, parseRfc3339 (writeRfc3339 t) = .ok t ∧
    ∃ st, Spells st (utf8 (writeRfc3339 t)) ∧ st.Real ∧ st.zone = .utc ∧ st.nanos = t := by
  intro h
  obtain ⟨-, st, hspells, hreal, hzone, hnanos⟩ := h 0 (Nat.zero_le _)
  obtain ⟨y, mo, d, t, hh, mi, sc, f, z, hy, -, -, -, -, -, -, hf, -, hb⟩ := hspells.parts
  obtain ⟨y0, y1, y2, y3, rfl⟩ := length_four hy
  have hfour : (utf8 (writeRfc3339 0)).take 4 = [48, 48, 48, 49] := by decide
  rw [hb] at hfour
  have hyear : st.year = 1 := by
    rw [← hy.value, show [y0, y1, y2, y3] = [48, 48, 48, 49] from hfour]
    decide
  -- a day of the year 1 is before the epoch by far
  have hdays : ordinal st.year st.month st.day < 1000 := by
    have hmonths : daysBefore 1 st.month ≤ 335 := by
      have hall : ∀ m ≤ 12, daysBefore 1 m ≤ 335 := by decide
      exact hall _ hreal.date.month_le
    have hleaps : leapsBefore 1 = 1 := by decide
    have hday := hreal.inRange.day.2
    rw [ordinal_eq hreal.date.one_le_month hreal.date.month_le, hyear, hleaps]
    omega
  have hfrac := fracNanos_lt hf
  have hhour := hreal.hour
  have hminute := hreal.minute
  have hsec := hreal.sec
  rw [Stamp.nanos, Stamp.seconds, ordinal_epoch, hzone, Zone.seconds] at hnanos
  omega

end Hop.Types
