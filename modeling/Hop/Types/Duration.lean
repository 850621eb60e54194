import Hop.Types.Time

/-!
# Durations as texts

Reading a duration and writing one: `parse_duration` and `write_duration` of `types/src/time.rs`.
A text is a sum of parts, each a decimal number with a unit; `Part.nanos` is the value of a part, cut
to whole nanoseconds.

The reader checks every step of the whole number and of the sum, but it adds the fraction of a part
without a check. So a text in which a whole number fits 128 bits and does not with its fraction makes
the process abort (`readsExactly_iff`). What is written is far from that bound, and is read back
(`parseDuration_writeDuration`).
-/

namespace Hop.Types

/-- `is_ascii_digit` or the point: what ends a unit. -/
def startsNumber (b : UInt8) : Bool := isDigit b || b == 46

/-- One decimal number with its unit. -/
structure Part where
  whole : Bytes
  /-- The digits after the point, if there is a point. -/
  frac : Option Bytes
  unit : Bytes
  scale : ℕ
  whole_digits : ∀ b ∈ whole, isDigit b = true
  frac_digits : ∀ ds ∈ frac, ∀ b ∈ ds, isDigit b = true
  some_digit : whole ≠ [] ∨ frac.getD [] ≠ []
  unit_scale : unitScale unit = some scale

namespace Part

/-- The point and the digits after it. -/
def point (p : Part) : Bytes :=
  match p.frac with
  | none => []
  | some ds => 46 :: ds

def text (p : Part) : Bytes := p.whole ++ (p.point ++ p.unit)

/-- The digits of the fraction that count: the first 18. -/
def used (p : Part) : Bytes := (p.frac.getD []).take 18

/-- The value in nanoseconds, without what is less than one. -/
def nanos (p : Part) : ℕ := ofDigits (p.whole ++ p.used) * p.scale / 10 ^ p.used.length

end Part

/-- The value of a sum. -/
def totalNanos (ps : List Part) : ℕ := (ps.map Part.nanos).sum

/-- The text of a sum. -/
def partsText (ps : List Part) : Bytes := ps.flatMap Part.text

@[simp] theorem totalNanos_nil : totalNanos [] = 0 := rfl

@[simp] theorem totalNanos_cons (p : Part) (ps : List Part) :
    totalNanos (p :: ps) = p.nanos + totalNanos ps := by
  simp [totalNanos]

@[simp] theorem partsText_nil : partsText [] = [] := rfl

@[simp] theorem partsText_cons (p : Part) (ps : List Part) :
    partsText (p :: ps) = p.text ++ partsText ps := by
  simp [partsText]

/-- What follows a part: nothing, or the beginning of a number. -/
def NextNumber (tail : Bytes) : Prop := ∀ b ∈ tail.head?, startsNumber b = true

theorem nextNumber_nil : NextNumber [] := fun _ h => nomatch h

/-! ### Units and digits -/

theorem unitScale_eq {u : Bytes} {k : ℕ} (h : unitScale u = some k) :
    (u ∈ ([[110, 115], [117, 115], [194, 181, 115], [206, 188, 115], [109, 115], [115], [109],
      [104]] : List Bytes)) ∧ 1 ≤ k ∧ k ≤ hour := by
  have hutf : utf8 "ns" = [110, 115] ∧ utf8 "us" = [117, 115] ∧ utf8 "\u00b5s" = [194, 181, 115] ∧
      utf8 "\u03bcs" = [206, 188, 115] ∧ utf8 "ms" = [109, 115] ∧ utf8 "s" = [115] ∧
      utf8 "m" = [109] ∧ utf8 "h" = [104] := by
    decide
  obtain ⟨hns, hus, hmu, hmu', hms, hs, hm, hh⟩ := hutf
  unfold unitScale at h
  rw [hns, hus, hmu, hmu', hms, hs, hm, hh] at h
  split_ifs at h with h1 h2 h3 h4 h5 h6 <;> obtain rfl := Option.some.inj h
  · exact ⟨by simp [h1], by decide⟩
  · refine ⟨?_, by decide⟩
    rcases h2 with rfl | rfl | rfl <;> simp
  · exact ⟨by simp [h3], by decide⟩
  · exact ⟨by simp [h4], by decide⟩
  · exact ⟨by simp [h5], by decide⟩
  · exact ⟨by simp [h6], by decide⟩

/-- A unit is not empty and has no byte that begins a number. -/
theorem unit_spec {u : Bytes} {k : ℕ} (h : unitScale u = some k) :
    u ≠ [] ∧ ∀ b ∈ u, startsNumber b = false := by
  have hall : ∀ v ∈ ([[110, 115], [117, 115], [194, 181, 115], [206, 188, 115], [109, 115], [115],
      [109], [104]] : List Bytes), v ≠ [] ∧ v.all (fun b => !startsNumber b) = true := by
    decide
  obtain ⟨hne, hunit⟩ := hall u (unitScale_eq h).1
  exact ⟨hne, fun b hb => by simpa using List.all_eq_true.mp hunit b hb⟩

/-- Checked steps fail exactly if the number does not fit: it only grows. -/
theorem checkedDigits_eq (ds : Bytes) : checkedDigits ds =
    if u128Max < ofDigits ds then .error .overflow else .ok (ofDigits ds) := by
  have hfold : ∀ (ds : Bytes) (v : ℕ), v ≤ u128Max →
      (ds.foldlM (fun v c => if u128Max < v * 10 + digitVal c then .error .overflow
        else .ok (v * 10 + digitVal c)) v : Except DurationError ℕ) =
      if u128Max < v * 10 ^ ds.length + ofDigits ds then .error .overflow
      else .ok (v * 10 ^ ds.length + ofDigits ds) := by
    intro ds
    induction ds with
    | nil =>
      intro v hv
      rw [if_neg (by simp [ofDigits, hv])]
      simp [ofDigits]
      rfl
    | cons d ds ih =>
      intro v hv
      have hsplit : v * 10 ^ (d :: ds).length + ofDigits (d :: ds) =
          (v * 10 + digitVal d) * 10 ^ ds.length + ofDigits ds := by
        have hcons := ofDigits_append [d] ds
        have hone : ofDigits [d] = digitVal d := by simp [ofDigits]
        rw [List.singleton_append, hone] at hcons
        rw [hcons, List.length_cons, pow_succ]
        ring
      rw [List.foldlM_cons, hsplit]
      by_cases hbig : u128Max < v * 10 + digitVal d
      · have hpos : 1 ≤ 10 ^ ds.length := Nat.one_le_pow _ _ (by decide)
        have hgrow : u128Max < (v * 10 + digitVal d) * 10 ^ ds.length + ofDigits ds := by
          nlinarith
        rw [if_pos hbig, if_pos hgrow]
        rfl
      · rw [if_neg hbig]
        exact ih _ (Nat.le_of_not_lt hbig)
  have h := hfold ds 0 (Nat.zero_le _)
  rw [Nat.zero_mul, Nat.zero_add] at h
  exact h

namespace Part

variable (p : Part)

theorem text_ne_nil : p.text ≠ [] := by
  unfold text
  have hunit := (unit_spec p.unit_scale).1
  simp [hunit]

/-- The value is the whole number and the fraction, each in nanoseconds. -/
theorem nanos_eq : p.nanos =
    ofDigits p.whole * p.scale + ofDigits p.used * p.scale / 10 ^ p.used.length := by
  have hpos : 0 < 10 ^ p.used.length := Nat.pow_pos (by decide)
  have hsplit : ofDigits (p.whole ++ p.used) * p.scale =
      ofDigits p.used * p.scale + 10 ^ p.used.length * (ofDigits p.whole * p.scale) := by
    rw [ofDigits_append]
    ring
  rw [nanos, hsplit, Nat.add_mul_div_left _ _ hpos, Nat.add_comm]

/-- A part begins with a digit or the point. -/
theorem nextNumber_text (tail : Bytes) : NextNumber (p.text ++ tail) := by
  intro b hb
  unfold text point at hb
  rcases hw : p.whole with _ | ⟨c, cs⟩
  · rcases hf : p.frac with _ | ds
    · have hnone := p.some_digit
      rw [hw, hf] at hnone
      simp at hnone
    · rw [hw, hf] at hb
      simp only [List.nil_append, List.cons_append, List.head?_cons, Option.mem_some_iff] at hb
      subst hb
      decide
  · rw [hw] at hb
    simp only [List.cons_append, List.head?_cons, Option.mem_some_iff] at hb
    subst hb
    have hdigit := p.whole_digits c (by simp [hw])
    simp [startsNumber, hdigit]

end Part

theorem nextNumber_partsText (ps : List Part) {tail : Bytes} (h : NextNumber tail) :
    NextNumber (partsText ps ++ tail) := by
  cases ps with
  | nil => exact h
  | cons p ps =>
    rw [partsText_cons, List.append_assoc]
    exact p.nextNumber_text _

/-! ### Reading one part -/

theorem not_startsNumber_iff (b : UInt8) : (!isDigit b && b != 46) = !startsNumber b := by
  simp [startsNumber, bne]

/-- **What the reader makes of a part.** -/
theorem durationPart_text (p : Part) {tail : Bytes} (htail : NextNumber tail) :
    durationPart (p.text ++ tail) =
      if u128Max < ofDigits p.whole * p.scale then .error .overflow
      else if u128Max < p.nanos then .error .aborted
      else .ok (p.nanos, tail) := by
  obtain ⟨hne, hunit⟩ := unit_spec p.unit_scale
  obtain ⟨c, us, hu⟩ := List.exists_cons_of_ne_nil hne
  have hc : isDigit c = false ∧ c ≠ 46 := by
    have h := hunit c (by simp [hu])
    simpa [startsNumber] using h
  have hrest : ∀ b ∈ (p.point ++ (p.unit ++ tail)).head?, isDigit b = false := by
    intro b hb
    unfold Part.point at hb
    rcases hf : p.frac with _ | ds
    · simp only [hf, hu, List.nil_append, List.cons_append, List.head?_cons,
        Option.mem_some_iff] at hb
      exact hb ▸ hc.1
    · simp only [hf, List.cons_append, List.head?_cons, Option.mem_some_iff] at hb
      subst hb
      decide
  obtain ⟨htake, hdrop⟩ := takeWhile_dropWhile p.whole_digits hrest
  -- the fraction, if there is a point
  have hfrac : (if (p.point ++ (p.unit ++ tail)).head? = some 46 then
        (p.point ++ (p.unit ++ tail)).tail.takeWhile isDigit else []) = p.frac.getD [] ∧
      (if (p.point ++ (p.unit ++ tail)).head? = some 46 then
        (p.point ++ (p.unit ++ tail)).tail.dropWhile isDigit
        else p.point ++ (p.unit ++ tail)) = p.unit ++ tail := by
    unfold Part.point
    rcases hf : p.frac with _ | ds
    · simp [hu, hc.2]
    · have hdigits : ∀ b ∈ ds, isDigit b = true := p.frac_digits ds hf
      have hstop : ∀ b ∈ (p.unit ++ tail).head?, isDigit b = false := by
        intro b hb
        simp only [hu, List.cons_append, List.head?_cons, Option.mem_some_iff] at hb
        exact hb ▸ hc.1
      obtain ⟨ht, hd⟩ := takeWhile_dropWhile hdigits hstop
      simp [ht, hd]
  have hends : ∀ b ∈ tail.head?, (!startsNumber b) = false := by
    intro b hb
    rw [htail b hb]
    rfl
  have hin : ∀ b ∈ p.unit, (!startsNumber b) = true := by
    intro b hb
    rw [hunit b hb]
    rfl
  obtain ⟨hutake, hudrop⟩ := takeWhile_dropWhile hin hends
  have hsome : ¬ (p.whole = [] ∧ p.frac.getD [] = []) := fun h =>
    p.some_digit.elim (fun h' => h' h.1) fun h' => h' h.2
  have hscale : 1 ≤ p.scale := (unitScale_eq p.unit_scale).2.1
  unfold durationPart Part.text
  simp only [List.append_assoc, htake, hdrop, not_startsNumber_iff]
  rw [hfrac.1, hfrac.2, if_neg hsome, hutake, hudrop, p.unit_scale]
  simp only [checkedDigits_eq]
  by_cases hdigits : u128Max < ofDigits p.whole
  · have hbig : u128Max < ofDigits p.whole * p.scale := by nlinarith
    rw [if_pos hdigits, if_pos hbig]
    rfl
  · rw [if_neg hdigits]
    simp only [bind, Except.bind, p.nanos_eq, Part.used]

theorem nextNumber_dropWhile (r : Bytes) : NextNumber (r.dropWhile fun c => !startsNumber c) := by
  intro b hb
  have h := List.head?_dropWhile_not (fun c => !startsNumber c) r
  rw [Option.mem_def.mp hb] at h
  simpa using h

/-- What is no part is refused. -/
theorem durationPart_cases (rest : Bytes) : durationPart rest = .error .invalid ∨
    ∃ (p : Part) (tail : Bytes), NextNumber tail ∧ rest = p.text ++ tail := by
  unfold durationPart
  simp only [not_startsNumber_iff]
  by_cases hpoint : (rest.dropWhile isDigit).head? = some 46
  · obtain ⟨r, hr⟩ : ∃ r, rest.dropWhile isDigit = 46 :: r := by
      cases hd : rest.dropWhile isDigit with
      | nil => rw [hd] at hpoint; cases hpoint
      | cons b r => rw [hd] at hpoint; exact ⟨r, by rw [Option.some.inj hpoint]⟩
    rw [hr]
    simp only [List.head?_cons, if_true, List.tail_cons]
    by_cases hnone : rest.takeWhile isDigit = [] ∧ r.takeWhile isDigit = []
    · exact .inl (if_pos hnone)
    rw [if_neg hnone]
    rcases hscale : unitScale ((r.dropWhile isDigit).takeWhile fun c => !startsNumber c) with
      _ | scale
    · exact .inl rfl
    · have hsome : rest.takeWhile isDigit ≠ [] ∨ r.takeWhile isDigit ≠ [] := not_and_or.mp hnone
      let p : Part := {
        whole := rest.takeWhile isDigit
        frac := some (r.takeWhile isDigit)
        unit := (r.dropWhile isDigit).takeWhile fun c => !startsNumber c
        scale := scale
        whole_digits := fun b hb => List.mem_takeWhile_imp hb
        frac_digits := fun ds hds b hb => by
          rw [← Option.some.inj hds] at hb
          exact List.mem_takeWhile_imp hb
        some_digit := hsome
        unit_scale := hscale }
      refine .inr ⟨p, _, nextNumber_dropWhile (r.dropWhile isDigit), ?_⟩
      simp only [p, Part.text, Part.point, List.append_assoc, List.cons_append,
        List.takeWhile_append_dropWhile]
      rw [← hr, List.takeWhile_append_dropWhile]
  · simp only [if_neg hpoint]
    by_cases hnone : rest.takeWhile isDigit = [] ∧ True
    · exact .inl (if_pos hnone)
    rw [if_neg hnone]
    rcases hscale : unitScale ((rest.dropWhile isDigit).takeWhile fun c => !startsNumber c) with
      _ | scale
    · exact .inl rfl
    · let p : Part := {
        whole := rest.takeWhile isDigit
        frac := none
        unit := (rest.dropWhile isDigit).takeWhile fun c => !startsNumber c
        scale := scale
        whole_digits := fun b hb => List.mem_takeWhile_imp hb
        frac_digits := fun _ h => by cases h
        some_digit := .inl fun h => hnone ⟨h, trivial⟩
        unit_scale := hscale }
      refine .inr ⟨p, _, nextNumber_dropWhile (rest.dropWhile isDigit), ?_⟩
      simp only [p, Part.text, Part.point, List.append_assoc, List.nil_append,
        List.takeWhile_append_dropWhile]

/-! ### Reading a sum -/

/-- The loop on a sum, with what is behind it. -/
theorem durationLoop_append (ps : List Part) {tail : Bytes} (htail : NextNumber tail) (fuel : ℕ)
    (hfuel : (partsText ps ++ tail).length ≤ fuel) (total : ℕ) (htotal : total ≤ u128Max) :
    (u128Max < total + totalNanos ps ∧
      (durationLoop fuel total (partsText ps ++ tail) = .error .overflow ∨
        durationLoop fuel total (partsText ps ++ tail) = .error .aborted)) ∨
    (total + totalNanos ps ≤ u128Max ∧ ∃ fuel', tail.length ≤ fuel' ∧
      durationLoop fuel total (partsText ps ++ tail) =
        durationLoop fuel' (total + totalNanos ps) tail) := by
  induction ps generalizing fuel total with
  | nil => exact .inr ⟨by simpa using htotal, fuel, by simpa using hfuel, by simp⟩
  | cons p ps ih =>
    rw [partsText_cons, List.append_assoc] at hfuel ⊢
    rw [totalNanos_cons]
    have hpos := List.length_pos_of_ne_nil p.text_ne_nil
    rw [List.length_append] at hfuel
    obtain ⟨fuel, rfl⟩ : ∃ f, fuel = f + 1 := ⟨fuel - 1, by omega⟩
    have hne : p.text ++ (partsText ps ++ tail) ≠ [] := by simp [p.text_ne_nil]
    have hpart := durationPart_text p (nextNumber_partsText ps htail)
    have hwhole : ofDigits p.whole * p.scale ≤ p.nanos := by
      rw [p.nanos_eq]
      exact Nat.le_add_right _ _
    rw [durationLoop, if_neg hne, hpart]
    by_cases hbig : u128Max < ofDigits p.whole * p.scale
    · rw [if_pos hbig]
      exact .inl ⟨by omega, .inl rfl⟩
    rw [if_neg hbig]
    by_cases hburst : u128Max < p.nanos
    · rw [if_pos hburst]
      exact .inl ⟨by omega, .inr rfl⟩
    rw [if_neg hburst]
    simp only [bind, Except.bind]
    by_cases hsum : u128Max < total + p.nanos
    · rw [if_pos hsum]
      exact .inl ⟨by omega, .inl rfl⟩
    rw [if_neg hsum, ← Nat.add_assoc]
    exact ih fuel (by omega) (total + p.nanos) (by omega)

/-- What the loop accepts is a sum. -/
theorem durationLoop_ok {fuel total d : ℕ} {rest : Bytes} (hfuel : rest.length ≤ fuel)
    (h : durationLoop fuel total rest = .ok d) :
    ∃ ps, rest = partsText ps ∧ d = total + totalNanos ps := by
  induction fuel generalizing total rest with
  | zero =>
    obtain rfl := List.length_eq_zero_iff.mp (Nat.le_zero.mp hfuel)
    exact ⟨[], rfl, (Except.ok.inj h).symm⟩
  | succ fuel ih =>
    rw [durationLoop] at h
    split_ifs at h with hnil
    · exact ⟨[], hnil, (Except.ok.inj h).symm⟩
    rcases durationPart_cases rest with hbad | ⟨p, tail, htail, rfl⟩
    · rw [hbad] at h
      cases h
    rw [durationPart_text p htail] at h
    have hpos := List.length_pos_of_ne_nil p.text_ne_nil
    rw [List.length_append] at hfuel
    split_ifs at h
    · cases h
    · cases h
    · simp only [bind, Except.bind] at h
      split_ifs at h
      obtain ⟨ps, rfl, rfl⟩ := ih (by omega) h
      exact ⟨p :: ps, (partsText_cons p ps).symm, by rw [totalNanos_cons, Nat.add_assoc]⟩

/-- Where the loop aborts: at a part whose whole number fits, but not with its fraction. -/
theorem durationLoop_aborted {fuel total : ℕ} {rest : Bytes} (hfuel : rest.length ≤ fuel)
    (htotal : total ≤ u128Max) (h : durationLoop fuel total rest = .error .aborted) :
    ∃ ps p tail, NextNumber tail ∧ rest = partsText ps ++ (Part.text p ++ tail) ∧
      total + totalNanos ps ≤ u128Max ∧ ofDigits p.whole * p.scale ≤ u128Max ∧
      u128Max < p.nanos := by
  induction fuel generalizing total rest with
  | zero => cases h
  | succ fuel ih =>
    rw [durationLoop] at h
    split_ifs at h with hnil
    rcases durationPart_cases rest with hbad | ⟨p, tail, htail, rfl⟩
    · rw [hbad] at h
      cases h
    rw [durationPart_text p htail] at h
    have hpos := List.length_pos_of_ne_nil p.text_ne_nil
    rw [List.length_append] at hfuel
    split_ifs at h with hbig hburst
    · cases h
    · exact ⟨[], p, tail, htail, rfl, by simpa using htotal, Nat.le_of_not_lt hbig, hburst⟩
    · simp only [bind, Except.bind] at h
      split_ifs at h with hsum
      · cases h
      obtain ⟨ps, q, tail', htail', rfl, hle, hq⟩ := ih (by omega) (Nat.le_of_not_lt hsum) h
      refine ⟨p :: ps, q, tail', htail', ?_, ?_, hq⟩
      · rw [partsText_cons, List.append_assoc]
      · rw [totalNanos_cons]
        omega

/-! ### What reading a duration promises -/

/-- The text behind the sign. -/
def unsigned (s : String) : Bytes :=
  if (utf8 s).head? = some 45 ∨ (utf8 s).head? = some 43 then (utf8 s).tail else utf8 s

/-- No step overflows; what is accepted is a sum and has its value; a sum that is too large is
refused as that. The text `0` needs no unit. -/
structure ReadsExactly (s : String) : Prop where
  safe : parseDuration s ≠ .error .aborted
  sum : ∀ d, parseDuration s = .ok d →
    (unsigned s = [48] ∧ d = 0) ∨ ∃ ps, ps ≠ [] ∧ unsigned s = partsText ps ∧ d = totalNanos ps
  large : ∀ ps, unsigned s = partsText ps → i64Max < (totalNanos ps : ℤ) →
    parseDuration s = .error .overflow

/-- Behind parts that fit 128 bits together there is one whose whole number fits, but not with its
fraction. -/
def Bursts (s : String) : Prop :=
  ∃ ps p tail, NextNumber tail ∧ unsigned s = partsText ps ++ (Part.text p ++ tail) ∧
    totalNanos ps ≤ u128Max ∧ ofDigits p.whole * p.scale ≤ u128Max ∧ u128Max < p.nanos

/-- The reader is the loop on what is behind the sign. -/
theorem parseDuration_eq (s : String) : parseDuration s =
    if unsigned s = [48] then .ok 0
    else if unsigned s = [] then .error .invalid
    else (durationLoop (unsigned s).length 0 (unsigned s)).bind fun total =>
      if i64Max < (total : ℤ) then .error .overflow
      else if (utf8 s).head? = some 45 ∧ 0 < total then .error .negative
      else .ok total := rfl

theorem partsText_ne_zero (ps : List Part) (tail : Bytes) (p : Part) :
    partsText ps ++ (p.text ++ tail) ≠ [48] := by
  intro h
  -- the unit of the last part is not a digit
  have hunit := unit_spec p.unit_scale
  obtain ⟨c, us, hu⟩ := List.exists_cons_of_ne_nil hunit.1
  have hc : c ∈ partsText ps ++ (p.text ++ tail) := by
    simp [Part.text, hu]
  rw [h, List.mem_singleton] at hc
  have hno := hunit.2 c (by simp [hu])
  rw [hc] at hno
  exact absurd hno (by decide)

/-- **Reading is exact and safe unless a fraction takes its part over 128 bits.** -/
theorem readsExactly_iff (s : String) : ReadsExactly s ↔ ¬ Bursts s := by
  constructor
  · rintro h ⟨ps, p, tail, htail, htext, hsum, hwhole, hburst⟩
    have hnext : NextNumber (p.text ++ tail) := p.nextNumber_text tail
    have hloop := durationLoop_append ps hnext (unsigned s).length (by rw [htext]) 0
      (Nat.zero_le _)
    rw [Nat.zero_add] at hloop
    rcases hloop with ⟨hbig, -⟩ | ⟨-, fuel, hfuel, hloop⟩
    · omega
    have hpos := List.length_pos_of_ne_nil p.text_ne_nil
    rw [List.length_append] at hfuel
    obtain ⟨fuel, rfl⟩ : ∃ f, fuel = f + 1 := ⟨fuel - 1, by omega⟩
    have hne : p.text ++ tail ≠ [] := by simp [p.text_ne_nil]
    rw [durationLoop, if_neg hne, durationPart_text p htail, if_neg (Nat.not_lt.mpr hwhole),
      if_pos hburst] at hloop
    refine h.safe ?_
    rw [parseDuration_eq, htext, if_neg (partsText_ne_zero ps tail p),
      if_neg (by simp [p.text_ne_nil]), ← htext, htext, ← htext]
    rw [htext] at hloop ⊢
    rw [hloop]
    rfl
  · intro hno
    have hsafe : unsigned s ≠ [48] → unsigned s ≠ [] →
        durationLoop (unsigned s).length 0 (unsigned s) ≠ .error .aborted := by
      intro _ _ habort
      obtain ⟨ps, p, tail, htail, htext, hsum, hp⟩ :=
        durationLoop_aborted le_rfl (Nat.zero_le _) habort
      exact hno ⟨ps, p, tail, htail, htext, by omega, hp⟩
    refine ⟨?_, ?_, ?_⟩
    · intro habort
      rw [parseDuration_eq] at habort
      split_ifs at habort with hzero hnil
      · cases habort
      rcases hloop : durationLoop (unsigned s).length 0 (unsigned s) with e | total
      · rw [hloop] at habort
        obtain rfl : e = .aborted := Except.error.inj habort
        exact hsafe hzero hnil hloop
      · rw [hloop] at habort
        simp only [Except.bind] at habort
        split_ifs at habort <;> cases habort
    · intro d hd
      rw [parseDuration_eq] at hd
      split_ifs at hd with hzero hnil
      · exact .inl ⟨hzero, (Except.ok.inj hd).symm⟩
      rcases hloop : durationLoop (unsigned s).length 0 (unsigned s) with e | total
      · rw [hloop] at hd
        cases hd
      · rw [hloop] at hd
        simp only [Except.bind] at hd
        split_ifs at hd
        obtain ⟨ps, htext, rfl⟩ := durationLoop_ok le_rfl hloop
        refine .inr ⟨ps, ?_, htext, by rw [← Except.ok.inj hd, Nat.zero_add]⟩
        rintro rfl
        exact hnil htext
    · intro ps htext hlarge
      rcases ps with _ | ⟨p, ps⟩
      · exact absurd hlarge (by decide)
      have hzero : unsigned s ≠ [48] := by
        have h := partsText_ne_zero [] (partsText ps) p
        rw [htext, partsText_cons]
        simpa using h
      have hnil : unsigned s ≠ [] := by
        rw [htext, partsText_cons]
        simp [p.text_ne_nil]
      have hloop := durationLoop_append (p :: ps) nextNumber_nil
        (unsigned s).length (by rw [htext, List.append_nil]) 0 (Nat.zero_le _)
      rw [List.append_nil, ← htext, Nat.zero_add] at hloop
      rw [parseDuration_eq, if_neg hzero, if_neg hnil]
      rcases hloop with ⟨-, hloop | hloop⟩ | ⟨-, fuel, -, hloop⟩
      · rw [hloop]
        rfl
      · exact absurd hloop (hsafe hzero hnil)
      · have hend : durationLoop fuel (totalNanos (p :: ps)) [] = .ok (totalNanos (p :: ps)) := by
          cases fuel <;> rfl
        rw [hloop, hend]
        exact if_pos hlarge

/-- 2^128 is no multiple of a microsecond: the last whole number of them and a fraction are too
much. -/
theorem reading_bursts : ¬ ∀ s, ReadsExactly s := by
  intro h
  have habort : parseDuration "340282366920938463463374607431768211.999us" = .error .aborted := by
    decide
  exact (h _).safe habort

/-! ### Writing a duration -/

/-- `FixedBuf::write_str`: 40 bytes, and what does not fit is an error. -/
def writeStr (buf s : List Char) : Option (List Char) :=
  if 40 < (utf8Chars buf).length + (utf8Chars s).length then none else some (buf ++ s)

/-- How many times a unit can be divided by ten until it is 1. -/
def fracWidth (unit : ℕ) : ℕ :=
  if 1 < unit then fracWidth (unit / 10) + 1 else 0
termination_by unit

/-- The zeros at the end of a fraction are dropped, and the width shrinks with them. -/
def trimFrac (frac width : ℕ) : ℕ × ℕ :=
  if 0 < frac ∧ frac % 10 = 0 then trimFrac (frac / 10) (width - 1) else (frac, width)
termination_by frac

def writeFrac (buf : List Char) (v unit : Nanos) (suffix : List Char) : Option (List Char) := do
  let buf ← writeStr buf (Nat.toDigits 10 (v / unit))
  let buf ←
    if 0 < v % unit then
      let (frac, width) := trimFrac (v % unit) (fracWidth unit)
      writeStr buf ('.' :: Time.pad width frac)
    else some buf
  writeStr buf suffix

/-- The last branch of `write_duration`: hours, minutes and seconds. -/
def writeClock (d : Nanos) : Option (List Char) := do
  let h := d / hour
  let m := d / minute % 60
  let buf ← if 0 < h then writeStr [] (Nat.toDigits 10 h ++ ['h']) else some []
  let buf ← if 0 < h ∨ 0 < m then writeStr buf (Nat.toDigits 10 m ++ ['m']) else some buf
  writeFrac buf (d % minute) second ['s']

/-- Write a duration as Go does: `1m30s`, `2.5s`, `500ms`, `0s`. -/
def writeDuration (d : Nanos) : Option String :=
  let text : Option (List Char) :=
    if d = 0 then writeStr [] ['0', 's']
    else if d < microsecond then writeStr [] (Nat.toDigits 10 d ++ ['n', 's'])
    else if d < millisecond then writeFrac [] d microsecond ['\u00b5', 's']
    else if d < second then writeFrac [] d millisecond ['m', 's']
    else writeClock d
  text.map String.ofList

/-! ### What is written is read back -/

/-- A sum without a sign is read, if it fits. -/
theorem parseDuration_partsText {s : String} {ps : List Part} (htext : utf8 s = partsText ps)
    (hne : ps ≠ []) (hle : (totalNanos ps : ℤ) ≤ i64Max) : parseDuration s = .ok (totalNanos ps) := by
  obtain ⟨p, qs, rfl⟩ := List.exists_cons_of_ne_nil hne
  have hhead := p.nextNumber_text (partsText qs)
  rw [← partsText_cons, ← htext] at hhead
  have hunsigned : unsigned s = utf8 s := by
    refine if_neg ?_
    rintro (h | h) <;> exact absurd (hhead _ h) (by decide)
  have hzero := partsText_ne_zero [] (partsText qs) p
  rw [partsText_nil, List.nil_append, ← partsText_cons, ← htext] at hzero
  have hnil : utf8 s ≠ [] := by
    rw [htext, partsText_cons]
    simp [p.text_ne_nil]
  have hmax : totalNanos (p :: qs) ≤ u128Max := by
    have hsmall : i64Max ≤ (u128Max : ℤ) := by decide
    omega
  have hloop := durationLoop_append (p :: qs) nextNumber_nil
    (utf8 s).length (by rw [htext, List.append_nil]) 0 (Nat.zero_le _)
  rw [List.append_nil, ← htext, Nat.zero_add] at hloop
  rcases hloop with ⟨hbig, -⟩ | ⟨-, fuel, -, hloop⟩
  · omega
  have hend : durationLoop fuel (totalNanos (p :: qs)) [] = .ok (totalNanos (p :: qs)) := by
    cases fuel <;> rfl
  have hnoSign : ¬ ((utf8 s).head? = some 45 ∧ 0 < totalNanos (p :: qs)) := fun h =>
    absurd (hhead _ h.1) (by decide)
  rw [parseDuration_eq, hunsigned, if_neg hzero, if_neg hnil, hloop, hend]
  simp only [Except.bind]
  rw [if_neg (not_lt.mpr hle), if_neg hnoSign]

/-- A number without a fraction. -/
def wholePart (n : ℕ) (unit : Bytes) (scale : ℕ) (h : unitScale unit = some scale) : Part where
  whole := decimal n
  frac := none
  unit := unit
  scale := scale
  whole_digits _ hb := isDigit_of_mem_decimal hb
  frac_digits _ h := nomatch h
  some_digit := .inl (decimal_ne_nil n)
  unit_scale := h

theorem text_wholePart {n scale : ℕ} {unit : Bytes} (h : unitScale unit = some scale) :
    (wholePart n unit scale h).text = decimal n ++ unit := rfl

theorem nanos_wholePart {n scale : ℕ} {unit : Bytes} (h : unitScale unit = some scale) :
    (wholePart n unit scale h).nanos = n * scale := by
  have hused : (wholePart n unit scale h).used = [] := rfl
  have hzero : ofDigits [] = 0 := rfl
  rw [Part.nanos_eq, hused, hzero, Nat.zero_mul, Nat.zero_div, Nat.add_zero]
  simp only [wholePart, ofDigits_decimal]

theorem writeStr_eq {buf s : List Char} (h : (utf8Chars buf).length + (utf8Chars s).length ≤ 40) :
    writeStr buf s = some (buf ++ s) := if_neg (Nat.not_lt.mpr h)

theorem fracWidth_pow (w : ℕ) : fracWidth (10 ^ w) = w := by
  induction w with
  | zero => rw [fracWidth]; rfl
  | succ w ih =>
    have hdiv : 10 ^ (w + 1) / 10 = 10 ^ w := by
      rw [pow_succ]
      exact Nat.mul_div_cancel _ (by decide)
    rw [fracWidth, if_pos (Nat.one_lt_pow (by omega) (by decide)), hdiv, ih]

/-- What is left of a fraction is the fraction at its width. -/
theorem trimFrac_spec {frac width f k : ℕ} (hpos : 0 < frac) (hlt : frac < 10 ^ width)
    (h : trimFrac frac width = (f, k)) :
    0 < f ∧ k ≤ width ∧ f < 10 ^ k ∧ frac = f * 10 ^ (width - k) := by
  fun_induction trimFrac frac width with
  | case1 frac width hzero ih =>
    have hten : 10 ≤ frac := by omega
    obtain ⟨width, rfl⟩ : ∃ w, width = w + 1 := by
      refine ⟨width - 1, ?_⟩
      rcases width with _ | width
      · rw [pow_zero] at hlt
        omega
      · rfl
    have hdiv : frac / 10 < 10 ^ width := by
      rw [pow_succ] at hlt
      omega
    obtain ⟨hf, hk, hfk, heq⟩ := ih (by omega) hdiv h
    refine ⟨hf, by omega, hfk, ?_⟩
    rw [Nat.add_sub_cancel] at heq hk
    rw [Nat.sub_add_comm hk, pow_succ, ← Nat.mul_assoc, ← heq]
    omega
  | case2 frac width hstop =>
    obtain ⟨rfl, rfl⟩ := Prod.mk.inj h
    exact ⟨hpos, le_rfl, hlt, by simp⟩

theorem length_decimal_le {n k : ℕ} (hk : 0 < k) (h : n < 10 ^ k) : (decimal n).length ≤ k := by
  unfold decimal
  rw [utf8Chars_digits isDigit_of_mem_toDigits, List.length_map]
  exact (Nat.length_toDigits_le_iff (by decide) hk).mpr h

/-- A number with a fraction of a unit of `w` digits. -/
theorem writeFrac_spec {buf suffix : List Char} {v w : ℕ} (hw : w ≤ 9)
    (hunit : unitScale (utf8Chars suffix) = some (10 ^ w))
    (hroom : (utf8Chars buf).length + (decimal (v / 10 ^ w)).length + (w + 1) +
      (utf8Chars suffix).length ≤ 40) :
    ∃ cs p, writeFrac buf v (10 ^ w) suffix = some (buf ++ cs) ∧ utf8Chars cs = Part.text p ∧
      p.nanos = v := by
  have hint : utf8Chars (Nat.toDigits 10 (v / 10 ^ w)) = decimal (v / 10 ^ w) := rfl
  have hpow : 0 < 10 ^ w := Nat.pow_pos (by decide)
  unfold writeFrac
  simp only [bind, Option.bind]
  rw [writeStr_eq (by rw [hint]; omega)]
  dsimp only
  by_cases hfrac : 0 < v % 10 ^ w
  · rw [if_pos hfrac, fracWidth_pow]
    rcases htrim : trimFrac (v % 10 ^ w) w with ⟨f, k⟩
    obtain ⟨hf, hkw, hfk, hval⟩ := trimFrac_spec hfrac (Nat.mod_lt _ hpow) htrim
    have hk : 0 < k := by
      rcases Nat.eq_zero_or_pos k with rfl | hk
      · rw [pow_zero] at hfk
        omega
      · exact hk
    have hpad : Time.pad k f = Time.lastDigits k f := Time.pad_eq hk hfk
    have hdigits : ∀ c ∈ Time.lastDigits k f, c.isDigit = true := Time.isDigit_lastDigits
    have hlen : (utf8Chars (Time.lastDigits k f)).length = k := by
      rw [utf8Chars_digits hdigits, List.length_map, Time.length_lastDigits]
    have hpoint : utf8Chars ('.' :: Time.lastDigits k f) =
        46 :: utf8Chars (Time.lastDigits k f) := by
      rw [utf8Chars_cons]
      rfl
    dsimp only
    rw [hpad, writeStr_eq (by rw [utf8Chars_append, hpoint, hint]; simp [hlen]; omega)]
    dsimp only
    rw [writeStr_eq (by
      rw [utf8Chars_append, utf8Chars_append, hpoint, hint]
      simp only [List.length_append, List.length_cons, hlen]
      omega)]
    let p : Part := {
      whole := decimal (v / 10 ^ w)
      frac := some (utf8Chars (Time.lastDigits k f))
      unit := utf8Chars suffix
      scale := 10 ^ w
      whole_digits := fun b hb => isDigit_of_mem_decimal hb
      frac_digits := fun ds hds b hb => by
        rw [← Option.some.inj hds] at hb
        exact isDigit_of_mem_utf8Chars hdigits hb
      some_digit := .inl (decimal_ne_nil _)
      unit_scale := hunit }
    refine ⟨Nat.toDigits 10 (v / 10 ^ w) ++ ('.' :: Time.lastDigits k f ++ suffix), p, ?_, ?_, ?_⟩
    · simp only [List.append_assoc]
    · rw [utf8Chars_append, utf8Chars_append, hpoint]
      rfl
    · have hused : p.used = utf8Chars (Time.lastDigits k f) :=
        List.take_of_length_le (by simp only [p, Option.getD_some]; omega)
      have hvalue : ofDigits (utf8Chars (Time.lastDigits k f)) = f := by
        rw [ofDigits_utf8Chars hdigits, Time.ofDigitChars_lastDigits, Nat.mod_eq_of_lt hfk]
      have hscale : f * 10 ^ w / 10 ^ k = v % 10 ^ w := by
        rw [hval, ← Nat.sub_add_cancel hkw, pow_add, ← Nat.mul_assoc,
          Nat.mul_div_cancel _ (Nat.pow_pos (by decide)), Nat.add_sub_cancel]
      rw [Part.nanos_eq, hused, hvalue, hlen]
      simp only [p]
      rw [ofDigits_decimal, hscale, Nat.mul_comm]
      exact Nat.div_add_mod v (10 ^ w)
  · have hzero : v % 10 ^ w = 0 := by omega
    rw [if_neg hfrac, writeStr_eq (by rw [utf8Chars_append, hint, List.length_append]; omega)]
    refine ⟨Nat.toDigits 10 (v / 10 ^ w) ++ suffix,
      wholePart (v / 10 ^ w) (utf8Chars suffix) (10 ^ w) hunit, ?_, ?_, ?_⟩
    · rw [List.append_assoc]
    · rw [utf8Chars_append, text_wholePart]
      rfl
    · have h := Nat.div_add_mod v (10 ^ w)
      rw [hzero, Nat.add_zero] at h
      rw [nanos_wholePart, Nat.mul_comm, h]

theorem writeStr_length {buf s cs : List Char} (h : writeStr buf s = some cs) :
    (utf8Chars cs).length ≤ 40 := by
  unfold writeStr at h
  split_ifs at h with hfull
  rw [← Option.some.inj h, utf8Chars_append, List.length_append]
  omega

theorem writeFrac_length {buf suffix cs : List Char} {v unit : Nanos}
    (h : writeFrac buf v unit suffix = some cs) : (utf8Chars cs).length ≤ 40 := by
  unfold writeFrac at h
  obtain ⟨_, -, h⟩ := Option.bind_eq_some_iff.mp h
  split_ifs at h
  · obtain ⟨_, -, h⟩ := Option.bind_eq_some_iff.mp h
    exact writeStr_length h
  · exact writeStr_length h

/-- The suffixes that are written, as the reader knows them. -/
theorem unitScale_suffix : unitScale (utf8Chars ['n', 's']) = some 1 ∧
    unitScale (utf8Chars ['\u00b5', 's']) = some (10 ^ 3) ∧
    unitScale (utf8Chars ['m', 's']) = some (10 ^ 6) ∧
    unitScale (utf8Chars ['s']) = some (10 ^ 9) ∧ unitScale (utf8Chars ['m']) = some minute ∧
    unitScale (utf8Chars ['h']) = some hour := by
  decide

/-- Hours, minutes and seconds: at most 7, 2 and 2 digits before the point. -/
theorem writeClock_parts {d : ℕ} (hd : d ≤ 9223372036854775807) :
    ∃ cs ps, writeClock d = some cs ∧ utf8Chars cs = partsText ps ∧ ps ≠ [] ∧ totalNanos ps = d := by
  obtain ⟨-, -, -, hs, hm, hh⟩ := unitScale_suffix
  have hhourVal : hour = 3600000000000 := by decide
  have hminuteVal : minute = 60000000000 := by decide
  have hhours : (decimal (d / hour)).length ≤ 7 :=
    length_decimal_le (by decide) (by rw [hhourVal]; omega)
  have hminutes : (decimal (d / minute % 60)).length ≤ 2 :=
    length_decimal_le (by decide) (by omega)
  have hseconds : (decimal (d % minute / 10 ^ 9)).length ≤ 2 :=
    length_decimal_le (by decide) (by rw [hminuteVal]; omega)
  have hsum : d / hour * hour + d / minute % 60 * minute + d % minute = d := by
    rw [hhourVal, hminuteVal]
    omega
  obtain ⟨hc, hhc⟩ : ∃ hc, hc = Nat.toDigits 10 (d / hour) ++ ['h'] := ⟨_, rfl⟩
  obtain ⟨mc, hmc⟩ : ∃ mc, mc = Nat.toDigits 10 (d / minute % 60) ++ ['m'] := ⟨_, rfl⟩
  have hlens : (utf8Chars ['s']).length = 1 ∧ (utf8Chars ['m']).length = 1 ∧
      (utf8Chars ['h']).length = 1 := by
    decide
  obtain ⟨hls, hlm, hlh⟩ := hlens
  have hhtext : utf8Chars hc = (wholePart (d / hour) _ _ hh).text := by
    rw [hhc, utf8Chars_append, text_wholePart]
    rfl
  have hmtext : utf8Chars mc = (wholePart (d / minute % 60) _ _ hm).text := by
    rw [hmc, utf8Chars_append, text_wholePart]
    rfl
  have hhlen : (utf8Chars hc).length ≤ 8 := by
    rw [hhtext, text_wholePart, List.length_append, hlh]
    omega
  have hmlen : (utf8Chars mc).length ≤ 3 := by
    rw [hmtext, text_wholePart, List.length_append, hlm]
    omega
  have hlast : ∀ buf : List Char, (utf8Chars buf).length ≤ 11 →
      ∃ cs p, writeFrac buf (d % minute) second ['s'] = some (buf ++ cs) ∧
        utf8Chars cs = Part.text p ∧ p.nanos = d % minute := fun buf hbuf =>
    writeFrac_spec (w := 9) (by decide) hs (by rw [hls]; omega)
  have hfirst : ∀ cs : List Char, (utf8Chars cs).length ≤ 8 → writeStr [] cs = some cs :=
    fun cs hcs => writeStr_eq (by rw [utf8Chars_nil, List.length_nil]; omega)
  unfold writeClock
  simp only [bind, Option.bind, ← hhc, ← hmc]
  by_cases hhour : 0 < d / hour
  · have hboth : writeStr hc mc = some (hc ++ mc) := writeStr_eq (by omega)
    obtain ⟨cs, p, hwrite, htext, hval⟩ := hlast (hc ++ mc) (by
      rw [utf8Chars_append, List.length_append]
      omega)
    refine ⟨hc ++ mc ++ cs, [wholePart (d / hour) _ _ hh, wholePart (d / minute % 60) _ _ hm, p],
      ?_, ?_, List.cons_ne_nil _ _, ?_⟩
    · rw [if_pos hhour, hfirst hc hhlen]
      dsimp only
      rw [if_pos (.inl hhour), hboth]
      exact hwrite
    · rw [utf8Chars_append, utf8Chars_append, hhtext, hmtext, htext]
      simp
    · rw [totalNanos_cons, totalNanos_cons, totalNanos_cons, nanos_wholePart, nanos_wholePart, hval,
        totalNanos_nil]
      omega
  · have hzeroHours : d / hour = 0 := Nat.le_zero.mp (Nat.not_lt.mp hhour)
    rw [hzeroHours, Nat.zero_mul, Nat.zero_add] at hsum
    rw [if_neg hhour]
    by_cases hminute : 0 < d / minute % 60
    · obtain ⟨cs, p, hwrite, htext, hval⟩ := hlast mc (by omega)
      refine ⟨mc ++ cs, [wholePart (d / minute % 60) _ _ hm, p], ?_, ?_, List.cons_ne_nil _ _, ?_⟩
      · rw [if_pos (.inr hminute), hfirst mc (by omega)]
        exact hwrite
      · rw [utf8Chars_append, hmtext, htext]
        simp
      · rw [totalNanos_cons, totalNanos_cons, nanos_wholePart, hval, totalNanos_nil]
        omega
    · obtain ⟨cs, p, hwrite, htext, hval⟩ := hlast [] (by rw [utf8Chars_nil]; decide)
      have hzeroMinutes : d / minute % 60 = 0 := Nat.le_zero.mp (Nat.not_lt.mp hminute)
      rw [hzeroMinutes, Nat.zero_mul, Nat.zero_add] at hsum
      refine ⟨cs, [p], ?_, by simp [htext], List.cons_ne_nil _ _, by simp [hval, hsum]⟩
      rw [if_neg (not_or.mpr ⟨hhour, hminute⟩)]
      exact hwrite

/-- A number with a fraction of a unit below a second: at most three digits before the point. -/
theorem writeFrac_part {v w : ℕ} {suffix : List Char} (hw : w ≤ 9) (hv : v < 10 ^ (w + 3))
    (hunit : unitScale (utf8Chars suffix) = some (10 ^ w))
    (hsuffix : (utf8Chars suffix).length ≤ 3) :
    ∃ cs ps, writeFrac [] v (10 ^ w) suffix = some cs ∧ utf8Chars cs = partsText ps ∧ ps ≠ [] ∧
      totalNanos ps = v := by
  have hlen : (decimal (v / 10 ^ w)).length ≤ 3 := by
    refine length_decimal_le (by decide) ((Nat.div_lt_iff_lt_mul (Nat.pow_pos (by decide))).mpr ?_)
    rwa [← pow_add, Nat.add_comm]
  have hroom : (utf8Chars []).length + (decimal (v / 10 ^ w)).length + (w + 1) +
      (utf8Chars suffix).length ≤ 40 := by
    rw [utf8Chars_nil, List.length_nil]
    omega
  obtain ⟨cs, p, hwrite, htext, hval⟩ := writeFrac_spec hw hunit hroom
  exact ⟨cs, [p], hwrite, by simp [htext], List.cons_ne_nil _ _, by simp [hval]⟩

/-- What is written is a sum with the value of the duration. -/
theorem writeDuration_parts {d : ℕ} (hd : (d : ℤ) ≤ i64Max) :
    ∃ cs ps, writeDuration d = some (String.ofList cs) ∧ utf8Chars cs = partsText ps ∧ ps ≠ [] ∧
      totalNanos ps = d := by
  have hmax : d ≤ 9223372036854775807 := by
    unfold i64Max at hd
    omega
  obtain ⟨hns, hus, hms, hs, -, -⟩ := unitScale_suffix
  unfold writeDuration
  by_cases hzero : d = 0
  · subst hzero
    have htext : utf8Chars ['0', 's'] = decimal 0 ++ utf8Chars ['s'] := by decide
    refine ⟨['0', 's'], [wholePart 0 _ _ hs], by decide, ?_, List.cons_ne_nil _ _, ?_⟩
    · rw [htext, partsText_cons, text_wholePart, partsText_nil, List.append_nil]
    · rw [totalNanos_cons, nanos_wholePart, totalNanos_nil]
      decide
  rw [if_neg hzero]
  by_cases hnano : d < microsecond
  · have htext : utf8Chars (Nat.toDigits 10 d ++ ['n', 's']) = (wholePart d _ _ hns).text := by
      rw [utf8Chars_append, text_wholePart]
      rfl
    have hlen : (decimal d).length ≤ 3 := length_decimal_le (by decide) hnano
    have hsuffix : (utf8Chars ['n', 's']).length = 2 := by decide
    refine ⟨Nat.toDigits 10 d ++ ['n', 's'], [wholePart d _ _ hns], ?_, by simp [htext],
      List.cons_ne_nil _ _, by simp [nanos_wholePart]⟩
    rw [if_pos hnano, writeStr_eq]
    · rfl
    · rw [htext, text_wholePart, List.length_append, hsuffix, utf8Chars_nil, List.length_nil]
      omega
  rw [if_neg hnano]
  by_cases hmicro : d < millisecond
  · obtain ⟨cs, ps, hwrite, hps⟩ := writeFrac_part (w := 3) (by decide) hmicro hus
      (by decide)
    refine ⟨cs, ps, ?_, hps⟩
    rw [if_pos hmicro]
    exact congrArg (Option.map String.ofList) hwrite
  rw [if_neg hmicro]
  by_cases hmilli : d < second
  · obtain ⟨cs, ps, hwrite, hps⟩ := writeFrac_part (w := 6) (by decide) hmilli hms
      (by decide)
    refine ⟨cs, ps, ?_, hps⟩
    rw [if_pos hmilli]
    exact congrArg (Option.map String.ofList) hwrite
  rw [if_neg hmilli]
  obtain ⟨cs, ps, hwrite, hps⟩ := writeClock_parts hmax
  exact ⟨cs, ps, congrArg (Option.map String.ofList) hwrite, hps⟩

theorem writeDuration_length {d : Nanos} {s : String} (h : writeDuration d = some s) :
    (utf8 s).length ≤ 40 := by
  unfold writeDuration at h
  obtain ⟨cs, htext, rfl⟩ := Option.map_eq_some_iff.mp h
  rw [utf8_ofList]
  split_ifs at htext
  · exact writeStr_length htext
  · exact writeStr_length htext
  · exact writeFrac_length htext
  · exact writeFrac_length htext
  · unfold writeClock at htext
    dsimp only at htext
    split_ifs at htext <;>
      simp only [bind, Option.bind_eq_some_iff, Option.some.injEq, exists_eq_left'] at htext
    · obtain ⟨_, -, _, -, htext⟩ := htext
      exact writeFrac_length htext
    · obtain ⟨_, -, htext⟩ := htext
      exact writeFrac_length htext
    · obtain ⟨_, -, htext⟩ := htext
      exact writeFrac_length htext
    · exact writeFrac_length htext

/-- **Every duration is written, and read back.** -/
theorem parseDuration_writeDuration {d : Nanos} (hd : (d : ℤ) ≤ i64Max) :
    ∃ s, writeDuration d = some s ∧ (utf8 s).length ≤ 40 ∧ parseDuration s = .ok d := by
  obtain ⟨cs, ps, hwrite, htext, hne, hval⟩ := writeDuration_parts hd
  refine ⟨_, hwrite, writeDuration_length hwrite, ?_⟩
  have hread := parseDuration_partsText ((utf8_ofList cs).trans htext) hne (by rwa [hval])
  rwa [hval] at hread

/-- The longest one. -/
theorem parseDuration_writeDuration_max :
    ((2 ^ 63 - 1 : ℕ) : ℤ) ≤ i64Max ∧ ∃ s, writeDuration (2 ^ 63 - 1) = some s ∧
      (utf8 s).length ≤ 40 ∧ parseDuration s = .ok (2 ^ 63 - 1) :=
  ⟨by decide, parseDuration_writeDuration (d := 2 ^ 63 - 1) (by decide)⟩

end Hop.Types
