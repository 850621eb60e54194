import Hop.Cli.Window

/-!
# A config put into an image

`cli/src/image.rs`, `replace` and `fip_fix`: the window is written in place, and where it is part of
the monitor of a Sophgo FIP, the checksum of the monitor and then the checksum of param2, which
covers the former, are made anew.

The window is found again if nothing else looks like a head afterwards. Two things can: a line of the
config itself, which is not looked at when it is written, and the end of param2's first bytes with the
new checksum of the monitor behind it. All else is as it should be (`replaced_iff`).
-/

namespace Hop.Cli.Image

variable {m : Medium} {row cfg : Bytes} {h : Head}

/-! ### Checksums -/

/-- One bit of CRC-16. -/
def shift (crc : UInt16) : UInt16 :=
  if crc &&& 0x8000 ≠ 0 then (crc <<< 1) ^^^ 0x1021 else crc <<< 1

def crcByte (crc : UInt16) (c : UInt8) : UInt16 := shift^[8] (crc ^^^ (c.toUInt16 <<< (8 : UInt16)))

def crcHqx (b : Bytes) : UInt16 := b.foldl crcByte 0

def fipCksum (b : Bytes) : Bytes :=
  let c := crcHqx b
  [c.toUInt8, (c >>> 8).toUInt8, 0xfe, 0xca]

theorem length_fipCksum (b : Bytes) : (fipCksum b).length = 4 := rfl

def le32 (b : Bytes) (start : ℕ) : ℕ :=
  match (b.drop start).take 4 with
  | [b₀, b₁, b₂, b₃] => b₀.toNat + b₁.toNat * 2 ^ 8 + b₂.toNat * 2 ^ 16 + b₃.toNat * 2 ^ 24
  | _ => 0

/-! ### The FIP -/

def param2Magic : Bytes := utf8 "CVLD02\n" ++ [0]

def fipMagic : Bytes := utf8 "CVBL01\n" ++ [0]

/-- Whether this looks like param2: its address is none, or in memory. -/
def isParam2 (b : Bytes) : Bool :=
  let ra := le32 b 60
  64 ≤ b.length && (ra = 0 || (0x80000000 ≤ ra && ra < 0x90000000))

/-- Where param2 and the monitor are. -/
structure Fip where
  p2 : ℕ
  param2 : Bytes
  mon : ℕ
  monSize : ℕ
deriving DecidableEq

/-- What `fip_fix` looks for first. -/
def readFip (m : Medium) : Except String (Option Fip) :=
  match (scan param2Magic isParam2 m).getD [] with
  | [] => .ok none
  | [p2] =>
    let param2 := readAt m p2 4096
    match (((scan fipMagic (fun _ => true) m).getD []).filter (· ≤ p2)).max? with
    | none => .error s!"param2 at {hex p2} but no fip header (CVBL01) before it"
    | some start => .ok (some { p2, param2, mon := start + le32 param2 52, monSize := le32 param2 56 })
  | p2s => .error s!"{p2s.length} param2 blocks, expected 1"

/-- Whether these bytes are of the monitor. -/
def Fip.Holds (f : Fip) (win size : ℕ) : Prop := f.mon ≤ win ∧ win + size ≤ f.mon + f.monSize

instance (f : Fip) (win size : ℕ) : Decidable (f.Holds win size) := by
  unfold Fip.Holds
  infer_instance

/-- Param2 with new checksums: first that of the monitor, then its own. -/
def Fip.sums (f : Fip) (monitor : Bytes) : Bytes :=
  let param2 := overwrite f.param2 48 (fipCksum monitor)
  overwrite param2 8 (fipCksum (param2.drop 12))

/-- `fip_fix`. -/
def fipFix (m : Medium) (win size : ℕ) : Except String Medium := do
  match ← readFip m with
  | none => .ok m
  | some f =>
    if f.Holds win size then
      let monitor := readAt m f.mon f.monSize
      if monitor.length ≠ f.monSize then .error "the monitor runs past the end"
      else if f.param2.length < 64 then .error "param2 is cut short"
      else writeAt m (f.p2 + 8) (((f.sums monitor).drop 8).take 44)
    else .ok m

/-- `replace`: the length of the config, and the medium. -/
def replace (m : Medium) (at_ : ℕ) (h : Head) (cfg : Bytes) : Except String (ℕ × Medium) := do
  let w ← makeWindow cfg h.size
  let len := ((parseHead w).map Head.len).getD 0
  let m ← writeAt m at_ w
  match fipFix m at_ h.size with
  | .error e => .error s!"fip: {e}"
  | .ok m => .ok (len, m)

/-! ### Bytes in the place of others -/

theorem getElem?_overwrite {off : ℕ} {data : Bytes} (h : off + data.length ≤ m.length) (i : ℕ) :
    (overwrite m off data)[i]? =
      if i < off then m[i]? else if i < off + data.length then data[i - off]? else m[i]? := by
  rw [overwrite]
  simp only [List.getElem?_append, List.length_append, List.length_take, List.getElem?_take,
    List.getElem?_drop]
  grind

theorem length_overwrite {off : ℕ} {data : Bytes} (h : off + data.length ≤ m.length) :
    (overwrite m off data).length = m.length := by
  simp only [overwrite, List.length_append, List.length_take, List.length_drop]
  omega

theorem reached_congr {m' : Medium} (h : m'.length = m.length) : reached m' = reached m := by
  rw [reached, reached, h]

theorem prefix_drop_iff {b : Bytes} {p : ℕ} :
    row <+: b.drop p ↔ ∀ i < row.length, b[p + i]? = row[i]? := by
  rw [List.prefix_iff_getElem?]
  simp only [List.getElem?_drop]
  exact forall₂_congr fun i hi => by rw [List.getElem?_eq_getElem hi]

/-! ### The bytes of a head -/

/-- A byte of a head that is neither its first nor its last. -/
def Inner (b : UInt8) : Prop := b ≠ 35 ∧ b ≠ 10 ∧ b ≠ 0 ∧ b ≠ 0xfe ∧ b ≠ 0xca

instance (b : UInt8) : Decidable (Inner b) := by
  unfold Inner
  infer_instance

theorem inner_of_isDigit {b : UInt8} (h : isDigit b = true) : Inner b :=
  ⟨ne_of_isDigit h (by decide), ne_of_isDigit h (by decide), ne_of_isDigit h (by decide),
    ne_of_isDigit h (by decide), ne_of_isDigit h (by decide)⟩

set_option maxRecDepth 4000 in
/-- A head has a sign, a letter, some more characters, and a line feed. -/
theorem exists_headLine_eq {ds ls : Bytes} (hline : Line h ds ls) :
    ∃ mid, headLine ds ls = 35 :: (mid ++ [10]) ∧ mid.head? = some 72 ∧ (∀ b ∈ mid, Inner b) ∧
      31 ≤ mid.length := by
  have hpos := List.length_pos_iff.mpr hline.ne_nil
  refine ⟨utf8 "HOPCFG1 window=" ++ (ds ++ (lenText ++ ls)), ?_, rfl, ?_, ?_⟩
  · have hmagic : magic = 35 :: utf8 "HOPCFG1 window=" := by decide
    simp only [headLine, hmagic, List.cons_append, List.append_assoc]
  · have hword : ∀ b ∈ utf8 "HOPCFG1 window=", Inner b := by decide
    have hlen : ∀ b ∈ lenText, Inner b := by decide
    intro b hb
    simp only [List.mem_append] at hb
    rcases hb with hb | hb | hb | hb
    · exact hword b hb
    · exact inner_of_isDigit (hline.isDigit_left b hb)
    · exact hlen b hb
    · exact inner_of_isDigit (hline.isDigit_right b hb)
  · have hword : (utf8 "HOPCFG1 window=").length = 15 := by decide
    have hlen : lenText.length = 5 := by decide
    simp only [List.length_append, hword, hlen, hline.length_eq]
    omega

/-- What a head looks like from outside. -/
structure Headlike (row : Bytes) : Prop where
  first : row[0]? = some 35
  second : row[1]? = some 72
  last : row[row.length - 1]? = some 10
  inner : ∀ i, 0 < i → i < row.length - 1 → ∀ b, row[i]? = some b → Inner b
  length : 33 ≤ row.length

theorem headlike {ds ls : Bytes} (hline : Line h ds ls) : Headlike (headLine ds ls) := by
  obtain ⟨mid, heq, hhead, hinner, hlen⟩ := exists_headLine_eq hline
  rw [heq]
  have hlength : (35 :: (mid ++ [10])).length = mid.length + 2 := by
    rw [List.length_cons, List.length_append, List.length_singleton]
  refine ⟨rfl, ?_, ?_, fun i hpos hi b hb => ?_, by omega⟩
  · rw [List.getElem?_cons_succ, List.getElem?_append_left (by omega), ← List.head?_eq_getElem?,
      hhead]
  · rw [hlength, show mid.length + 2 - 1 = mid.length + 1 from rfl, List.getElem?_cons_succ,
      List.getElem?_append_right le_rfl, Nat.sub_self]
    rfl
  · obtain ⟨j, rfl⟩ : ∃ j, i = j + 1 := ⟨i - 1, by omega⟩
    rw [List.getElem?_cons_succ, List.getElem?_append_left (by omega)] at hb
    exact hinner b (List.mem_of_getElem? hb)

section

variable {row : Bytes} (hline : Headlike row) {i : ℕ}

include hline

theorem Headlike.ne_sign (hi : 0 < i) : row[i]? ≠ some 35 := by
  intro h
  have hlt := (List.getElem?_eq_some_iff.mp h).1
  by_cases hlast : i = row.length - 1
  · rw [hlast, hline.last] at h
    cases h
  · exact (hline.inner i hi (by omega) 35 h).1 rfl

theorem Headlike.ne_feed (hi : i < row.length - 1) : row[i]? ≠ some 10 := by
  intro h
  rcases Nat.eq_zero_or_pos i with rfl | hpos
  · rw [hline.first] at h
    cases h
  · exact (hline.inner i hpos hi 10 h).2.1 rfl

/-- A head has no zero, and no byte that is not ASCII. -/
theorem Headlike.ne_binary {b : UInt8} (hb : b = 0 ∨ b = 0xfe ∨ b = 0xca) : row[i]? ≠ some b := by
  intro h
  have hlt := (List.getElem?_eq_some_iff.mp h).1
  rcases Nat.eq_zero_or_pos i with rfl | hpos
  · rw [hline.first] at h
    cases h
    revert hb
    decide
  · by_cases hlast : i = row.length - 1
    · rw [hlast, hline.last] at h
      cases h
      revert hb
      decide
    · have hinner := hline.inner i hpos (by omega) b h
      rcases hb with rfl | rfl | rfl
      · exact hinner.2.2.1 rfl
      · exact hinner.2.2.2.1 rfl
      · exact hinner.2.2.2.2 rfl

end

/-! ### The window that is written -/

/-- The config that is written: without a window around it, and with a line feed at its end. -/
def body (cfg : Bytes) : Bytes := ended (strip cfg)

/-- The window with a config. -/
def windowOf (cfg : Bytes) (size : ℕ) : Bytes :=
  headText size (body cfg).length ++ body cfg ++
    padding (size - ((headText size (body cfg).length).length + (body cfg).length))

/-- The medium with that window. -/
def written (m : Medium) (at_ : ℕ) (h : Head) (cfg : Bytes) : Medium :=
  overwrite m at_ (windowOf cfg h.size)

theorem makeWindow_eq_ok {w : Bytes} {size : ℕ} (h : makeWindow cfg size = .ok w) :
    w = windowOf cfg size ∧
      (headText size (body cfg).length).length + (body cfg).length ≤ size := by
  rw [makeWindow] at h
  dsimp only at h
  split_ifs at h with hzero hutf8 hsize
  cases h
  exact ⟨rfl, Nat.not_lt.mp hsize⟩

theorem length_padding (n : ℕ) : (padding n).length = n := by
  induction n using Nat.strongRecOn with
  | ind n ih =>
    rw [padding]
    by_cases hn : n = 0
    · rw [if_pos hn, hn, List.length_nil]
    · rw [if_neg hn, List.length_append, List.length_replicate, List.length_cons,
        ih _ (by omega)]
      omega

/-- There are only signs and line feeds, with a line feed at the end. -/
theorem padding_spec (n : ℕ) :
    (∀ b ∈ padding n, b = 35 ∨ b = 10) ∧ (n ≠ 0 → (padding n)[n - 1]? = some 10) := by
  induction n using Nat.strongRecOn with
  | ind n ih =>
    rw [padding]
    by_cases hn : n = 0
    · rw [if_pos hn]
      exact ⟨fun b hb => absurd hb List.not_mem_nil, fun h => absurd hn h⟩
    · obtain ⟨hall, hlast⟩ := ih (n - min n 65) (by omega)
      rw [if_neg hn]
      refine ⟨fun b hb => ?_, fun _ => ?_⟩
      · rcases List.mem_append.mp hb with hb | hb
        · exact .inl (List.eq_of_mem_replicate hb)
        · rcases List.mem_cons.mp hb with hb | hb
          · exact .inr hb
          · exact hall b hb
      · rw [List.getElem?_append_right (by rw [List.length_replicate]; omega),
          List.length_replicate]
        by_cases hrest : n - min n 65 = 0
        · have hzero : n - 1 - (min n 65 - 1) = 0 := by omega
          rw [hzero]
          rfl
        · obtain ⟨j, hj⟩ : ∃ j, n - 1 - (min n 65 - 1) = j + 1 := ⟨n - min n 65 - 1, by omega⟩
          have hj' : j = n - min n 65 - 1 := by omega
          rw [hj, List.getElem?_cons_succ, hj']
          exact hlast hrest

theorem length_windowOf {size : ℕ}
    (h : (headText size (body cfg).length).length + (body cfg).length ≤ size) :
    (windowOf cfg size).length = size := by
  rw [windowOf, List.length_append, List.length_append, length_padding]
  omega

/-- A config is empty or ends with a line feed. -/
theorem body_last (cfg : Bytes) : body cfg = [] ∨ (body cfg)[(body cfg).length - 1]? = some 10 := by
  rw [body, ended]
  by_cases hnil : strip cfg = []
  · rw [hnil]
    exact .inl rfl
  · refine .inr ?_
    rw [← List.getLast?_eq_getElem?]
    split_ifs with hlast
    · exact List.getLast?_concat
    · rw [List.getLast?_eq_some_getLast hnil] at hlast ⊢
      simpa using hlast

theorem length_tenDigits {n : ℕ} (h : n < 10 ^ 10) : (tenDigits n).length = 10 := by
  have hle := Nat.toDigits_length 10 n 10 (by decide) h
  have hdecimal : (decimal n).length = (Nat.toDigits 10 n).length := by
    rw [decimal, utf8Chars_digits isDigit_of_mem_toDigits, List.length_map]
  rw [tenDigits, List.length_append, List.length_replicate]
  omega

theorem ofDigits_tenDigits (n : ℕ) : ofDigits (tenDigits n) = n := by
  have hzeros : ∀ k, ofDigits (List.replicate k 48) = 0 := by
    intro k
    induction k with
    | zero => rfl
    | succ k ih => rw [List.replicate_succ', ofDigits_append, ih, Nat.zero_mul]; rfl
  rw [tenDigits, ofDigits_append, hzeros, Nat.zero_mul, Nat.zero_add, ofDigits_decimal]

/-- **The window begins with a head that says what is in it.** -/
theorem line_headText {size len : ℕ} (hsize : size < 10 ^ 10) (hmod : size % 512 = 0)
    (hle : (headText size len).length + len ≤ size) :
    headText size len = headLine (decimal size) (tenDigits len) ∧
      Line ⟨size, (headText size len).length, len⟩ (decimal size) (tenDigits len) := by
  have hsame : headText size len = headLine (decimal size) (tenDigits len) := by
    simp only [headText, headLine, List.append_assoc]
  have hdigits : (decimal size).length ≤ 10 := by
    rw [decimal, utf8Chars_digits isDigit_of_mem_toDigits, List.length_map]
    exact Nat.toDigits_length 10 size 10 (by decide) hsize
  refine ⟨hsame, decimal_ne_nil size, hdigits, fun b hb => isDigit_of_mem_decimal hb,
    length_tenDigits (by omega), fun b hb => ?_, ?_, hmod, hle⟩
  · rcases List.mem_append.mp hb with hb | hb
    · rw [List.eq_of_mem_replicate hb]
      decide
    · exact isDigit_of_mem_decimal hb
  · rw [ofDigits_decimal, ofDigits_tenDigits, hsame]

/-! ### Heads in the written window -/

section

variable {cfg : Bytes} {size : ℕ}

/-- The bytes of a window. -/
theorem getElem?_windowOf (j : ℕ) : (windowOf cfg size)[j]? =
    if j < (headText size (body cfg).length).length then (headText size (body cfg).length)[j]?
    else if j < (headText size (body cfg).length).length + (body cfg).length then
      (body cfg)[j - (headText size (body cfg).length).length]?
    else (padding (size - ((headText size (body cfg).length).length + (body cfg).length)))[
      j - ((headText size (body cfg).length).length + (body cfg).length)]? := by
  rw [windowOf, List.getElem?_append, List.length_append]
  split_ifs with hall hhead hhead
  · rw [List.getElem?_append_left hhead]
  · rw [List.getElem?_append_right (Nat.not_lt.mp hhead)]
  · omega
  · rfl

variable (hsize : size < 10 ^ 10) (hmod : size % 512 = 0)
  (hfit : (headText size (body cfg).length).length + (body cfg).length ≤ size)

include hsize hmod hfit

theorem headlike_headText : Headlike (headText size (body cfg).length) := by
  obtain ⟨hsame, hline⟩ := line_headText hsize hmod hfit
  rw [hsame]
  exact headlike hline

theorem windowOf_last : (windowOf cfg size)[size - 1]? = some 10 := by
  have hhead := headlike_headText hsize hmod hfit
  have hlen := hhead.length
  rw [getElem?_windowOf]
  by_cases hpad : size - ((headText size (body cfg).length).length + (body cfg).length) = 0
  · by_cases hbody : body cfg = []
    · have hzero : (body cfg).length = 0 := by rw [hbody, List.length_nil]
      have hsame : size - 1 = (headText size (body cfg).length).length - 1 := by omega
      rw [if_pos (by omega), hsame]
      exact hhead.last
    · have hpos := List.length_pos_iff.mpr hbody
      have hsame : size - 1 - (headText size (body cfg).length).length = (body cfg).length - 1 := by
        omega
      rw [if_neg (by omega), if_pos (by omega), hsame]
      exact (body_last cfg).resolve_left hbody
  · have hsame : size - 1 - ((headText size (body cfg).length).length + (body cfg).length) =
        size - ((headText size (body cfg).length).length + (body cfg).length) - 1 := by omega
    rw [if_neg (by omega), if_neg (by omega), hsame]
    exact (padding_spec _).2 hpad

/-- Nothing begins in a window and ends behind it, and what is in it is in its config. -/
theorem body_of_windowOf (hline : Headlike row) {j : ℕ} (hpos : 0 < j) (hj : j < size)
    (h : ∀ i < row.length, j + i < size → (windowOf cfg size)[j + i]? = row[i]?) :
    ∃ k, j = (headText size (body cfg).length).length + k ∧ row <+: (body cfg).drop k := by
  have hhead := headlike_headText hsize hmod hfit
  have hlong := hline.length
  -- The window ends with a line feed, so the line ends in the window.
  have hend : j + row.length ≤ size := by
    by_contra hlt
    have hlast := h (size - 1 - j) (by omega) (by omega)
    have hsame : j + (size - 1 - j) = size - 1 := by omega
    rw [hsame, windowOf_last hsize hmod hfit] at hlast
    exact hline.ne_feed (by omega) hlast.symm
  have hfirst := h 0 (by omega) (by omega)
  have hsecond := h 1 (by omega) (by omega)
  rw [hline.first, Nat.add_zero, getElem?_windowOf] at hfirst
  rw [hline.second, getElem?_windowOf] at hsecond
  by_cases hin : j < (headText size (body cfg).length).length
  · -- The head has no other sign.
    rw [if_pos hin] at hfirst
    exact absurd hfirst (hhead.ne_sign hpos)
  · by_cases hbody : j < (headText size (body cfg).length).length + (body cfg).length
    · refine ⟨j - (headText size (body cfg).length).length, by omega, ?_⟩
      have hne : body cfg ≠ [] := by
        intro hnil
        have hzero : (body cfg).length = 0 := by rw [hnil, List.length_nil]
        omega
      have hfeed := (body_last cfg).resolve_left hne
      -- So does the config, and the line ends in the config.
      have hend' : j + row.length ≤
          (headText size (body cfg).length).length + (body cfg).length := by
        by_contra hlt
        have hlast := h ((headText size (body cfg).length).length + (body cfg).length - 1 - j)
          (by omega) (by omega)
        rw [getElem?_windowOf, if_neg (by omega), if_pos (by omega)] at hlast
        have hsame : j + ((headText size (body cfg).length).length + (body cfg).length - 1 - j) -
            (headText size (body cfg).length).length = (body cfg).length - 1 := by omega
        rw [hsame, hfeed] at hlast
        exact hline.ne_feed (by omega) hlast.symm
      rw [prefix_drop_iff]
      intro i hi
      have hbyte := h i hi (by omega)
      rw [getElem?_windowOf, if_neg (by omega), if_pos (by omega)] at hbyte
      rw [← hbyte]
      congr 1
      omega
    · -- In the padding, there is no letter.
      rw [if_neg (by omega), if_neg (by omega)] at hsecond
      rcases (padding_spec _).1 72 (List.mem_of_getElem? hsecond) with h35 | h10
      · cases h35
      · cases h10

variable {m : Medium} {at_ : ℕ} (hend : at_ + size ≤ m.length)

include hend

omit hsize hmod in
theorem getElem?_written (i : ℕ) : (overwrite m at_ (windowOf cfg size))[i]? =
    if i < at_ then m[i]? else if i < at_ + size then (windowOf cfg size)[i - at_]? else m[i]? := by
  have hlen := length_windowOf hfit
  rw [getElem?_overwrite (by rw [hlen]; exact hend), hlen]

/-- **The heads of the written medium**: one that is not the window's own was there before, or it is
in the config. -/
theorem head_of_written (hline : Headlike row) {p : ℕ} (hp : p ≠ at_)
    (hpre : row <+: (overwrite m at_ (windowOf cfg size)).drop p) :
    row <+: m.drop p ∨
      ∃ k, p = at_ + (headText size (body cfg).length).length + k ∧ row <+: (body cfg).drop k := by
  have hbytes := prefix_drop_iff.mp hpre
  have hlong := hline.length
  have hhead := headlike_headText hsize hmod hfit
  have hwritten := getElem?_written hfit hend
  have hhead' := hhead.length
  have hpos : 0 < size := by omega
  rcases Nat.lt_or_ge p at_ with hlt | hge
  · rcases Nat.lt_or_ge at_ (p + row.length) with hover | hbefore
    · -- The window begins with a sign.
      have hbyte := hbytes (at_ - p) (by omega)
      have hsame : p + (at_ - p) = at_ := by omega
      rw [hsame, hwritten, if_neg (by omega), if_pos (by omega), Nat.sub_self, getElem?_windowOf,
        if_pos (by omega), hhead.first] at hbyte
      exact absurd hbyte.symm (hline.ne_sign (by omega))
    · refine .inl (prefix_drop_iff.mpr fun i hi => ?_)
      rw [← hbytes i hi, hwritten, if_pos (by omega)]
  · rcases Nat.lt_or_ge p (at_ + size) with hin | hout
    · obtain ⟨k, hk, hbody⟩ := body_of_windowOf (j := p - at_) hsize hmod hfit hline (by omega)
        (by omega) (fun i hi hlt => by
          have hbyte := hbytes i hi
          have hsame : p + i - at_ = p - at_ + i := by omega
          rwa [hwritten, if_neg (by omega), if_pos (by omega), hsame] at hbyte)
      exact .inr ⟨k, by omega, hbody⟩
    · refine .inl (prefix_drop_iff.mpr fun i hi => ?_)
      rw [← hbytes i hi, hwritten, if_neg (by omega), if_neg (by omega)]

omit hsize hmod in
/-- What is in the config is in the window. -/
theorem prefix_written {k : ℕ} (h : row <+: (body cfg).drop k) (hne : row ≠ []) :
    row <+: (overwrite m at_ (windowOf cfg size)).drop
        (at_ + (headText size (body cfg).length).length + k) ∧
      k + row.length ≤ (body cfg).length := by
  have hpos := List.length_pos_iff.mpr hne
  have hle := h.length_le
  rw [List.length_drop] at hle
  refine ⟨prefix_drop_iff.mpr fun i hi => ?_, by omega⟩
  rw [getElem?_written hfit hend, if_neg (by omega), if_pos (by omega),
    getElem?_windowOf, if_neg (by omega), if_pos (by omega), ← prefix_drop_iff.mp h i hi]
  congr 1
  omega

omit hsize hmod in
/-- The window's own head. -/
theorem prefix_written_self : headText size (body cfg).length <+:
    (overwrite m at_ (windowOf cfg size)).drop at_ := by
  refine prefix_drop_iff.mpr fun i hi => ?_
  rw [getElem?_written hfit hend, if_neg (by omega), if_pos (by omega),
    Nat.add_sub_cancel_left, getElem?_windowOf, if_pos hi]

omit hsize hmod in
/-- Its config. -/
theorem readAt_written : readAt (overwrite m at_ (windowOf cfg size))
    (at_ + (headText size (body cfg).length).length) (body cfg).length = body cfg := by
  refine List.ext_getElem? fun i => ?_
  rw [readAt, List.getElem?_take, List.getElem?_drop]
  split_ifs with hi
  · rw [getElem?_written hfit hend, if_neg (by omega), if_pos (by omega),
      getElem?_windowOf, if_neg (by omega), if_pos (by omega)]
    congr 1
    omega
  · rw [List.getElem?_eq_none (Nat.not_lt.mp hi)]

end

/-! ### The new checksums -/

theorem looksAt_isParam2 : LooksAt overlap isParam2 := by
  intro b
  have hle : le32 (b.take overlap) 60 = le32 b 60 := by
    have htake : ((b.take overlap).drop 60).take 4 = (b.drop 60).take 4 := by
      rw [List.drop_take, List.take_take, min_eq_left (by decide)]
    rw [le32, le32, htake]
  have hlen : (64 ≤ (b.take overlap).length) ↔ 64 ≤ b.length := by
    have hoverlap : 64 ≤ overlap := by decide
    rw [List.length_take, le_min_iff]
    exact and_iff_right hoverlap
  rw [isParam2, isParam2, hle, decide_eq_decide.mpr hlen]

theorem readFip_eq_some {f : Fip} (h : readFip m = .ok (some f)) :
    param2Magic <+: m.drop f.p2 ∧ f.param2 = readAt m f.p2 4096 := by
  have hmagic : param2Magic.length ≤ overlap := by decide
  rw [readFip, scan_eq (by decide) hmagic looksAt_isParam2, Option.getD_some] at h
  have hall : ∀ p ∈ hits param2Magic isParam2 m (reached m), param2Magic <+: m.drop p := by
    intro p hp
    have haccepted := (List.mem_filter.mp hp).2
    rw [accepted, Bool.and_eq_true] at haccepted
    exact List.isPrefixOf_iff_prefix.mp haccepted.1
  rcases hfound : hits param2Magic isParam2 m (reached m) with - | ⟨p2, - | ⟨q, rest⟩⟩
  · rw [hfound] at h
    cases h
  · rw [hfound] at h
    dsimp only at h
    rcases hstart : (((scan fipMagic (fun _ => true) m).getD []).filter (· ≤ p2)).max? with
      - | start
    · rw [hstart] at h
      cases h
    · rw [hstart] at h
      cases h
      exact ⟨hall p2 (hfound ▸ List.mem_cons_self), rfl⟩
  · rw [hfound] at h
    cases h

/-- A medium with new checksums. -/
structure Summed (f : Fip) (m m' : Medium) : Prop where
  length_eq : m'.length = m.length
  end_le : f.p2 + 64 ≤ m.length
  bytes : ∀ j, m'[j]? =
    if f.p2 + 8 ≤ j ∧ j < f.p2 + 12 then
      (fipCksum (readAt m' (f.p2 + 12) (4096 - 12)))[j - (f.p2 + 8)]?
    else if f.p2 + 48 ≤ j ∧ j < f.p2 + 52 then
      (fipCksum (readAt m f.mon f.monSize))[j - (f.p2 + 48)]?
    else m[j]?

theorem summed_of_fipFix {m' : Medium} {win size : ℕ} {f : Fip} (hfip : readFip m = .ok (some f))
    (hholds : f.Holds win size) (h : fipFix m win size = .ok m') : Summed f m m' := by
  obtain ⟨-, hparam2⟩ := readFip_eq_some hfip
  rw [fipFix, hfip] at h
  change (if f.Holds win size then _ else _) = _ at h
  rw [if_pos hholds] at h
  split_ifs at h with hmonitor hshort
  rw [writeAt] at h
  split_ifs at h with hbeyond
  cases h
  have hlen : f.param2.length = min 4096 (m.length - f.p2) := by
    rw [hparam2, readAt, List.length_take, List.length_drop]
  set sum := fipCksum (readAt m f.mon f.monSize) with hsum
  have hsumlen : sum.length = 4 := rfl
  have hfirst : ∀ j, (overwrite f.param2 48 sum)[j]? =
      if j < 48 then f.param2[j]? else if j < 52 then sum[j - 48]? else f.param2[j]? :=
    fun j => getElem?_overwrite (by rw [hsumlen]; omega) j
  have hlength : (overwrite f.param2 48 sum).length = f.param2.length :=
    length_overwrite (by rw [hsumlen]; omega)
  set own := fipCksum ((overwrite f.param2 48 sum).drop 12) with hown
  have hownlen : own.length = 4 := rfl
  have hsums : ∀ j, (f.sums (readAt m f.mon f.monSize))[j]? =
      if j < 8 then (overwrite f.param2 48 sum)[j]? else if j < 12 then own[j - 8]?
      else (overwrite f.param2 48 sum)[j]? :=
    fun j => getElem?_overwrite (by rw [hownlen, hlength]; omega) j
  have hsumslen : (f.sums (readAt m f.mon f.monSize)).length = f.param2.length := by
    rw [← hlength]
    exact length_overwrite (by rw [hownlen, hlength]; omega)
  have hdatalen : (((f.sums (readAt m f.mon f.monSize)).drop 8).take 44).length = 44 := by
    rw [List.length_take, List.length_drop, hsumslen]
    omega
  have hend : f.p2 + 8 + (((f.sums (readAt m f.mon f.monSize)).drop 8).take 44).length ≤ m.length :=
    Nat.not_lt.mp hbeyond
  have hparambytes : ∀ j, j < 4096 → f.param2[j]? = m[f.p2 + j]? := by
    intro j hj
    rw [hparam2, readAt, List.getElem?_take_of_lt hj, List.getElem?_drop]
  -- Between the two checksums, the bytes are as they were.
  have hbytes : ∀ j, (overwrite m (f.p2 + 8)
      (((f.sums (readAt m f.mon f.monSize)).drop 8).take 44))[j]? =
        if f.p2 + 8 ≤ j ∧ j < f.p2 + 12 then own[j - (f.p2 + 8)]?
        else if f.p2 + 48 ≤ j ∧ j < f.p2 + 52 then sum[j - (f.p2 + 48)]? else m[j]? := by
    intro j
    rw [getElem?_overwrite hend, hdatalen]
    by_cases hbefore : j < f.p2 + 8
    · rw [if_pos hbefore, if_neg (by omega), if_neg (by omega)]
    · rw [if_neg hbefore]
      by_cases hin : j < f.p2 + 8 + 44
      · rw [if_pos hin, List.getElem?_take_of_lt (by omega), List.getElem?_drop, hsums,
          if_neg (by omega)]
        by_cases hown' : j < f.p2 + 12
        · rw [if_pos (by omega), if_pos ⟨by omega, hown'⟩]
          congr 1
          omega
        · rw [if_neg (by omega), if_neg (by omega), hfirst]
          by_cases hsum' : j < f.p2 + 48
          · rw [if_pos (by omega), if_neg (by omega), hparambytes _ (by omega)]
            congr 1
            omega
          · rw [if_neg (by omega), if_pos (by omega), if_pos ⟨by omega, by omega⟩]
            congr 1
            omega
      · rw [if_neg hin, if_neg (by omega), if_neg (by omega)]
  refine ⟨length_overwrite hend, by omega, ?_⟩
  have hcovered : readAt (overwrite m (f.p2 + 8)
      (((f.sums (readAt m f.mon f.monSize)).drop 8).take 44)) (f.p2 + 12) (4096 - 12) =
        (overwrite f.param2 48 sum).drop 12 := by
    refine List.ext_getElem? fun i => ?_
    rw [readAt, List.getElem?_take, List.getElem?_drop, List.getElem?_drop, hbytes, hfirst]
    by_cases hi : i < 4096 - 12
    · rw [if_pos hi, if_neg (by omega)]
      by_cases h48 : 12 + i < 48
      · rw [if_neg (by omega), if_pos h48, hparambytes _ (by omega)]
        congr 1
        omega
      · rw [if_neg h48]
        by_cases h52 : 12 + i < 52
        · rw [if_pos ⟨by omega, by omega⟩, if_pos h52]
          congr 1
          omega
        · rw [if_neg (by omega), if_neg h52, hparambytes _ (by omega)]
          congr 1
          omega
    · rw [if_neg hi, if_neg (by omega), if_neg (by omega), List.getElem?_eq_none]
      omega
  rw [hcovered]
  exact hbytes

/-- The bytes of param2 from its own checksum on, up to the checksum of the monitor, with that. -/
def Fip.tail (f : Fip) (m : Medium) : Bytes :=
  readAt m (f.p2 + 12) 36 ++ fipCksum (readAt m f.mon f.monSize)

section

variable {f : Fip} {m m' : Medium} (hsummed : Summed f m m')

include hsummed

theorem Summed.tail_eq : readAt m' (f.p2 + 12) 40 = f.tail m := by
  have hend := hsummed.end_le
  have hlen : (readAt m (f.p2 + 12) 36).length = 36 := by
    rw [readAt, List.length_take, List.length_drop]
    omega
  refine List.ext_getElem? fun i => ?_
  rw [readAt, List.getElem?_take, List.getElem?_drop, hsummed.bytes, Fip.tail]
  by_cases hi : i < 40
  · rw [if_pos hi, if_neg (by omega)]
    by_cases h36 : i < 36
    · rw [if_neg (by omega), List.getElem?_append_left (by omega), readAt,
        List.getElem?_take_of_lt h36, List.getElem?_drop]
    · rw [if_pos ⟨by omega, by omega⟩, List.getElem?_append_right (by omega), hlen]
      congr 1
      omega
  · have hsum := length_fipCksum (readAt m f.mon f.monSize)
    rw [if_neg hi, List.getElem?_append_right (by omega), hlen, List.getElem?_eq_none (by omega)]

/-- Elsewhere, nothing changes. -/
theorem Summed.same {j : ℕ} (hj : ¬ (f.p2 + 8 ≤ j ∧ j < f.p2 + 12))
    (hj' : ¬ (f.p2 + 48 ≤ j ∧ j < f.p2 + 52)) : m'[j]? = m[j]? := by
  rw [hsummed.bytes, if_neg hj, if_neg hj']

/-- Bytes that no head has. -/
theorem Summed.binary (hmagic : param2Magic <+: m.drop f.p2) {j : ℕ}
    (hj : j = f.p2 + 7 ∨ j = f.p2 + 10 ∨ j = f.p2 + 11 ∨ j = f.p2 + 50 ∨ j = f.p2 + 51) :
    ∃ b, m'[j]? = some b ∧ (b = 0 ∨ b = 0xfe ∨ b = 0xca) := by
  rcases hj with rfl | rfl | rfl | rfl | rfl
  · have hzero := prefix_drop_iff.mp hmagic 7 (by decide)
    refine ⟨0, ?_, .inl rfl⟩
    rw [hsummed.same (by omega) (by omega), hzero]
    decide
  · refine ⟨0xfe, ?_, .inr (.inl rfl)⟩
    rw [hsummed.bytes, if_pos ⟨by omega, by omega⟩, Nat.add_sub_add_left]
    rfl
  · refine ⟨0xca, ?_, .inr (.inr rfl)⟩
    rw [hsummed.bytes, if_pos ⟨by omega, by omega⟩, Nat.add_sub_add_left]
    rfl
  · refine ⟨0xfe, ?_, .inr (.inl rfl)⟩
    rw [hsummed.bytes, if_neg (by omega), if_pos ⟨by omega, by omega⟩, Nat.add_sub_add_left]
    rfl
  · refine ⟨0xca, ?_, .inr (.inr rfl)⟩
    rw [hsummed.bytes, if_neg (by omega), if_pos ⟨by omega, by omega⟩, Nat.add_sub_add_left]
    rfl

/-- **The heads behind new checksums** were there before, or end in that of the monitor. -/
theorem head_of_summed (hmagic : param2Magic <+: m.drop f.p2) (hline : Headlike row) {p : ℕ}
    (hpre : row <+: m'.drop p) :
    row <+: m.drop p ∨ ∃ k, p = f.p2 + 12 + k ∧ row <+: (f.tail m).drop k := by
  have hbytes := prefix_drop_iff.mp hpre
  have hlong := hline.length
  have havoids : ∀ j, j = f.p2 + 7 ∨ j = f.p2 + 10 ∨ j = f.p2 + 11 ∨ j = f.p2 + 50 ∨
      j = f.p2 + 51 → ¬ (p ≤ j ∧ j < p + row.length) := by
    rintro j hj ⟨hle, hlt⟩
    obtain ⟨b, hb, hbinary⟩ := hsummed.binary hmagic hj
    have hbyte := hbytes (j - p) (by omega)
    rw [Nat.add_sub_of_le hle, hb] at hbyte
    exact hline.ne_binary hbinary hbyte.symm
  have h7 := havoids _ (.inl rfl)
  have h10 := havoids _ (.inr (.inl rfl))
  have h11 := havoids _ (.inr (.inr (.inl rfl)))
  have h50 := havoids _ (.inr (.inr (.inr (.inl rfl))))
  have h51 := havoids _ (.inr (.inr (.inr (.inr rfl))))
  by_cases hin : f.p2 + 12 ≤ p ∧ p < f.p2 + 48 ∧ f.p2 + 48 < p + row.length
  · refine .inr ⟨p - (f.p2 + 12), by omega, ?_⟩
    rw [← hsummed.tail_eq, prefix_drop_iff]
    intro i hi
    rw [readAt, List.getElem?_take_of_lt (by omega), List.getElem?_drop, ← hbytes i hi]
    congr 1
    omega
  · refine .inl (prefix_drop_iff.mpr fun i hi => ?_)
    rw [← hbytes i hi, hsummed.same (by omega) (by omega)]

theorem prefix_summed {k : ℕ} (h : row <+: (f.tail m).drop k) (hne : row ≠ []) :
    row <+: m'.drop (f.p2 + 12 + k) ∧ k < 40 := by
  have hpos := List.length_pos_iff.mpr hne
  rw [← hsummed.tail_eq] at h
  have hle := h.length_le
  rw [List.length_drop, readAt, List.length_take] at hle
  refine ⟨prefix_drop_iff.mpr fun i hi => ?_, by omega⟩
  rw [← prefix_drop_iff.mp h i hi, readAt, List.getElem?_take_of_lt (by omega),
    List.getElem?_drop]
  congr 1
  omega

end

/-! ### What is replaced -/

/-- The bytes of param2 and those of the monitor are apart. -/
def Fip.Apart (f : Fip) : Prop := f.p2 + 4096 ≤ f.mon ∨ f.mon + f.monSize ≤ f.p2

/-- A checksum of param2 that is made anew. -/
def Fip.InSums (f : Fip) (i : ℕ) : Prop :=
  (f.p2 + 8 ≤ i ∧ i < f.p2 + 12) ∨ (f.p2 + 48 ≤ i ∧ i < f.p2 + 52)

/-- The head of a window with `n` bytes of config. -/
def headOf (size n : ℕ) : Head := ⟨size, (headText size n).length, n⟩

/-- A window is found where it was, with the new config, and nothing else has changed. -/
structure Replaced (m : Medium) (at_ : ℕ) (h : Head) (cfg : Bytes) (n : ℕ) (m' : Medium) : Prop where
  found : find m' = .ok (at_, headOf h.size n)
  config : config m' at_ (headOf h.size n) = .ok (body cfg)
  outside : ∀ i, ¬ (at_ ≤ i ∧ i < at_ + h.size) →
    (∀ f, readFip (written m at_ h cfg) = .ok (some f) → f.Holds at_ h.size → ¬ f.InSums i) →
    m'[i]? = m[i]?
  sums : ∀ f, readFip (written m at_ h cfg) = .ok (some f) → f.Holds at_ h.size →
    readAt m' (f.p2 + 48) 4 = fipCksum (readAt m' f.mon f.monSize) ∧
      readAt m' (f.p2 + 8) 4 = fipCksum (readAt m' (f.p2 + 12) (4096 - 12))

/-- Nothing else will look like a head. -/
structure Alone (m : Medium) (at_ : ℕ) (h : Head) (cfg : Bytes) : Prop where
  body : ∀ k, at_ + (headText h.size (body cfg).length).length + k < reached m →
    isHead ((body cfg).drop k) = false
  tail : ∀ f, readFip (written m at_ h cfg) = .ok (some f) → f.Holds at_ h.size →
    ∀ k, f.p2 + 12 + k < reached m → isHead ((f.tail (written m at_ h cfg)).drop k) = false

/-- What a config was written into. -/
structure Fits (m : Medium) (at_ : ℕ) (h : Head) (cfg : Bytes) : Prop where
  size_lt : h.size < 10 ^ 10
  size_mod : h.size % 512 = 0
  fit : (headText h.size (body cfg).length).length + (body cfg).length ≤ h.size
  end_le : at_ + h.size ≤ m.length

theorem fits_of_replace {m' : Medium} {at_ n : ℕ} (hfind : find m = .ok (at_, h))
    (hreplace : replace m at_ h cfg = .ok (n, m')) :
    Fits m at_ h cfg ∧ n = (body cfg).length ∧
      fipFix (written m at_ h cfg) at_ h.size = .ok m' := by
  obtain ⟨hhead, -, -⟩ := find_eq_ok.mp hfind
  obtain ⟨ds, ls, hline, -⟩ := exists_line hhead
  have hsize : h.size < 10 ^ 10 := by
    rw [hline.eq_head]
    exact (ofDigits_lt hline.isDigit_left).trans_le (Nat.pow_le_pow_right (by decide) hline.length_le)
  rw [replace] at hreplace
  rcases hwindow : makeWindow cfg h.size with e | w
  · rw [hwindow] at hreplace
    cases hreplace
  · obtain ⟨rfl, hfit⟩ := makeWindow_eq_ok hwindow
    rw [hwindow] at hreplace
    change (writeAt m at_ _ >>= _) = _ at hreplace
    rw [writeAt, length_windowOf hfit] at hreplace
    split_ifs at hreplace with hbeyond
    · cases hreplace
    · change (match fipFix (written m at_ h cfg) at_ h.size with
        | .error e => _
        | .ok m => _) = _ at hreplace
      rcases hfix : fipFix (written m at_ h cfg) at_ h.size with e | m₂
      · rw [hfix] at hreplace
        cases hreplace
      · rw [hfix] at hreplace
        cases hreplace
        obtain ⟨hsame, hnew⟩ := line_headText hsize hline.size_mod hfit
        refine ⟨⟨hsize, hline.size_mod, hfit, Nat.not_lt.mp hbeyond⟩, ?_, rfl⟩
        rw [windowOf, hsame, List.append_assoc, parseHead_headLine hnew]
        rfl

/-- What a write leaves of the medium: the window as it was written, and heads that were there, are in
the config, or end in a checksum. -/
structure Left (m : Medium) (at_ : ℕ) (h : Head) (cfg : Bytes) (m' : Medium) : Prop where
  length_eq : m'.length = m.length
  window : ∀ i, at_ ≤ i → i < at_ + h.size → m'[i]? = (written m at_ h cfg)[i]?
  outside : ∀ i, (∀ f, readFip (written m at_ h cfg) = .ok (some f) → f.Holds at_ h.size →
    ¬ f.InSums i) → m'[i]? = (written m at_ h cfg)[i]?
  heads : ∀ row p, Headlike row → row <+: m'.drop p → row <+: (written m at_ h cfg).drop p ∨
    ∃ f, readFip (written m at_ h cfg) = .ok (some f) ∧ f.Holds at_ h.size ∧
      ∃ k, p = f.p2 + 12 + k ∧ row <+: (f.tail (written m at_ h cfg)).drop k
  tail : ∀ f, readFip (written m at_ h cfg) = .ok (some f) → f.Holds at_ h.size →
    ∀ row k, row ≠ [] → row <+: (f.tail (written m at_ h cfg)).drop k →
      row <+: m'.drop (f.p2 + 12 + k) ∧ f.p2 + 12 + k ≠ at_
  sums : ∀ f, readFip (written m at_ h cfg) = .ok (some f) → f.Holds at_ h.size →
    readAt m' (f.p2 + 48) 4 = fipCksum (readAt m' f.mon f.monSize) ∧
      readAt m' (f.p2 + 8) 4 = fipCksum (readAt m' (f.p2 + 12) (4096 - 12))

theorem readAt_eq_of_bytes {m b : Bytes} {off n : ℕ} (hlen : b.length = n)
    (h : ∀ i < n, m[off + i]? = b[i]?) : readAt m off n = b := by
  refine List.ext_getElem? fun i => ?_
  rw [readAt, List.getElem?_take, List.getElem?_drop]
  split_ifs with hi
  · exact h i hi
  · rw [List.getElem?_eq_none (by omega)]

theorem left_of_fipFix {m' : Medium} {at_ : ℕ} (hfits : Fits m at_ h cfg)
    (hfix : fipFix (written m at_ h cfg) at_ h.size = .ok m')
    (hapart : ∀ f, readFip (written m at_ h cfg) = .ok (some f) → f.Apart) :
    Left m at_ h cfg m' := by
  have hlen : (written m at_ h cfg).length = m.length :=
    length_overwrite (by rw [length_windowOf hfits.fit]; exact hfits.end_le)
  -- Without a monitor that the window is in, it stays as it was written.
  have hsame : (∀ f, readFip (written m at_ h cfg) = .ok (some f) → ¬ f.Holds at_ h.size) →
      m' = written m at_ h cfg → Left m at_ h cfg m' := by
    rintro hnone rfl
    exact ⟨hlen, fun _ _ _ => rfl, fun _ _ => rfl, fun _ _ _ => .inl,
      fun f hf hholds => absurd hholds (hnone f hf), fun f hf hholds => absurd hholds (hnone f hf)⟩
  rcases hfip : readFip (written m at_ h cfg) with e | - | f
  · rw [fipFix, hfip] at hfix
    cases hfix
  · rw [fipFix, hfip] at hfix
    cases hfix
    exact hsame (fun f hf => nomatch hfip.symm.trans hf) rfl
  · by_cases hholds : f.Holds at_ h.size
    · have hsummed := summed_of_fipFix hfip hholds hfix
      obtain ⟨hmagic, -⟩ := readFip_eq_some hfip
      have hone : ∀ g, readFip (written m at_ h cfg) = .ok (some g) → g = f := fun g hg => by
        cases hfip.symm.trans hg
        rfl
      have hdisjoint := hapart f hfip
      rw [Fip.Apart] at hdisjoint
      obtain ⟨hmon, hmon'⟩ := hholds
      have hmonitor : readAt m' f.mon f.monSize = readAt (written m at_ h cfg) f.mon f.monSize := by
        refine List.ext_getElem? fun i => ?_
        rw [readAt, readAt, List.getElem?_take, List.getElem?_take, List.getElem?_drop,
          List.getElem?_drop]
        split_ifs
        · exact hsummed.same (by omega) (by omega)
        · rfl
      refine ⟨hsummed.length_eq.trans hlen, fun i hi hi' => hsummed.same (by omega) (by omega),
        fun i hi => ?_, fun row p hline hpre => ?_, fun g hg _ row k hne hpre => ?_,
        fun g hg _ => ?_⟩
      · have hout := hi f hfip ⟨hmon, hmon'⟩
        rw [Fip.InSums, not_or] at hout
        exact hsummed.same hout.1 hout.2
      · rcases head_of_summed hsummed hmagic hline hpre with hpre | ⟨k, hk, hpre⟩
        · exact .inl hpre
        · exact .inr ⟨f, hfip, ⟨hmon, hmon'⟩, k, hk, hpre⟩
      · obtain rfl := hone g hg
        obtain ⟨hpre, hk⟩ := prefix_summed hsummed hpre hne
        have hhead := (headlike_headText hfits.size_lt hfits.size_mod hfits.fit).length
        have hfit := hfits.fit
        exact ⟨hpre, by omega⟩
      · obtain rfl := hone g hg
        constructor
        · rw [hmonitor]
          refine readAt_eq_of_bytes (length_fipCksum _) fun i hi => ?_
          rw [hsummed.bytes, if_neg (by omega), if_pos ⟨by omega, by omega⟩,
            Nat.add_sub_cancel_left]
        · refine readAt_eq_of_bytes (length_fipCksum _) fun i hi => ?_
          rw [hsummed.bytes, if_pos ⟨by omega, by omega⟩, Nat.add_sub_cancel_left]
    · have hkept : m' = written m at_ h cfg := by
        rw [fipFix, hfip] at hfix
        change (if f.Holds at_ h.size then _ else _) = _ at hfix
        rw [if_neg hholds] at hfix
        exact (Except.ok.inj hfix).symm
      refine hsame (fun g hg => ?_) hkept
      cases hfip.symm.trans hg
      exact hholds

/-- **A config that is written is read back**, and nothing else has changed, if and only if nothing
else looks like a head afterwards: no row of the config that the search comes by, and no end of the
first bytes of param2 with the checksum of the monitor behind it. -/
theorem replaced_iff {m m' : Medium} {at_ n : ℕ} {h : Head} {cfg : Bytes}
    (hfind : find m = .ok (at_, h)) (hreplace : replace m at_ h cfg = .ok (n, m'))
    (hapart : ∀ f, readFip (written m at_ h cfg) = .ok (some f) → f.Apart) :
    Replaced m at_ h cfg n m' ↔ Alone m at_ h cfg := by
  obtain ⟨hfits, rfl, hfix⟩ := fits_of_replace hfind hreplace
  obtain ⟨-, hreach, honly⟩ := find_eq_ok.mp hfind
  have hleft := left_of_fipFix hfits hfix hapart
  obtain ⟨hsize, hmod, hfit, hend⟩ := hfits
  obtain ⟨hsame, hnew⟩ := line_headText hsize hmod hfit
  have hlong := (headlike_headText hsize hmod hfit).length
  have hreached : reached m' = reached m := reached_congr hleft.length_eq
  -- The window has its own head and its config, also behind new checksums.
  have hself : parseHead (m'.drop at_) = some (headOf h.size (body cfg).length) := by
    refine parseHead_of_isPrefix hnew (hsame ▸ prefix_drop_iff.mpr fun i hi => ?_)
    rw [hleft.window _ (by omega) (by omega)]
    exact prefix_drop_iff.mp (prefix_written_self hfit hend) i hi
  have hconfig : config m' at_ (headOf h.size (body cfg).length) = .ok (body cfg) := by
    have hread : readAt m' (at_ + (headText h.size (body cfg).length).length) (body cfg).length =
        body cfg := by
      refine readAt_eq_of_bytes rfl fun i hi => ?_
      have hbyte := congrArg (fun b : Bytes => b[i]?) (readAt_written hfit hend)
      simp only [readAt, List.getElem?_take_of_lt hi, List.getElem?_drop] at hbyte
      rw [hleft.window _ (by omega) (by omega)]
      exact hbyte
    rw [config, headOf]
    dsimp only
    rw [hread, if_neg (not_not.mpr rfl)]
  have hheads : find m' = .ok (at_, headOf h.size (body cfg).length) ↔ Alone m at_ h cfg := by
    rw [find_eq_ok, and_iff_right hself, hreached, and_iff_right hreach]
    constructor
    · intro halone
      refine ⟨fun k hk => ?_, fun f hf hholds k hk => ?_⟩
      · by_contra hhead
        obtain ⟨h', hh'⟩ := Option.isSome_iff_exists.mp (Bool.eq_true_of_not_eq_false hhead)
        obtain ⟨ds, ls, hline, hpre⟩ := exists_line hh'
        have hne : headLine ds ls ≠ [] := List.ne_nil_of_length_pos (by
          have := (headlike hline).length
          omega)
        obtain ⟨hpre, hle⟩ := prefix_written hfit hend hpre hne
        have hpre' : headLine ds ls <+:
            m'.drop (at_ + (headText h.size (body cfg).length).length + k) := by
          refine prefix_drop_iff.mpr fun i hi => ?_
          rw [hleft.window _ (by omega) (by omega)]
          exact prefix_drop_iff.mp hpre i hi
        have hat := halone _ hk (Option.isSome_iff_exists.mpr
          ⟨h', parseHead_of_isPrefix hline hpre'⟩)
        omega
      · by_contra hhead
        obtain ⟨h', hh'⟩ := Option.isSome_iff_exists.mp (Bool.eq_true_of_not_eq_false hhead)
        obtain ⟨ds, ls, hline, hpre⟩ := exists_line hh'
        have hne : headLine ds ls ≠ [] := List.ne_nil_of_length_pos (by
          have := (headlike hline).length
          omega)
        obtain ⟨hpre, hat⟩ := hleft.tail f hf hholds _ k hne hpre
        exact hat (halone _ hk (Option.isSome_iff_exists.mpr
          ⟨h', parseHead_of_isPrefix hline hpre⟩))
    · intro halone p hp hhead
      by_contra hat
      obtain ⟨h', hh'⟩ := Option.isSome_iff_exists.mp hhead
      obtain ⟨ds, ls, hline, hpre⟩ := exists_line hh'
      rcases hleft.heads _ p (headlike hline) hpre with hwritten | ⟨f, hf, hholds, k, hk, htail⟩
      · rcases head_of_written hsize hmod hfit hend (headlike hline) hat hwritten with
          hbefore | ⟨k, hk, hbody⟩
        · -- It was there before, but there was no other.
          exact hat (honly p hp (Option.isSome_iff_exists.mpr
            ⟨h', parseHead_of_isPrefix hline hbefore⟩))
        · have hno := halone.body k (hk ▸ hp)
          rw [isHead, parseHead_of_isPrefix hline hbody] at hno
          cases hno
      · have hno := halone.tail f hf hholds k (hk ▸ hp)
        rw [isHead, parseHead_of_isPrefix hline htail] at hno
        cases hno
  refine ⟨fun hreplaced => hheads.mp hreplaced.found, fun halone => ⟨hheads.mpr halone, hconfig, ?_,
    hleft.sums⟩⟩
  intro i hout hsums
  rw [hleft.outside i hsums, written, getElem?_written hfit hend]
  split_ifs
  · rfl
  · omega
  · rfl

/-! ### A small window -/

/-- A window of one sector without a config. -/
def oneSector : Medium := windowOf [] 512

/-- A config with a line that is a head. -/
def twoHeads : Bytes := utf8 "\n#HOPCFG1 window=512 len=0000000000\n"

theorem reached_of_length (h : m.length = 512) : reached m = chunk := by
  rw [reached, h]
  decide

theorem length_written (cfg : Bytes)
    (h : (headText 512 (body cfg).length).length + (body cfg).length ≤ 512) :
    (written oneSector 0 (headOf 512 0) cfg).length = 512 := by
  have hone : oneSector.length = 512 := length_windowOf (by decide)
  rw [written, length_overwrite]
  · exact hone
  · rw [Nat.zero_add, headOf, length_windowOf h, hone]

theorem find_oneSector : find oneSector = .ok (0, headOf 512 0) := by
  have hfit : (headText 512 (body []).length).length + (body []).length ≤ 512 := by decide
  have hreached : reached oneSector = chunk := reached_of_length (length_windowOf hfit)
  refine find_eq_ok.mpr ⟨by decide, by rw [hreached]; decide, fun p hp hhead => ?_⟩
  by_contra hpos
  obtain ⟨h, hh⟩ := Option.isSome_iff_exists.mp hhead
  obtain ⟨ds, ls, hline, hpre⟩ := exists_line hh
  have hbytes := prefix_drop_iff.mp hpre
  have hlong := (headlike hline).length
  have hle := hpre.length_le
  rw [List.length_drop, oneSector, length_windowOf hfit] at hle
  -- There is no config that another head could be in.
  obtain ⟨k, -, hbody⟩ := body_of_windowOf (by decide) (by decide) hfit (headlike hline)
    (Nat.pos_of_ne_zero hpos) (by omega) fun i hi _ => hbytes i hi
  have hnil := hbody.length_le
  rw [List.length_drop, show body [] = [] from rfl, List.length_nil] at hnil
  omega

/-- A FIP has zeros in it. -/
theorem readFip_of_notMem (h : (0 : UInt8) ∉ m) : readFip m = .ok none := by
  have hmagic : param2Magic.length ≤ overlap := by decide
  have hnone : hits param2Magic isParam2 m (reached m) = [] := by
    refine List.filter_eq_nil_iff.mpr fun p _ haccepted => ?_
    rw [accepted, Bool.and_eq_true, List.isPrefixOf_iff_prefix] at haccepted
    exact h (List.mem_of_mem_drop (haccepted.1.subset (by decide)))
  rw [readFip, scan_eq (by decide) hmagic looksAt_isParam2, Option.getD_some, hnone]

theorem apart_of_none (h : readFip m = .ok none) :
    ∀ f, readFip m = .ok (some f) → f.Apart :=
  fun _ hf => nomatch h.symm.trans hf

theorem replace_of {m₁ m₂ : Medium} {at_ : ℕ} {w : Bytes} (hwindow : makeWindow cfg h.size = .ok w)
    (hwrite : writeAt m at_ w = .ok m₁) (hfix : fipFix m₁ at_ h.size = .ok m₂) :
    replace m at_ h cfg = .ok (((parseHead w).map Head.len).getD 0, m₂) := by
  rw [replace, hwindow]
  change (writeAt m at_ w >>= _) = _
  rw [hwrite]
  change (match fipFix m₁ at_ h.size with
    | .error e => _
    | .ok m => _) = _
  rw [hfix]

theorem replace_oneSector (hwindow : makeWindow cfg 512 = .ok (windowOf cfg 512))
    (hzero : (0 : UInt8) ∉ written oneSector 0 (headOf 512 0) cfg) :
    replace oneSector 0 (headOf 512 0) cfg =
      .ok ((body cfg).length, written oneSector 0 (headOf 512 0) cfg) := by
  obtain ⟨-, hfit⟩ := makeWindow_eq_ok hwindow
  obtain ⟨hsame, hnew⟩ := line_headText (by decide) (by decide) hfit
  have hone : oneSector.length = 512 := length_windowOf (by decide)
  have hwrite : writeAt oneSector 0 (windowOf cfg 512) =
      .ok (written oneSector 0 (headOf 512 0) cfg) := by
    rw [writeAt, if_neg (by rw [length_windowOf hfit, hone]; decide)]
    rfl
  have hlen : ((parseHead (windowOf cfg 512)).map Head.len).getD 0 = (body cfg).length := by
    rw [windowOf, hsame, List.append_assoc, parseHead_headLine hnew]
    rfl
  have hfix : fipFix (written oneSector 0 (headOf 512 0) cfg) 0 512 =
      .ok (written oneSector 0 (headOf 512 0) cfg) := by
    rw [fipFix, readFip_of_notMem hzero]
    rfl
  exact (replace_of (h := headOf 512 0) hwindow hwrite hfix).trans (by rw [hlen])

set_option maxRecDepth 8000 in
/-- A line of text can be written into it. -/
theorem replaced_oneSector : Replaced oneSector 0 (headOf 512 0) (utf8 "a=b") 4
    (written oneSector 0 (headOf 512 0) (utf8 "a=b")) := by
  have hzero : (0 : UInt8) ∉ written oneSector 0 (headOf 512 0) (utf8 "a=b") := by with_unfolding_all decide
  have hreplace := replace_oneSector (by with_unfolding_all decide) hzero
  refine (replaced_iff find_oneSector hreplace (apart_of_none (readFip_of_notMem hzero))).mpr
    ⟨fun k _ => ?_, fun f hf => nomatch (readFip_of_notMem hzero).symm.trans hf⟩
  have hbody : body (utf8 "a=b") = utf8 "a=b\n" := by decide
  have hall : ∀ k < 4, isHead ((utf8 "a=b\n").drop k) = false := by decide
  rw [hbody]
  rcases Nat.lt_or_ge k 4 with hk | hk
  · exact hall k hk
  · rw [List.drop_eq_nil_of_le hk]
    decide

set_option maxRecDepth 8000 in
/-- With a head in its config, the window is written and not found again. -/
theorem replaced_twoHeads :
    find oneSector = .ok (0, headOf 512 0) ∧
      replace oneSector 0 (headOf 512 0) twoHeads =
        .ok (36, written oneSector 0 (headOf 512 0) twoHeads) ∧
      readFip (written oneSector 0 (headOf 512 0) twoHeads) = .ok none ∧
      ¬ Replaced oneSector 0 (headOf 512 0) twoHeads 36
        (written oneSector 0 (headOf 512 0) twoHeads) := by
  have hzero : (0 : UInt8) ∉ written oneSector 0 (headOf 512 0) twoHeads := by with_unfolding_all decide
  have hreplace := replace_oneSector (by with_unfolding_all decide) hzero
  refine ⟨find_oneSector, hreplace, readFip_of_notMem hzero, fun h => ?_⟩
  obtain ⟨-, -, honly⟩ := find_eq_ok.mp h.found
  have hreached := reached_of_length (length_written twoHeads (by decide))
  have hsecond := honly 36 (by rw [hreached]; decide) (by decide)
  cases hsecond

end Hop.Cli.Image
