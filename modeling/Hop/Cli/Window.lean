import Hop.Cli.Scan

/-!
# The config window of an image

`cli/src/image.rs`, `parse_head`, `make_window`, `find` and `config`: a window of a fixed size that
begins with a line that says how large it is and how long the config in it is; behind the config are
lines of `#`. A window is found by this line, wherever it is, and there must be exactly one.

A head is a line of a few ASCII characters, with its only `#` at its beginning and its only line
feed at its end (`Line`). `parse_head` accepts exactly such a line (`parseHead_headLine`,
`exists_line`).
-/

namespace Hop.Cli.Image

variable {h : Head}

/-! ### The head -/

/-- The beginning of a head. -/
def magic : Bytes := utf8 "#HOPCFG1 window="

def lenText : Bytes := utf8 " len="

structure Head where
  /-- The size of the window. -/
  size : ℕ
  /-- The length of the head. -/
  head : ℕ
  /-- The length of the config. -/
  len : ℕ
deriving DecidableEq

def stripPrefix (pre b : Bytes) : Option Bytes :=
  if pre.isPrefixOf b then some (b.drop pre.length) else none

/-- Up to ten digits. -/
def digits (d : Bytes) : Option ℕ :=
  if d ≠ [] ∧ d.length ≤ 10 ∧ d.all isDigit = true then some (ofDigits d) else none

/-- `parse_head`. -/
def parseHead (b : Bytes) : Option Head := do
  let rest ← stripPrefix magic b
  let sp ← (rest.take 11).findIdx? (· = 32)
  let size ← digits (rest.take sp)
  let d ← stripPrefix lenText (rest.drop sp)
  if d[10]? = some 10 then
    let len ← digits (d.take 10)
    let head := magic.length + sp + 5 + 11
    if 0 < sp ∧ size % 512 = 0 ∧ head + len ≤ size then some { size, head, len } else none
  else none

/-! ### A new window -/

/-- The config in a window, or what is no window. -/
def strip (content : Bytes) : Bytes :=
  match parseHead content with
  | some h => if h.head + h.len ≤ content.length then (content.drop h.head).take h.len else content
  | none => content

/-- The same with a line feed at its end, if there is anything. -/
def ended (c : Bytes) : Bytes := if c.getLast?.any (· ≠ 10) then c ++ [10] else c

/-- `{:010}`. -/
def tenDigits (n : ℕ) : Bytes :=
  List.replicate (10 - (decimal n).length) 48 ++ decimal n

def headText (size len : ℕ) : Bytes := magic ++ decimal size ++ lenText ++ tenDigits len ++ [10]

/-- Lines of `#`. -/
def padding (n : ℕ) : Bytes :=
  if n = 0 then [] else List.replicate (min n 65 - 1) 35 ++ 10 :: padding (n - min n 65)
termination_by n

/-- `make_window`. -/
def makeWindow (content : Bytes) (size : ℕ) : Except String Bytes :=
  let c := strip content
  if 0 ∈ c then .error "the config contains a NUL byte"
  else if fromUtf8 c = none then .error "the config is not UTF-8"
  else
    let c := ended c
    let w := headText size c.length
    if size < w.length + c.length then
      .error s!"a config of {c.length} bytes does not fit the {size}-byte window"
    else .ok (w ++ c ++ padding (size - (w.length + c.length)))

/-! ### The window of a medium -/

/-- `{:#x}`. -/
def hex (n : ℕ) : String := "0x" ++ String.ofList (Nat.toDigits 16 n)

/-- Whether a head is read here. -/
def isHead (b : Bytes) : Bool := (parseHead b).isSome

/-- `find`. A needle that is not empty does not panic (`scan_eq`). -/
def find (m : Medium) : Except String (ℕ × Head) :=
  match (scan magic isHead m).getD [] with
  | [] =>
    .error "no config window found: not a HopOS image with a config window (HopOS v3.1 or later), or not unpacked"
  | [at_] =>
    match parseHead (readAt m at_ 64) with
    | none => .error "the window head changed under us"
    | some h => .ok (at_, h)
  | hits =>
    let places := ", ".intercalate (hits.map hex)
    .error s!"{hits.length} config windows found (at {places}), refusing"

/-- `config`. -/
def config (m : Medium) (at_ : ℕ) (h : Head) : Except String Bytes :=
  let c := readAt m (at_ + h.head) h.len
  if c.length ≠ h.len then .error "the window runs past the end" else .ok c

/-! ### What a head is -/

/-- A head with these digits. -/
def headLine (ds ls : Bytes) : Bytes := magic ++ (ds ++ (lenText ++ (ls ++ [10])))

/-- A line that is a head. -/
structure Line (h : Head) (ds ls : Bytes) : Prop where
  ne_nil : ds ≠ []
  length_le : ds.length ≤ 10
  isDigit_left : ∀ b ∈ ds, isDigit b = true
  length_eq : ls.length = 10
  isDigit_right : ∀ b ∈ ls, isDigit b = true
  eq_head : h = ⟨ofDigits ds, (headLine ds ls).length, ofDigits ls⟩
  size_mod : h.size % 512 = 0
  le_size : h.head + h.len ≤ h.size

theorem stripPrefix_eq_some {pre b rest : Bytes} : stripPrefix pre b = some rest ↔ b = pre ++ rest := by
  rw [stripPrefix]
  constructor
  · intro h
    split_ifs at h with hpre
    · obtain ⟨t, rfl⟩ := List.isPrefixOf_iff_prefix.mp hpre
      rw [List.drop_left, Option.some_inj] at h
      rw [h]
  · rintro rfl
    rw [if_pos (List.isPrefixOf_iff_prefix.mpr (List.prefix_append pre rest)), List.drop_left]

theorem digits_eq_some {d : Bytes} {n : ℕ} :
    digits d = some n ↔ d ≠ [] ∧ d.length ≤ 10 ∧ (∀ b ∈ d, isDigit b = true) ∧ ofDigits d = n := by
  rw [digits]
  constructor
  · intro h
    split_ifs at h with hd
    exact ⟨hd.1, hd.2.1, List.all_eq_true.mp hd.2.2, Option.some_inj.mp h⟩
  · rintro ⟨hne, hlen, hall, rfl⟩
    rw [if_pos ⟨hne, hlen, List.all_eq_true.mpr hall⟩]

theorem length_headLine {ds ls : Bytes} (hline : Line h ds ls) :
    (headLine ds ls).length = magic.length + ds.length + 5 + 11 := by
  have hlen : lenText.length = 5 := by decide
  simp only [headLine, List.length_append, hlen, hline.length_eq, List.length_singleton]
  omega

theorem ne_of_isDigit {b c : UInt8} (hb : isDigit b = true) (hc : isDigit c = false) : b ≠ c := by
  rintro rfl
  rw [hb] at hc
  cases hc

/-- **`parse_head` reads a head where there is one.** -/
theorem parseHead_headLine {ds ls : Bytes} (hline : Line h ds ls) (rest : Bytes) :
    parseHead (headLine ds ls ++ rest) = some h := by
  have hds : ∀ b ∈ ds, ¬ decide (b = 32) = true := fun b hb h32 =>
    ne_of_isDigit (c := 32) (hline.isDigit_left b hb) (by decide) (of_decide_eq_true h32)
  have hsp : ((ds ++ (lenText ++ (ls ++ [10]) ++ rest)).take 11).findIdx? (· = 32) =
      some ds.length := by
    have hcut : (ds ++ (lenText ++ (ls ++ [10]) ++ rest)).take 11 =
        ds ++ 32 :: (utf8 "len=" ++ (ls ++ [10]) ++ rest).take (10 - ds.length) := by
      have hle := hline.length_le
      rw [List.take_append, List.take_of_length_le (by omega)]
      congr 1
      have hone : 11 - ds.length = 10 - ds.length + 1 := by omega
      rw [hone]
      rfl
    rw [hcut, List.findIdx?_append, List.findIdx?_eq_none_iff.mpr fun b hb => by simpa using hds b hb,
      List.findIdx?_cons]
    simp
  have hstrip : stripPrefix magic (headLine ds ls ++ rest) =
      some (ds ++ (lenText ++ (ls ++ [10]) ++ rest)) :=
    stripPrefix_eq_some.mpr (by simp only [headLine, List.append_assoc])
  have hdigits : digits ((ds ++ (lenText ++ (ls ++ [10]) ++ rest)).take ds.length) =
      some (ofDigits ds) := by
    rw [List.take_left]
    exact digits_eq_some.mpr ⟨hline.ne_nil, hline.length_le, hline.isDigit_left, rfl⟩
  have hstrip' : stripPrefix lenText ((ds ++ (lenText ++ (ls ++ [10]) ++ rest)).drop ds.length) =
      some (ls ++ 10 :: rest) := by
    rw [List.drop_left]
    exact stripPrefix_eq_some.mpr (by simp only [List.append_assoc, List.singleton_append])
  have hlast : (ls ++ 10 :: rest)[10]? = some 10 := by
    rw [List.getElem?_append_right (by rw [hline.length_eq]), hline.length_eq]
    rfl
  have hdigits' : digits ((ls ++ 10 :: rest).take 10) = some (ofDigits ls) := by
    rw [List.take_left' hline.length_eq]
    refine digits_eq_some.mpr ⟨?_, hline.length_eq.le, hline.isDigit_right, rfl⟩
    intro hnil
    have hlen := hline.length_eq
    rw [hnil] at hlen
    cases hlen
  have hhead := hline.eq_head
  have hmod := hline.size_mod
  have hle := hline.le_size
  rw [hhead, length_headLine hline] at hle
  rw [hhead] at hmod
  rw [parseHead, hstrip]
  dsimp only [Option.bind_eq_bind, Option.bind_some]
  rw [hsp]
  dsimp only [Option.bind_some]
  rw [hdigits]
  dsimp only [Option.bind_some]
  rw [hstrip']
  dsimp only [Option.bind_some]
  rw [if_pos hlast, hdigits', Option.bind_some,
    if_pos ⟨List.length_pos_iff.mpr hline.ne_nil, hmod, hle⟩, hhead, length_headLine hline]

/-- **`parse_head` reads nothing but a head.** -/
theorem exists_line {b : Bytes} (hb : parseHead b = some h) :
    ∃ ds ls, Line h ds ls ∧ headLine ds ls <+: b := by
  simp only [parseHead, Option.bind_eq_bind, Option.bind_eq_some_iff] at hb
  obtain ⟨rest, hstrip, sp, hsp, size, hsize, d, hstrip', hb⟩ := hb
  split_ifs at hb with hten
  obtain ⟨len, hlen, hb⟩ := Option.bind_eq_some_iff.mp hb
  split_ifs at hb with hcond
  cases hb
  obtain rfl := stripPrefix_eq_some.mp hstrip
  have hd := stripPrefix_eq_some.mp hstrip'
  obtain ⟨hne, hle, hall, hsize⟩ := digits_eq_some.mp hsize
  obtain ⟨-, -, hall', hlen⟩ := digits_eq_some.mp hlen
  have hspan : (rest.take sp).length = sp := by
    obtain ⟨hlt, -⟩ := List.findIdx?_eq_some_iff_findIdx_eq.mp hsp
    rw [List.length_take] at hlt ⊢
    omega
  have hdlen : 10 < d.length := (List.getElem?_eq_some_iff.mp hten).1
  have hdrest : d = d.take 10 ++ 10 :: d.drop 11 := by
    have hsplit := (List.take_append_drop 10 d).symm
    rwa [List.drop_eq_getElem_cons hdlen, (List.getElem?_eq_some_iff.mp hten).2] at hsplit
  have hwhole : rest = rest.take sp ++ (lenText ++ d) := by
    rw [← hd, List.take_append_drop]
  have hsame : headLine (rest.take sp) (d.take 10) ++ d.drop 11 = magic ++ rest := by
    conv_rhs => rw [hwhole, hdrest]
    simp only [headLine, List.append_assoc, List.singleton_append]
  have hlength : (headLine (rest.take sp) (d.take 10)).length = magic.length + sp + 5 + 11 := by
    have hfive : lenText.length = 5 := by decide
    have hten' : (d.take 10).length = 10 := by
      rw [List.length_take]
      omega
    simp only [headLine, List.length_append, hspan, hfive, hten', List.length_singleton]
    omega
  refine ⟨rest.take sp, d.take 10, ⟨hne, hle, hall, ?_, hall', ?_, hcond.2.1, hcond.2.2⟩, ?_⟩
  · rw [List.length_take]
    omega
  · rw [hsize, hlen, hlength]
  · exact ⟨_, hsame⟩

theorem length_headLine_le {ds ls : Bytes} (hline : Line h ds ls) :
    (headLine ds ls).length ≤ 42 := by
  have hmagic : magic.length = 16 := by decide
  have hle := hline.length_le
  rw [length_headLine hline, hmagic]
  omega

/-- A head is read from its line alone. -/
theorem parseHead_of_isPrefix {b : Bytes} {ds ls : Bytes} (hline : Line h ds ls)
    (hpre : headLine ds ls <+: b) : parseHead b = some h := by
  obtain ⟨rest, rfl⟩ := hpre
  exact parseHead_headLine hline rest

theorem parseHead_take {n : ℕ} (hn : 42 ≤ n) (b : Bytes) : parseHead (b.take n) = parseHead b := by
  rcases hb : parseHead b with - | h
  · by_contra hne
    obtain ⟨h, hh⟩ := Option.ne_none_iff_exists'.mp hne
    obtain ⟨ds, ls, hline, hpre⟩ := exists_line hh
    rw [parseHead_of_isPrefix hline (hpre.trans (List.take_prefix n b))] at hb
    cases hb
  · obtain ⟨ds, ls, hline, hpre⟩ := exists_line hb
    refine parseHead_of_isPrefix hline (List.prefix_take_iff.mpr ⟨hpre, ?_⟩)
    exact (length_headLine_le hline).trans hn

theorem looksAt_isHead : LooksAt overlap isHead := fun b => by
  rw [isHead, parseHead_take (by decide), isHead]

theorem accepted_isHead (m : Medium) (p : ℕ) : accepted magic isHead m p = isHead (m.drop p) := by
  rw [accepted]
  by_cases hhead : isHead (m.drop p) = true
  · obtain ⟨h, hh⟩ := Option.isSome_iff_exists.mp hhead
    obtain ⟨ds, ls, hline, hpre⟩ := exists_line hh
    have hmagic : magic <+: m.drop p := (List.prefix_append _ _).trans hpre
    rw [hhead, List.isPrefixOf_iff_prefix.mpr hmagic]
    rfl
  · rw [Bool.eq_false_of_not_eq_true hhead, Bool.and_false]

theorem magic_ne_nil : magic ≠ [] := by decide

theorem scan_magic (m : Medium) :
    scan magic isHead m = some ((List.range (min (reached m) m.length)).filter
      fun p => isHead (m.drop p)) := by
  have hlen : magic.length ≤ overlap := by decide
  rw [scan_eq magic_ne_nil hlen looksAt_isHead, hits, funext (accepted_isHead m)]

theorem mem_scan_magic {m : Medium} {p : ℕ} :
    p ∈ (List.range (min (reached m) m.length)).filter (fun p => isHead (m.drop p)) ↔
      p < reached m ∧ isHead (m.drop p) = true := by
  rw [List.mem_filter, List.mem_range, lt_min_iff]
  refine and_congr_left fun hhead => and_iff_left_of_imp fun _ => ?_
  by_contra hlt
  rw [List.drop_eq_nil_of_le (Nat.not_lt.mp hlt)] at hhead
  exact absurd hhead (by decide)

/-- **A window is found** if its head is the only one that the search reaches. -/
theorem find_eq_ok {m : Medium} {at_ : ℕ} :
    find m = .ok (at_, h) ↔ parseHead (m.drop at_) = some h ∧ at_ < reached m ∧
      ∀ p < reached m, isHead (m.drop p) = true → p = at_ := by
  have hnodup : ((List.range (min (reached m) m.length)).filter
      fun p => isHead (m.drop p)).Nodup := List.nodup_range.filter _
  have hmem := @mem_scan_magic m
  rw [find, scan_magic, Option.getD_some]
  generalize (List.range (min (reached m) m.length)).filter (fun p => isHead (m.drop p)) = found
    at hnodup hmem ⊢
  have hread : ∀ p, parseHead (readAt m p 64) = parseHead (m.drop p) := fun p =>
    parseHead_take (by decide) _
  match found with
  | [] =>
    refine iff_of_false nofun fun hfound => ?_
    exact List.not_mem_nil (hmem.mpr ⟨hfound.2.1, Option.isSome_iff_exists.mpr ⟨h, hfound.1⟩⟩)
  | [p] =>
    dsimp only
    rw [hread]
    obtain ⟨hp, hhead⟩ := hmem.mp List.mem_cons_self
    obtain ⟨h', hh'⟩ := Option.isSome_iff_exists.mp hhead
    rw [hh']
    constructor
    · intro hok
      cases hok
      exact ⟨hh', hp, fun q hq hhead => List.mem_singleton.mp (hmem.mpr ⟨hq, hhead⟩)⟩
    · rintro ⟨hh, -, honly⟩
      obtain rfl := honly p hp hhead
      rw [hh'] at hh
      rw [Option.some_inj.mp hh]
  | p :: q :: rest =>
    refine iff_of_false nofun fun hfound => ?_
    obtain ⟨hp, hheadp⟩ := hmem.mp List.mem_cons_self
    obtain ⟨hq, hheadq⟩ := hmem.mp (List.mem_cons_of_mem p List.mem_cons_self)
    have hsame : p = q := (hfound.2.2 p hp hheadp).trans (hfound.2.2 q hq hheadq).symm
    exact (List.nodup_cons.mp hnodup).1 (hsame ▸ List.mem_cons_self)

/-- **What the search for a window comes to.** It is exact if and only if nothing that it looks for
begins in the rest of the last block, and a window is found if and only if there is exactly one head
before that rest. -/
theorem scan_exact_iff (m : Medium) {needle : Bytes} {ok : Bytes → Bool}
    (hlen : needle.length ≤ overlap) (hok : LooksAt overlap ok) :
    (scan needle ok m = some (hits needle ok m scanLimit) ↔
      (needle = [] → m = []) ∧ ∀ p, reached m ≤ p → p < min scanLimit m.length →
        accepted needle ok m p = false) ∧
    ((∃ r, find m = .ok r) ↔ ∃! p, p < reached m ∧ isHead (m.drop p) = true) := by
  refine ⟨scan_eq_hits_iff hlen hok m, ?_⟩
  constructor
  · rintro ⟨⟨p, h⟩, hfind⟩
    obtain ⟨hh, hp, honly⟩ := find_eq_ok.mp hfind
    exact ⟨p, ⟨hp, Option.isSome_iff_exists.mpr ⟨h, hh⟩⟩, fun q hq => honly q hq.1 hq.2⟩
  · rintro ⟨p, ⟨hp, hhead⟩, honly⟩
    obtain ⟨h, hh⟩ := Option.isSome_iff_exists.mp hhead
    exact ⟨(p, h), find_eq_ok.mpr ⟨hh, hp, fun q hq hhead => honly q ⟨hq, hhead⟩⟩⟩

/-- A head across the end of the first block. -/
def acrossBlocks : Medium := List.replicate (chunk - 4) 0 ++ headText 512 3

theorem isHead_acrossBlocks {p : ℕ} (h : isHead (acrossBlocks.drop p) = true) : p = chunk - 4 := by
  rcases Nat.lt_or_ge p (chunk - 4) with hlt | hge
  · -- a zero is no head
    have hcut : chunk - 4 - p = chunk - 5 - p + 1 := by omega
    rw [acrossBlocks, List.drop_append_of_le_length (by rw [List.length_replicate]; exact hlt.le),
      List.drop_replicate, hcut, List.replicate_succ] at h
    cases h
  · have htext : ∀ i < 35, isHead ((headText 512 3).drop i) = true → i = 0 := by decide
    have hcut : acrossBlocks.drop p = (headText 512 3).drop (p - (chunk - 4)) := by
      rw [acrossBlocks, List.drop_append, List.length_replicate,
        List.drop_eq_nil_of_le (by rw [List.length_replicate]; exact hge), List.nil_append]
    rw [hcut] at h
    rcases Nat.lt_or_ge (p - (chunk - 4)) 35 with hin | hout
    · have hzero := htext _ hin h
      omega
    · rw [List.drop_eq_nil_of_le (le_trans (by decide) hout)] at h
      cases h

/-- The search finds a head across a boundary, and nothing else. -/
theorem scan_exact_across :
    scan magic isHead acrossBlocks = some (hits magic isHead acrossBlocks scanLimit) ∧
      ∃ r, find acrossBlocks = .ok r := by
  have hlen : acrossBlocks.length = chunk + 31 := by
    rw [acrossBlocks, List.length_append, List.length_replicate]
    decide
  have hreached : reached acrossBlocks = chunk := by
    rw [reached, hlen]
    decide
  have hneedle : magic.length ≤ overlap := by decide
  obtain ⟨hscan, hfind⟩ := scan_exact_iff acrossBlocks hneedle looksAt_isHead
  refine ⟨hscan.mpr ⟨fun h => absurd h magic_ne_nil, fun p hp _ => ?_⟩,
    hfind.mpr ⟨chunk - 4, ⟨?_, ?_⟩, fun p hp => isHead_acrossBlocks hp.2⟩⟩
  · rw [accepted_isHead, Bool.eq_false_iff]
    intro hhead
    rw [isHead_acrossBlocks hhead, hreached] at hp
    exact absurd hp (by decide)
  · rw [hreached]
    decide
  · rw [acrossBlocks, List.drop_left' List.length_replicate]
    decide

/-- A byte that stands right behind the first block, at the end of the medium, is not found. -/
theorem scan_misses_last :
    ¬ scan [1] (fun _ => true) (List.replicate chunk 0 ++ [1]) =
      some (hits [1] (fun _ => true) (List.replicate chunk 0 ++ [1]) scanLimit) := by
  have hlen : (List.replicate chunk (0 : UInt8) ++ [1]).length = chunk + 1 := by
    rw [List.length_append, List.length_replicate, List.length_singleton]
  rw [scan_eq_hits_iff (by decide) fun _ => rfl]
  rintro ⟨-, hnone⟩
  have hreached : reached (List.replicate chunk 0 ++ [1]) ≤ chunk := by
    have hquotient : (chunk + 1 - overlap) / chunk = 0 := by decide
    rw [reached, hlen, hquotient]
    exact min_le_left _ _
  have hlast := hnone chunk hreached (by rw [hlen]; decide)
  rw [accepted, List.drop_left' List.length_replicate] at hlast
  exact absurd hlast (by decide)

end Hop.Cli.Image
