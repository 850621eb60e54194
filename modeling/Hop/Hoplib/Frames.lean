import Hop.Api.Stream
import Hop.Hoplib.Sse
import Hop.Types.JsonRound

/-!
# The frames of a stream

A frame of the API, as the reader of a subscriber takes it apart: the blank line that ends it is
the first one in it, its data are on one line and are UTF-8, and the JSON object in it is read back.
`heard_topicFrame` says that the frame of an event is heard as that event.
-/

namespace Hop.Hoplib

open Hop.Types
open Hop.Api (frame object topicFrame keepalive)

/-! ### Blank lines -/

/-- The first blank line, found from left to right. -/
def blank : Bytes → Option (ℕ × ℕ)
  | [] => none
  | b :: bs =>
    if [10, 10] <+: b :: bs then some (0, 2)
    else if [13, 10, 13, 10] <+: b :: bs then some (0, 4)
    else (blank bs).map fun p => (p.1 + 1, p.2 + 1)

theorem findBlankLine_eq (b : Bytes) : findBlankLine b = blank b := by
  induction b with
  | nil => rfl
  | cons c b ih =>
    rw [blank, ← ih, findBlankLine, findBlankLine, position, position]
    by_cases hlf : [10, 10] <+: c :: b
    · rw [if_pos hlf, if_pos hlf]
      rcases (if [13, 10, 13, 10] <+: c :: b then some 0
        else (position [13, 10, 13, 10] b).map (· + 1)) with _ | i
      · rfl
      · simp
    · rw [if_neg hlf, if_neg hlf]
      by_cases hcrlf : [13, 10, 13, 10] <+: c :: b
      · rw [if_pos hcrlf, if_pos hcrlf]
        rcases position [10, 10] b with _ | i
        · rfl
        · simp
      · rw [if_neg hcrlf, if_neg hcrlf]
        rcases position [10, 10] b with _ | i
        · rcases position [13, 10, 13, 10] b with _ | j
          · rfl
          · rfl
        · rcases position [13, 10, 13, 10] b with _ | j
          · rfl
          · simp only [Option.map_some, Nat.add_le_add_iff_right]
            split_ifs
            · rfl
            · rfl

theorem blank_bounds {b : Bytes} {i j : ℕ} (h : blank b = some (i, j)) : i ≤ j ∧ j ≤ b.length := by
  induction b generalizing i j with
  | nil => cases h
  | cons c b ih =>
    rw [blank] at h
    split_ifs at h with hlf hcrlf
    · cases h
      exact ⟨by omega, hlf.length_le⟩
    · cases h
      exact ⟨by omega, hcrlf.length_le⟩
    · obtain ⟨p, hp, heq⟩ := Option.map_eq_some_iff.mp h
      cases heq
      obtain ⟨hle, hlen⟩ := ih hp
      exact ⟨Nat.succ_le_succ hle, Nat.succ_le_succ hlen⟩

/-- A beginning of a blank line is none. -/
theorem blank_of_short {b pat : Bytes} (h : b <+: pat) (hlt : b.length < pat.length)
    (hpat : pat = [10, 10] ∨ pat = [13, 10, 13, 10]) : blank b = none := by
  rw [List.prefix_iff_eq_take.mp h]
  rcases hpat with rfl | rfl
  · have hlt' : b.length < 2 := hlt
    interval_cases b.length
    all_goals rfl
  · have hlt' : b.length < 4 := hlt
    interval_cases b.length
    all_goals rfl

theorem blank_append {b : Bytes} {p : ℕ × ℕ} (h : blank b = some p) (c : Bytes) :
    blank (b ++ c) = some p := by
  induction b generalizing p with
  | nil => cases h
  | cons x b ih =>
    have hgrow : ∀ pat : Bytes, pat = [10, 10] ∨ pat = [13, 10, 13, 10] →
        (pat <+: x :: (b ++ c) ↔ pat <+: x :: b) := by
      intro pat hpat
      refine ⟨fun hpre => ?_, fun hpre => hpre.trans (List.prefix_append (x :: b) c)⟩
      rcases Nat.lt_or_ge (x :: b).length pat.length with hlt | hle
      · have hshort : x :: b <+: pat :=
          List.prefix_of_prefix_length_le (List.prefix_append (x :: b) c) hpre hlt.le
        rw [blank_of_short hshort hlt hpat] at h
        cases h
      · exact List.prefix_of_prefix_length_le hpre (List.prefix_append (x :: b) c) hle
    rw [blank] at h
    simp only [List.cons_append, blank, hgrow _ (.inl rfl), hgrow _ (.inr rfl)]
    split_ifs at h ⊢
    · exact h
    · exact h
    · obtain ⟨p', hp', rfl⟩ := Option.map_eq_some_iff.mp h
      rw [ih hp']
      rfl

theorem blank_early {b c : Bytes} {i j : ℕ} (h : blank (b ++ c) = some (i, j))
    (hj : j ≤ b.length) : blank b = some (i, j) := by
  induction b generalizing i j with
  | nil =>
    rw [List.nil_append] at h
    have hpos : ∀ {d : Bytes} {i j : ℕ}, blank d = some (i, j) → 0 < j := by
      intro d i j hd
      rcases d with _ | ⟨x, d⟩
      · cases hd
      · rw [blank] at hd
        split_ifs at hd
        · cases hd
          decide
        · cases hd
          decide
        · obtain ⟨p, -, heq⟩ := Option.map_eq_some_iff.mp hd
          cases heq
          omega
    have := hpos h
    rw [List.length_nil] at hj
    omega
  | cons x b ih =>
    have hshrink : ∀ pat : Bytes, pat.length ≤ (x :: b).length → pat <+: x :: (b ++ c) →
        pat <+: x :: b :=
      fun pat hle hpre => List.prefix_of_prefix_length_le hpre (List.prefix_append (x :: b) c) hle
    have hgrow : ∀ pat : Bytes, pat <+: x :: b → pat <+: x :: (b ++ c) :=
      fun pat hpre => hpre.trans (List.prefix_append (x :: b) c)
    rw [List.cons_append, blank] at h
    rw [blank]
    split_ifs at h with hlf hcrlf
    · cases h
      rw [if_pos (hshrink [10, 10] hj hlf)]
    · cases h
      rw [if_neg fun hpre => hlf (hgrow _ hpre), if_pos (hshrink [13, 10, 13, 10] hj hcrlf)]
    · rw [if_neg fun hpre => hlf (hgrow _ hpre), if_neg fun hpre => hcrlf (hgrow _ hpre)]
      obtain ⟨⟨i', j'⟩, hp', heq⟩ := Option.map_eq_some_iff.mp h
      cases heq
      rw [ih hp' (Nat.le_of_succ_le_succ hj)]
      rfl

/-- Events are units that end with a blank line. -/
def blankLines : Cutter UInt8 where
  cut b := (blank b).map fun p => (b.take p.1, b.drop p.2)
  nil := rfl
  suffix h := by
    obtain ⟨p, -, heq⟩ := Option.map_eq_some_iff.mp h
    cases heq
    exact List.drop_suffix _ _
  append h c := by
    obtain ⟨⟨i, j⟩, hp, heq⟩ := Option.map_eq_some_iff.mp h
    cases heq
    obtain ⟨hij, hj⟩ := blank_bounds hp
    rw [blank_append hp, Option.map_some, List.take_append_of_le_length (hij.trans hj),
      List.drop_append_of_le_length hj]
  early {b c u r} h := by
    obtain ⟨⟨i, j⟩, hp, heq⟩ := Option.map_eq_some_iff.mp h
    obtain ⟨hu, hr⟩ := Prod.mk.inj heq
    obtain ⟨hij, hj⟩ := blank_bounds hp
    -- the rest has all of `c`, so the blank line ended before it
    have hle : j ≤ b.length := by
      have := congrArg List.length hr
      simp at this hj
      omega
    rw [blank_early hp hle, Option.map_some]
    dsimp only at hu hr
    rw [List.take_append_of_le_length (hij.trans hle)] at hu
    rw [List.drop_append_of_le_length hle] at hr
    rw [hu, List.append_cancel_right hr]

theorem cut_eq (b : Bytes) :
    blankLines.cut b = (blank b).map fun p => (b.take p.1, b.drop p.2) := rfl

/-! ### Frames -/

/-- A line: no line feed and no carriage return. -/
def Plain (l : Bytes) : Prop := ∀ b ∈ l, b ≠ 10 ∧ b ≠ 13

instance (l : Bytes) : Decidable (Plain l) := inferInstanceAs (Decidable (∀ b ∈ l, b ≠ 10 ∧ b ≠ 13))

theorem Plain.append {l l' : Bytes} (h : Plain l) (h' : Plain l') : Plain (l ++ l') :=
  fun b hb => (List.mem_append.mp hb).elim (h b) (h' b)

theorem blank_feeds (x : Bytes) : blank (10 :: 10 :: x) = some (0, 2) := by
  rw [blank, if_pos ⟨x, rfl⟩]

theorem blank_plain {l : Bytes} (h : Plain l) (x : Bytes) :
    blank (l ++ x) = (blank x).map fun p => (p.1 + l.length, p.2 + l.length) := by
  induction l with
  | nil => simp
  | cons b l ih =>
    obtain ⟨⟨h10, h13⟩, hl⟩ := List.forall_mem_cons.mp h
    rw [List.cons_append, blank, if_neg, if_neg, ih hl, Option.map_map]
    · rfl
    · intro hpre
      exact h13 (List.cons_prefix_cons.mp hpre).1.symm
    · intro hpre
      exact h10 (List.cons_prefix_cons.mp hpre).1.symm

/-- Two lines and a blank one. -/
theorem cut_two {l₁ l₂ : Bytes} (h₁ : Plain l₁) (h₂ : Plain l₂) (hne : l₂ ≠ []) (x : Bytes) :
    blankLines.cut (l₁ ++ 10 :: (l₂ ++ 10 :: 10 :: x)) = some (l₁ ++ 10 :: l₂, x) := by
  have hfeed : blank (10 :: (l₂ ++ 10 :: 10 :: x)) = some (l₂.length + 1, l₂.length + 3) := by
    obtain ⟨b, l, rfl⟩ := List.exists_cons_of_ne_nil hne
    rw [blank, if_neg, if_neg, blank_plain h₂, blank_feeds]
    · simp
      omega
    · intro hpre
      exact absurd (List.cons_prefix_cons.mp hpre).1 (by decide)
    · intro hpre
      have := (List.cons_prefix_cons.mp (List.cons_prefix_cons.mp hpre).2).1
      exact (h₂ b List.mem_cons_self).1 this.symm
  rw [cut_eq, blank_plain h₁, hfeed]
  have htext : l₁ ++ 10 :: (l₂ ++ 10 :: 10 :: x) = (l₁ ++ 10 :: l₂) ++ ([10, 10] ++ x) := by simp
  have hlen : l₂.length + 1 + l₁.length = (l₁ ++ 10 :: l₂).length := by
    simp
    omega
  have hlen' : l₂.length + 3 + l₁.length = (l₁ ++ 10 :: l₂ ++ [10, 10]).length := by
    simp
    omega
  simp only [Option.map_some, htext, hlen, hlen', List.take_left]
  rw [← List.append_assoc, List.drop_left]

/-- One line and a blank one. -/
theorem cut_one {l : Bytes} (h : Plain l) (x : Bytes) :
    blankLines.cut (l ++ 10 :: 10 :: x) = some (l, x) := by
  rw [cut_eq, blank_plain h, blank_feeds]
  have hlen : 2 + l.length = (l ++ [10, 10]).length := by
    simp
    omega
  have htext : l ++ 10 :: 10 :: x = l ++ [10, 10] ++ x := by simp
  simp only [Option.map_some, Nat.zero_add, List.take_left, hlen]
  rw [htext, List.drop_left]

theorem linesFrom_plain {l : Bytes} (h : Plain l) (cur x : Bytes) :
    linesFrom cur (l ++ x) = linesFrom (cur ++ l) x := by
  induction l generalizing cur with
  | nil => simp
  | cons b l ih =>
    obtain ⟨⟨h10, -⟩, hl⟩ := List.forall_mem_cons.mp h
    rw [List.cons_append, linesFrom, if_neg h10, ih hl]
    simp

theorem lines_two {l₁ l₂ : Bytes} (h₁ : Plain l₁) (h₂ : Plain l₂) (hne : l₂ ≠ []) :
    lines (l₁ ++ 10 :: l₂) = [l₁, l₂] := by
  have hlast : l₁.getLast? ≠ some 13 := fun hlast =>
    (h₁ 13 (List.mem_of_getLast? hlast)).2 rfl
  rw [lines, linesFrom_plain h₁, linesFrom, if_pos rfl, List.nil_append, if_neg hlast]
  have := linesFrom_plain h₂ [] []
  rw [List.append_nil, List.nil_append] at this
  rw [this, linesFrom, if_neg hne]

theorem splitColon_append {name : Bytes} (h : ∀ b ∈ name, b ≠ 58) (value : Bytes) :
    splitColon (name ++ 58 :: value) = (name, value) := by
  induction name with
  | nil => rw [List.nil_append, splitColon, if_pos rfl]
  | cons b name ih =>
    obtain ⟨hb, hname⟩ := List.forall_mem_cons.mp h
    rw [List.cons_append, splitColon, if_neg hb, ih hname]

set_option maxRecDepth 4000 in
/-- A frame is read as what was written. -/
theorem parse_frame {kind data : Bytes} (hk : Plain kind) (hd : Plain data) :
    parse (utf8 "event: " ++ kind ++ 10 :: (utf8 "data: " ++ data)) = some ⟨kind, data⟩ := by
  have hevent : Plain (utf8 "event: " ++ kind) := Plain.append (by decide) hk
  have hdata : Plain (utf8 "data: " ++ data) := Plain.append (by decide) hd
  have he : utf8 "event: " ++ kind = utf8 "event" ++ 58 :: (32 :: kind) := by
    rw [show utf8 "event: " = utf8 "event" ++ [58, 32] by decide]
    simp
  have hdt : utf8 "data: " ++ data = utf8 "data" ++ 58 :: (32 :: data) := by
    rw [show utf8 "data: " = utf8 "data" ++ [58, 32] by decide]
    simp
  have hfirst : parseLine {} (utf8 "event: " ++ kind) =
      { event := { kind := kind }, any := true } := by
    rw [parseLine, he, splitColon_append (by decide)]
    rfl
  have hsecond : parseLine { event := { kind := kind }, any := true } (utf8 "data: " ++ data) =
      { event := ⟨kind, data⟩, any := true, lines := 1 } := by
    rw [parseLine, hdt, splitColon_append (by decide)]
    rfl
  rw [parse, lines_two hevent hdata (by simp [show utf8 "data: " ≠ [] by decide]),
    List.foldl_cons, List.foldl_cons, hfirst, hsecond]
  rfl

/-! ### The text of an object -/

/-- A line of UTF-8. -/
def OneLine (b : Bytes) : Prop := Plain b ∧ ∃ cs, utf8Chars cs = b

theorem OneLine.append {a b : Bytes} (ha : OneLine a) (hb : OneLine b) : OneLine (a ++ b) := by
  obtain ⟨hpa, cs, hcs⟩ := ha
  obtain ⟨hpb, ds, hds⟩ := hb
  exact ⟨hpa.append hpb, cs ++ ds, by rw [utf8Chars_append, hcs, hds]⟩

theorem utf8Chars_ofNat {b : UInt8} (h : b < 128) : utf8Chars [Char.ofNat b.toNat] = [b] := by
  have hlt : b.toNat < 128 := UInt8.lt_iff_toNat_lt.mp h
  have hval : (Char.ofNat b.toNat).toNat = b.toNat := by
    have hvalid : b.toNat.isValidChar := .inl (by omega)
    rw [Char.ofNat, dif_pos hvalid]
    rfl
  rw [utf8Chars_cons, utf8EncodeChar_ascii (by omega), utf8Chars_nil, List.append_nil]
  congr 1
  apply UInt8.toNat_inj.mp
  rw [UInt32.toNat_toUInt8]
  change (Char.ofNat b.toNat).toNat % 256 = b.toNat
  omega

theorem oneLine_ascii {b : Bytes} (h : ∀ x ∈ b, 32 ≤ x ∧ x < 128) : OneLine b := by
  induction b with
  | nil => exact ⟨fun x hx => (nomatch hx), [], rfl⟩
  | cons x b ih =>
    obtain ⟨⟨hle, hlt⟩, hb⟩ := List.forall_mem_cons.mp h
    refine OneLine.append ⟨fun y hy => ?_, [Char.ofNat x.toNat], utf8Chars_ofNat hlt⟩ (ih hb)
    rw [List.mem_singleton.mp hy]
    constructor
    · rintro rfl
      exact absurd hle (by decide)
    · rintro rfl
      exact absurd hle (by decide)

theorem oneLine_all {b : Bytes} (h : (b.all fun x => decide (32 ≤ x ∧ x < 128)) = true) : OneLine b :=
  oneLine_ascii fun x hx => of_decide_eq_true (List.all_eq_true.mp h x hx)

theorem hexDigit_ascii (d : ℕ) (h : d < 16) : 32 ≤ Json.hexDigit d ∧ Json.hexDigit d < 128 := by
  interval_cases d
  all_goals decide

/-- What stands for a character stays on its line. -/
theorem oneLine_escaped {c : Char} {esc : Bytes} (h : Json.escaped c = some esc) : OneLine esc := by
  rw [Json.escaped] at h
  split_ifs at h
  all_goals
    cases h
    try exact oneLine_all (by decide)
  refine oneLine_ascii ?_
  have hdigit : ∀ n : ℕ, 32 ≤ Json.hexDigit (n % 16) ∧ Json.hexDigit (n % 16) < 128 :=
    fun n => hexDigit_ascii _ (Nat.mod_lt n (by decide))
  simp only [Json.hex04, List.forall_mem_cons]
  exact ⟨by decide, by decide, hdigit _, hdigit _, hdigit _, hdigit _, fun x hx => absurd hx List.not_mem_nil⟩

theorem oneLine_writeRuns (cs : List Char) : OneLine (Json.writeRuns [] cs) := by
  induction cs with
  | nil => exact oneLine_all (by decide)
  | cons c cs ih =>
    rw [Json.writeRuns]
    rcases he : Json.escaped c with _ | esc
    · dsimp only
      rw [Json.writeRuns_eq]
      refine OneLine.append ⟨fun b hb => ?_, [c], rfl⟩ ih
      have hmem : b ∈ String.utf8EncodeChar c := by
        rw [List.nil_append, utf8Chars_cons, utf8Chars_nil, List.append_nil] at hb
        exact hb
      have hplain := Json.isPlain_of_escaped_none he hmem
      simp only [Json.isPlain, decide_eq_true_eq] at hplain
      constructor
      · rintro rfl
        exact absurd hplain.2.2 (by decide)
      · rintro rfl
        exact absurd hplain.2.2 (by decide)
    · exact (oneLine_escaped he).append ih

theorem oneLine_writeString (s : String) : OneLine (Json.writeString s) :=
  OneLine.append (oneLine_all (b := [Json.quote]) (by decide)) (oneLine_writeRuns s.toList)

/-- An object with one field is what the writer of values makes of it. -/
theorem object_eq (k v : String) : object [(k, v)] = Json.write (.object [(k, .string v)]) := by
  simp only [object, Hop.Api.moreFields, Json.write, Json.writePairs]

theorem oneLine_object (k v : String) : OneLine (object [(k, v)]) := by
  have hobject : object [(k, v)] = [Json.openBrace] ++ (Json.writeString k ++ ([Json.colon] ++
      (Json.writeString v ++ [Json.closeBrace]))) := by
    simp [object, Hop.Api.moreFields]
  rw [hobject]
  have hbyte : ∀ x : UInt8, 32 ≤ x ∧ x < 128 → OneLine [x] := fun x hx =>
    oneLine_ascii fun y hy => List.mem_singleton.mp hy ▸ hx
  exact (hbyte _ (by decide)).append ((oneLine_writeString k).append ((hbyte _ (by decide)).append
    ((oneLine_writeString v).append (hbyte _ (by decide)))))

/-- The field of an object is read back. -/
theorem field_object (k v : String) (hlen : (object [(k, v)]).length ≤ Json.maxInput) :
    ∃ o, Json.parse (object [(k, v)]) = .ok o ∧ field o k = v := by
  have hfits : Json.Fits Json.maxDepth (.object [(k, .string v)]) := by
    refine ⟨List.nodup_singleton k, fun kv hkv => ?_⟩
    rw [List.mem_singleton.mp hkv]
    trivial
  rw [object_eq, Json.length_write] at hlen
  refine ⟨.object [(k, .string v)], ?_, ?_⟩
  · rw [object_eq]
    exact Json.parse_write hfits hlen
  · simp [field, Json.Value.asObject, Json.Value.asStr]

/-! ### The frames of the leader's events -/

/-- What a subscriber should hear of an event. -/
def heard : Lead.Event → Topic
  | .status => .status
  | .agent id => .agent id
  | .job name => .job name

/-- The topic of an event in the log. -/
def topicOf : Lead.Event → String
  | .status => ""
  | .agent id => "agent:" ++ id
  | .job name => "job:" ++ name

/-- No colon in the name of a job. -/
def NoColon : Lead.Event → Prop
  | .job name => ':' ∉ name.toList
  | _ => True

instance : (e : Lead.Event) → Decidable (NoColon e)
  | .status => isTrue trivial
  | .agent _ => isTrue trivial
  | .job name => inferInstanceAs (Decidable (':' ∉ name.toList))

/-- What the text of a frame is read as; what is not UTF-8 is dropped. -/
def readFrame (u : Bytes) : Option Event := if (fromUtf8 u).isSome then parse u else none

/-- A piece of a stream that is one unit, whatever follows, and not too large. -/
structure Whole (p u : Bytes) : Prop where
  cut : ∀ x, blankLines.cut (p ++ x) = some (u, x)
  size : p.length ≤ maxEventBytes

/-- A frame that a subscriber hears as this topic. -/
def Heard (f : Bytes) (t : Topic) : Prop :=
  ∃ u, Whole f u ∧ ∃ e, readFrame u = some e ∧ e.topic = .ok t

theorem frame_eq (kind data : Bytes) :
    frame kind data = utf8 "event: " ++ kind ++ 10 :: (utf8 "data: " ++ data ++ 10 :: [10]) := by
  rw [frame, show utf8 "\ndata: " = 10 :: utf8 "data: " by decide,
    show utf8 "\n\n" = [10, 10] by decide]
  simp

set_option maxRecDepth 4000 in
/-- A frame is one unit, and read as its kind and its data. -/
theorem frame_whole (kind data : Bytes) (hk : OneLine kind) (hd : OneLine data)
    (hlen : (frame kind data).length ≤ maxEventBytes) :
    ∃ u, Whole (frame kind data) u ∧ readFrame u = some ⟨kind, data⟩ := by
  refine ⟨utf8 "event: " ++ kind ++ 10 :: (utf8 "data: " ++ data), ⟨fun x => ?_, hlen⟩, ?_⟩
  · have h := @cut_two (utf8 "event: " ++ kind) (utf8 "data: " ++ data)
      (Plain.append (by decide) hk.1) (Plain.append (by decide) hd.1)
      (by simp [show utf8 "data: " ≠ [] by decide]) x
    rw [← h, frame_eq]
    simp
  · obtain ⟨ck, hck⟩ := hk.2
    obtain ⟨cd, hcd⟩ := hd.2
    have hutf8 : utf8 "event: " ++ kind ++ 10 :: (utf8 "data: " ++ data) =
        utf8Chars ("event: ".toList ++ ck ++ ['\n'] ++ ("data: ".toList ++ cd)) := by
      rw [utf8Chars_append, utf8Chars_append, utf8Chars_append, utf8Chars_append, hck, hcd,
        show utf8Chars ['\n'] = [10] by decide]
      simp [utf8]
    rw [readFrame, if_pos (by rw [hutf8, fromUtf8_utf8Chars]; rfl), parse_frame hk.1 hd.1]

set_option maxRecDepth 4000 in
theorem heard_status : Heard (frame (utf8 "status") (object [])) .status := by
  obtain ⟨u, hu, hread⟩ := frame_whole (utf8 "status") (object [])
    (oneLine_ascii (by decide)) (oneLine_ascii (by decide)) (by decide)
  exact ⟨u, hu, _, hread, rfl⟩

/-- The data of a frame fit the reader of JSON, if the frame fits the reader of events. -/
theorem data_le {kind data : Bytes} (hlen : (frame kind data).length ≤ maxEventBytes) :
    data.length ≤ Json.maxInput := by
  have : data.length ≤ (frame kind data).length := by
    simp only [frame, List.length_append]
    omega
  exact this.trans (hlen.trans (by decide))

set_option maxRecDepth 4000 in
theorem heard_agent {id : String}
    (hlen : (frame (utf8 "agent") (object [("id", id)])).length ≤ maxEventBytes) :
    Heard (frame (utf8 "agent") (object [("id", id)])) (.agent id) := by
  obtain ⟨u, hu, hread⟩ := frame_whole _ _ (oneLine_ascii (by decide)) (oneLine_object _ _) hlen
  obtain ⟨o, ho, hid⟩ := field_object "id" id (data_le hlen)
  refine ⟨u, hu, _, hread, ?_⟩
  rw [Event.topic]
  dsimp only
  rw [if_neg (by decide), if_neg (by decide), if_neg (by decide),
    if_neg (by decide), if_pos rfl, ho, Except.map, hid]

theorem topic_job (data : Bytes) : (Event.mk (utf8 "job") data).topic =
    (Json.parse data).map fun v => .job (field v "name") := by
  rw [Event.topic]
  dsimp only
  rw [if_neg (by decide), if_neg (by decide), if_pos rfl]

set_option maxRecDepth 4000 in
theorem heard_job {name : String}
    (hlen : (frame (utf8 "job") (object [("name", name)])).length ≤ maxEventBytes) :
    Heard (frame (utf8 "job") (object [("name", name)])) (.job name) := by
  obtain ⟨u, hu, hread⟩ := frame_whole _ _ (oneLine_ascii (by decide)) (oneLine_object _ _) hlen
  obtain ⟨o, ho, hname⟩ := field_object "name" name (data_le hlen)
  refine ⟨u, hu, _, hread, ?_⟩
  rw [topic_job, ho, Except.map, hname]

theorem stripPrefix_append (front cs : List Char) : Api.stripPrefix front (front ++ cs) = some cs := by
  rw [Api.stripPrefix, if_pos (List.prefix_append front cs), List.drop_left]

theorem splitColon_none {cs : List Char} (h : ':' ∉ cs) : Api.splitColon cs = none := by
  induction cs with
  | nil => rfl
  | cons c cs ih =>
    rw [List.mem_cons, not_or] at h
    rw [Api.splitColon, if_neg fun hc => h.1 hc.symm, ih h.2, Option.map_none]

/-- **A frame is heard as the event that it was made of.** -/
theorem heard_topicFrame {e : Lead.Event} (hcolon : NoColon e)
    (hlen : (topicFrame (topicOf e)).length ≤ maxEventBytes) :
    Heard (topicFrame (topicOf e)) (heard e) := by
  rcases e with _ | id | name
  · exact heard_status
  · have hframe : topicFrame ("agent:" ++ id) = frame (utf8 "agent") (object [("id", id)]) := by
      rw [topicFrame, String.toList_append, stripPrefix_append]
      simp only [String.ofList_toList]
    simp only [topicOf, hframe] at hlen ⊢
    exact heard_agent hlen
  · have hframe : topicFrame ("job:" ++ name) = frame (utf8 "job") (object [("name", name)]) := by
      have hother : Api.stripPrefix "agent:".toList ("job:".toList ++ name.toList) = none := by
        rw [Api.stripPrefix, if_neg]
        intro hpre
        exact absurd (List.cons_prefix_cons.mp hpre).1 (by decide)
      rw [topicFrame, String.toList_append, hother]
      dsimp only
      rw [stripPrefix_append]
      dsimp only
      rw [splitColon_none hcolon]
      simp only [String.ofList_toList]
    simp only [topicOf, hframe] at hlen ⊢
    exact heard_job hlen

set_option maxRecDepth 4000 in
theorem whole_keepalive : Whole keepalive (utf8 ": keepalive") := by
  refine ⟨fun x => ?_, by decide⟩
  have h := cut_one (l := utf8 ": keepalive") (by decide) x
  rw [← h, show keepalive = utf8 ": keepalive" ++ [10, 10] by decide]
  simp

theorem readFrame_keepalive : readFrame (utf8 ": keepalive") = none := by
  rw [readFrame, fromUtf8_utf8]
  decide

end Hop.Hoplib
