import Hop.Lib.Text

/-!
# The text format of metrics

The exposition format 0.0.4 of Prometheus, as a reader (`parse`): lines that end with a line feed;
a line is blank, a comment, the `HELP` or the `TYPE` of a metric, or a sample with its labels. Values
are decimal, an infinity or not a number. `Reads` says what a text is read as, piece by piece, and
`Faithful` that a text is read as a list of families: each one with its own head, and no two samples
alike.
-/

namespace Hop.Exposition

variable {name ds : List Char}

/-- A sample; its value and its time stand as they were written. -/
structure Sample where
  name : List Char
  labels : List (List Char × List Char)
  value : List Char
  stamp : Option (List Char) := none
deriving DecidableEq

/-- What a line says. -/
inductive Item
  | help (name text : List Char)
  | type (name kind : List Char)
  | sample (s : Sample)
deriving DecidableEq

/-! ### The grammar -/

def isBlank (c : Char) : Bool := decide (c = ' ') || decide (c = '\t')

def skipBlanks (text : List Char) : List Char := text.dropWhile isBlank

/-- The next word. -/
def word (text : List Char) : List Char × List Char := (skipBlanks text).span fun c => !isBlank c

def isLabelStart (c : Char) : Bool := c.isAlpha || decide (c = '_')

def isLabelChar (c : Char) : Bool := isLabelStart c || c.isDigit

/-- `[a-zA-Z_][a-zA-Z0-9_]*`. -/
def isLabel (name : List Char) : Bool := name.head?.any isLabelStart && name.all isLabelChar

def isNameChar (c : Char) : Bool := isLabelChar c || decide (c = ':')

/-- `[a-zA-Z_:][a-zA-Z0-9_:]*`. -/
def isName (name : List Char) : Bool :=
  name.head?.any (fun c => isLabelStart c || decide (c = ':')) && name.all isNameChar

/-- A number without its sign. -/
def unsigned : List Char → List Char
  | '+' :: ds => ds
  | '-' :: ds => ds
  | ds => ds

def isDigits (ds : List Char) : Bool := decide (ds ≠ []) && ds.all Char.isDigit

/-- Nothing, or an exponent. -/
def isExponent : List Char → Bool
  | [] => true
  | e :: ds => decide (e.toLower = 'e') && isDigits (unsigned ds)

/-- A decimal number without its sign. -/
def isDecimal (t : List Char) : Bool :=
  let (int, rest) := t.span Char.isDigit
  match rest with
  | '.' :: rest =>
    let (frac, rest) := rest.span Char.isDigit
    (decide (int ≠ []) || decide (frac ≠ [])) && isExponent rest
  | rest => decide (int ≠ []) && isExponent rest

/-- A value: a decimal number, an infinity, or not a number. -/
def isFloat (t : List Char) : Bool :=
  let t := unsigned t
  decide (t.map Char.toLower ∈
      [['i', 'n', 'f'], ['i', 'n', 'f', 'i', 'n', 'i', 't', 'y'], ['n', 'a', 'n']]) ||
    isDecimal t

/-- The character that an escape stands for. -/
def unescape (c : Char) : Option Char :=
  if c = '\\' then some '\\'
  else if c = '"' then some '"'
  else if c = 'n' then some '\n'
  else none

/-- The value of a label up to its closing quote; the flag says that a backslash is open. -/
def readValue : Bool → List Char → Option (List Char × List Char)
  | _, [] => none
  | true, c :: cs => (unescape c).bind fun d => (readValue false cs).map fun r => (d :: r.1, r.2)
  | false, c :: cs =>
    if c = '"' then some ([], cs)
    else if c = '\\' then readValue true cs
    else (readValue false cs).map fun r => (c :: r.1, r.2)

/-- What is behind a character, if that one is next. -/
def expect (c : Char) (text : List Char) : Option (List Char) :=
  match skipBlanks text with
  | [] => none
  | d :: rest => if d = c then some rest else none

/-- Labels up to the closing brace, of so many at most. -/
def readLabels : ℕ → List Char → Option (List (List Char × List Char) × List Char)
  | 0, _ => none
  | n + 1, text =>
    match expect '\x7d' text with
    | some rest => some ([], rest)
    | none => do
      let (name, rest) := (skipBlanks text).span isLabelChar
      guard (isLabel name)
      let rest ← expect '=' rest
      let rest ← expect '"' rest
      let (value, rest) ← readValue false rest
      match expect ',' rest with
      | some rest => do
        let (more, rest) ← readLabels n rest
        some ((name, value) :: more, rest)
      | none => do
        let rest ← expect '\x7d' rest
        some ([(name, value)], rest)

/-- The value and the time behind the labels. -/
def readTail (name : List Char) (labels : List (List Char × List Char)) (text : List Char) :
    Option Sample := do
  let (value, rest) := word text
  guard (isFloat value)
  let (stamp, rest) := word rest
  guard (skipBlanks rest = [])
  if stamp = [] then some ⟨name, labels, value, none⟩
  else if isDigits (unsigned stamp) then some ⟨name, labels, value, some stamp⟩
  else none

def readSample (line : List Char) : Option Sample := do
  let (name, rest) := line.span isNameChar
  guard (isName name)
  match expect '\x7b' rest with
  | some rest => do
    let (labels, rest) ← readLabels (rest.length + 1) rest
    readTail name labels rest
  | none => readTail name [] rest

/-- The text of a `HELP`, in which no quote is escaped. -/
def readHelp : Bool → List Char → Option (List Char)
  | false, [] => some []
  | true, [] => none
  | true, c :: cs =>
    if c = '\\' then (readHelp false cs).map ('\\' :: ·)
    else if c = 'n' then (readHelp false cs).map ('\n' :: ·)
    else none
  | false, c :: cs => if c = '\\' then readHelp true cs else (readHelp false cs).map (c :: ·)

/-- What stands behind a `#`. -/
def readComment (text : List Char) : Option (Option Item) :=
  let (key, rest) := word text
  if key = ['H', 'E', 'L', 'P'] then do
    let (name, rest) := word rest
    guard (isName name)
    let help ← readHelp false (skipBlanks rest)
    some (some (.help name help))
  else if key = ['T', 'Y', 'P', 'E'] then do
    let (name, rest) := word rest
    guard (isName name)
    let (kind, rest) := word rest
    guard (String.ofList kind ∈ ["counter", "gauge", "histogram", "summary", "untyped"])
    guard (skipBlanks rest = [])
    some (some (.type name kind))
  else some none

/-- A line; a blank one and a comment say nothing. -/
def readLine (line : List Char) : Option (Option Item) :=
  match skipBlanks line with
  | [] => some none
  | c :: rest =>
    if c = '#' then readComment rest
    else (readSample (c :: rest)).map fun s => some (.sample s)

/-- The lines of a text; each of them ends with a line feed. -/
def textLines : List Char → Option (List (List Char))
  | [] => some []
  | c :: cs =>
    if c = '\n' then (textLines cs).map ([] :: ·)
    else match textLines cs with
      | some (l :: ls) => some ((c :: l) :: ls)
      | _ => none

/-- What a text says. -/
def parse (text : List Char) : Option (List Item) :=
  (textLines text).bind fun ls => (ls.mapM readLine).map List.reduceOption

/-! ### Words -/

theorem span_append {p : Char → Bool} {a r : List Char} (ha : ∀ c ∈ a, p c = true)
    (hr : ∀ c, r.head? = some c → p c = false) : (a ++ r).span p = (a, r) := by
  rw [List.span_eq_takeWhile_dropWhile, List.takeWhile_append_of_pos ha,
    List.dropWhile_append_of_pos ha]
  rcases r with - | ⟨c, cs⟩
  · rw [List.takeWhile_nil, List.dropWhile_nil, List.append_nil]
  · have hc := Bool.not_eq_true _ ▸ hr c rfl
    rw [List.takeWhile_cons_of_neg hc, List.dropWhile_cons_of_neg hc, List.append_nil]

theorem span_append_cons {p : Char → Bool} {a : List Char} {d : Char} {r : List Char}
    (ha : ∀ c ∈ a, p c = true) (hd : p d = false) :
    (a ++ d :: r).span p = (a, d :: r) := by
  refine span_append ha fun c hc => ?_
  rw [← Option.some.inj hc]
  exact hd

/-- What starts with no blank is not skipped. -/
theorem skipBlanks_of_head {text : List Char} (h : ∀ c, text.head? = some c → isBlank c = false) :
    skipBlanks text = text := by
  rcases text with - | ⟨c, cs⟩
  · rfl
  · exact List.dropWhile_cons_of_neg (Bool.not_eq_true _ ▸ h c rfl)

/-- A word of no blanks, behind one blank. -/
theorem word_append {w r : List Char} (hw : ∀ c ∈ w, isBlank c = false)
    (hr : ∀ c, r.head? = some c → isBlank c = true) (hne : w ≠ [] ∨ r = []) :
    word (' ' :: (w ++ r)) = (w, r) := by
  have hskip : skipBlanks (' ' :: (w ++ r)) = w ++ r := by
    refine (List.dropWhile_cons_of_pos rfl).trans (skipBlanks_of_head fun c hc => ?_)
    rcases w with - | ⟨d, ds⟩
    · rcases hne with hne | rfl
      · exact absurd rfl hne
      · cases hc
    · rw [← Option.some.inj hc]
      exact hw d List.mem_cons_self
  rw [word, hskip]
  refine span_append (fun c hc => ?_) fun c hc => ?_
  · rw [hw c hc]
    rfl
  · rw [hr c hc]
    rfl

theorem isBlank_of_isLabelChar {c : Char} (h : isNameChar c = true) : isBlank c = false := by
  by_contra hblank
  rw [Bool.not_eq_false, isBlank, Bool.or_eq_true, decide_eq_true_iff, decide_eq_true_iff] at hblank
  rcases hblank with rfl | rfl
  · exact absurd h (by decide)
  · exact absurd h (by decide)

theorem isNameChar_of_mem (h : isName name = true) :
    ∀ c ∈ name, isNameChar c = true := by
  rw [isName, Bool.and_eq_true, List.all_eq_true] at h
  exact h.2

theorem isLabelChar_of_mem (h : isLabel name = true) :
    ∀ c ∈ name, isLabelChar c = true := by
  rw [isLabel, Bool.and_eq_true, List.all_eq_true] at h
  exact h.2

theorem isNameChar_of_isLabelChar {c : Char} (h : isLabelChar c = true) : isNameChar c = true := by
  rw [isNameChar, h, Bool.true_or]

theorem ne_nil_of_isName (h : isName name = true) : name ≠ [] := by
  rintro rfl
  cases h

theorem ne_nil_of_isLabel (h : isLabel name = true) : name ≠ [] := by
  rintro rfl
  cases h

/-- What starts with a character of a name is not skipped. -/
theorem skipBlanks_name {rest : List Char} (hne : name ≠ []) (h : ∀ c ∈ name, isNameChar c = true) :
    skipBlanks (name ++ rest) = name ++ rest := by
  refine skipBlanks_of_head fun c hc => ?_
  rcases name with - | ⟨d, ds⟩
  · exact absurd rfl hne
  · rw [← Option.some.inj hc]
    exact isBlank_of_isLabelChar (h d List.mem_cons_self)

/-- What can be computed of the characters of a text, for the text. -/
theorem of_chars {p : List Char → Bool} {s : String} {cs : List Char} (hs : s = String.ofList cs)
    (hcs : p cs = true) : p s.toList = true := by
  rw [hs, String.toList_ofList]
  exact hcs

/-! ### Samples -/

/-- A character of a label value as it is written. -/
def escape (c : Char) : List Char :=
  if c = '\\' then ['\\', '\\']
  else if c = '"' then ['\\', '"']
  else if c = '\n' then ['\\', 'n']
  else [c]

/-- A label value as it is written. -/
def escaped (v : List Char) : List Char := v.flatMap escape

def labelText (l : List Char × List Char) : List Char := l.1 ++ '=' :: '"' :: (escaped l.2 ++ ['"'])

def labelsText : List (List Char × List Char) → List Char
  | [] => []
  | l :: ls => '\x7b' :: (labelText l ++ ((ls.flatMap fun l => ',' :: labelText l) ++ ['\x7d']))

/-- A sample as it is written. -/
def Sample.text (s : Sample) : List Char := s.name ++ (labelsText s.labels ++ ' ' :: s.value)

/-- A value in one piece. -/
def isValue (t : List Char) : Bool := isFloat t && t.all fun c => !isBlank c && decide (c ≠ '\n')

/-- A sample that can be written. -/
structure Sample.Valid (s : Sample) : Prop where
  name : isName s.name = true
  labels : ∀ l ∈ s.labels, isLabel l.1 = true
  value : isValue s.value = true
  stamp : s.stamp = none

/-- **A label value is read as it was**, whatever its characters. -/
theorem readValue_escaped (v rest : List Char) :
    readValue false (escaped v ++ '"' :: rest) = some (v, rest) := by
  induction v with
  | nil => rfl
  | cons c v ih =>
    have hcons : escaped (c :: v) ++ '"' :: rest = escape c ++ (escaped v ++ '"' :: rest) := by
      rw [escaped, List.flatMap_cons, List.append_assoc]
      rfl
    -- what an escape is read as
    have hescape : ∀ e, unescape e = some c →
        readValue false ('\\' :: e :: (escaped v ++ '"' :: rest)) = some (c :: v, rest) := by
      intro e he
      rw [readValue, if_neg (by decide), if_pos rfl, readValue, he, ih]
      rfl
    rw [hcons, escape]
    split_ifs with hslash hquote hfeed
    · subst hslash
      exact hescape '\\' rfl
    · subst hquote
      exact hescape '"' rfl
    · subst hfeed
      exact hescape 'n' rfl
    · rw [List.singleton_append, readValue, if_neg hquote, if_neg hslash, ih]
      rfl

theorem newline_not_mem_escaped (v : List Char) : '\n' ∉ escaped v := by
  intro h
  obtain ⟨c, -, hc⟩ := List.mem_flatMap.mp h
  rw [escape] at hc
  split_ifs at hc with hslash hquote hfeed
  · exact absurd hc (by decide)
  · exact absurd hc (by decide)
  · exact absurd hc (by decide)
  · exact hfeed (List.mem_singleton.mp hc).symm

theorem expect_of_ne {c d : Char} {rest : List Char} (hblank : isBlank d = false) (hne : d ≠ c) :
    expect c (d :: rest) = none := by
  rw [expect, skipBlanks_of_head]
  · exact if_neg hne
  · intro e he
    rw [← Option.some.inj he]
    exact hblank

/-- One label, and what stands behind it. -/
theorem readLabels_label {l : List Char × List Char} (h : isLabel l.1 = true) (n : ℕ)
    (rest : List Char) : readLabels (n + 1) (labelText l ++ rest) =
      match expect ',' rest with
      | some rest => (readLabels n rest).map fun r => (l :: r.1, r.2)
      | none => (expect '\x7d' rest).map fun rest => ([l], rest) := by
  obtain ⟨name, v⟩ := l
  have hchars := isLabelChar_of_mem h
  have hskip : ∀ tail : List Char, skipBlanks (name ++ tail) = name ++ tail := fun tail =>
    skipBlanks_name (ne_nil_of_isLabel h) fun c hc => isNameChar_of_isLabelChar (hchars c hc)
  have hopen : ∀ tail : List Char, expect '\x7d' (name ++ tail) = none := by
    intro tail
    rcases hname : name with - | ⟨c, cs⟩
    · exact absurd hname (ne_nil_of_isLabel h)
    · have hc := isNameChar_of_isLabelChar (hchars c (hname ▸ List.mem_cons_self))
      refine expect_of_ne (isBlank_of_isLabelChar hc) ?_
      rintro rfl
      exact absurd hc (by decide)
  have hspan : ∀ tail : List Char, (name ++ '=' :: tail).span isLabelChar = (name, '=' :: tail) :=
    fun tail => span_append_cons hchars (by decide)
  have htext : labelText (name, v) ++ rest = name ++ '=' :: '"' :: (escaped v ++ '"' :: rest) := by
    rw [labelText]
    simp only [List.append_assoc, List.cons_append, List.nil_append]
  rw [htext, readLabels, hopen, hskip, hspan]
  have hequal : ∀ tail : List Char, expect '=' ('=' :: tail) = some tail := fun _ => rfl
  have hquote : ∀ tail : List Char, expect '"' ('"' :: tail) = some tail := fun _ => rfl
  dsimp only
  rw [h, guard, if_pos rfl]
  simp only [pure_bind, Option.bind_eq_bind, hequal, hquote, readValue_escaped, Option.bind_some]
  rcases expect ',' rest with - | rest'
  · rcases expect '\x7d' rest with - | rest'
    · rfl
    · rfl
  · dsimp only
    rcases readLabels n rest' with - | r
    · rfl
    · rfl

/-- Labels are read as they were. -/
theorem readLabels_text {l : List Char × List Char} {ls : List (List Char × List Char)}
    (h : ∀ k ∈ l :: ls, isLabel k.1 = true) {n : ℕ} (hn : ls.length < n) (rest : List Char) :
    readLabels n (labelText l ++ ((ls.flatMap fun l => ',' :: labelText l) ++ '\x7d' :: rest)) =
      some (l :: ls, rest) := by
  induction ls generalizing l n with
  | nil =>
    obtain ⟨n, rfl⟩ := Nat.exists_eq_succ_of_ne_zero (Nat.ne_of_gt hn)
    rw [readLabels_label (h l List.mem_cons_self)]
    rfl
  | cons k ls ih =>
    obtain ⟨n, rfl⟩ := Nat.exists_eq_succ_of_ne_zero (Nat.ne_of_gt (Nat.zero_lt_of_lt hn))
    rw [readLabels_label (h l List.mem_cons_self), List.flatMap_cons]
    have hcomma : expect ',' (',' :: labelText k ++ (ls.flatMap fun l => ',' :: labelText l) ++
        '\x7d' :: rest) = some (labelText k ++ ((ls.flatMap fun l => ',' :: labelText l) ++
          '\x7d' :: rest)) := by
      rw [List.cons_append, List.cons_append, List.append_assoc]
      rfl
    rw [hcomma]
    dsimp only
    rw [ih (fun k hk => h k (List.mem_cons_of_mem _ hk)) (Nat.lt_of_succ_lt_succ hn)]
    rfl

theorem readTail_value {value : List Char} (h : isValue value = true) (name : List Char)
    (labels : List (List Char × List Char)) :
    readTail name labels (' ' :: value) = some ⟨name, labels, value, none⟩ := by
  rw [isValue, Bool.and_eq_true, List.all_eq_true] at h
  have hword : word (' ' :: value) = (value, []) := by
    have hword := word_append (w := value) (r := []) (fun c hc => ?_) nofun (.inr rfl)
    · rwa [List.append_nil] at hword
    · have hc := h.2 c hc
      rw [Bool.and_eq_true, Bool.not_eq_true'] at hc
      exact hc.1
  rw [readTail, hword]
  dsimp only
  rw [h.1]
  rfl

/-- A label is at least one character long. -/
theorem length_le_labels (ls : List (List Char × List Char)) :
    ls.length ≤ (ls.flatMap fun l => ',' :: labelText l).length := by
  induction ls with
  | nil => exact le_rfl
  | cons l ls ih =>
    rw [List.flatMap_cons, List.length_append, List.length_cons, List.length_cons]
    omega

/-- A value does not open labels. -/
theorem expect_brace {value : List Char} (h : isValue value = true) :
    expect '\x7b' (' ' :: value) = none := by
  rw [isValue, Bool.and_eq_true, List.all_eq_true] at h
  rcases value with - | ⟨c, cs⟩
  · rfl
  · have hc := h.2 c List.mem_cons_self
    rw [Bool.and_eq_true, Bool.not_eq_true'] at hc
    refine (expect_of_ne hc.1 ?_ : expect '\x7b' (c :: cs) = none)
    rintro rfl
    have hfalse : isFloat ('\x7b' :: cs) = false := rfl
    rw [hfalse] at h
    cases h.1

/-- **A sample is read as it was.** -/
theorem readSample_text {s : Sample} (h : s.Valid) : readSample s.text = some s := by
  obtain ⟨name, labels, value, stamp⟩ := s
  obtain ⟨hname, hlabels, hvalue, hstamp⟩ := h
  dsimp only at hname hlabels hvalue hstamp
  subst hstamp
  rw [Sample.text, readSample]
  dsimp only
  rcases labels with - | ⟨l, ls⟩
  · rw [labelsText, List.nil_append, span_append_cons (isNameChar_of_mem hname) (by decide)]
    dsimp only
    rw [hname, guard, if_pos rfl]
    have hvalueHead : expect '\x7b' (' ' :: value) = none := expect_brace hvalue
    rw [pure_bind, hvalueHead]
    exact readTail_value hvalue name []
  · rw [labelsText, List.cons_append, span_append_cons (isNameChar_of_mem hname) (by decide)]
    dsimp only
    rw [hname, guard, if_pos rfl, pure_bind]
    have hopen : ∀ tail : List Char, expect '\x7b' ('\x7b' :: tail) = some tail := fun _ => rfl
    rw [hopen]
    dsimp only
    have htext : labelText l ++ ((ls.flatMap fun l => ',' :: labelText l) ++ ['\x7d']) ++
        ' ' :: value = labelText l ++ ((ls.flatMap fun l => ',' :: labelText l) ++
          '\x7d' :: ' ' :: value) := by
      simp only [List.append_assoc, List.cons_append, List.nil_append]
    rw [htext, readLabels_text hlabels]
    · exact readTail_value hvalue name (l :: ls)
    · refine Nat.lt_succ_of_le ?_
      have hls := length_le_labels ls
      rw [List.length_append, List.length_append]
      omega

/-- The head of a sample: it is neither blank nor a comment. -/
theorem readLine_text {s : Sample} (h : s.Valid) : readLine s.text = some (some (.sample s)) := by
  have hread := readSample_text h
  have hskip : skipBlanks s.text = s.text :=
    skipBlanks_name (ne_nil_of_isName h.name) (isNameChar_of_mem h.name)
  rw [readLine, hskip]
  rcases hname : s.name with - | ⟨c, cs⟩
  · exact absurd hname (ne_nil_of_isName h.name)
  · have htext : s.text = c :: (cs ++ (labelsText s.labels ++ ' ' :: s.value)) := by
      rw [Sample.text, hname, List.cons_append]
    have hc := isNameChar_of_mem h.name c (hname ▸ List.mem_cons_self)
    rw [htext] at hread ⊢
    dsimp only
    rw [if_neg, hread]
    · rfl
    · rintro rfl
      exact absurd hc (by decide)

theorem newline_not_mem_name (h : ∀ c ∈ name, isNameChar c = true) :
    '\n' ∉ name := fun hmem => absurd (h _ hmem) (by decide)

theorem newline_not_mem_text {s : Sample} (h : s.Valid) : '\n' ∉ s.text := by
  have hlabel : ∀ l ∈ s.labels, '\n' ∉ labelText l := by
    intro l hl hmem
    rw [labelText] at hmem
    rcases List.mem_append.mp hmem with hmem | hmem
    · refine newline_not_mem_name (fun c hc => ?_) hmem
      exact isNameChar_of_isLabelChar (isLabelChar_of_mem (h.labels l hl) c hc)
    · rcases List.mem_cons.mp hmem with hmem | hmem
      · exact absurd hmem (by decide)
      rcases List.mem_cons.mp hmem with hmem | hmem
      · exact absurd hmem (by decide)
      rcases List.mem_append.mp hmem with hmem | hmem
      · exact newline_not_mem_escaped _ hmem
      · exact absurd hmem (by decide)
  have hlabels : '\n' ∉ labelsText s.labels := by
    rcases hls : s.labels with - | ⟨l, ls⟩
    · exact List.not_mem_nil
    rw [hls] at hlabel
    intro hmem
    rw [labelsText] at hmem
    rcases List.mem_cons.mp hmem with hmem | hmem
    · exact absurd hmem (by decide)
    rcases List.mem_append.mp hmem with hmem | hmem
    · exact hlabel l List.mem_cons_self hmem
    rcases List.mem_append.mp hmem with hmem | hmem
    · obtain ⟨k, hk, hmem⟩ := List.mem_flatMap.mp hmem
      rcases List.mem_cons.mp hmem with hmem | hmem
      · exact absurd hmem (by decide)
      · exact hlabel k (List.mem_cons_of_mem _ hk) hmem
    · exact absurd hmem (by decide)
  intro hmem
  rw [Sample.text] at hmem
  rcases List.mem_append.mp hmem with hmem | hmem
  · exact newline_not_mem_name (isNameChar_of_mem h.name) hmem
  rcases List.mem_append.mp hmem with hmem | hmem
  · exact hlabels hmem
  rcases List.mem_cons.mp hmem with hmem | hmem
  · exact absurd hmem (by decide)
  · have hvalue := h.value
    rw [isValue, Bool.and_eq_true, List.all_eq_true] at hvalue
    have hfeed := hvalue.2 _ hmem
    rw [Bool.and_eq_true, decide_eq_true_iff] at hfeed
    exact hfeed.2 rfl

/-! ### Heads -/

/-- A text that needs no escape in a `HELP`. -/
def isPlain (text : List Char) : Bool := text.all fun c => decide (c ≠ '\\' ∧ c ≠ '\n')

/-- A text for a `HELP`. -/
def isHelp (text : List Char) : Bool := isPlain text && text.head?.all fun c => !isBlank c

def isKind (kind : List Char) : Bool :=
  decide (String.ofList kind ∈ ["counter", "gauge", "histogram", "summary", "untyped"]) &&
    kind.all isLabelChar

def helpText (name text : List Char) : List Char :=
  ['#', ' ', 'H', 'E', 'L', 'P', ' '] ++ (name ++ ' ' :: text)

def typeText (name kind : List Char) : List Char :=
  ['#', ' ', 'T', 'Y', 'P', 'E', ' '] ++ (name ++ ' ' :: kind)

theorem isPlain_append {a b : List Char} (ha : isPlain a = true) (hb : isPlain b = true) :
    isPlain (a ++ b) = true := by
  rw [isPlain] at ha hb ⊢
  rw [List.all_append, ha, hb]
  rfl

theorem isHelp_append {a b : List Char} (ha : isHelp a = true) (hne : a ≠ [])
    (hb : isPlain b = true) : isHelp (a ++ b) = true := by
  rw [isHelp, Bool.and_eq_true] at ha ⊢
  rw [List.head?_append_of_ne_nil _ hne]
  exact ⟨isPlain_append ha.1 hb, ha.2⟩

theorem readHelp_of_plain {text : List Char} (h : ∀ c ∈ text, c ≠ '\\') :
    readHelp false text = some text := by
  induction text with
  | nil => rfl
  | cons c cs ih =>
    rw [readHelp, if_neg (h c List.mem_cons_self), ih fun d hd => h d (List.mem_cons_of_mem _ hd)]
    rfl

theorem word_name {rest : List Char} (h : isName name = true)
    (hrest : ∀ c, rest.head? = some c → isBlank c = true) :
    word (' ' :: (name ++ rest)) = (name, rest) :=
  word_append (fun c hc => isBlank_of_isLabelChar (isNameChar_of_mem h c hc)) hrest
    (.inl (ne_nil_of_isName h))

theorem blank_head {text : List Char} : ∀ c, (' ' :: text).head? = some c → isBlank c = true := by
  intro c hc
  rw [← Option.some.inj hc]
  rfl

theorem readLine_help {text : List Char} (hname : isName name = true) (htext : isHelp text = true) :
    readLine (helpText name text) = some (some (.help name text)) := by
  rw [isHelp, isPlain, Bool.and_eq_true, List.all_eq_true] at htext
  have hkey : ∀ rest, word (' ' :: 'H' :: 'E' :: 'L' :: 'P' :: ' ' :: rest) =
      (['H', 'E', 'L', 'P'], ' ' :: rest) := fun rest =>
    word_append (w := ['H', 'E', 'L', 'P']) (by simp [isBlank]) blank_head (.inl nofun)
  have hskip : skipBlanks (' ' :: text) = text := by
    refine (List.dropWhile_cons_of_pos rfl).trans (skipBlanks_of_head fun c hc => ?_)
    have hhead := htext.2
    rw [hc] at hhead
    exact Bool.not_eq_true' _ ▸ hhead
  have hplain : readHelp false text = some text := readHelp_of_plain fun c hc =>
    (of_decide_eq_true (htext.1 c hc)).1
  have hline : readLine (helpText name text) =
      readComment (' ' :: 'H' :: 'E' :: 'L' :: 'P' :: ' ' :: (name ++ ' ' :: text)) := rfl
  rw [hline, readComment, hkey]
  dsimp only
  rw [if_pos rfl, word_name hname blank_head]
  dsimp only
  rw [hname, hskip, hplain]
  rfl

theorem readLine_type {kind : List Char} (hname : isName name = true) (hkind : isKind kind = true) :
    readLine (typeText name kind) = some (some (.type name kind)) := by
  rw [isKind, Bool.and_eq_true, decide_eq_true_iff, List.all_eq_true] at hkind
  have hkey : ∀ rest, word (' ' :: 'T' :: 'Y' :: 'P' :: 'E' :: ' ' :: rest) =
      (['T', 'Y', 'P', 'E'], ' ' :: rest) := fun rest =>
    word_append (w := ['T', 'Y', 'P', 'E']) (by simp [isBlank]) blank_head (.inl nofun)
  have hword : word (' ' :: kind) = (kind, []) := by
    have hword := word_append (w := kind) (r := []) (fun c hc => ?_) nofun (.inr rfl)
    · rwa [List.append_nil] at hword
    · exact isBlank_of_isLabelChar (isNameChar_of_isLabelChar (hkind.2 c hc))
  have hline : readLine (typeText name kind) =
      readComment (' ' :: 'T' :: 'Y' :: 'P' :: 'E' :: ' ' :: (name ++ ' ' :: kind)) := rfl
  rw [hline, readComment, hkey]
  dsimp only
  rw [if_neg (by decide), if_pos rfl, word_name hname blank_head]
  dsimp only
  have hguard : (guard (String.ofList kind ∈ ["counter", "gauge", "histogram", "summary", "untyped"]) :
      Option Unit) = some () := if_pos hkind.1
  rw [hname, hword]
  dsimp only
  rw [hguard]
  rfl

theorem newline_not_mem_helpText {text : List Char} (hname : isName name = true)
    (htext : isHelp text = true) : '\n' ∉ helpText name text := by
  rw [isHelp, isPlain, Bool.and_eq_true, List.all_eq_true] at htext
  intro hmem
  rw [helpText] at hmem
  rcases List.mem_append.mp hmem with hmem | hmem
  · exact absurd hmem (by decide)
  rcases List.mem_append.mp hmem with hmem | hmem
  · exact newline_not_mem_name (isNameChar_of_mem hname) hmem
  rcases List.mem_cons.mp hmem with hmem | hmem
  · exact absurd hmem (by decide)
  · exact (of_decide_eq_true (htext.1 _ hmem)).2 rfl

theorem newline_not_mem_typeText {kind : List Char} (hname : isName name = true)
    (hkind : isKind kind = true) : '\n' ∉ typeText name kind := by
  rw [isKind, Bool.and_eq_true, List.all_eq_true] at hkind
  intro hmem
  rw [typeText] at hmem
  rcases List.mem_append.mp hmem with hmem | hmem
  · exact absurd hmem (by decide)
  rcases List.mem_append.mp hmem with hmem | hmem
  · exact newline_not_mem_name (isNameChar_of_mem hname) hmem
  rcases List.mem_cons.mp hmem with hmem | hmem
  · exact absurd hmem (by decide)
  · exact newline_not_mem_name (fun c hc => isNameChar_of_isLabelChar (hkind.2 c hc)) hmem

/-! ### Texts, piece by piece -/

/-- A text of whole lines, and what they say. -/
inductive Reads : List Char → List Item → Prop
  | nil : Reads [] []
  | line {l rest : List Char} {items : List Item} (item : Option Item) (hl : '\n' ∉ l)
      (hread : readLine l = some item) (hrest : Reads rest items) :
      Reads (l ++ '\n' :: rest) (item.toList ++ items)

theorem textLines_append {l : List Char} (h : '\n' ∉ l) (rest : List Char) :
    textLines (l ++ '\n' :: rest) = (textLines rest).map (l :: ·) := by
  induction l with
  | nil => exact if_pos rfl
  | cons c l ih =>
    obtain ⟨hne, hl⟩ := not_or.mp (List.mem_cons.not.mp h)
    rw [List.cons_append, textLines, if_neg (Ne.symm hne), ih hl]
    rcases textLines rest with - | ls
    · rfl
    · rfl

namespace Reads

variable {text text' : List Char} {items items' : List Item}

/-- **What a text is read as.** -/
theorem parse (h : Reads text items) : Exposition.parse text = some items := by
  induction h with
  | nil => rfl
  | @line l rest items item hl hread hrest ih =>
    rw [Exposition.parse] at ih ⊢
    obtain ⟨ls, hls, hitems⟩ := Option.bind_eq_some_iff.mp ih
    obtain ⟨read, hmap, hread'⟩ := Option.map_eq_some_iff.mp hitems
    rw [textLines_append hl, hls, Option.map_some, Option.bind_some, List.mapM_cons, hread]
    rw [← hread', Option.bind_eq_bind, Option.bind_some, hmap]
    rcases item with - | item
    · rfl
    · rfl

theorem append (h : Reads text items) (h' : Reads text' items') :
    Reads (text ++ text') (items ++ items') := by
  induction h with
  | nil => exact h'
  | line item hl hread hrest ih =>
    rw [List.append_assoc, List.cons_append, List.append_assoc]
    exact .line item hl hread ih

theorem flatMap {α : Type} (xs : List α) {f : α → List Char} {g : α → List Item}
    (h : ∀ x ∈ xs, Reads (f x) (g x)) : Reads (xs.flatMap f) (xs.flatMap g) := by
  induction xs with
  | nil => exact .nil
  | cons x xs ih =>
    rw [List.flatMap_cons, List.flatMap_cons]
    exact (h x List.mem_cons_self).append (ih fun y hy => h y (List.mem_cons_of_mem _ hy))

/-- A blank line says nothing. -/
theorem blank : Reads ['\n'] [] := .line (l := []) none List.not_mem_nil rfl .nil

theorem sample {s : Sample} (h : s.Valid) : Reads (s.text ++ ['\n']) [.sample s] :=
  .line (some (.sample s)) (newline_not_mem_text h) (readLine_text h) .nil

/-- Samples are read one by one. -/
theorem samples {α : Type} (xs : List α) {f : α → List Char} {g : α → Sample}
    (htext : ∀ x ∈ xs, f x = (g x).text ++ ['\n']) (h : ∀ x ∈ xs, (g x).Valid) :
    Reads (xs.flatMap f) ((xs.map g).map .sample) := by
  have hreads := flatMap xs (f := f) (g := fun x => [.sample (g x)]) fun x hx => by
    rw [htext x hx]
    exact sample (h x hx)
  rw [List.map_map]
  rwa [← List.map_eq_flatMap] at hreads

theorem head {help kind : List Char} (hname : isName name = true) (hhelp : isHelp help = true)
    (hkind : isKind kind = true) :
    Reads (helpText name help ++ '\n' :: (typeText name kind ++ ['\n']))
      [.help name help, .type name kind] :=
  .line (some (.help name help)) (newline_not_mem_helpText hname hhelp) (readLine_help hname hhelp)
    (.line (some (.type name kind)) (newline_not_mem_typeText hname hkind)
      (readLine_type hname hkind) .nil)

/-- The head of a metric as one text. -/
theorem head_text {name help kind : String} (hname : isName name.toList = true)
    (hhelp : isHelp help.toList = true) (hkind : isKind kind.toList = true) :
    Reads ("# HELP " ++ name ++ " " ++ help ++ "\n# TYPE " ++ name ++ " " ++ kind ++ "\n").toList
      [.help name.toList help.toList, .type name.toList kind.toList] := by
  have hread := head hname hhelp hkind
  have hopen : "# HELP ".toList = ['#', ' ', 'H', 'E', 'L', 'P', ' '] := rfl
  have htype : "\n# TYPE ".toList = ['\n', '#', ' ', 'T', 'Y', 'P', 'E', ' '] := rfl
  have hblank : " ".toList = [' '] := rfl
  have hfeed : "\n".toList = ['\n'] := rfl
  simp only [helpText, typeText, List.append_assoc, List.cons_append, List.nil_append] at hread
  simp only [String.toList_append, hopen, htype, hblank, hfeed, List.append_assoc, List.cons_append,
    List.nil_append]
  exact hread

end Reads

/-! ### Numbers -/

/-- A decimal number with a point. -/
def Pointed (t : List Char) : Prop :=
  ∃ sign int frac, (sign = [] ∨ sign = ['-']) ∧ isDigits int = true ∧ isDigits frac = true ∧
    t = sign ++ (int ++ '.' :: frac)

theorem isDigit_of_mem (h : isDigits ds = true) : ∀ c ∈ ds, c.isDigit = true := by
  rw [isDigits, Bool.and_eq_true, List.all_eq_true] at h
  exact h.2

theorem ne_nil_of_isDigits (h : isDigits ds = true) : ds ≠ [] := by
  rintro rfl
  cases h

/-- A digit is neither a sign nor blank. -/
theorem solid_of_isDigit {c : Char} (h : c.isDigit = true) :
    (!isBlank c && decide (c ≠ '\n')) = true := by
  rw [Bool.and_eq_true, Bool.not_eq_true', decide_eq_true_iff]
  refine ⟨isBlank_of_isLabelChar ?_, ?_⟩
  · rw [isNameChar, isLabelChar, h, Bool.or_true, Bool.true_or]
  · rintro rfl
    exact absurd h (by decide)

theorem unsigned_digits (h : isDigits ds = true) (rest : List Char) :
    unsigned (ds ++ rest) = ds ++ rest := by
  rcases ds with - | ⟨c, cs⟩
  · cases h
  have hc := isDigit_of_mem h c List.mem_cons_self
  rw [List.cons_append, unsigned.eq_def]
  split
  · rename_i heq
    obtain ⟨rfl, -⟩ := List.cons.inj heq
    exact absurd hc (by decide)
  · rename_i heq
    obtain ⟨rfl, -⟩ := List.cons.inj heq
    exact absurd hc (by decide)
  · rfl

theorem isDecimal_digits (h : isDigits ds = true) : isDecimal ds = true := by
  have hspan : ds.span Char.isDigit = (ds, []) := by
    have hspan := span_append (r := []) (isDigit_of_mem h) nofun
    rwa [List.append_nil] at hspan
  rw [isDecimal, hspan]
  dsimp only
  rw [decide_eq_true (ne_nil_of_isDigits h)]
  rfl

theorem isDecimal_pointed {int frac : List Char} (hint : isDigits int = true)
    (hfrac : isDigits frac = true) : isDecimal (int ++ '.' :: frac) = true := by
  have hspan : frac.span Char.isDigit = (frac, []) := by
    have hspan := span_append (r := []) (isDigit_of_mem hfrac) nofun
    rwa [List.append_nil] at hspan
  rw [isDecimal, span_append_cons (isDigit_of_mem hint) (by decide)]
  change ((decide (int ≠ []) || decide ((frac.span Char.isDigit).1 ≠ [])) &&
    isExponent (frac.span Char.isDigit).2) = true
  rw [hspan, decide_eq_true (ne_nil_of_isDigits hint)]
  rfl

theorem isValue_digits (h : isDigits ds = true) : isValue ds = true := by
  have hunsigned := unsigned_digits h []
  rw [List.append_nil] at hunsigned
  rw [isValue, Bool.and_eq_true, List.all_eq_true, isFloat, hunsigned]
  refine ⟨?_, fun c hc => solid_of_isDigit (isDigit_of_mem h c hc)⟩
  rw [isDecimal_digits h, Bool.or_true]

theorem isDigits_toDigits (n : ℕ) : isDigits (Nat.toDigits 10 n) = true := by
  rw [isDigits, Bool.and_eq_true, decide_eq_true_iff, List.all_eq_true]
  exact ⟨Nat.toDigits_ne_nil, isDigit_of_mem_toDigits⟩

theorem isValue_toDigits (n : ℕ) : isValue (Nat.toDigits 10 n) = true :=
  isValue_digits (isDigits_toDigits n)

/-- A number needs no escape. -/
theorem isPlain_digits (h : isDigits ds = true) : isPlain ds = true := by
  refine List.all_eq_true.mpr fun c hc => decide_eq_true ?_
  have hdigit := isDigit_of_mem h c hc
  constructor
  · rintro rfl
    exact absurd hdigit (by decide)
  · rintro rfl
    exact absurd hdigit (by decide)

theorem isValue_pointed {t : List Char} (h : Pointed t) : isValue t = true := by
  obtain ⟨sign, int, frac, hsign, hint, hfrac, rfl⟩ := h
  have hsolid : ∀ c ∈ int ++ '.' :: frac, (!isBlank c && decide (c ≠ '\n')) = true := by
    intro c hc
    rcases List.mem_append.mp hc with hc | hc
    · exact solid_of_isDigit (isDigit_of_mem hint c hc)
    rcases List.mem_cons.mp hc with rfl | hc
    · decide
    · exact solid_of_isDigit (isDigit_of_mem hfrac c hc)
  have hunsigned : unsigned (sign ++ (int ++ '.' :: frac)) = int ++ '.' :: frac := by
    rcases hsign with rfl | rfl
    · exact unsigned_digits hint _
    · rfl
  rw [isValue, Bool.and_eq_true, List.all_eq_true, isFloat, hunsigned]
  refine ⟨?_, fun c hc => ?_⟩
  · rw [isDecimal_pointed hint hfrac, Bool.or_true]
  · rcases List.mem_append.mp hc with hc | hc
    · rcases hsign with rfl | rfl
      · cases hc
      · rw [List.mem_singleton.mp hc]
        decide
    · exact hsolid c hc

/-! ### Families -/

/-- A metric with its head and its samples. -/
structure Family where
  name : List Char
  help : List Char
  kind : List Char
  samples : List Sample

namespace Family

def items (f : Family) : List Item :=
  .help f.name f.help :: .type f.name f.kind :: f.samples.map .sample

/-- The names that the samples of a family may have. -/
def names (f : Family) : List (List Char) :=
  if f.kind = ['s', 'u', 'm', 'm', 'a', 'r', 'y'] then
    [f.name, f.name ++ ['_', 's', 'u', 'm'], f.name ++ ['_', 'c', 'o', 'u', 'n', 't']]
  else [f.name]

end Family

/-- The name and the labels of a sample. -/
def Sample.key (s : Sample) : List Char × List (List Char × List Char) := (s.name, s.labels)

/-- A text is read as these families: every sample stands under the head of its own family, no family
has two heads, and no two samples have the same name and labels. -/
structure Faithful (text : List Char) (families : List Family) : Prop where
  reads : parse text = some (families.flatMap Family.items)
  owned : ∀ f ∈ families, ∀ s ∈ f.samples, s.name ∈ f.names
  heads : (families.map Family.name).Nodup
  unique : ((families.flatMap Family.samples).map Sample.key).Nodup

theorem name_mem_names (f : Family) : f.name ∈ f.names := by
  rw [Family.names]
  split_ifs
  · exact List.mem_cons_self
  · exact List.mem_cons_self

/-- What is left to say of a text that was read as these families. -/
theorem Faithful.of_reads {text : List Char} {families : List Family}
    (hreads : Reads text (families.flatMap Family.items))
    (howned : ∀ f ∈ families, ∀ s ∈ f.samples, s.name ∈ f.names)
    (hnames : (families.flatMap Family.names).Nodup)
    (hunique : ∀ f ∈ families, (f.samples.map Sample.key).Nodup) : Faithful text families := by
  obtain ⟨-, hdisjoint⟩ := List.nodup_flatMap.mp hnames
  refine ⟨hreads.parse, howned, ?_, ?_⟩
  · refine List.pairwise_map.mpr (hdisjoint.imp fun {f g} hfg heq => ?_)
    refine hfg (name_mem_names f) ?_
    rw [heq]
    exact name_mem_names g
  · rw [List.map_flatMap]
    refine List.nodup_flatMap.mpr ⟨hunique, hdisjoint.imp_of_mem fun {f g} hf hg hfg => ?_⟩
    intro k hkf hkg
    obtain ⟨s, hs, rfl⟩ := List.mem_map.mp hkf
    obtain ⟨t, ht, heq⟩ := List.mem_map.mp hkg
    have hname : t.name = s.name := congrArg Prod.fst heq
    exact hfg (howned f hf s hs) (hname ▸ howned g hg t ht)

end Hop.Exposition
