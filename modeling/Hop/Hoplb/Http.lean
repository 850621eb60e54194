import Hop.Lib.Str

/-!
# Heads and framing

`apps/hoplb/src/http.rs` as far as it is about the head of a request: its fields, how its body ends,
and the fields that the proxy writes. A head is decoded as a whole before it is taken apart, so its
parts are texts; `utf8Chars` are the bytes of one. Allocations succeed.

A head that is put together from a line and fields is read again as that line and those fields
(`parseRequest_headText`), up to the blanks around a value.
-/

namespace Hop.Hoplb

variable {fields : List (Text × Text)} {f : Text × Text}

/-- The errors of a head; the texts say what is wrong. -/
inductive Error
  | badRequest (why : String)
  | unsupported (what : String)
deriving DecidableEq, Repr

/-! ### The fields of a head -/

/-- The fields of a head, in order; their names are compared without regard to case. -/
structure Headers where
  fields : List (Text × Text) := []
deriving DecidableEq, Repr

namespace Headers

def all (h : Headers) (name : String) : List Text :=
  (h.fields.filter fun f => eqIgnoreAsciiCase f.1 name.toList).map Prod.snd

def get (h : Headers) (name : String) : Option Text := (h.all name).head?

def hasToken (h : Headers) (name : String) (token : Text) : Bool :=
  ((h.all name).flatMap fun v => v.splitOn ',').any fun t => eqIgnoreAsciiCase (trimText t) token

end Headers

structure RequestHead where
  method : Text
  target : Text
  minor : ℕ
  headers : Headers
deriving DecidableEq, Repr

/-! ### Reading a head -/

def isAlphanumeric (b : UInt8) : Bool :=
  (48 ≤ b && b ≤ 57) || (65 ≤ b && b ≤ 90) || (97 ≤ b && b ≤ 122)

def isTokenByte (b : UInt8) : Bool :=
  isAlphanumeric b || (utf8 "!#$%&\x27*+-.^_\x60|~").contains b

def isToken (s : Text) : Bool := !s.isEmpty && (utf8Chars s).all isTokenByte

/-- The blanks around the value of a field. -/
def isBlank (c : Char) : Bool := c = ' ' || c = '\t'

/-- A control byte, which no value may have. -/
def isControl (b : UInt8) : Bool := (b < 32 && b != 9) || b == 127

def versionMinor (v : Text) : Option ℕ :=
  if v = "HTTP/1.1".toList then some 1 else if v = "HTTP/1.0".toList then some 0 else none

/-- The first line and the lines of the fields. -/
def splitHead (head : Bytes) (bad : String → Error) : Except Error (Text × Text) :=
  match fromUtf8 head with
  | none => .error (bad "head is not utf-8")
  | some text =>
    match stripSuffix text.toList "\r\n\r\n".toList with
    | none => .error (bad "head does not end in CRLF CRLF")
    | some body =>
      let parts := (splitOnceCrlf body).getD (body, [])
      if parts.1.contains '\n' || parts.1.contains '\r' then .error (bad "bare LF or CR")
      else .ok parts

/-- One line of `parse_fields`. -/
def parseField (bad : String → Error) (line : Text) : Except Error (Text × Text) :=
  if line.head? = some ' ' ∨ line.head? = some '\t' then .error (bad "obsolete line folding")
  else
    match splitOnce ':' line with
    | none => .error (bad "header without colon")
    | some (k, v) =>
      if !isToken k then .error (bad "invalid header name")
      else
        let v := trimMatches isBlank v
        if (utf8Chars v).any isControl then .error (bad "control byte in header")
        else .ok (k, v)

def parseFields (fields : Text) (bad : String → Error) : Except Error Headers :=
  if fields = [] then .ok ⟨[]⟩ else ((splitCrlf fields).mapM (parseField bad)).map Headers.mk

def parseRequest (head : Bytes) : Except Error RequestHead := do
  let (line, fields) ← splitHead head .badRequest
  match line.splitOn ' ' with
  | [method, target, version] =>
    if method.isEmpty || !isToken method then .error (.badRequest "invalid method")
    else if target.isEmpty || (utf8Chars target).any fun b => b ≤ 32 || b == 127 then
      .error (.badRequest "invalid target")
    else
      match versionMinor version with
      | none => .error (.unsupported "http version")
      | some minor => do
        let headers ← parseFields fields .badRequest
        .ok ⟨method, target, minor, headers⟩
  | _ => .error (.badRequest "malformed request line")

/-! ### Framing -/

/-- How a body ends. -/
inductive Framing
  | empty
  | length (n : ℕ)
  | chunked
  /-- When the connection closes; of an answer only. -/
  | eof
deriving DecidableEq, Repr

/-- Whether `chunked` is the last coding, and the only one. -/
def isChunked (h : Headers) : Bool :=
  match (h.all "Transfer-Encoding").flatMap fun v => v.splitOn ',' with
  | [c] => eqIgnoreAsciiCase (trimText c) "chunked".toList
  | _ => false

/-- One value of `content_length`, after the values before it. -/
def contentLengthStep (bad : String → Error) (len : Option ℕ) (v : Text) :
    Except Error (Option ℕ) :=
  let v := utf8Chars (trimText v)
  if v.isEmpty || !v.all isDigit then .error (bad "invalid Content-Length")
  else if 2 ^ 64 ≤ ofDigits v then .error (bad "invalid Content-Length")
  else
    match len with
    | some l => if l ≠ ofDigits v then .error (bad "conflicting Content-Length") else .ok (some l)
    | none => .ok (some (ofDigits v))

/-- All values of `Content-Length`, also those in a list, have to be equal. -/
def contentLength (h : Headers) (bad : String → Error) : Except Error (Option ℕ) :=
  ((h.all "Content-Length").flatMap fun v => v.splitOn ',').foldlM (contentLengthStep bad) none

def requestFraming (h : Headers) : Except Error Framing := do
  let te := (h.get "Transfer-Encoding").isSome
  let cl ← contentLength h .badRequest
  match te, cl with
  | true, some _ => .error (.badRequest "both Content-Length and Transfer-Encoding")
  | true, none => if isChunked h then .ok .chunked else .error (.unsupported "transfer coding")
  | false, none => .ok .empty
  | false, some 0 => .ok .empty
  | false, some n => .ok (.length n)

/-! ### Writing a head -/

/-- `HeadBuf::field`. -/
def field (k v : Text) : Text := k ++ ": ".toList ++ v ++ "\r\n".toList

/-- A head with a line and fields. -/
def headText (line : Text) (fields : List (Text × Text)) : Text :=
  line ++ "\r\n".toList ++ fields.flatMap (fun f => field f.1 f.2) ++ "\r\n".toList

/-! ### What is in a head -/

section Parts

variable {k v s : Text} {c : Char} {bad : String → Error}

/-- An ASCII character of a token is one of a token. -/
theorem isTokenByte_of_mem (hk : isToken k = true) (hc : c ∈ k) (hascii : c.toNat ≤ 0x7f) :
    isTokenByte c.val.toUInt8 = true := by
  rw [isToken, Bool.and_eq_true, List.all_eq_true] at hk
  exact hk.2 _ (mem_utf8Chars_of_mem hc hascii rfl)

theorem notMem_of_isToken (hk : isToken k = true) (hascii : c.toNat ≤ 0x7f)
    (hc : isTokenByte c.val.toUInt8 = false) : c ∉ k := fun hmem =>
  absurd (isTokenByte_of_mem hk hmem hascii) (by rw [hc]; decide)

theorem notMem_of_noControl (hv : (utf8Chars v).any isControl = false) (hascii : c.toNat ≤ 0x7f)
    (hc : isControl c.val.toUInt8 = true) : c ∉ v := by
  intro hmem
  rw [List.any_eq_false] at hv
  exact hv _ (mem_utf8Chars_of_mem hmem hascii rfl) hc

theorem noControl_append {a b : Text} : (utf8Chars (a ++ b)).any isControl =
    ((utf8Chars a).any isControl || (utf8Chars b).any isControl) := by
  rw [utf8Chars_append, List.any_append]

theorem ne_nil_of_isToken (hk : isToken k = true) : k ≠ [] := by
  rintro rfl
  exact absurd hk (by decide)

/-- A field as a line, without its end. -/
def fieldLine (f : Text × Text) : Text := f.1 ++ ": ".toList ++ f.2

/-- A field that can stand in a head. -/
def FieldOk (f : Text × Text) : Prop :=
  isToken f.1 = true ∧ (utf8Chars f.2).any isControl = false

theorem newline_notMem_fieldLine (hf : FieldOk f) : '\n' ∉ fieldLine f := by
  rw [fieldLine, List.mem_append, List.mem_append, not_or, not_or]
  exact ⟨⟨notMem_of_isToken hf.1 (by decide) (by decide), by decide⟩,
    notMem_of_noControl hf.2 (by decide) (by decide)⟩

theorem noControl_trimMatches {p : Char → Bool} (hv : (utf8Chars v).any isControl = false) :
    (utf8Chars (trimMatches p v)).any isControl = false := by
  rw [List.any_eq_false] at hv ⊢
  exact fun b hb => hv b (mem_utf8Chars_mono hb fun c hc => mem_of_mem_trimMatches hc)

theorem parseField_fieldLine (hf : FieldOk f) :
    parseField bad (fieldLine f) = .ok (f.1, trimMatches isBlank f.2) := by
  obtain ⟨k, v⟩ := f
  obtain ⟨hk, hv⟩ := hf
  dsimp only at hk hv
  have hcolon : ':' ∉ k := notMem_of_isToken hk (by decide) (by decide)
  have hhead : ∀ c : Char, c.toNat ≤ 0x7f → isTokenByte c.val.toUInt8 = false →
      (k ++ ": ".toList ++ v).head? ≠ some c := by
    intro c hascii hc hhead
    obtain ⟨x, xs, rfl⟩ := List.exists_cons_of_ne_nil (ne_nil_of_isToken hk)
    obtain rfl : x = c := Option.some.inj hhead
    exact notMem_of_isToken hk hascii hc List.mem_cons_self
  have hsplit : splitOnce ':' (k ++ ": ".toList ++ v) = some (k, ' ' :: v) := by
    rw [List.append_assoc]
    exact splitOnce_append hcolon
  have htrim : trimMatches isBlank (' ' :: v) = trimMatches isBlank v := trimMatches_cons rfl
  rw [parseField, fieldLine, if_neg (not_or.mpr ⟨hhead ' ' (by decide) (by decide),
    hhead '\t' (by decide) (by decide)⟩), hsplit]
  simp only [hk, htrim, noControl_trimMatches hv, Bool.not_true, Bool.false_eq_true, if_false]

theorem mapM_parseField (hf : ∀ f ∈ fields, FieldOk f) :
    (fields.map fieldLine).mapM (parseField bad) =
      .ok (fields.map fun f => (f.1, trimMatches isBlank f.2)) := by
  induction fields with
  | nil => rfl
  | cons f fields ih =>
    rw [List.forall_mem_cons] at hf
    rw [List.map_cons, List.mapM_cons, parseField_fieldLine hf.1, ih hf.2]
    rfl

/-- What is read as a field can stand in a head, and is trimmed. -/
theorem of_parseField {line : Text} (h : parseField bad line = .ok f) :
    FieldOk f ∧ trimMatches isBlank f.2 = f.2 := by
  rw [parseField] at h
  split_ifs at h with hfold
  split at h
  · cases h
  · rename_i k v hsplit
    dsimp only at h
    split_ifs at h with hk hv
    obtain rfl := Except.ok.inj h
    rw [Bool.not_eq_true, Bool.not_eq_false'] at hk
    exact ⟨⟨hk, Bool.eq_false_iff.mpr hv⟩, trimMatches_trimMatches v⟩

theorem of_mapM_parseField {lines : List Text} (h : lines.mapM (parseField bad) = .ok fields) :
    ∀ f ∈ fields, FieldOk f ∧ trimMatches isBlank f.2 = f.2 := by
  induction lines generalizing fields with
  | nil =>
    obtain rfl := Except.ok.inj h
    exact nofun
  | cons line lines ih =>
    rw [List.mapM_cons] at h
    rcases hone : parseField bad line with e | f
    · rw [hone] at h
      cases h
    · rcases hrest : lines.mapM (parseField bad) with e | fs
      · rw [hone, hrest] at h
        cases h
      · rw [hone, hrest] at h
        obtain rfl := Except.ok.inj h
        exact List.forall_mem_cons.mpr ⟨of_parseField hone, ih hrest⟩

theorem of_parseFields {lines : Text} {h : Headers} (hok : parseFields lines bad = .ok h) :
    ∀ f ∈ h.fields, FieldOk f ∧ trimMatches isBlank f.2 = f.2 := by
  rw [parseFields] at hok
  split_ifs at hok
  · obtain rfl := Except.ok.inj hok
    exact nofun
  · rcases hmap : (splitCrlf lines).mapM (parseField bad) with e | fields
    · rw [hmap] at hok
      cases hok
    · rw [hmap] at hok
      obtain rfl := Except.ok.inj hok
      exact of_mapM_parseField hmap

/-- The target of a request line has no blank and no control byte. -/
def TargetOk (t : Text) : Prop := t ≠ [] ∧ ∀ b ∈ utf8Chars t, 32 < b ∧ b ≠ 127

/-- What was read of a request. -/
theorem of_parseRequest {head : Bytes} {req : RequestHead} (h : parseRequest head = .ok req) :
    isToken req.method = true ∧ TargetOk req.target ∧
      ∀ f ∈ req.headers.fields, FieldOk f ∧ trimMatches isBlank f.2 = f.2 := by
  rw [parseRequest] at h
  rcases hsplit : splitHead head .badRequest with e | ⟨line, fields⟩
  · rw [hsplit] at h
    cases h
  · simp only [hsplit, bind, Except.bind] at h
    split at h
    · rename_i method target version hline
      split_ifs at h with hmethod htarget
      split at h
      · cases h
      · rename_i minor hversion
        rcases hfields : parseFields fields .badRequest with e | headers
        · rw [hfields] at h
          cases h
        · rw [hfields] at h
          obtain rfl := Except.ok.inj h
          rw [Bool.or_eq_true, not_or, Bool.not_eq_true, Bool.not_eq_true] at hmethod htarget
          refine ⟨by simpa using hmethod.2, ⟨by simpa using htarget.1, fun b hb => ?_⟩,
            of_parseFields hfields⟩
          have hbyte := List.any_eq_false.mp htarget.2 b hb
          simpa using hbyte
    · cases h

theorem notMem_of_targetOk {t : Text} (ht : TargetOk t) (hascii : c.toNat ≤ 0x7f)
    (hc : c.val.toUInt8 ≤ 32) : c ∉ t := fun hmem =>
  absurd (ht.2 _ (mem_utf8Chars_of_mem hmem hascii rfl)).1 (not_lt.mpr hc)

/-- The lines of a head, one after the other. -/
theorem flatMap_field (fields : List (Text × Text)) :
    fields.flatMap (fun f => field f.1 f.2) = (fields.map fieldLine).flatMap (· ++ crlf) := by
  rw [List.flatMap_map]
  rfl

theorem splitHead_headText {line : Text} (hlf : '\n' ∉ line) (hcr : '\r' ∉ line) :
    splitHead (utf8Chars (headText line (f :: fields))) bad =
      .ok (line, crlf.intercalate ((f :: fields).map fieldLine)) := by
  have htext : headText line (f :: fields) =
      (line ++ (crlf ++ crlf.intercalate ((f :: fields).map fieldLine))) ++ "\r\n\r\n".toList := by
    rw [headText, flatMap_field, List.map_cons, flatMap_crlf]
    simp [crlf]
  have hbare : ¬ (line.contains '\n' || line.contains '\r') = true := by
    simp [hlf, hcr]
  rw [splitHead, fromUtf8_utf8Chars, htext]
  simp only [String.toList_ofList, stripSuffix_append, splitOnceCrlf_append hlf, Option.getD_some,
    if_neg hbare]

theorem parseFields_lines (hfields : ∀ g ∈ f :: fields, FieldOk g) :
    parseFields (crlf.intercalate ((f :: fields).map fieldLine)) bad =
      .ok ⟨(f :: fields).map fun f => (f.1, trimMatches isBlank f.2)⟩ := by
  have hlines : ∀ x ∈ fieldLine f :: fields.map fieldLine, '\n' ∉ x := by
    intro x hx
    obtain ⟨g, hg, rfl⟩ := List.mem_map.mp (List.map_cons ▸ hx)
    exact newline_notMem_fieldLine (hfields g hg)
  have hne : crlf.intercalate ((f :: fields).map fieldLine) ≠ [] := by
    intro hnil
    have hsplit := splitCrlf_intercalate hlines
    rw [← List.map_cons, hnil, splitCrlf_of_notMem List.not_mem_nil] at hsplit
    have hfirst := (List.cons.inj hsplit).1
    have hk := (hfields f List.mem_cons_self).1
    rw [fieldLine, eq_comm, List.append_eq_nil_iff, List.append_eq_nil_iff] at hfirst
    exact ne_nil_of_isToken hk hfirst.1.1
  rw [parseFields, if_neg hne, List.map_cons, splitCrlf_intercalate hlines, ← List.map_cons,
    mapM_parseField hfields]
  rfl

/-- The success path of `parseRequest`. -/
theorem parseRequest_of_parts {head : Bytes} {line fields method target version : Text} {minor : ℕ}
    {headers : Headers} (hhead : splitHead head .badRequest = .ok (line, fields))
    (hline : line.splitOn ' ' = [method, target, version]) (hmethod : isToken method = true)
    (htarget : TargetOk target) (hversion : versionMinor version = some minor)
    (hfields : parseFields fields .badRequest = .ok headers) :
    parseRequest head = .ok ⟨method, target, minor, headers⟩ := by
  have hmethod' : ¬ (method.isEmpty || !isToken method) = true := by
    simp [hmethod, ne_nil_of_isToken hmethod]
  have htarget' : ¬ (target.isEmpty || (utf8Chars target).any fun b => b ≤ 32 || b == 127) = true := by
    rw [Bool.or_eq_true, not_or]
    refine ⟨by simp [htarget.1], ?_⟩
    rw [List.any_eq_true]
    rintro ⟨b, hb, hbad⟩
    obtain ⟨hlow, hdel⟩ := htarget.2 b hb
    simp [not_le.mpr hlow, hdel] at hbad
  simp only [parseRequest, hhead, bind, Except.bind, hline, if_neg hmethod', if_neg htarget',
    hversion, hfields]

/-- **A head is read as what it was written from.** -/
theorem parseRequest_headText {method target : Text} (hmethod : isToken method = true)
    (htarget : TargetOk target) (hfields : ∀ g ∈ f :: fields, FieldOk g) :
    parseRequest (utf8Chars
        (headText ([' '].intercalate [method, target, "HTTP/1.1".toList]) (f :: fields))) =
      .ok ⟨method, target, 1, ⟨(f :: fields).map fun f => (f.1, trimMatches isBlank f.2)⟩⟩ := by
  have hspace : ∀ part ∈ [method, target, "HTTP/1.1".toList], ' ' ∉ part := by
    rw [List.forall_mem_cons, List.forall_mem_cons, List.forall_mem_singleton]
    exact ⟨notMem_of_isToken hmethod (by decide) (by decide),
      notMem_of_targetOk htarget (by decide) (by decide), by decide⟩
  have hline : ∀ c : Char, c.toNat ≤ 0x7f → isTokenByte c.val.toUInt8 = false →
      c.val.toUInt8 ≤ 32 → c ≠ ' ' → c ∉ "HTTP/1.1".toList →
      c ∉ [' '].intercalate [method, target, "HTTP/1.1".toList] := by
    intro c hascii htoken hsmall hblank hversion
    simp only [List.intercalate, List.intersperse, List.flatten_cons, List.flatten_nil,
      List.append_nil, List.mem_append, List.mem_singleton, not_or]
    exact ⟨notMem_of_isToken hmethod hascii htoken, hblank,
      notMem_of_targetOk htarget hascii hsmall, hblank, hversion⟩
  have hlf := hline '\n' (by decide) (by decide) (by decide) (by decide) (by decide)
  have hcr := hline '\r' (by decide) (by decide) (by decide) (by decide) (by decide)
  exact parseRequest_of_parts (splitHead_headText hlf hcr)
    (List.splitOn_intercalate ' ' hspace (List.cons_ne_nil _ _)) hmethod htarget rfl
    (parseFields_lines hfields)

end Parts

end Hop.Hoplb
