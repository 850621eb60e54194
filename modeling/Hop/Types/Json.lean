import Hop.Lib.Text
import Hop.Types.Error

/-!
# JSON values, the bounded parser and the writer

`types/src/json.rs`. The parser reads bytes and keeps its place: `Input` is what is left of the
input with the offset of its first byte, so `peek` is its head and `pos` goes into the errors.
`value` recurses on the nesting that is left (`maxDepth - depth` of the source), the loops over
items, pairs and the runs of a string on a bound for the bytes that are left.

Allocations succeed, so a write does not fail. An `f64` is kept as the text that it was read
from and written as that text. Only finite ones are written: `Decimal` is the text that they have.
-/

namespace Hop.Types.Json

/-- The largest input that the parser takes: 1 MiB. -/
def maxInput : ℕ := 2 ^ 20

/-- The deepest nesting that the parser takes. -/
def maxDepth : ℕ := 32

/-- A number without loss: integers stay integers. -/
inductive Number
  /-- A negative integer (or `-0`). -/
  | int (v : Int64)
  /-- A non-negative integer. -/
  | uint (v : UInt64)
  /-- A number with a fraction or an exponent, or too large for 64 bits. -/
  | float (text : Bytes)
deriving DecidableEq

/-- The number as `i64`, if it is an integer and fits. -/
def Number.asI64 : Number → Option ℤ
  | .int v => some v.toInt
  | .uint v => if (v.toNat : ℤ) ≤ i64Max then some v.toNat else none
  | .float _ => none

/-- The number as `u64`, if it is an integer and not negative. -/
def Number.asU64 : Number → Option ℕ
  | .uint v => some v.toNat
  | .int _ => none
  | .float _ => none

/-- A JSON value. An object is its pairs in the order of the document. -/
inductive Value
  | null
  | bool (b : Bool)
  | number (n : Number)
  | string (s : String)
  | array (items : List Value)
  | object (pairs : List (String × Value))

namespace Value

def asStr : Value → Option String
  | .string s => some s
  | _ => none

def asObject : Value → Option (List (String × Value))
  | .object pairs => some pairs
  | _ => none

def asArray : Value → Option (List Value)
  | .array items => some items
  | _ => none

def asBool : Value → Option Bool
  | .bool b => some b
  | _ => none

/-- The number as `u64`, if it is one. -/
def asU64 : Value → Option ℕ
  | .number n => n.asU64
  | _ => none

def isNull : Value → Bool
  | .null => true
  | _ => false

/-- A non-negative integer. -/
def uint (v : ℕ) : Value := .number (.uint (UInt64.ofNat v))

/-- An integer: not negative is `uint`. -/
def int (v : ℤ) : Value :=
  if 0 ≤ v then uint v.toNat else .number (.int (Int64.ofInt v))

end Value

/-! ### The bytes with a meaning -/

abbrev quote : UInt8 := 34
abbrev backslash : UInt8 := 92
abbrev comma : UInt8 := 44
abbrev colon : UInt8 := 58
abbrev openBracket : UInt8 := 91
abbrev closeBracket : UInt8 := 93
abbrev openBrace : UInt8 := 123
abbrev closeBrace : UInt8 := 125
abbrev minus : UInt8 := 45
abbrev dot : UInt8 := 46

/-- White space: blank, tab, line feed, carriage return. -/
def isWs (b : UInt8) : Bool := b = 32 ∨ b = 9 ∨ b = 10 ∨ b = 13

/-- A byte that stands for itself in a string. -/
def isPlain (b : UInt8) : Bool := b ≠ quote ∧ b ≠ backslash ∧ 32 ≤ b

/-- The value of a hex digit. -/
def hexVal (b : UInt8) : Option ℕ :=
  if 48 ≤ b ∧ b ≤ 57 then some (b.toNat - 48)
  else if 97 ≤ b ∧ b ≤ 102 then some (b.toNat - 97 + 10)
  else if 65 ≤ b ∧ b ≤ 70 then some (b.toNat - 65 + 10)
  else none

/-! ### The parser -/

/-- What is left of the input, and the offset of its first byte. -/
structure Input where
  rest : Bytes
  pos : ℕ
deriving DecidableEq

namespace Input

def peek (p : Input) : Option UInt8 := p.rest.head?

def advance (p : Input) (n : ℕ) : Input := ⟨p.rest.drop n, p.pos + n⟩

def err (p : Input) (expected : String) : Error := .syntaxError p.pos expected

/-- Over the bytes that satisfy `f`. -/
def skip (p : Input) (f : UInt8 → Bool) : Input := p.advance (p.rest.takeWhile f).length

def skipWs (p : Input) : Input := p.skip isWs

def eat (p : Input) (c : UInt8) (expected : String) : Except Error Input :=
  if p.peek = some c then .ok (p.advance 1) else .error (p.err expected)

def literal (p : Input) (word : Bytes) (v : Value) : Except Error (Value × Input) :=
  if p.rest.take word.length = word then .ok (v, p.advance word.length)
  else .error (p.err "a value")

/-- `n` more hex digits after a number `v`. -/
def hexDigits : ℕ → ℕ → Input → Except Error (ℕ × Input)
  | 0, v, p => .ok (v, p)
  | n + 1, v, p =>
    match p.peek.bind hexVal with
    | some d => hexDigits n (v * 16 + d) (p.advance 1)
    | none => .error (p.err "four hex digits")

def hex4 (p : Input) : Except Error (ℕ × Input) := hexDigits 4 0 p

/-- `char::from_u32`, with U+FFFD for what is no character. -/
def charOf (n : ℕ) : Char :=
  if n < 0xD800 ∨ 0xDFFF < n ∧ n < 0x110000 then Char.ofNat n else '\uFFFD'

/-- The rest of a `\u` escape; a high surrogate needs a low one right behind it. -/
def unicode (p : Input) : Except Error (Char × Input) :=
  match p.hex4 with
  | .error e => .error e
  | .ok (hi, p) =>
    if 0xD800 ≤ hi ∧ hi < 0xDC00 then
      if p.rest.take 2 = [backslash, 117] then
        match (p.advance 2).hex4 with
        | .error e => .error e
        | .ok (lo, p) =>
          if 0xDC00 ≤ lo ∧ lo < 0xE000 then
            .ok (charOf (0x10000 + (hi - 0xD800) * 1024 + (lo - 0xDC00)), p)
          else .error (p.err "a low surrogate")
      else .error (p.err "a low surrogate")
    else .ok (charOf hi, p)

/-- The character of a one-letter escape. -/
def escapeChar (b : UInt8) : Option Char :=
  if b = quote then some '"'
  else if b = backslash then some '\\'
  else if b = 47 then some '/'
  else if b = 98 then some (Char.ofNat 8)
  else if b = 102 then some (Char.ofNat 12)
  else if b = 110 then some '\n'
  else if b = 114 then some '\r'
  else if b = 116 then some '\t'
  else none

/-- What follows a backslash. -/
def escape (p : Input) : Except Error (Char × Input) :=
  if p.peek = some 117 then (p.advance 1).unicode
  else match p.peek.bind escapeChar with
    | some c => .ok (c, p.advance 1)
    | none => .error (p.err "an escape")

/-- The runs and escapes of a string up to its closing quote. -/
def stringLoop : ℕ → String → Input → Except Error (String × Input)
  | 0, _, p => .error (p.err "a closing '\"'")
  | fuel + 1, out, p =>
    let run := p.rest.takeWhile isPlain
    match fromUtf8 run with
    | none => .error (.syntaxError (p.pos + validUpTo run) "UTF-8")
    | some text =>
      let q := p.advance run.length
      if q.peek = some quote then .ok (out ++ text, q.advance 1)
      else if q.peek = some backslash then
        match (q.advance 1).escape with
        | .error e => .error e
        | .ok (c, q) => stringLoop fuel ((out ++ text).push c) q
      else .error (q.err "a closing '\"'")

/-- A string, from its opening quote. -/
def string (p : Input) : Except Error (String × Input) := stringLoop p.rest.length "" (p.advance 1)

/-- The integer part: one 0, or digits that do not begin with 0. -/
def intPart (p : Input) : Except Error Input :=
  if p.peek = some 48 then .ok (p.advance 1)
  else if p.peek.any isDigit then .ok (p.skip isDigit)
  else .error (p.err "a digit")

/-- At least one digit. -/
def digits (p : Input) : Except Error Input :=
  if (p.skip isDigit).pos - p.pos = 0 then .error ((p.skip isDigit).err "a digit")
  else .ok (p.skip isDigit)

/-- The fraction, if there is one. -/
def fraction (p : Input) : Except Error (Bool × Input) :=
  if p.peek = some dot then (p.advance 1).digits.map fun q => (true, q)
  else .ok (false, p)

/-- The exponent, if there is one. -/
def exponent (p : Input) : Except Error (Bool × Input) :=
  if p.peek = some 101 ∨ p.peek = some 69 then
    let p := p.advance 1
    let p := if p.peek = some 43 ∨ p.peek = some minus then p.advance 1 else p
    p.digits.map fun q => (true, q)
  else .ok (false, p)

/-- `str::parse::<u64>`, of a text without `+`. -/
def parseU64 (text : Bytes) : Option UInt64 :=
  if text ≠ [] ∧ text.all isDigit = true ∧ ofDigits text ≤ u64Max then
    some (UInt64.ofNat (ofDigits text))
  else none

/-- `str::parse::<i64>` of a text that begins with `-`. -/
def parseI64 (text : Bytes) : Option Int64 :=
  match text with
  | [] => none
  | c :: ds =>
    if c = minus ∧ ds ≠ [] ∧ ds.all isDigit = true ∧ i64Min ≤ -(ofDigits ds : ℤ) then
      some (Int64.ofInt (-(ofDigits ds : ℤ)))
    else none

/-- The number with this text. -/
def numberOf (float : Bool) (text : Bytes) : Number :=
  if float then .float text
  else match parseU64 text with
    | some v => .uint v
    | none => match parseI64 text with
      | some v => .int v
      | none => .float text

def number (p : Input) : Except Error (Number × Input) := do
  let q ← (if p.peek = some minus then p.advance 1 else p).intPart
  let (frac, q) ← q.fraction
  let (exp, q) ← q.exponent
  .ok (numberOf (frac || exp) (p.rest.take (q.pos - p.pos)), q)

/-- The pairs of an object, from the first key or the one after a comma. -/
def objectLoop (item : Input → Except Error (Value × Input)) :
    ℕ → List (String × Value) → Input → Except Error (Value × Input)
  | 0, _, p => .error (p.err "',' or '\x7d'")
  | fuel + 1, obj, p =>
    if p.skipWs.peek ≠ some quote then .error (p.skipWs.err "a string key")
    else do
      let (key, p) ← p.skipWs.string
      if obj.any (fun kv => kv.1 = key) then .error (.duplicateKey (.new key))
      else do
        let p ← p.skipWs.eat colon "':'"
        let (v, p) ← item p.skipWs
        let p := p.skipWs
        if p.peek = some comma then objectLoop item fuel (obj ++ [(key, v)]) (p.advance 1)
        else if p.peek = some closeBrace then .ok (.object (obj ++ [(key, v)]), p.advance 1)
        else .error (p.err "',' or '\x7d'")

def object (item : Input → Except Error (Value × Input)) (p : Input) :
    Except Error (Value × Input) :=
  let q := (p.advance 1).skipWs
  if q.peek = some closeBrace then .ok (.object [], q.advance 1)
  else objectLoop item p.rest.length [] q

/-- The items of an array, from the first one or the one after a comma. -/
def arrayLoop (item : Input → Except Error (Value × Input)) :
    ℕ → List Value → Input → Except Error (Value × Input)
  | 0, _, p => .error (p.err "',' or ']'")
  | fuel + 1, arr, p => do
    let (v, p) ← item p.skipWs
    let p := p.skipWs
    if p.peek = some comma then arrayLoop item fuel (arr ++ [v]) (p.advance 1)
    else if p.peek = some closeBracket then .ok (.array (arr ++ [v]), p.advance 1)
    else .error (p.err "',' or ']'")

def array (item : Input → Except Error (Value × Input)) (p : Input) :
    Except Error (Value × Input) :=
  let q := (p.advance 1).skipWs
  if q.peek = some closeBracket then .ok (.array [], q.advance 1)
  else arrayLoop item p.rest.length [] q

/-- One value, with this much nesting left. -/
def value : ℕ → Input → Except Error (Value × Input)
  | 0, p => .error (.tooDeep p.pos maxDepth)
  | left + 1, p =>
    if p.peek = some openBrace then p.object (value left)
    else if p.peek = some openBracket then p.array (value left)
    else if p.peek = some quote then p.string.map fun (s, q) => (.string s, q)
    else if p.peek = some 116 then p.literal (utf8 "true") (.bool true)
    else if p.peek = some 102 then p.literal (utf8 "false") (.bool false)
    else if p.peek = some 110 then p.literal (utf8 "null") .null
    else if p.peek = some minus ∨ p.peek.any isDigit then
      p.number.map fun (n, q) => (.number n, q)
    else .error (p.err "a value")

end Input

/-- Read one document of at most `limit` bytes. -/
def parseWithLimit (input : Bytes) (limit : ℕ) : Except Error Value :=
  if limit < input.length then .error (.tooLarge input.length limit)
  else do
    let (v, p) ← Input.value maxDepth (Input.mk input 0).skipWs
    if p.skipWs.rest ≠ [] then .error (.trailing p.skipWs.pos) else .ok v

/-- Read one document. -/
def parse (input : Bytes) : Except Error Value := parseWithLimit input maxInput

/-! ### The writer -/

/-- A hex digit, in lower case. -/
def hexDigit (d : ℕ) : UInt8 := UInt8.ofNat (if d < 10 then 48 + d else 87 + d)

/-- The four hex digits of a number below 2^16. -/
def hex04 (n : ℕ) : Bytes :=
  [hexDigit (n / 4096 % 16), hexDigit (n / 256 % 16), hexDigit (n / 16 % 16), hexDigit (n % 16)]

/-- What is written for a character that does not stand for itself: a one-letter escape, or four
hex digits for control characters, for `<`, `>` and `&`, and for the two line separators. -/
def escaped (c : Char) : Option Bytes :=
  if c = '"' then some [backslash, quote]
  else if c = '\\' then some [backslash, backslash]
  else if c = '\n' then some [backslash, 110]
  else if c = '\r' then some [backslash, 114]
  else if c = '\t' then some [backslash, 116]
  else if c.toNat ≤ 0x1f ∨ c = '<' ∨ c = '>' ∨ c = '&' ∨ c = '\u2028' ∨ c = '\u2029' then
    some (backslash :: 117 :: hex04 c.toNat)
  else none

/-- The rest of a string; `run` is what was read since the last escape. -/
def writeRuns (run : List Char) : List Char → Bytes
  | [] => utf8Chars run ++ [quote]
  | c :: cs =>
    match escaped c with
    | none => writeRuns (run ++ [c]) cs
    | some esc => utf8Chars run ++ esc ++ writeRuns [] cs

def writeString (s : String) : Bytes := quote :: writeRuns [] s.toList

/-- The text of a finite `f64`: a decimal without an exponent. -/
structure Decimal where
  neg : Bool
  whole : ℕ
  /-- The digits after the point, if there are any. -/
  frac : Bytes
  digits : ∀ b ∈ frac, isDigit b = true

namespace Decimal

def sign (d : Decimal) : Bytes := if d.neg then [minus] else []

def point (d : Decimal) : Bytes := if d.frac = [] then [] else dot :: d.frac

def text (d : Decimal) : Bytes := d.sign ++ decimal d.whole ++ d.point

end Decimal

/-- A finite `f64`. -/
def Value.float (d : Decimal) : Value := .number (.float d.text)

def writeNumber : Number → Bytes
  | .int v => if v.toInt < 0 then minus :: decimal v.toInt.natAbs else decimal v.toInt.natAbs
  | .uint v => decimal v.toNat
  | .float text => text

mutual

/-- The compact text of a value. -/
def write : Value → Bytes
  | .null => utf8 "null"
  | .bool true => utf8 "true"
  | .bool false => utf8 "false"
  | .number n => writeNumber n
  | .string s => writeString s
  | .array [] => [openBracket, closeBracket]
  | .array (item :: items) => openBracket :: write item ++ writeItems items ++ [closeBracket]
  | .object [] => [openBrace, closeBrace]
  | .object ((k, item) :: pairs) =>
    openBrace :: writeString k ++ colon :: write item ++ writePairs pairs ++ [closeBrace]

/-- The items of an array after the first. -/
def writeItems : List Value → Bytes
  | [] => []
  | item :: items => comma :: write item ++ writeItems items

/-- The pairs of an object after the first. -/
def writePairs : List (String × Value) → Bytes
  | [] => []
  | (k, item) :: pairs => comma :: writeString k ++ colon :: write item ++ writePairs pairs

end

end Hop.Types.Json
