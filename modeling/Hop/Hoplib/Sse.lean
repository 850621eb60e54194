import Hop.Lib.Chunks
import Hop.Types.Json

/-!
# Reading events

`hoplib/src/sse.rs`: the reader of `/v1/events`. It keeps the bytes of a half event; a blank line
ends one. Texts are their bytes.
-/

namespace Hop.Hoplib

open Hop.Types

/-- The largest event that is kept before its end is seen. -/
def maxEventBytes : ℕ := 64 * 1024

/-- One event: its kind and its data. -/
structure Event where
  kind : Bytes := []
  data : Bytes := []
deriving DecidableEq

/-- What an event is about. -/
inductive Topic
  | ping
  | status
  | job (name : String)
  | task (job event : String)
  | agent (id : String)
  | other
deriving DecidableEq

/-- A text field of an object; nothing if it is not there. -/
def field (v : Json.Value) (key : String) : String :=
  ((v.asObject.bind fun o => (o.find? fun p => p.1 = key).map Prod.snd).bind
    Json.Value.asStr).getD ""

/-- What an event is about, from its kind and its data. -/
def Event.topic (e : Event) : Except Types.Error Topic :=
  if e.kind = utf8 "ping" then .ok .ping
  else if e.kind = utf8 "status" then .ok .status
  else if e.kind = utf8 "job" then (Json.parse e.data).map fun v => .job (field v "name")
  else if e.kind = utf8 "task" then
    (Json.parse e.data).map fun v => .task (field v "job") (field v "event")
  else if e.kind = utf8 "agent" then (Json.parse e.data).map fun v => .agent (field v "id")
  else .ok .other

/-! ### The blank line -/

/-- `windows(n).position`: the first place of a pattern. -/
def position (pat : Bytes) : Bytes → Option ℕ
  | [] => none
  | b :: bs => if pat <+: b :: bs then some 0 else (position pat bs).map (· + 1)

/-- The end of the first event: of its text, and of the blank line. -/
def findBlankLine (b : Bytes) : Option (ℕ × ℕ) :=
  let lf := (position [10, 10] b).map fun i => (i, i + 2)
  let crlf := (position [13, 10, 13, 10] b).map fun i => (i, i + 4)
  match lf, crlf with
  | some a, some c => some (if a.1 ≤ c.1 then a else c)
  | a, c => a.or c

/-! ### One event -/

/-- `str::lines`: what stands between line feeds, each with its carriage return stripped; the last
line needs no end. -/
def linesFrom : Bytes → Bytes → List Bytes
  | cur, [] => if cur = [] then [] else [cur]
  | cur, b :: bs =>
    if b = 10 then (if cur.getLast? = some 13 then cur.dropLast else cur) :: linesFrom [] bs
    else linesFrom (cur ++ [b]) bs

def lines (text : Bytes) : List Bytes := linesFrom [] text

/-- `split_once(':')`, or the whole line with nothing behind it. -/
def splitColon : Bytes → Bytes × Bytes
  | [] => ([], [])
  | b :: bs => if b = 58 then ([], bs) else (b :: (splitColon bs).1, (splitColon bs).2)

/-- `strip_prefix(' ')`. -/
def stripSpace : Bytes → Bytes
  | 32 :: bs => bs
  | bs => bs

/-- The event so far, whether it has a field, and the number of its data lines. -/
structure Parsed where
  event : Event := {}
  any : Bool := false
  lines : ℕ := 0

/-- One line of an event. -/
def parseLine (p : Parsed) (line : Bytes) : Parsed :=
  if line.head? = some 58 then p
  else
    let (name, value) := splitColon line
    let value := stripSpace value
    if name = utf8 "event" then { p with event := { p.event with kind := value }, any := true }
    else if name = utf8 "data" then
      let data := if 0 < p.lines then p.event.data ++ [10] ++ value else p.event.data ++ value
      { p with event := { p.event with data := data }, lines := p.lines + 1, any := true }
    else p

/-- One event from its lines; `none` for a comment. -/
def parse (text : Bytes) : Option Event :=
  let p := (lines text).foldl parseLine {}
  if p.any then some p.event else none

/-! ### The reader -/

structure Events where
  rest : Bytes := []
deriving DecidableEq

namespace Events

/-- Add a piece of the stream. -/
def push (e : Events) (bytes : Bytes) : Except Types.Error Events :=
  let rest := e.rest ++ bytes
  if maxEventBytes < rest.length ∧ findBlankLine rest = none then
    .error (.tooLarge rest.length maxEventBytes)
  else .ok ⟨rest⟩

/-- The loop of `next`, over at most this many blank lines. -/
def nextLoop : ℕ → Bytes → Option Event × Bytes
  | 0, rest => (none, rest)
  | fuel + 1, rest =>
    match findBlankLine rest with
    | none => (none, rest)
    | some (textEnd, frameEnd) =>
      -- what is not UTF-8 is dropped
      let parsed := if (fromUtf8 (rest.take textEnd)).isSome then parse (rest.take textEnd) else none
      match parsed with
      | some e => (some e, rest.drop frameEnd)
      | none => nextLoop fuel (rest.drop frameEnd)

/-- The next whole event, or `none`. Each turn of the loop drops a blank line, so the bytes that
are there are turns enough. -/
def next (e : Events) : Option Event × Events :=
  let (ev, rest) := nextLoop (e.rest.length + 1) e.rest
  (ev, ⟨rest⟩)

end Events

end Hop.Hoplib
