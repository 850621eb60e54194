import Hop.Lead.State
import Hop.Types.Json

/-!
# The stream of events

`api/src/stream.rs`: the recent events with their numbers, and their form as server-sent events.
-/

namespace Hop.Api

open Hop.Types
open Hop.Lead (Event)

/-- `EVENT_LOG_CAP`. -/
def eventLogCap : ℕ := Lead.maxEvents

/-- The comment that keeps a silent stream alive. -/
def keepalive : Bytes := utf8 ": keepalive\n\n"

/-- `frame`: one event of a stream. -/
def frame (kind data : Bytes) : Bytes :=
  utf8 "event: " ++ kind ++ utf8 "\ndata: " ++ data ++ utf8 "\n\n"

/-- The fields of an object after the first. -/
def moreFields : List (String × String) → Bytes
  | [] => []
  | (k, v) :: fs =>
    Json.comma :: Json.writeString k ++ Json.colon :: Json.writeString v ++ moreFields fs

/-- `object`: an object of text fields. -/
def object : List (String × String) → Bytes
  | [] => [Json.openBrace, Json.closeBrace]
  | (k, v) :: fs =>
    Json.openBrace :: Json.writeString k ++ Json.colon :: Json.writeString v ++ moreFields fs ++
      [Json.closeBrace]

/-- `strip_prefix`. -/
def stripPrefix (front s : List Char) : Option (List Char) :=
  if front <+: s then some (s.drop front.length) else none

/-- `split_once(':')`. -/
def splitColon : List Char → Option (List Char × List Char)
  | [] => none
  | c :: cs => if c = ':' then some ([], cs) else (splitColon cs).map fun p => (c :: p.1, p.2)

/-- `topic_frame`: the event of a topic. -/
def topicFrame (topic : String) : Bytes :=
  match stripPrefix "agent:".toList topic.toList with
  | some id => frame (utf8 "agent") (object [("id", .ofList id)])
  | none =>
    match stripPrefix "job:".toList topic.toList with
    | some rest =>
      match splitColon rest with
      | some (name, event) =>
        frame (utf8 "task") (object [("job", .ofList name), ("event", .ofList event)])
      | none => frame (utf8 "job") (object [("name", .ofList rest)])
    | none => frame (utf8 "status") (object [])

/-- The recent events with their numbers, the oldest first. -/
structure EventLog where
  /-- The number of the next event. -/
  next : ℕ := 0
  ring : List (ℕ × String) := []

namespace EventLog

/-- The number that a new reader begins with. -/
def seq (log : EventLog) : ℕ := log.next

def pushTopic (log : EventLog) (topic : String) : EventLog :=
  let ring := if eventLogCap ≤ log.ring.length then log.ring.drop 1 else log.ring
  ⟨(log.next + 1) % 2 ^ 64, ring ++ [(log.next, topic)]⟩

/-- `push_topic` when there is no memory for the event: it is gone, and counts all the same. -/
def dropTopic (log : EventLog) : EventLog :=
  ⟨(log.next + 1) % 2 ^ 64,
    if eventLogCap ≤ log.ring.length then log.ring.drop 1 else log.ring⟩

/-- Add an event of the leader. -/
def push (log : EventLog) : Event → EventLog
  | .status => log.pushTopic ""
  | .agent id => log.pushTopic ("agent:" ++ id)
  | .job name => log.pushTopic ("job:" ++ name)

def pushAll (log : EventLog) (events : List Event) : EventLog := events.foldl push log

/-- The loop of `since`: the frames, whether a number was missing, and the number expected next. -/
def sinceLoop : List (ℕ × String) → ℕ → Bool → List Bytes → List Bytes × Bool × ℕ
  | [], expect, gap, frames => (frames, gap, expect)
  | (s, topic) :: rest, expect, gap, frames =>
    sinceLoop rest ((s + 1) % 2 ^ 64) (gap || decide (s ≠ expect)) (frames ++ [topicFrame topic])

/-- The frames of `since`: one `status` first if the reader missed something. -/
def frames (log : EventLog) (seq : ℕ) : List Bytes :=
  if log.next < seq then [frame (utf8 "status") (object [])]
  else
    let (frames, gap, expect) := sinceLoop (log.ring.filter fun p => seq ≤ p.1) seq false []
    if gap || decide (expect ≠ log.next) then frame (utf8 "status") (object []) :: frames
    else frames

/-- What is written to a reader that saw everything before the number `seq`, and the number that it
asks with the next time. -/
def since (log : EventLog) (seq : ℕ) : Bytes × ℕ := ((log.frames seq).flatten, log.next)

end EventLog

end Hop.Api
