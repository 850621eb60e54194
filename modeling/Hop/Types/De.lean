import Hop.Types.Job
import Hop.Types.Json
import Hop.Types.Time

/-!
# Typed fields of JSON values

`types/src/de.rs`: every reader checks the type and the range, and an error names the field. The
write side builds an object field by field; a field that is left out is no field at all, so the
builder is a list of pairs.
-/

namespace Hop.Types

open Json (Value)

namespace De

/-- The value, or a type error for `field`. -/
def want {α : Type} (got : Option α) (field what : String) : Except Error α :=
  match got with
  | some a => .ok a
  | none => .error (.wrongType (.new field) what)

def object (v : Value) (field : String) : Except Error (List (String × Value)) :=
  want v.asObject field "an object"

def array (v : Value) (field : String) : Except Error (List Value) :=
  want v.asArray field "an array"

def string (v : Value) (field : String) : Except Error String :=
  want v.asStr field "a string"

def boolean (v : Value) (field : String) : Except Error Bool :=
  want v.asBool field "a bool"

/-- The number, or a range error for `field`. -/
def inRange {α : Type} (got : Option α) (field : String) : Except Error α :=
  match got with
  | some a => .ok a
  | none => .error (.outOfRange (.new field))

def int (v : Value) (field : String) : Except Error ℤ :=
  match v with
  | .number n => inRange n.asI64 field
  | _ => .error (.wrongType (.new field) "an integer")

def uint (v : Value) (field : String) : Except Error ℕ :=
  match v with
  | .number n => inRange n.asU64 field
  | _ => .error (.wrongType (.new field) "a non-negative integer")

/-- A duration that is a text. -/
def durationStr (s field : String) : Except Error Nanos :=
  match parseDuration s with
  | .ok d => .ok d
  | .error .invalid => .error (.invalid (.new field) "not a duration (try \"30s\")")
  | .error .negative => .error (.invalid (.new field) "negative duration")
  | .error .overflow => .error (.invalid (.new field) "duration too large")
  | .error .aborted => .error .aborted

/-- A duration: nanoseconds, or a text. -/
def duration (v : Value) (field : String) : Except Error Nanos :=
  match v with
  | .string s => durationStr s field
  | _ => uint v field

/-- A map of at most `max` texts. -/
def strMap (v : Value) (field : String) (max : ℕ) : Except Error (Map String) := do
  let obj ← object v field
  if max < obj.length then .error (.tooMany (.new field) max)
  else obj.foldlM (fun m kv => do
    let s ← string kv.2 field
    .ok (m.insert kv.1 s)) .empty

/-- A list of at most `max` items. -/
def list {α : Type} (v : Value) (field : String) (max : ℕ) (each : Value → Except Error α) :
    Except Error (List α) := do
  let arr ← array v field
  if max < arr.length then .error (.tooMany (.new field) max)
  else arr.mapM each

/-- A key that the schema does not know. -/
def unknown (key : String) (strict : Bool) : Except Error Unit :=
  if strict then .error (.unknownField (.new key)) else .ok ()

/-! ### The write side -/

def str (key s : String) : List (String × Value) := [(key, .string s)]

def strOpt (key s : String) : List (String × Value) := if s = "" then [] else str key s

def intOpt (key : String) (n : ℤ) : List (String × Value) := if n = 0 then [] else [(key, .int n)]

def uintOpt (key : String) (n : ℕ) : List (String × Value) :=
  if n = 0 then [] else [(key, .uint n)]

def strMapValue (m : Map String) : Value := .object (m.entries.map fun e => (e.1, .string e.2))

def mapOpt (key : String) (m : Map String) : List (String × Value) :=
  if m.isEmpty then [] else [(key, strMapValue m)]

end De

end Hop.Types
