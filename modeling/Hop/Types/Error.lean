import Hop.Types.Prim

/-!
# The errors of the types

`types/src/error.rs`. An error does not allocate, so it holds a field name cut to 32 bytes.
Allocations succeed in this development, so there is no `OutOfMemory`; numbers that JSON cannot
carry are not modelled either (`NotFinite`).
-/

namespace Hop.Types

/-- How many bytes of a field name an error holds. -/
def nameBytes : ℕ := 32

/-- The longest run of characters from the front that takes at most `n` bytes. -/
def takeBytes : ℕ → List Char → List Char
  | _, [] => []
  | n, c :: cs => if c.utf8Size ≤ n then c :: takeBytes (n - c.utf8Size) cs else []

/-- A field name or key in an error, cut to `nameBytes`. -/
structure Name where
  text : String
deriving DecidableEq, Repr

/-- The first `nameBytes` bytes of `s`, at a character boundary. -/
def Name.new (s : String) : Name := ⟨String.ofList (takeBytes nameBytes s.toList)⟩

/-- What can go wrong when types are read or written. -/
inductive Error
  /-- The input is larger than the bound. -/
  | tooLarge (len max : ℕ)
  /-- The input nests deeper than the bound. -/
  | tooDeep (offset max : ℕ)
  /-- The input is no JSON: what was expected at this byte. -/
  | syntaxError (offset : ℕ) (expected : String)
  /-- There is more than white space after the document. -/
  | trailing (offset : ℕ)
  /-- An object names a key twice. -/
  | duplicateKey (key : Name)
  | wrongType (field : Name) (want : String)
  /-- A key that the schema does not know (in strict mode). -/
  | unknownField (field : Name)
  | outOfRange (field : Name)
  | invalid (field : Name) (why : String)
  | tooMany (field : Name) (max : ℕ)
  /-- A fixed port with an update that puts old and new side by side. -/
  | fixedPortRolls (job port : Name) (number : ℕ)
  /-- No error of the source: an unchecked addition overflowed, which aborts the process. -/
  | aborted
deriving DecidableEq, Repr

end Hop.Types
