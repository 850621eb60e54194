import Hop.Lib.Text

/-!
# Bytes as a text, whatever they are

`String::from_utf8_lossy`: characters are kept, and U+FFFD stands for each run of bytes that is no
character. Only no bytes give no text (`fromUtf8Lossy_eq_empty_iff`).
-/

namespace Hop

/-- A byte in the middle of a character. -/
def isContinuation (b : UInt8) : Bool := 0x80 ≤ b ∧ b ≤ 0xBF

/-- The first two bytes of a character of three. -/
def beginsThree (a b : UInt8) : Bool :=
  a = 0xE0 ∧ 0xA0 ≤ b ∧ b ≤ 0xBF ∨ a = 0xED ∧ 0x80 ≤ b ∧ b ≤ 0x9F ∨
    (0xE1 ≤ a ∧ a ≤ 0xEC ∨ 0xEE ≤ a ∧ a ≤ 0xEF) ∧ isContinuation b

/-- The first two bytes of a character of four. -/
def beginsFour (a b : UInt8) : Bool :=
  a = 0xF0 ∧ 0x90 ≤ b ∧ b ≤ 0xBF ∨ a = 0xF4 ∧ 0x80 ≤ b ∧ b ≤ 0x8F ∨
    0xF1 ≤ a ∧ a ≤ 0xF3 ∧ isContinuation b

/-- How many bytes one U+FFFD stands for, where no character is: the beginning of one, as far as it
goes, or a single byte. -/
def brokenLen : Bytes → ℕ
  | a :: b :: rest =>
    if beginsFour a b then if rest.head?.any isContinuation then 3 else 2
    else if beginsThree a b then 2
    else 1
  | _ => 1

/-- The character that these bytes begin with. -/
def firstChar (b : Bytes) : Option Char := b.toByteArray.utf8DecodeChar? 0

/-- The characters, and U+FFFD for the rest. The first argument bounds the bytes that are left. -/
def lossyChars : ℕ → Bytes → List Char
  | 0, _ => []
  | _ + 1, [] => []
  | fuel + 1, b :: bs =>
    match firstChar (b :: bs) with
    | some c => c :: lossyChars fuel ((b :: bs).drop c.utf8Size)
    | none => '\uFFFD' :: lossyChars fuel ((b :: bs).drop (brokenLen (b :: bs)))

/-- `String::from_utf8_lossy`. -/
def fromUtf8Lossy (b : Bytes) : String := String.ofList (lossyChars b.length b)

/-- Only no bytes give no text. -/
theorem fromUtf8Lossy_eq_empty_iff {b : Bytes} : fromUtf8Lossy b = "" ↔ b = [] := by
  constructor
  · intro h
    have hchars : lossyChars b.length b = [] := String.ofList_eq_empty_iff.mp h
    cases b with
    | nil => rfl
    | cons b bs =>
      rw [List.length_cons, lossyChars] at hchars
      split at hchars
      · cases hchars
      · cases hchars
  · rintro rfl
    rfl

end Hop
