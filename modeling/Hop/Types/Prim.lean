import Mathlib

/-!
# Machine integers

The counters and clocks of Hop are `u32` and `u64` values that are only ever moved by
saturating arithmetic, so they are modelled by natural numbers below an explicit bound:
`satAdd max a b` is `a.saturating_add(b)` for an unsigned type with largest value `max`.
Saturating subtraction is the subtraction of `ℕ`.

A time is a number of nanoseconds since 1970 (`types::Time`), a duration a number of
nanoseconds (`types::Nanos`); both are plain natural numbers here.
-/

namespace Hop

/-- `u16::MAX`. -/
def u16Max : ℕ := 2 ^ 16 - 1

/-- `u32::MAX`. -/
def u32Max : ℕ := 2 ^ 32 - 1

/-- `u64::MAX`. -/
def u64Max : ℕ := 2 ^ 64 - 1

/-- `i64::MAX`. -/
def i64Max : ℤ := 2 ^ 63 - 1

/-- `i64::MIN`. -/
def i64Min : ℤ := -2 ^ 63

/-- `a.saturating_add(b)` of an unsigned type with largest value `max`. -/
def satAdd (max a b : ℕ) : ℕ := min (a + b) max

/-- The nearest `i64`: `satI64 (a + b)` is `a.saturating_add(b)`. -/
def satI64 (x : ℤ) : ℤ := max i64Min (min x i64Max)

/-- `a.saturating_mul(b)` of an unsigned type with largest value `max`. -/
def satMul (max a b : ℕ) : ℕ := min (a * b) max

theorem satAdd_le_max (max a b : ℕ) : satAdd max a b ≤ max := min_le_right _ _

theorem satAdd_le_add (max a b : ℕ) : satAdd max a b ≤ a + b := min_le_left _ _

theorem satAdd_of_le {max a b : ℕ} (h : a + b ≤ max) : satAdd max a b = a + b := min_eq_left h

/-- A duration or an instant, in nanoseconds. -/
abbrev Nanos : Type := ℕ

/-- One millisecond. -/
def millisecond : Nanos := 1000000

/-- One second. -/
def second : Nanos := 1000000000

/-- One minute. -/
def minute : Nanos := 60 * second

end Hop
