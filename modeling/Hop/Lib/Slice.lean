import Mathlib

/-!
# Parts of a buffer

A part of a list from an index on (`slice`), and writing over a part (`overwrite`). What a slice is
depends only on the elements in it (`slice_congr`), and writing changes only the part it writes
(`getElem?_overwrite`).
-/

namespace Hop

universe u

variable {α : Type u} {l l' v : List α} {a i n m p : ℕ}

/-- The `n` elements from `a` on, as far as there are any. -/
def slice (l : List α) (a n : ℕ) : List α := (l.drop a).take n

/-- The list with `v` written over it from `p` on. -/
def overwrite (l : List α) (p : ℕ) (v : List α) : List α :=
  l.take p ++ v ++ l.drop (p + v.length)

theorem slice_length (h : a + n ≤ l.length) : (slice l a n).length = n := by
  rw [slice, List.length_take, List.length_drop]
  omega

theorem slice_length_le (l : List α) (a n : ℕ) : (slice l a n).length ≤ n :=
  List.length_take_le _ _

theorem slice_zero (l : List α) (n : ℕ) : slice l 0 n = l.take n := rfl

theorem getElem?_slice (l : List α) (a : ℕ) (h : i < n) : (slice l a n)[i]? = l[a + i]? := by
  rw [slice, List.getElem?_take_of_lt h, List.getElem?_drop]

/-- Two lists have the same slice if they have the same elements there. -/
theorem slice_congr (h : ∀ i, a ≤ i → i < a + n → l'[i]? = l[i]?) : slice l' a n = slice l a n := by
  apply List.ext_getElem?
  intro i
  rcases Nat.lt_or_ge i n with hi | hi
  · rw [getElem?_slice l' a hi, getElem?_slice l a hi]
    exact h (a + i) (Nat.le_add_right a i) (by omega)
  · rw [List.getElem?_eq_none ((slice_length_le l' a n).trans hi),
      List.getElem?_eq_none ((slice_length_le l a n).trans hi)]

/-- A slice of a slice. -/
theorem slice_slice (l : List α) (a : ℕ) (h : i + m ≤ n) :
    slice (slice l a n) i m = slice l (a + i) m := by
  rw [slice, slice, slice, List.drop_take, List.drop_drop, List.take_take]
  congr 1
  omega

/-- A slice of the front is one of the whole. -/
theorem slice_take (h : a + n ≤ m) : slice (l.take m) a n = slice l a n := by
  have hall := slice_slice l 0 h
  rwa [slice_zero, Nat.zero_add] at hall

theorem overwrite_length (h : p + v.length ≤ l.length) : (overwrite l p v).length = l.length := by
  rw [overwrite, List.length_append, List.length_append, List.length_take, List.length_drop]
  omega

theorem getElem?_overwrite_of_lt (h : p + v.length ≤ l.length) (hi : i < p) :
    (overwrite l p v)[i]? = l[i]? := by
  rw [overwrite, List.append_assoc, List.getElem?_append_left (by rw [List.length_take]; omega),
    List.getElem?_take_of_lt hi]

theorem getElem?_overwrite_of_ge (h : p + v.length ≤ l.length) (hi : p + v.length ≤ i) :
    (overwrite l p v)[i]? = l[i]? := by
  have hfront : (l.take p ++ v).length = p + v.length := by
    rw [List.length_append, List.length_take]
    omega
  rw [overwrite, List.getElem?_append_right (by omega), List.getElem?_drop, hfront]
  congr 1
  omega

/-- Only the part that is written changes. -/
theorem getElem?_overwrite_of_outside (h : p + v.length ≤ l.length)
    (hi : i < p ∨ p + v.length ≤ i) : (overwrite l p v)[i]? = l[i]? :=
  hi.elim (getElem?_overwrite_of_lt h) (getElem?_overwrite_of_ge h)

/-- Writing behind a front is writing into what is behind it. -/
theorem drop_overwrite (h : m + p + v.length ≤ l.length) :
    (overwrite l (m + p) v).drop m = overwrite (l.drop m) p v := by
  have hfront : m ≤ (l.take (m + p)).length := by
    rw [List.length_take]
    omega
  rw [overwrite, overwrite, List.append_assoc, List.drop_append_of_le_length hfront,
    List.drop_take, List.drop_drop, Nat.add_sub_cancel_left, ← List.append_assoc, Nat.add_assoc]

/-- What was written is there. -/
theorem slice_overwrite (h : p + v.length ≤ l.length) :
    slice (overwrite l p v) p v.length = v := by
  have hfront : (l.take p).length = p := by
    rw [List.length_take]
    omega
  rw [slice, overwrite, List.append_assoc, List.drop_append_of_le_length hfront.ge,
    List.drop_eq_nil_of_le hfront.le, List.nil_append, List.take_left]

/-- The slice around what was written. -/
theorem slice_overwrite_around (hp : a ≤ p) (hn : p + v.length ≤ a + n) (h : a + n ≤ l.length) :
    slice (overwrite l p v) a n = overwrite (slice l a n) (p - a) v := by
  have hlen := slice_length h
  have hfits : p - a + v.length ≤ (slice l a n).length := by omega
  have hwhole : p + v.length ≤ l.length := by omega
  apply List.ext_getElem?
  intro i
  rcases Nat.lt_or_ge i n with hi | hi
  · rw [getElem?_slice _ a hi]
    rcases Nat.lt_or_ge i (p - a) with hlt | hge
    · rw [getElem?_overwrite_of_lt hwhole (by omega), getElem?_overwrite_of_lt hfits hlt,
        getElem?_slice _ a hi]
    · rcases Nat.lt_or_ge i (p - a + v.length) with hlt' | hge'
      · have hin := getElem?_slice (overwrite l p v) p (i := i - (p - a)) (n := v.length) (by omega)
        have hin' := getElem?_slice (overwrite (slice l a n) (p - a) v) (p - a)
          (i := i - (p - a)) (n := v.length) (by omega)
        rw [slice_overwrite hwhole] at hin
        rw [slice_overwrite hfits] at hin'
        rw [show a + i = p + (i - (p - a)) by omega, ← hin, hin', Nat.add_sub_cancel' hge]
      · rw [getElem?_overwrite_of_ge hwhole (by omega), getElem?_overwrite_of_ge hfits hge',
          getElem?_slice _ a hi]
  · rw [List.getElem?_eq_none ((slice_length_le _ a n).trans hi), List.getElem?_eq_none]
    rw [overwrite_length hfits, hlen]
    exact hi

end Hop
