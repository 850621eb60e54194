import Mathlib

/-!
# Rings

What is kept of a growing list by something that holds `n` elements: its end, `List.rtake n`. A ring
that is written over in place holds the same elements, turned by the place of the next one
(`turned_set`).
-/

namespace Hop.Ring

variable {α : Type} {l : List α} {n head : ℕ}

theorem length_rtake (l : List α) (n : ℕ) : (l.rtake n).length = min l.length n := by
  rw [List.rtake, List.length_drop]
  omega

/-- What stays when one more comes. -/
theorem rtake_concat (hn : 0 < n) (l : List α) (x : α) :
    (l ++ [x]).rtake n = l.rtake (n - 1) ++ [x] := by
  obtain ⟨m, rfl⟩ : ∃ m, n = m + 1 := ⟨n - 1, by omega⟩
  exact List.rtake_concat_succ l m x

theorem rtake_of_length_le (h : l.length ≤ n) : l.rtake n = l := by
  rw [List.rtake, Nat.sub_eq_zero_of_le h, List.drop_zero]

/-- Of the last elements, one less. -/
theorem drop_one_rtake (h : n ≤ l.length) (hn : 0 < n) : (l.rtake n).drop 1 = l.rtake (n - 1) := by
  rw [List.rtake, List.rtake, List.drop_drop]
  congr 1
  omega

/-- The ring from the place of its oldest element on. -/
def turned (ring : List α) (head : ℕ) : List α := ring.drop head ++ ring.take head

@[simp] theorem turned_zero (ring : List α) : turned ring 0 = ring := List.append_nil ring

theorem perm_turned (ring : List α) (head : ℕ) : (turned ring head).Perm ring := by
  have hcut := List.take_append_drop head ring
  calc turned ring head
    _ = ring.drop head ++ ring.take head := rfl
    List.Perm _ (ring.take head ++ ring.drop head) := List.perm_append_comm
    _ = ring := hcut

/-- **A ring that is written over** at its oldest element has lost that one and has the new one at
the end. -/
theorem turned_set {ring : List α} (hhead : head < ring.length) (x : α) :
    turned (ring.set head x) ((head + 1) % ring.length) = (turned ring head).drop 1 ++ [x] := by
  have hset : ring.set head x = ring.take head ++ x :: ring.drop (head + 1) := by
    rw [List.set_eq_take_append_cons_drop, if_pos hhead]
  have hlen : (ring.take head).length = head := List.length_take_of_le hhead.le
  have hnext : (turned ring head).drop 1 = ring.drop (head + 1) ++ ring.take head := by
    rw [turned, List.drop_append_of_le_length (by rw [List.length_drop]; omega), List.drop_drop]
  rw [hset, hnext]
  rcases Nat.lt_or_eq_of_le (Nat.succ_le_of_lt hhead) with hlt | heq
  · rw [Nat.mod_eq_of_lt hlt, turned]
    have hcut : ring.take head ++ x :: ring.drop (head + 1) =
        (ring.take head ++ [x]) ++ ring.drop (head + 1) := by
      rw [List.append_assoc, List.singleton_append]
    have hfront : (ring.take head ++ [x]).length = head + 1 := by
      rw [List.length_append, hlen, List.length_singleton]
    rw [hcut, List.drop_left' hfront, List.take_left' hfront, List.append_assoc]
  · have hnil : ring.drop (head + 1) = [] := List.drop_eq_nil_of_le heq.ge
    rw [← heq, Nat.succ_eq_add_one, Nat.mod_self, turned_zero, hnil, List.nil_append]

/-! ### A window that fills and is then written over -/

/-- A vector is a window on the last `n` elements of a list, with the next one to go to `head`. -/
structure Window (n : ℕ) (ring : List α) (head : ℕ) (l : List α) : Prop where
  turned : turned ring head = l.rtake n
  head_lt : head < n
  head_zero : ring.length < n → head = 0

variable {ring : List α}

theorem Window.nil (hn : 0 < n) : Window n ([] : List α) 0 [] where
  turned := (turned_zero []).trans (List.rtake_nil n).symm
  head_lt := hn
  head_zero := fun _ => rfl

theorem Window.perm (h : Window n ring head l) : ring.Perm (l.rtake n) :=
  h.turned ▸ (perm_turned ring head).symm

theorem Window.length (h : Window n ring head l) : ring.length = min l.length n := by
  rw [h.perm.length_eq, length_rtake]

/-- As long as there is room, the next element comes behind. -/
theorem Window.push (h : Window n ring head l) (hroom : ring.length < n) (x : α) :
    Window n (ring ++ [x]) head (l ++ [x]) := by
  have hhead := h.head_zero hroom
  have hlen := h.length
  have hring : ring = l := by
    have hturned := h.turned
    rwa [hhead, turned_zero, rtake_of_length_le (by omega)] at hturned
  subst hhead hring
  refine ⟨?_, h.head_lt, fun _ => rfl⟩
  rw [turned_zero, rtake_of_length_le]
  rw [List.length_append, List.length_singleton]
  omega

/-- A full window is written over at its oldest element. -/
theorem Window.overwrite (h : Window n ring head l) (hfull : n ≤ ring.length) (x : α) :
    Window n (ring.set head x) ((head + 1) % n) (l ++ [x]) := by
  have hlen := h.length
  have hring : ring.length = n := by omega
  have hn : 0 < n := Nat.zero_lt_of_lt h.head_lt
  refine ⟨?_, Nat.mod_lt _ hn, fun hlt => ?_⟩
  · rw [rtake_concat hn, ← drop_one_rtake (by omega) hn, ← h.turned]
    have hset := turned_set (hring ▸ h.head_lt) x
    rwa [hring] at hset
  · rw [List.length_set] at hlt
    omega

end Hop.Ring
