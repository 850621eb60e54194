import Mathlib

/-!
# Searching by bisection

`bisect` halves a window of a list that is sorted by a key. It finds the element with the key, or
the place where one belongs; `bisect_ok` and `bisect_error` say so as a cut of the list, which is
what a lookup (`findKey_eq`) and an insertion need. The list has no duplicates, so the element is
the only one with its key.
-/

namespace Hop.Bisect

universe u v

variable {α : Type u} {κ : Type v} [LinearOrder κ]

/-- The search in the window from `lo` to `hi`: where the key is, or where it belongs. -/
def window (key : α → κ) (k : κ) (xs : List α) (lo hi : ℕ) (hhi : hi ≤ xs.length) : Except ℕ ℕ :=
  if h : lo < hi then
    match compare (key (xs.get ⟨(lo + hi) / 2, by omega⟩)) k with
    | .eq => .ok ((lo + hi) / 2)
    | .lt => window key k xs ((lo + hi) / 2 + 1) hi hhi
    | .gt => window key k xs lo ((lo + hi) / 2) (by omega)
  else .error lo
termination_by hi - lo

/-- `binary_search_by`. -/
def bisect (key : α → κ) (k : κ) (xs : List α) : Except ℕ ℕ :=
  window key k xs 0 xs.length (Nat.le_refl _)

/-- What is found by bisection. -/
def findKey (key : α → κ) (k : κ) (xs : List α) : Option α :=
  match bisect key k xs with
  | .ok i => xs[i]?
  | .error _ => none

/-- Sorted by the key, without duplicates. -/
def SortedBy (key : α → κ) (xs : List α) : Prop := xs.Pairwise fun a b => key a < key b

variable {key : α → κ} {k : κ} {xs as bs : List α} {x : α} {i lo hi : ℕ} {hhi : hi ≤ xs.length}

theorem get_lt_get (hs : SortedBy key xs) {i j : ℕ} (hij : i < j) (hj : j < xs.length) :
    key (xs.get ⟨i, Nat.lt_trans hij hj⟩) < key (xs.get ⟨j, hj⟩) :=
  List.pairwise_iff_getElem.mp hs i j (Nat.lt_trans hij hj) hj hij

theorem window_ok (h : window key k xs lo hi hhi = .ok i) :
    ∃ hi : i < xs.length, key (xs.get ⟨i, hi⟩) = k := by
  fun_induction window key k xs lo hi hhi with
  | case1 lo hi hhi hlt heq =>
    obtain rfl := Except.ok.inj h
    exact ⟨by omega, compare_eq_iff_eq.mp heq⟩
  | case2 lo hi hhi hlt hcmp ih => exact ih h
  | case3 lo hi hhi hlt hcmp ih => exact ih h
  | case4 lo hi hhi hlt => cases h

theorem get_le_get (hs : xs.Pairwise fun a b => key a ≤ key b) {i j : ℕ} (hij : i < j)
    (hj : j < xs.length) : key (xs.get ⟨i, Nat.lt_trans hij hj⟩) ≤ key (xs.get ⟨j, hj⟩) :=
  List.pairwise_iff_getElem.mp hs i j (Nat.lt_trans hij hj) hj hij

/-- The invariant of the search: what is left of the window is smaller, what is right of it larger. -/
theorem window_error (hs : xs.Pairwise fun a b => key a ≤ key b) (hle : lo ≤ hi)
    (hlo : ∀ j (hj : j < xs.length), j < lo → key (xs.get ⟨j, hj⟩) < k)
    (hup : ∀ j (hj : j < xs.length), hi ≤ j → k < key (xs.get ⟨j, hj⟩))
    (h : window key k xs lo hi hhi = .error i) :
    i ≤ xs.length ∧ (∀ j (hj : j < xs.length), j < i → key (xs.get ⟨j, hj⟩) < k) ∧
      ∀ j (hj : j < xs.length), i ≤ j → k < key (xs.get ⟨j, hj⟩) := by
  fun_induction window key k xs lo hi hhi with
  | case1 lo hi hhi hlt heq => cases h
  | case2 lo hi hhi hlt hcmp ih =>
    have hmid := compare_lt_iff_lt.mp hcmp
    refine ih (by omega) (fun j hj hjm => ?_) hup h
    rcases Nat.lt_or_eq_of_le (Nat.le_of_lt_succ hjm) with hjm | rfl
    · exact (get_le_get hs hjm (by omega)).trans_lt hmid
    · exact hmid
  | case3 lo hi hhi hlt hcmp ih =>
    have hmid := compare_gt_iff_gt.mp hcmp
    refine ih (by omega) hlo (fun j hj hmj => ?_) h
    rcases Nat.lt_or_eq_of_le hmj with hmj | rfl
    · exact lt_of_lt_of_le hmid (get_le_get hs hmj hj)
    · exact hmid
  | case4 lo hi hhi hlt =>
    obtain rfl := Except.error.inj h
    exact ⟨by omega, hlo, fun j hj hlj => hup j hj (by omega)⟩

/-- What is found cuts the list in two. -/
theorem bisect_ok (h : bisect key k xs = .ok i) :
    ∃ as x bs, xs = as ++ x :: bs ∧ as.length = i ∧ key x = k := by
  obtain ⟨hi, hkey⟩ := window_ok h
  refine ⟨xs.take i, xs.get ⟨i, hi⟩, xs.drop (i + 1), ?_, List.length_take_of_le (by omega), hkey⟩
  have hcut := List.take_append_drop i xs
  rw [List.drop_eq_getElem_cons hi] at hcut
  exact hcut.symm

/-- What is not found has its place between the smaller keys and the larger ones, also where keys are
there more than once. -/
theorem bisect_error_of_le (hs : xs.Pairwise fun a b => key a ≤ key b)
    (h : bisect key k xs = .error i) :
    ∃ as bs, xs = as ++ bs ∧ as.length = i ∧ (∀ a ∈ as, key a < k) ∧ ∀ b ∈ bs, k < key b := by
  obtain ⟨hle, hlo, hup⟩ := window_error hs (Nat.zero_le _) (fun j _ hj => absurd hj j.not_lt_zero)
    (fun j hj hle => absurd hj (Nat.not_lt.mpr hle)) h
  refine ⟨xs.take i, xs.drop i, (List.take_append_drop i xs).symm, List.length_take_of_le hle,
    fun a ha => ?_, fun b hb => ?_⟩
  · obtain ⟨j, hj, rfl⟩ := List.mem_iff_getElem.mp ha
    rw [List.getElem_take]
    rw [List.length_take] at hj
    exact hlo j (by omega) (by omega)
  · obtain ⟨j, hj, rfl⟩ := List.mem_iff_getElem.mp hb
    rw [List.getElem_drop]
    rw [List.length_drop] at hj
    exact hup (i + j) (by omega) (by omega)

theorem bisect_error (hs : SortedBy key xs) (h : bisect key k xs = .error i) :
    ∃ as bs, xs = as ++ bs ∧ as.length = i ∧ (∀ a ∈ as, key a < k) ∧ ∀ b ∈ bs, k < key b :=
  bisect_error_of_le (hs.imp le_of_lt) h

theorem mem_of_findKey (h : findKey key k xs = some x) : x ∈ xs ∧ key x = k := by
  rw [findKey] at h
  rcases hfound : bisect key k xs with i | i
  · rw [hfound] at h
    cases h
  · obtain ⟨as, y, bs, hcut, rfl, hy⟩ := bisect_ok hfound
    rw [hfound] at h
    dsimp only at h
    rw [hcut, List.getElem?_append_right (Nat.le_refl _), Nat.sub_self,
      List.getElem?_cons_zero] at h
    obtain rfl := Option.some.inj h
    rw [hcut]
    exact ⟨List.mem_append_right _ List.mem_cons_self, hy⟩

theorem ne_of_findKey (hs : xs.Pairwise fun a b => key a ≤ key b) (h : findKey key k xs = none) :
    ∀ x ∈ xs, key x ≠ k := by
  rw [findKey] at h
  rcases hfound : bisect key k xs with i | i
  · obtain ⟨as, bs, rfl, -, has, hbs⟩ := bisect_error_of_le hs hfound
    intro x hx
    rcases List.mem_append.mp hx with hx | hx
    · exact (has x hx).ne
    · exact (hbs x hx).ne'
  · obtain ⟨as, y, bs, hcut, rfl, -⟩ := bisect_ok hfound
    rw [hfound] at h
    dsimp only at h
    rw [hcut, List.getElem?_append_right (Nat.le_refl _), Nat.sub_self,
      List.getElem?_cons_zero] at h
    cases h

theorem SortedBy.notMem_of_cut (hs : SortedBy key (as ++ x :: bs)) :
    (∀ a ∈ as, key a ≠ key x) ∧ ∀ b ∈ bs, key b ≠ key x := by
  rw [SortedBy, List.pairwise_append, List.pairwise_cons] at hs
  obtain ⟨-, ⟨hbs, -⟩, has⟩ := hs
  exact ⟨fun a ha => (has a ha x List.mem_cons_self).ne, fun b hb => (hbs b hb).ne'⟩

/-- In a sorted list, bisection finds what a search from the front finds. -/
theorem findKey_eq [DecidableEq κ] (hs : SortedBy key xs) (k : κ) :
    findKey key k xs = xs.find? fun x => key x = k := by
  rw [findKey]
  rcases hfound : bisect key k xs with i | i
  · obtain ⟨as, bs, rfl, -, has, hbs⟩ := bisect_error hs hfound
    refine (List.find?_eq_none.mpr fun x hx => ?_).symm
    rw [decide_eq_true_eq]
    rcases List.mem_append.mp hx with hx | hx
    · exact (has x hx).ne
    · exact (hbs x hx).ne'
  · obtain ⟨as, x, bs, rfl, rfl, rfl⟩ := bisect_ok hfound
    have has : as.find? (fun a => key a = key x) = none :=
      List.find?_eq_none.mpr fun a ha => by simpa using hs.notMem_of_cut.1 a ha
    simp only [List.find?_append, has, List.find?_cons, decide_true, Option.none_or]
    rw [List.getElem?_append_right (Nat.le_refl _), Nat.sub_self, List.getElem?_cons_zero]

/-! ### Where an element goes in -/

theorem insertIdx_cut (as bs : List α) (x : α) :
    (as ++ bs).insertIdx as.length x = as ++ x :: bs := by
  induction as with
  | nil => rfl
  | cons a as ih => rw [List.cons_append, List.length_cons, List.insertIdx_succ_cons, ih]; rfl

theorem modify_cut (as bs : List α) (x : α) (f : α → α) :
    (as ++ x :: bs).modify as.length f = as ++ f x :: bs := by
  induction as with
  | nil => rfl
  | cons a as ih => rw [List.cons_append, List.length_cons, List.modify_succ_cons, ih]; rfl

/-- A new key in its place leaves the list sorted. -/
theorem SortedBy.insert (hs : SortedBy key (as ++ bs)) (has : ∀ a ∈ as, key a < key x)
    (hbs : ∀ b ∈ bs, key x < key b) : SortedBy key (as ++ x :: bs) := by
  rw [SortedBy, List.pairwise_append] at hs ⊢
  obtain ⟨hl, hr, hlr⟩ := hs
  refine ⟨hl, List.pairwise_cons.mpr ⟨hbs, hr⟩, fun a ha b hb => ?_⟩
  rcases List.mem_cons.mp hb with rfl | hb
  · exact has a ha
  · exact hlr a ha b hb

/-- Elements may change if their keys do not. -/
theorem SortedBy.of_map_eq {ys : List α} (hs : SortedBy key xs) (h : ys.map key = xs.map key) :
    SortedBy key ys := by
  have hmap := List.pairwise_map.mpr hs
  rw [← h] at hmap
  exact List.pairwise_map.mp hmap

theorem SortedBy.replace {y : α} (hs : SortedBy key (as ++ x :: bs)) (hy : key y = key x) :
    SortedBy key (as ++ y :: bs) := by
  refine hs.of_map_eq ?_
  rw [List.map_append, List.map_cons, hy, List.map_append, List.map_cons]

end Hop.Bisect
