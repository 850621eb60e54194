import Hop.Lib.Bisect

/-!
# Sorted vectors

A vector that is sorted by a key, without duplicates, and searched by bisection. The invariant is a
field. A vector is known by its lookups (`get_eq_some_iff`), and a change by what it does to them: an
element in the place of the one with its key (`get_modifyAt`), a new one where the search says that
it belongs (`get_insertAt`), one less (`get_removeAt`), all of them at once (`get_filterMap`).
-/

namespace Hop

open Bisect

universe u v

/-- A vector with strictly increasing keys. -/
structure SortedVec {α : Type u} {κ : Type v} [LinearOrder κ] (key : α → κ) where
  rows : List α
  sorted : SortedBy key rows

namespace SortedVec

variable {α : Type u} {κ : Type v} [LinearOrder κ] {key : α → κ}

/-- The vector without elements. -/
def empty : SortedVec key := ⟨[], List.Pairwise.nil⟩

/-- Where the key is, or where it belongs. -/
def find (v : SortedVec key) (k : κ) : Except ℕ ℕ := bisect key k v.rows

/-- The element with this key. -/
def get (v : SortedVec key) (k : κ) : Option α := findKey key k v.rows

omit [LinearOrder κ] in
theorem map_modify {f : α → α} (hf : ∀ x, key (f x) = key x) (xs : List α) (i : ℕ) :
    (xs.modify i f).map key = xs.map key := by
  refine List.ext_getElem? fun j => ?_
  rw [List.getElem?_map, List.getElem?_map, List.getElem?_modify]
  rcases xs[j]? with - | x
  · split_ifs
    · rfl
    · rfl
  · split_ifs
    · exact congrArg some (hf x)
    · rfl

/-- Changes the element at `i`, not its key. -/
def modifyAt (v : SortedVec key) (i : ℕ) (f : α → α) (hf : ∀ x, key (f x) = key x) : SortedVec key :=
  ⟨v.rows.modify i f, SortedBy.of_map_eq v.sorted (map_modify hf v.rows i)⟩

theorem sorted_insertAt {v : SortedVec key} {x : α} {i : ℕ} (h : v.find (key x) = .error i) :
    SortedBy key (v.rows.insertIdx i x) := by
  obtain ⟨as, bs, hcut, rfl, has, hbs⟩ := bisect_error v.sorted h
  rw [hcut, insertIdx_cut]
  exact (hcut ▸ v.sorted).insert has hbs

/-- Puts a new element where the search says that it belongs. -/
def insertAt (v : SortedVec key) (x : α) (i : ℕ) (h : v.find (key x) = .error i) : SortedVec key :=
  ⟨v.rows.insertIdx i x, sorted_insertAt h⟩

/-- Takes the element at `i` out. -/
def removeAt (v : SortedVec key) (i : ℕ) : SortedVec key :=
  ⟨v.rows.eraseIdx i, v.sorted.sublist (List.eraseIdx_sublist _ _)⟩

theorem sorted_filterMap {g : α → Option α} (hg : ∀ x y, g x = some y → key y = key x)
    {xs : List α} (hs : SortedBy key xs) : SortedBy key (xs.filterMap g) := by
  refine List.pairwise_filterMap.mpr (hs.imp fun hab x hx y hy => ?_)
  rw [hg _ _ hx, hg _ _ hy]
  exact hab

/-- Changes every element, not its key, or takes it out. -/
def filterMap (v : SortedVec key) (g : α → Option α) (hg : ∀ x y, g x = some y → key y = key x) :
    SortedVec key :=
  ⟨v.rows.filterMap g, sorted_filterMap hg v.sorted⟩

@[simp] theorem rows_modifyAt (v : SortedVec key) (i : ℕ) (f : α → α)
    (hf : ∀ x, key (f x) = key x) : (v.modifyAt i f hf).rows = v.rows.modify i f := rfl

@[simp] theorem rows_insertAt {v : SortedVec key} {x : α} {i : ℕ} (h : v.find (key x) = .error i) :
    (v.insertAt x i h).rows = v.rows.insertIdx i x := rfl

@[simp] theorem rows_removeAt (v : SortedVec key) (i : ℕ) :
    (v.removeAt i).rows = v.rows.eraseIdx i := rfl

@[simp] theorem rows_filterMap (v : SortedVec key) (g : α → Option α)
    (hg : ∀ x y, g x = some y → key y = key x) : (v.filterMap g hg).rows = v.rows.filterMap g := rfl

/-! ### Lookups -/

variable {v : SortedVec key} {k k' : κ} {x y : α} {i : ℕ}

theorem eq_of_key_eq (hx : x ∈ v.rows) (hy : y ∈ v.rows) (h : key x = key y) : x = y := by
  obtain ⟨i, hi, rfl⟩ := List.mem_iff_getElem.mp hx
  obtain ⟨j, hj, rfl⟩ := List.mem_iff_getElem.mp hy
  rcases Nat.lt_trichotomy i j with hij | rfl | hji
  · exact absurd h (get_lt_get v.sorted hij hj).ne
  · rfl
  · exact absurd h (get_lt_get v.sorted hji hi).ne'

/-- What is found is there, and has the key. -/
theorem get_eq_some_iff : v.get k = some x ↔ x ∈ v.rows ∧ key x = k := by
  rw [get, findKey_eq v.sorted]
  constructor
  · intro h
    exact ⟨List.mem_of_find?_eq_some h, of_decide_eq_true (List.find?_some h :)⟩
  · rintro ⟨hx, rfl⟩
    rcases hfind : v.rows.find? (fun y => key y = key x) with - | y
    · exact absurd (decide_eq_true rfl) (List.find?_eq_none.mp hfind x hx)
    · have hy : key y = key x := of_decide_eq_true (List.find?_some hfind :)
      rw [eq_of_key_eq (List.mem_of_find?_eq_some hfind) hx hy]

/-- Two lookups with the same elements are the same. -/
theorem get_congr {w : SortedVec key} {o : Option α} (h : ∀ x, x ∈ w.rows ∧ key x = k ↔ o = some x) :
    w.get k = o :=
  Option.ext fun x => get_eq_some_iff.trans (h x)

/-- The place of a key that is there. -/
theorem find_ok (h : v.find k = .ok i) : ∃ x, v.rows[i]? = some x ∧ v.get k = some x := by
  obtain ⟨as, x, bs, hcut, rfl, hx⟩ := bisect_ok h
  refine ⟨x, ?_, get_eq_some_iff.mpr ⟨?_, hx⟩⟩
  · rw [hcut, List.getElem?_append_right (Nat.le_refl _), Nat.sub_self, List.getElem?_cons_zero]
  · rw [hcut]
    exact List.mem_append_right _ List.mem_cons_self

/-- A key that belongs somewhere is not there. -/
theorem find_error (h : v.find k = .error i) : v.get k = none := by
  rw [get, findKey, show bisect key k v.rows = .error i from h]

@[simp] theorem get_empty (k : κ) : (empty : SortedVec key).get k = none := by
  refine get_congr fun x => ⟨fun h => ?_, fun h => ?_⟩
  · exact absurd h.1 List.not_mem_nil
  · cases h

theorem get_modifyAt {f : α → α} (hf : ∀ x, key (f x) = key x) (h : v.find k = .ok i) (k' : κ) :
    (v.modifyAt i f hf).get k' = if k' = k then (v.get k').map f else v.get k' := by
  obtain ⟨as, x, bs, hcut, rfl, rfl⟩ := bisect_ok h
  have hrows : (v.modifyAt as.length f hf).rows = as ++ f x :: bs := by
    rw [rows_modifyAt, hcut, modify_cut]
  have hget : v.get (key x) = some x := get_eq_some_iff.mpr ⟨by
    rw [hcut]
    exact List.mem_append_right _ List.mem_cons_self, rfl⟩
  split_ifs with hk
  · rw [hk, hget, Option.map_some]
    refine get_eq_some_iff.mpr ⟨?_, hf x⟩
    rw [hrows]
    exact List.mem_append_right _ List.mem_cons_self
  · refine get_congr fun y => ?_
    rw [get_eq_some_iff, hrows, hcut, List.mem_append, List.mem_append, List.mem_cons, List.mem_cons]
    constructor
    · rintro ⟨hy | rfl | hy, hkey⟩
      · exact ⟨.inl hy, hkey⟩
      · exact absurd (hkey.symm.trans (hf x)) hk
      · exact ⟨.inr (.inr hy), hkey⟩
    · rintro ⟨hy | rfl | hy, hkey⟩
      · exact ⟨.inl hy, hkey⟩
      · exact absurd hkey.symm hk
      · exact ⟨.inr (.inr hy), hkey⟩

theorem get_insertAt {h : v.find (key x) = .error i} (k' : κ) :
    (v.insertAt x i h).get k' = if k' = key x then some x else v.get k' := by
  obtain ⟨as, bs, hcut, rfl, has, hbs⟩ := bisect_error v.sorted h
  have hmem : ∀ y, y ∈ (v.insertAt x as.length h).rows ↔ y = x ∨ y ∈ v.rows := by
    intro y
    have hrows : (v.insertAt x as.length h).rows = as ++ x :: bs := by
      rw [rows_insertAt, hcut, insertIdx_cut]
    rw [hrows, hcut, List.mem_append, List.mem_append, List.mem_cons]
    exact or_left_comm
  split_ifs with hk
  · exact get_eq_some_iff.mpr ⟨(hmem x).mpr (.inl rfl), hk.symm⟩
  · refine get_congr fun y => ?_
    rw [get_eq_some_iff, hmem]
    constructor
    · rintro ⟨rfl | hy, hkey⟩
      · exact absurd hkey.symm hk
      · exact ⟨hy, hkey⟩
    · rintro ⟨hy, hkey⟩
      exact ⟨.inr hy, hkey⟩

theorem get_removeAt (h : v.find k = .ok i) (k' : κ) :
    (v.removeAt i).get k' = if k' = k then none else v.get k' := by
  obtain ⟨as, x, bs, hcut, rfl, rfl⟩ := bisect_ok h
  have hrows : (v.removeAt as.length).rows = as ++ bs := by
    rw [rows_removeAt, hcut, List.eraseIdx_append_of_length_le (Nat.le_refl _), Nat.sub_self,
      List.eraseIdx_cons_zero]
  obtain ⟨has, hbs⟩ := SortedBy.notMem_of_cut (hcut ▸ v.sorted)
  refine get_congr fun y => ?_
  rw [hrows, List.mem_append]
  split_ifs with hk
  · constructor
    · rintro ⟨hy | hy, hkey⟩
      · exact absurd (hkey.trans hk) (has y hy)
      · exact absurd (hkey.trans hk) (hbs y hy)
    · intro h
      cases h
  · rw [get_eq_some_iff, hcut, List.mem_append, List.mem_cons]
    constructor
    · rintro ⟨hy | hy, hkey⟩
      · exact ⟨.inl hy, hkey⟩
      · exact ⟨.inr (.inr hy), hkey⟩
    · rintro ⟨hy | rfl | hy, hkey⟩
      · exact ⟨.inl hy, hkey⟩
      · exact absurd hkey.symm hk
      · exact ⟨.inr hy, hkey⟩

theorem get_filterMap {g : α → Option α} {hg : ∀ x y, g x = some y → key y = key x} (k : κ) :
    (v.filterMap g hg).get k = (v.get k).bind g := by
  refine get_congr fun y => ?_
  rw [rows_filterMap, List.mem_filterMap, Option.bind_eq_some_iff]
  constructor
  · rintro ⟨⟨x, hx, hxy⟩, hkey⟩
    exact ⟨x, get_eq_some_iff.mpr ⟨hx, (hg x y hxy).symm.trans hkey⟩, hxy⟩
  · rintro ⟨x, hx, hxy⟩
    obtain ⟨hmem, hkey⟩ := get_eq_some_iff.mp hx
    exact ⟨⟨x, hmem, hxy⟩, (hg x y hxy).trans hkey⟩

/-- A key that is there has a place. -/
theorem find_of_get (h : v.get k = some x) : ∃ i, v.find k = .ok i := by
  rcases hfind : v.find k with i | i
  · rw [find_error hfind] at h
    cases h
  · exact ⟨i, rfl⟩

/-- A key has one place. -/
theorem place_unique {i j : ℕ} (hi : v.rows[i]? = some x) (hj : v.rows[j]? = some y)
    (hkey : key x = key y) : i = j := by
  obtain ⟨hilt, rfl⟩ := List.getElem?_eq_some_iff.mp hi
  obtain ⟨hjlt, rfl⟩ := List.getElem?_eq_some_iff.mp hj
  rcases Nat.lt_trichotomy i j with hij | hij | hji
  · exact absurd hkey (get_lt_get v.sorted hij hjlt).ne
  · exact hij
  · exact absurd hkey (get_lt_get v.sorted hji hilt).ne'

/-- A new element is found where it was put. -/
theorem find_insertAt {h : v.find (key x) = .error i} : (v.insertAt x i h).find (key x) = .ok i := by
  have hget : (v.insertAt x i h).get (key x) = some x := (get_insertAt (key x)).trans (if_pos rfl)
  obtain ⟨j, hj⟩ := find_of_get hget
  obtain ⟨y, hy, hgety⟩ := find_ok hj
  have hx : (v.insertAt x i h).rows[i]? = some x := by
    obtain ⟨as, bs, hcut, rfl, -, -⟩ := bisect_error v.sorted h
    rw [rows_insertAt, hcut, insertIdx_cut, List.getElem?_append_right (Nat.le_refl _),
      Nat.sub_self, List.getElem?_cons_zero]
  rw [hj, place_unique hx hy (get_eq_some_iff.mp hgety).2.symm]

/-! ### Numbers that belong to the elements -/

theorem length_modifyAt (v : SortedVec key) (i : ℕ) (f : α → α) (hf : ∀ x, key (f x) = key x) :
    (v.modifyAt i f hf).rows.length = v.rows.length := List.length_modify _ _ _

theorem length_insertAt (h : v.find (key x) = .error i) :
    (v.insertAt x i h).rows.length = v.rows.length + 1 := by
  obtain ⟨as, bs, hcut, rfl, -, -⟩ := bisect_error v.sorted h
  rw [rows_insertAt, hcut, insertIdx_cut]
  simp only [List.length_append, List.length_cons]
  omega

/-- A change at one place changes a sum there. -/
theorem sum_modifyAt (f : α → α) (hf : ∀ x, key (f x) = key x) (h : v.find k = .ok i)
    (hx : v.get k = some x) (w : α → ℕ) :
    ((v.modifyAt i f hf).rows.map w).sum + w x = (v.rows.map w).sum + w (f x) := by
  obtain ⟨as, y, bs, hcut, rfl, rfl⟩ := bisect_ok h
  obtain rfl : x = y := by
    obtain ⟨hmem, hkey⟩ := get_eq_some_iff.mp hx
    refine eq_of_key_eq hmem ?_ hkey
    rw [hcut]
    exact List.mem_append_right _ List.mem_cons_self
  rw [rows_modifyAt, hcut, modify_cut]
  simp only [List.map_append, List.map_cons, List.sum_append, List.sum_cons]
  omega

theorem sum_insertAt {h : v.find (key x) = .error i} (w : α → ℕ) :
    ((v.insertAt x i h).rows.map w).sum = (v.rows.map w).sum + w x := by
  obtain ⟨as, bs, hcut, rfl, -, -⟩ := bisect_error v.sorted h
  rw [rows_insertAt, hcut, insertIdx_cut]
  simp only [List.map_append, List.map_cons, List.sum_append, List.sum_cons]
  omega

end SortedVec

end Hop
