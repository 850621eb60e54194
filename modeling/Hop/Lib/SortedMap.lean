import Mathlib

/-!
# Sorted association lists

A finite map as a list of entries whose keys strictly increase. The invariant is a field, so
there is no map with a key twice or out of order. Two maps with the same lookups are equal
(`SortedMap.ext_get?`), and the operations are known by what they do to a lookup.
-/

namespace Hop

universe u v

/-- A finite map: entries with strictly increasing keys. -/
structure SortedMap (κ : Type u) (ν : Type v) [LinearOrder κ] where
  entries : List (κ × ν)
  sorted : entries.Pairwise fun a b => a.1 < b.1

namespace SortedMap

variable {κ : Type u} {ν : Type v} [LinearOrder κ]
variable {k : κ} {m : SortedMap κ ν} {v : ν} {es : List (κ × ν)}

instance [DecidableEq ν] : DecidableEq (SortedMap κ ν) := fun m n =>
  if h : m.entries = n.entries then
    isTrue (by cases m; cases n; cases h; rfl)
  else isFalse fun hmn => h (congrArg entries hmn)

/-- The map without entries. -/
def empty : SortedMap κ ν := ⟨[], List.Pairwise.nil⟩

instance : Inhabited (SortedMap κ ν) := ⟨empty⟩

def isEmpty (m : SortedMap κ ν) : Bool := m.entries.isEmpty

/-- The number of keys. -/
def size (m : SortedMap κ ν) : ℕ := m.entries.length

def keys (m : SortedMap κ ν) : List κ := m.entries.map Prod.fst

/-- The value of the first entry with key `k`. -/
def lookup (k : κ) : List (κ × ν) → Option ν
  | [] => none
  | e :: es => if e.1 = k then some e.2 else lookup k es

/-- The value at `k`. -/
def get? (m : SortedMap κ ν) (k : κ) : Option ν := lookup k m.entries

/-- Put an entry at its place, or in the place of the one with its key. -/
def insertEntry (k : κ) (v : ν) : List (κ × ν) → List (κ × ν)
  | [] => [(k, v)]
  | e :: es =>
    if k < e.1 then (k, v) :: e :: es
    else if k = e.1 then (k, v) :: es
    else e :: insertEntry k v es

theorem mem_insertEntry {e : κ × ν} (h : e ∈ insertEntry k v es) : e = (k, v) ∨ e ∈ es := by
  induction es with
  | nil => exact Or.inl (by simpa [insertEntry] using h)
  | cons d es ih =>
    unfold insertEntry at h
    split_ifs at h
    · exact List.mem_cons.mp h
    · exact (List.mem_cons.mp h).imp_right (List.mem_cons_of_mem d)
    · rcases List.mem_cons.mp h with rfl | h
      · exact Or.inr List.mem_cons_self
      · exact (ih h).imp_right (List.mem_cons_of_mem d)

theorem insertEntry_sorted (h : es.Pairwise fun a b => a.1 < b.1) :
    (insertEntry k v es).Pairwise fun a b => a.1 < b.1 := by
  induction es with
  | nil => exact List.pairwise_singleton _ _
  | cons e es ih =>
    obtain ⟨he, hes⟩ := List.pairwise_cons.mp h
    unfold insertEntry
    split_ifs with hlt heq
    · refine List.pairwise_cons.mpr ⟨fun b hb => ?_, h⟩
      rcases List.mem_cons.mp hb with rfl | hb
      · exact hlt
      · exact hlt.trans (he b hb)
    · exact List.pairwise_cons.mpr ⟨fun b hb => heq ▸ he b hb, hes⟩
    · refine List.pairwise_cons.mpr ⟨fun b hb => ?_, ih hes⟩
      rcases mem_insertEntry hb with rfl | hb
      · exact lt_of_le_of_ne (not_lt.mp hlt) (Ne.symm heq)
      · exact he b hb

/-- Set `k` to `v`. -/
def insert (m : SortedMap κ ν) (k : κ) (v : ν) : SortedMap κ ν :=
  ⟨insertEntry k v m.entries, insertEntry_sorted m.sorted⟩

/-- Take `k` out. -/
def erase (m : SortedMap κ ν) (k : κ) : SortedMap κ ν :=
  ⟨m.entries.filter fun e => e.1 ≠ k, m.sorted.filter _⟩

/-- Apply `f` to every value. -/
def mapVal {ν' : Type v} (m : SortedMap κ ν) (f : κ → ν → ν') : SortedMap κ ν' :=
  ⟨m.entries.map fun e => (e.1, f e.1 e.2), List.pairwise_map.mpr m.sorted⟩

/-- Apply `f` to the value at `k`, if there is one. -/
def modify (m : SortedMap κ ν) (k : κ) (f : ν → ν) : SortedMap κ ν :=
  m.mapVal fun k' v => if k' = k then f v else v

/-- Insert a list of entries, one after the other: a later entry wins. -/
def ofList (es : List (κ × ν)) : SortedMap κ ν :=
  es.foldl (fun m e => m.insert e.1 e.2) empty

/-! ### Lookups -/

@[simp] theorem get?_empty (k : κ) : (empty : SortedMap κ ν).get? k = none := rfl

theorem lookup_insertEntry (k k' : κ) (v : ν) (es : List (κ × ν)) :
    lookup k' (insertEntry k v es) = if k = k' then some v else lookup k' es := by
  induction es with
  | nil => rfl
  | cons e es ih =>
    by_cases hk : k = k'
    · subst hk
      rw [if_pos rfl] at ih ⊢
      unfold insertEntry
      split_ifs with hlt heq
      · simp [lookup]
      · simp [lookup]
      · simpa [lookup, Ne.symm heq] using ih
    · rw [if_neg hk] at ih ⊢
      unfold insertEntry
      split_ifs with hlt heq
      · simp [lookup, hk]
      · simp [lookup, ← heq, hk]
      · simp [lookup, ih]

theorem get?_insert (m : SortedMap κ ν) (k k' : κ) (v : ν) :
    (m.insert k v).get? k' = if k = k' then some v else m.get? k' :=
  lookup_insertEntry k k' v m.entries

@[simp] theorem get?_insert_self (m : SortedMap κ ν) (k : κ) (v : ν) :
    (m.insert k v).get? k = some v := by
  rw [get?_insert, if_pos rfl]

theorem get?_erase (m : SortedMap κ ν) (k k' : κ) :
    (m.erase k).get? k' = if k = k' then none else m.get? k' := by
  change lookup k' (m.entries.filter fun e => e.1 ≠ k) =
    if k = k' then none else lookup k' m.entries
  induction m.entries with
  | nil => simp [lookup]
  | cons e es ih =>
    by_cases he : e.1 = k
    · rw [List.filter_cons_of_neg (by simp [he]), ih]
      split_ifs with hk
      · rfl
      · simp [lookup, he, hk]
    · rw [List.filter_cons_of_pos (by simp [he])]
      simp only [lookup, ih]
      split_ifs with h1 h2 h2
      · exact absurd (h1.trans h2.symm) he
      · rfl
      · rfl
      · rfl

/-- What is there after an insertion was put there or was there before. -/
theorem of_get?_insert {k' : κ} {w : ν} (h : (m.insert k v).get? k' = some w) :
    k' ≠ k ∧ m.get? k' = some w ∨ k' = k ∧ w = v := by
  rw [get?_insert] at h
  split_ifs at h with hk
  · exact .inr ⟨hk.symm, (Option.some.inj h).symm⟩
  · exact .inl ⟨Ne.symm hk, h⟩

theorem of_get?_erase {k' : κ} {w : ν} (h : (m.erase k).get? k' = some w) :
    k' ≠ k ∧ m.get? k' = some w := by
  rw [get?_erase] at h
  split_ifs at h with hk
  exact ⟨Ne.symm hk, h⟩

theorem get?_mapVal {ν' : Type v} (m : SortedMap κ ν) (f : κ → ν → ν') (k : κ) :
    (m.mapVal f).get? k = (m.get? k).map (f k) := by
  change lookup k (m.entries.map fun e => (e.1, f e.1 e.2)) = (lookup k m.entries).map (f k)
  induction m.entries with
  | nil => rfl
  | cons e es ih =>
    simp only [List.map_cons, lookup]
    split_ifs with h
    · rw [← h, Option.map_some]
    · exact ih

theorem get?_modify (m : SortedMap κ ν) (k k' : κ) (f : ν → ν) :
    (m.modify k f).get? k' = if k = k' then (m.get? k').map f else m.get? k' := by
  unfold modify
  rw [get?_mapVal]
  by_cases h : k = k'
  · simp [h]
  · simp [h, Ne.symm h]

/-! ### Entries and lookups -/

theorem lookup_eq_none_of_lt (h : ∀ e ∈ es, k < e.1) :
    lookup k es = none := by
  induction es with
  | nil => rfl
  | cons e es ih =>
    have he := h e List.mem_cons_self
    unfold lookup
    rw [if_neg he.ne']
    exact ih fun d hd => h d (List.mem_cons_of_mem e hd)

theorem lookup_eq_some_iff (h : es.Pairwise fun a b => a.1 < b.1) :
    lookup k es = some v ↔ (k, v) ∈ es := by
  induction es with
  | nil => simp [lookup]
  | cons e es ih =>
    obtain ⟨he, hes⟩ := List.pairwise_cons.mp h
    unfold lookup
    split_ifs with hk
    · have hnot : (k, v) ∉ es := fun hmem => absurd (he _ hmem) (by simp [hk])
      simp only [Option.some.injEq, List.mem_cons, hnot, or_false]
      constructor
      · rintro rfl
        rw [← hk]
      · exact fun h => congrArg Prod.snd h.symm
    · rw [ih hes, List.mem_cons]
      exact ⟨Or.inr, fun h => h.resolve_left fun h => hk (congrArg Prod.fst h.symm)⟩

/-- An entry is a lookup. -/
theorem get?_eq_some_iff :
    m.get? k = some v ↔ (k, v) ∈ m.entries := lookup_eq_some_iff m.sorted

/-- Two sorted lists with the same lookups are equal. -/
theorem eq_of_lookup_eq {ds : List (κ × ν)} (hes : es.Pairwise fun a b => a.1 < b.1)
    (hds : ds.Pairwise fun a b => a.1 < b.1) (h : ∀ k, lookup k es = lookup k ds) : es = ds := by
  induction es generalizing ds with
  | nil =>
    cases ds with
    | nil => rfl
    | cons d ds => simpa [lookup] using h d.1
  | cons e es ih =>
    cases ds with
    | nil => simpa [lookup] using h e.1
    | cons d ds =>
      obtain ⟨he, hes'⟩ := List.pairwise_cons.mp hes
      obtain ⟨hd, hds'⟩ := List.pairwise_cons.mp hds
      -- the smallest key of either list is looked up in the other
      have hmin : ∀ {e d : κ × ν} {es ds : List (κ × ν)}, e.1 < d.1 → (∀ b ∈ ds, d.1 < b.1) →
          lookup e.1 (e :: es) = lookup e.1 (d :: ds) → False := by
        intro e d es ds hlt hds heq
        have hnone : lookup e.1 (d :: ds) = none := by
          refine lookup_eq_none_of_lt fun b hb => ?_
          rcases List.mem_cons.mp hb with rfl | hb
          · exact hlt
          · exact hlt.trans (hds b hb)
        rw [hnone] at heq
        simp [lookup] at heq
      have hkey : e.1 = d.1 := by
        rcases lt_trichotomy e.1 d.1 with hlt | heq | hgt
        · exact (hmin hlt hd (h e.1)).elim
        · exact heq
        · exact (hmin hgt he (h d.1).symm).elim
      have hval : e.2 = d.2 := by
        simpa [lookup, hkey] using h e.1
      obtain rfl : e = d := Prod.ext hkey hval
      rw [ih hes' hds' fun k => ?_]
      by_cases hk : e.1 = k
      · rw [← hk, lookup_eq_none_of_lt he, lookup_eq_none_of_lt hd]
      · simpa [lookup, hk] using h k

/-- Two maps with the same lookups are equal. -/
theorem ext_get? {n : SortedMap κ ν} (h : ∀ k, m.get? k = n.get? k) : m = n := by
  obtain ⟨es, hes⟩ := m
  obtain ⟨ds, hds⟩ := n
  obtain rfl := eq_of_lookup_eq hes hds h
  rfl

theorem keys_nodup (m : SortedMap κ ν) : m.keys.Nodup :=
  List.pairwise_map.mpr (m.sorted.imp fun h => h.ne)

/-- Inserting sorted entries one by one. -/
theorem get?_foldl_insert (hes : es.Pairwise fun a b => a.1 < b.1) (m : SortedMap κ ν) (k : κ) :
    (es.foldl (fun m e => m.insert e.1 e.2) m).get? k = (lookup k es).or (m.get? k) := by
  induction es generalizing m with
  | nil => rfl
  | cons e es ih =>
    obtain ⟨he, hes⟩ := List.pairwise_cons.mp hes
    rw [List.foldl_cons, ih hes, get?_insert, lookup]
    by_cases hk : e.1 = k
    · rw [if_pos hk, if_pos hk, lookup_eq_none_of_lt (fun d hd => hk ▸ he d hd)]
      rfl
    · rw [if_neg hk, if_neg hk]

/-- Inserting pairs one by one: each name has its last value. -/
theorem get?_foldl_insert_of_empty (es : List (κ × ν)) (m : SortedMap κ ν) (k : κ) :
    (es.foldl (fun m e => m.insert e.1 e.2) m).get? k =
      ((es.foldl (fun m e => m.insert e.1 e.2) empty).get? k).or (m.get? k) := by
  induction es using List.reverseRecOn with
  | nil => rfl
  | append_singleton es e ih =>
    simp only [List.foldl_append, List.foldl_cons, List.foldl_nil, get?_insert, ih]
    split_ifs
    · rfl
    · rfl

/-- One map over another. -/
def overlay (m top : SortedMap κ ν) : SortedMap κ ν :=
  top.entries.foldl (fun m e => m.insert e.1 e.2) m

theorem get?_overlay (m top : SortedMap κ ν) (k : κ) :
    (m.overlay top).get? k = (top.get? k).or (m.get? k) :=
  get?_foldl_insert top.sorted m k

/-- A map is rebuilt from its entries. -/
theorem ofList_entries (m : SortedMap κ ν) : ofList m.entries = m := by
  refine ext_get? fun k => ?_
  unfold ofList
  rw [get?_foldl_insert m.sorted, get?_empty, Option.or_none]
  rfl

theorem length_insertEntry_le (k : κ) (v : ν) (es : List (κ × ν)) :
    (insertEntry k v es).length ≤ es.length + 1 := by
  induction es with
  | nil => exact Nat.le_refl 1
  | cons e es ih =>
    unfold insertEntry
    split_ifs
    · exact Nat.le_refl _
    · simp
    · exact Nat.succ_le_succ ih

theorem size_insert_le (m : SortedMap κ ν) (k : κ) (v : ν) : (m.insert k v).size ≤ m.size + 1 :=
  length_insertEntry_le k v m.entries

/-- A map has no more entries than a list that holds all its keys. -/
theorem size_le_of_keys {ks : List κ} (h : ∀ k v, m.get? k = some v → k ∈ ks) :
    m.size ≤ ks.length := by
  have hsub : m.keys ⊆ ks := by
    intro k hk
    obtain ⟨e, he, rfl⟩ := List.mem_map.mp hk
    exact h e.1 e.2 (get?_eq_some_iff.mpr he)
  calc m.size = m.keys.length := (List.length_map _).symm
    _ ≤ ks.length := (List.subperm_of_subset m.keys_nodup hsub).length_le

/-! ### Changes of one entry -/

theorem insert_erase_self (m : SortedMap κ ν) (k : κ) (v : ν) :
    (m.erase k).insert k v = m.insert k v := by
  refine ext_get? fun k' => ?_
  rw [get?_insert, get?_insert, get?_erase]
  split_ifs <;> rfl

theorem insert_insert_self (m : SortedMap κ ν) (k : κ) (v w : ν) :
    (m.insert k v).insert k w = m.insert k w := by
  refine ext_get? fun k' => ?_
  rw [get?_insert, get?_insert, get?_insert]
  split_ifs <;> rfl

theorem erase_insert_self (m : SortedMap κ ν) (k : κ) (v : ν) :
    (m.insert k v).erase k = m.erase k := by
  refine ext_get? fun k' => ?_
  rw [get?_erase, get?_erase, get?_insert]
  split_ifs <;> rfl

/-- Changing an entry that is there is putting another one in its place. -/
theorem modify_of_some (h : m.get? k = some v) (f : ν → ν) :
    m.modify k f = m.insert k (f v) := by
  refine ext_get? fun k' => ?_
  rw [get?_modify, get?_insert]
  split_ifs with hk
  · rw [← hk, h, Option.map_some]
  · rfl

/-- There is no entry to change. -/
theorem modify_of_none (h : m.get? k = none) (f : ν → ν) :
    m.modify k f = m := by
  refine ext_get? fun k' => ?_
  rw [get?_modify]
  split_ifs with hk
  · rw [← hk, h, Option.map_none]
  · rfl

/-- A change that leaves the entry as it is. -/
theorem modify_of_fixed {f : ν → ν} (h : ∀ v, m.get? k = some v → f v = v) : m.modify k f = m := by
  refine ext_get? fun k' => ?_
  rw [get?_modify]
  split_ifs with hk
  · subst hk
    cases hv : m.get? k with
    | none => rfl
    | some v => rw [Option.map_some, h v hv]
  · rfl

/-! ### Parts of a map -/

/-- The entries whose values satisfy `p`. -/
def filterVal (m : SortedMap κ ν) (p : ν → Bool) : SortedMap κ ν :=
  ⟨m.entries.filter fun e => p e.2, m.sorted.filter _⟩

theorem get?_filterVal (m : SortedMap κ ν) (p : ν → Bool) (k : κ) :
    (m.filterVal p).get? k = (m.get? k).filter p := by
  refine Option.ext fun v => ?_
  rw [Option.filter_eq_some_iff, get?_eq_some_iff, get?_eq_some_iff]
  exact List.mem_filter

/-- A new entry stands between the smaller and the larger keys. -/
theorem entries_insert (h : m.get? k = none) (v : ν) :
    ∃ l r, m.entries = l ++ r ∧ (m.insert k v).entries = l ++ (k, v) :: r ∧
      ∀ e ∈ m.entries, e.1 < k → e ∈ l := by
  obtain ⟨es, hsorted⟩ := m
  change lookup k es = none at h
  change ∃ l r, es = l ++ r ∧ insertEntry k v es = l ++ (k, v) :: r ∧ ∀ e ∈ es, e.1 < k → e ∈ l
  induction es with
  | nil => exact ⟨[], [], rfl, rfl, fun e he => absurd he List.not_mem_nil⟩
  | cons e es ih =>
    obtain ⟨he, hes⟩ := List.pairwise_cons.mp hsorted
    have hne : e.1 ≠ k := by
      intro heq
      simp [lookup, heq] at h
    have hrest : lookup k es = none := by simpa [lookup, hne] using h
    unfold insertEntry
    split_ifs with hlt heq
    · refine ⟨[], e :: es, rfl, rfl, fun d hd hdk => ?_⟩
      rcases List.mem_cons.mp hd with rfl | hd
      · exact absurd (hlt.trans hdk) (lt_irrefl _)
      · exact absurd ((hlt.trans (he d hd)).trans hdk) (lt_irrefl _)
    · exact absurd heq.symm hne
    · obtain ⟨l, r, hsplit, hinsert, hsmall⟩ := ih hes hrest
      refine ⟨e :: l, r, congrArg (e :: ·) hsplit, congrArg (e :: ·) hinsert, fun d hd hdk => ?_⟩
      rcases List.mem_cons.mp hd with rfl | hd
      · exact List.mem_cons_self
      · exact List.mem_cons_of_mem _ (hsmall d hd hdk)

/-- A part of a map is a part of its entries. -/
theorem entries_sublist {n : SortedMap κ ν} (h : ∀ k v, m.get? k = some v → n.get? k = some v) :
    m.entries.Sublist n.entries := by
  have : Std.Antisymm fun a b : κ × ν => a.1 < b.1 := ⟨fun a b h h' => absurd h' h.asymm⟩
  refine List.sublist_of_subperm_of_pairwise ?_ m.sorted n.sorted
  refine List.subperm_of_subset (m.keys_nodup.of_map _) fun e he => ?_
  exact get?_eq_some_iff.mp (h e.1 e.2 (get?_eq_some_iff.mpr he))

/-! ### Counting values -/

/-- The number of values that satisfy `p`. -/
def countVal (m : SortedMap κ ν) (p : ν → Bool) : ℕ := m.entries.countP fun e => p e.2

theorem countP_eq_filter_add {p : ν → Bool} (hes : es.Pairwise fun a b => a.1 < b.1)
    (h : lookup k es = some v) :
    es.countP (fun e => p e.2) =
      (es.filter fun e => e.1 ≠ k).countP (fun e => p e.2) + if p v then 1 else 0 := by
  induction es with
  | nil => simp [lookup] at h
  | cons e es ih =>
    obtain ⟨he, hes⟩ := List.pairwise_cons.mp hes
    by_cases hk : e.1 = k
    · obtain rfl : e.2 = v := by simpa [lookup, hk] using h
      have hfilter : es.filter (fun e => e.1 ≠ k) = es :=
        List.filter_eq_self.mpr fun d hd => by simpa using (hk ▸ he d hd).ne'
      rw [List.filter_cons_of_neg (by simp [hk]), hfilter, List.countP_cons]
    · have hrest := ih hes (by simpa [lookup, hk] using h)
      rw [List.filter_cons_of_pos (by simp [hk]), List.countP_cons, List.countP_cons, hrest]
      omega

/-- Taking out an entry takes its value out of the count. -/
theorem countVal_erase (p : ν → Bool) (h : m.get? k = some v) :
    m.countVal p = (m.erase k).countVal p + if p v then 1 else 0 :=
  countP_eq_filter_add m.sorted h

theorem erase_of_none (h : m.get? k = none) : m.erase k = m := by
  refine ext_get? fun k' => ?_
  rw [get?_erase]
  split_ifs with hk
  · exact (hk ▸ h).symm
  · rfl

theorem size_modify (m : SortedMap κ ν) (k : κ) (f : ν → ν) : (m.modify k f).size = m.size := by
  simp [modify, mapVal, size]

theorem size_erase_le (m : SortedMap κ ν) (k : κ) : (m.erase k).size ≤ m.size :=
  List.length_filter_le _ _

theorem size_erase_lt (h : m.get? k = some v) :
    (m.erase k).size < m.size := by
  have hcount := countVal_erase (fun _ => true) h
  simp only [countVal, List.countP_true, if_true] at hcount
  exact Nat.lt_of_succ_le hcount.ge

/-- A new entry adds its value to the count. -/
theorem countVal_insert (v : ν) (p : ν → Bool) (h : m.get? k = none) :
    (m.insert k v).countVal p = m.countVal p + if p v then 1 else 0 := by
  have herase : (m.insert k v).erase k = m := by
    refine ext_get? fun k' => ?_
    rw [get?_erase, get?_insert]
    split_ifs with hk
    · exact (hk ▸ h).symm
    · rfl
  rw [countVal_erase p (m.get?_insert_self k v), herase]

/-- A change that the predicate does not see leaves the count alone. -/
theorem countVal_modify {f : ν → ν} {p : ν → Bool} (h : ∀ v, m.get? k = some v → p (f v) = p v) :
    (m.modify k f).countVal p = m.countVal p := by
  unfold countVal modify mapVal
  rw [List.countP_map]
  refine List.countP_congr fun e he => ?_
  dsimp only [Function.comp]
  split_ifs with hk
  · rw [h e.2 (get?_eq_some_iff.mpr (hk ▸ he))]
  · rfl

theorem countVal_pos_iff {p : ν → Bool} :
    0 < m.countVal p ↔ ∃ k v, m.get? k = some v ∧ p v = true := by
  unfold countVal
  rw [List.countP_pos_iff]
  constructor
  · rintro ⟨e, he, hp⟩
    exact ⟨e.1, e.2, get?_eq_some_iff.mpr he, hp⟩
  · rintro ⟨k, v, hget, hp⟩
    exact ⟨(k, v), get?_eq_some_iff.mp hget, hp⟩

end SortedMap

end Hop
