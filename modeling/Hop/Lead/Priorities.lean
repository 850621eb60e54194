import Hop.Lead.Preempt

/-!
# The numbers of the jobs

The priorities of the jobs are to be `0`, `1`, ..., in the order in which they are placed. Two
functions write them: `normalizePriorities` follows the order that the old priorities and the names
give, and `patchJobPriority` moves one job to a place in that order. Both give each job its index in
a list of the names (`Numbered`), and the sorted order is then that list.
-/

namespace Hop.Lead

open Hop.Types

namespace Leader

variable {name : String} {l : Leader}

variable {N : Type} [Transport N]

/-! ### Numbering in the order of a list -/

/-- The job with its index in `order`, counted from `i`; a job that is not in it stays. -/
def numberFrom (order : List String) (i : ℕ) (j : Job) : Job :=
  if j.name ∈ order then { j with priority := some ((i + order.idxOf j.name : ℕ) : ℤ) } else j

theorem name_numberFrom (order : List String) (i : ℕ) (j : Job) :
    (numberFrom order i j).name = j.name := by
  rw [numberFrom]
  split_ifs
  · rfl
  · rfl

/-- One name more in front. -/
theorem numberFrom_cons {rest : List String} (hnot : name ∉ rest) (i : ℕ) (j : Job) :
    numberFrom rest (i + 1) (if j.name = name then { j with priority := some (i : ℤ) } else j) =
      numberFrom (name :: rest) i j := by
  by_cases hj : j.name = name
  · have hhead : j.name ∈ name :: rest := hj ▸ List.mem_cons_self
    rw [if_pos hj, numberFrom, if_neg (by rw [hj]; exact hnot), numberFrom, if_pos hhead, hj,
      List.idxOf_cons_self, Nat.add_zero]
  · rw [if_neg hj, numberFrom, numberFrom]
    by_cases hrest : j.name ∈ rest
    · rw [if_pos hrest, if_pos (List.mem_cons_of_mem name hrest),
        List.idxOf_cons_ne rest (Ne.symm hj), Nat.succ_eq_add_one, Nat.add_right_comm,
        Nat.add_assoc]
    · have hnone : ¬j.name ∈ name :: rest := by
        rw [List.mem_cons, not_or]
        exact ⟨hj, hrest⟩
      rw [if_neg hrest, if_neg hnone]

theorem jobs_storeSetPriority (l : Leader) (name : String) (p : ℤ) :
    (l.storeSetPriority name p).store.jobs =
      l.store.jobs.map fun j => if j.name = name then { j with priority := some p } else j := by
  rw [storeSetPriority]
  rcases hget : l.store.get name with _ | job
  · -- nobody has the name
    have hnone := MemStore.get_eq_none_iff.mp hget
    have hsame : ∀ j ∈ l.store.jobs,
        (if j.name = name then { j with priority := some p } else j) = id j := by
      intro j hj
      refine if_neg fun h => hnone ?_
      rw [← h]
      exact List.mem_map_of_mem hj
    rw [List.map_congr_left hsame, List.map_id]
  · rfl

theorem jobs_renumber (order : List String) (hnodup : order.Nodup) (i : ℕ) (l : Leader) :
    (renumber order i l).store.jobs = l.store.jobs.map (numberFrom order i) := by
  induction order generalizing i l with
  | nil =>
    have hsame : numberFrom [] i = id := funext fun j => if_neg List.not_mem_nil
    rw [renumber, hsame, List.map_id]
  | cons name rest ih =>
    obtain ⟨hnot, hrest⟩ := List.nodup_cons.mp hnodup
    rw [renumber, ih hrest, jobs_storeSetPriority, List.map_map]
    exact List.map_congr_left fun j _ => numberFrom_cons hnot i j

theorem jobs_normalizeLoop (order : List String) (hnodup : order.Nodup) (i : ℕ) (l : Leader) :
    (normalizeLoop order i l).store.jobs = l.store.jobs.map (numberFrom order i) := by
  induction order generalizing i l with
  | nil =>
    have hsame : numberFrom [] i = id := funext fun j => if_neg List.not_mem_nil
    rw [normalizeLoop, hsame, List.map_id]
  | cons name rest ih =>
    obtain ⟨hnot, hrest⟩ := List.nodup_cons.mp hnodup
    -- a number that is there already is left, which is as good as writing it
    have hstep : (if (l.store.get name).bind Job.priority = some (i : ℤ) then l
        else l.storeSetPriority name i).store.jobs =
        l.store.jobs.map fun j => if j.name = name then { j with priority := some (i : ℤ) } else j := by
      split_ifs with hhas
      · obtain ⟨job, hjob, hp⟩ := Option.bind_eq_some_iff.mp hhas
        have hsame : ∀ j ∈ l.store.jobs,
            (if j.name = name then { j with priority := some (i : ℤ) } else j) = id j := by
          intro j hj
          by_cases hname : j.name = name
          · have heq : l.store.get name = some j := MemStore.get_eq_some_iff.mpr ⟨hj, hname⟩
            rw [hjob] at heq
            cases heq
            rw [if_pos hname, ← hp]
            rfl
          · exact if_neg hname
        rw [List.map_congr_left hsame, List.map_id]
      · exact jobs_storeSetPriority l name i
    rw [normalizeLoop, ih hrest, hstep, List.map_map]
    exact List.map_congr_left fun j _ => numberFrom_cons hnot i j

/-! ### The order after numbering -/

/-- Each job of `l'` is one of `l` with its index in `order`, and nothing else changed. -/
structure Numbered (l l' : Leader) (order : List String) : Prop where
  perm : order.Perm (l.store.jobs.map Job.name)
  jobs : l'.store.jobs = l.store.jobs.map (numberFrom order 0)

/-- The priorities are `0`, `1`, ..., each once. -/
def Dense (l : Leader) : Prop :=
  (l.store.jobs.map Job.priority).Perm
    ((List.range l.store.jobs.length).map fun i : ℕ => some (i : ℤ))

instance : Std.Antisymm KeyLe where
  antisymm a b hab hba := by
    rcases hab with hab | ⟨hab, hab'⟩
    · rcases hba with hba | ⟨hba, -⟩
      · exact absurd hab hba.asymm
      · exact absurd hab hba.le.not_gt
    · rcases hba with hba | ⟨-, hba'⟩
      · exact absurd hba hab.le.not_gt
      · exact Prod.ext hab (le_antisymm hab' hba')

namespace Numbered

variable {l l' : Leader} {order : List String}

theorem nodup (h : Numbered l l' order) : order.Nodup := h.perm.nodup_iff.mpr l.store.nodup

theorem mem (h : Numbered l l' order) {j : Job} (hj : j ∈ l.store.jobs) : j.name ∈ order :=
  h.perm.mem_iff.mpr (List.mem_map_of_mem hj)

theorem length (h : Numbered l l' order) : order.length = l.store.jobs.length := by
  rw [h.perm.length_eq, List.length_map]

theorem priority (h : Numbered l l' order) {j : Job} (hj : j ∈ l.store.jobs) :
    (numberFrom order 0 j).priority = some (order.idxOf j.name : ℤ) := by
  rw [numberFrom, if_pos (h.mem hj), Nat.zero_add]

/-- The sorted order is the list. -/
theorem priorityOrder (h : Numbered l l' order) : l'.priorityOrder = order := by
  have hkeys : l'.store.jobs.map (fun j => (effectivePriority j.priority, j.name)) =
      (l.store.jobs.map Job.name).map fun n => ((order.idxOf n : ℤ), n) := by
    rw [h.jobs, List.map_map, List.map_map]
    refine List.map_congr_left fun j hj => ?_
    simp only [Function.comp_apply, h.priority hj, name_numberFrom, effectivePriority]
    rfl
  have hsorted : (order.map fun n => ((order.idxOf n : ℤ), n)).Pairwise KeyLe := by
    refine List.pairwise_map.mpr (List.pairwise_iff_getElem.mpr fun i k hi hk hik => .inl ?_)
    rw [h.nodup.idxOf_getElem i hi, h.nodup.idxOf_getElem k hk]
    exact Int.ofNat_lt.mpr hik
  have hsort : (l'.store.jobs.map fun j => (effectivePriority j.priority, j.name)).insertionSort
      KeyLe = order.map fun n => ((order.idxOf n : ℤ), n) := by
    refine List.Perm.eq_of_pairwise' (List.pairwise_insertionSort KeyLe _) hsorted ?_
    refine (List.perm_insertionSort KeyLe _).trans ?_
    rw [hkeys]
    exact (h.perm.map _).symm
  rw [Leader.priorityOrder, hsort, List.map_map]
  exact List.map_id order

theorem dense (h : Numbered l l' order) : l'.Dense := by
  have hpriorities : l'.store.jobs.map Job.priority =
      (l.store.jobs.map Job.name).map fun n => some (order.idxOf n : ℤ) := by
    rw [h.jobs, List.map_map, List.map_map]
    exact List.map_congr_left fun j hj => h.priority hj
  have hindices : order.map (fun n => some (order.idxOf n : ℤ)) =
      (List.range l'.store.jobs.length).map fun i : ℕ => some (i : ℤ) := by
    have hlen : l'.store.jobs.length = order.length := by rw [h.jobs, List.length_map, h.length]
    refine List.ext_getElem (by simp [hlen]) fun i hi hi' => ?_
    rw [List.getElem_map, List.getElem_map, List.getElem_range, h.nodup.idxOf_getElem]
  rw [Dense, hpriorities, ← hindices]
  exact (h.perm.map _).symm

/-- The number of the job at a place. -/
theorem get (h : Numbered l l' order) (hname : name ∈ order) :
    (l'.store.get name).bind Job.priority = some (order.idxOf name : ℤ) := by
  obtain ⟨j, hj, rfl⟩ := List.mem_map.mp (h.perm.mem_iff.mp hname)
  have hget : l'.store.get j.name = some (numberFrom order 0 j) := by
    refine MemStore.get_eq_some_iff.mpr ⟨?_, name_numberFrom order 0 j⟩
    rw [h.jobs]
    exact List.mem_map_of_mem hj
  rw [hget, Option.bind_some, h.priority hj]

end Numbered

theorem normalizeLoop_eq_self {order : List String} {i : ℕ} (hnodup : order.Nodup)
    (h : ∀ n ∈ order, (l.store.get n).bind Job.priority = some ((i + order.idxOf n : ℕ) : ℤ)) :
    normalizeLoop order i l = l := by
  induction order generalizing i with
  | nil => rfl
  | cons name rest ih =>
    obtain ⟨hnot, hrest⟩ := List.nodup_cons.mp hnodup
    have hhead := h name List.mem_cons_self
    rw [List.idxOf_cons_self, Nat.add_zero] at hhead
    rw [normalizeLoop, if_pos hhead]
    refine ih hrest fun n hn => ?_
    have hne : name ≠ n := fun heq => hnot (heq ▸ hn)
    rw [h n (List.mem_cons_of_mem name hn), List.idxOf_cons_ne rest hne, Nat.succ_eq_add_one,
      Nat.add_right_comm, Nat.add_assoc]

theorem numbered_normalizePriorities (l : Leader) :
    Numbered l l.normalizePriorities l.priorityOrder :=
  ⟨l.priorityOrder_perm, jobs_normalizeLoop _ (l.priorityOrder_perm.nodup_iff.mpr l.store.nodup) 0 l⟩

/-- **Numbering twice is numbering once.** -/
theorem normalizePriorities_idem (l : Leader) :
    l.normalizePriorities.normalizePriorities = l.normalizePriorities := by
  have h := numbered_normalizePriorities l
  rw [normalizePriorities, h.priorityOrder]
  refine normalizeLoop_eq_self h.nodup fun n hn => ?_
  rw [h.get hn, Nat.zero_add]

/-! ### Dense priorities -/

/-- With dense priorities, the sorted priorities count up. -/
theorem Dense.priorities (h : l.Dense) :
    ((l.store.jobs.map keyOf).insertionSort KeyLe).map Prod.fst =
      (List.range l.store.jobs.length).map Int.ofNat := by
  have hsorted : (((l.store.jobs.map keyOf).insertionSort KeyLe).map Prod.fst).Pairwise (· ≤ ·) := by
    refine List.pairwise_map.mpr ((List.pairwise_insertionSort KeyLe _).imp ?_)
    rintro a b (hlt | ⟨heq, -⟩)
    · exact hlt.le
    · exact heq.le
  have hcounts : ((List.range l.store.jobs.length).map Int.ofNat).Pairwise (· ≤ ·) :=
    List.pairwise_map.mpr (List.pairwise_lt_range.imp fun hlt => Int.ofNat_le.mpr hlt.le)
  refine List.Perm.eq_of_pairwise' hsorted hcounts ?_
  have hperm := (List.perm_insertionSort KeyLe (l.store.jobs.map keyOf)).map Prod.fst
  have heffective := h.map effectivePriority
  rw [List.map_map] at hperm
  rw [List.map_map, List.map_map] at heffective
  exact hperm.trans heffective

/-- With dense priorities, each job has its index in the order. -/
theorem Dense.get (h : l.Dense) (hname : name ∈ l.priorityOrder) :
    (l.store.get name).bind Job.priority = some (l.priorityOrder.idxOf name : ℤ) := by
  let keys := (l.store.jobs.map keyOf).insertionSort KeyLe
  have horder : l.priorityOrder = keys.map Prod.snd := rfl
  have hlt := List.idxOf_lt_length_of_mem hname
  have hi : l.priorityOrder.idxOf name < keys.length := by rwa [horder, List.length_map] at hlt
  -- the key at the place of the name
  have hsnd : keys[l.priorityOrder.idxOf name].2 = name := by
    have hget := List.getElem_idxOf hlt
    simpa only [horder, List.getElem_map] using hget
  have hfst : keys[l.priorityOrder.idxOf name].1 = (l.priorityOrder.idxOf name : ℤ) := by
    have hall := congrArg (fun ps => ps[l.priorityOrder.idxOf name]?) h.priorities
    have hi' : l.priorityOrder.idxOf name < l.store.jobs.length := by
      rwa [show keys.length = l.store.jobs.length by
        rw [List.length_insertionSort, List.length_map]] at hi
    simpa [keys, hi, hi'] using hall
  obtain ⟨j, hj, hkey⟩ := List.mem_map.mp
    ((List.mem_insertionSort KeyLe).mp (List.getElem_mem hi))
  have hget : l.store.get name = some j := by
    refine MemStore.get_eq_some_iff.mpr ⟨hj, ?_⟩
    rw [← hsnd]
    exact congrArg Prod.snd hkey
  have heffective : effectivePriority j.priority = (l.priorityOrder.idxOf name : ℤ) := by
    rw [← hfst]
    exact congrArg Prod.fst hkey
  obtain ⟨i, -, hp⟩ := List.mem_map.mp (h.mem_iff.mp (List.mem_map_of_mem hj))
  have heq : (i : ℤ) = (l.priorityOrder.idxOf name : ℤ) := by rwa [← hp] at heffective
  rw [hget, Option.bind_some, ← hp, heq]

/-- Dense priorities stay as they are. -/
theorem Dense.normalizePriorities (h : l.Dense) : l.normalizePriorities = l := by
  have hnodup : l.priorityOrder.Nodup := l.priorityOrder_perm.nodup_iff.mpr l.store.nodup
  rw [Leader.normalizePriorities]
  refine normalizeLoop_eq_self hnodup fun n hn => ?_
  rw [h.get hn, Nat.zero_add]

/-- A reconcile with dense priorities leaves the store. -/
theorem Dense.store_reconcileJobs (h : l.Dense) (net : Logged N) :
    (l.reconcileJobs net).1.store = l.store := by
  rw [reconcileJobs_eq]
  split_ifs
  · rfl
  · rw [(moves_reconcileLoop _ _ _).store, ranked, h.normalizePriorities]

/-! ### Moving one job -/

/-- The names with `name` moved to the place `target`, or to the end. -/
def moved (order : List String) (name : String) (target : ℤ) : List String :=
  (order.filter fun n => n ≠ name).insertIdx
    (min target.toNat (order.filter fun n => n ≠ name).length) name

theorem filter_insertIdx {others : List String} (hnot : name ∉ others) {k : ℕ}
    (hk : k ≤ others.length) : (others.insertIdx k name).filter (fun n => n ≠ name) = others := by
  have hself : others.filter (fun n => n ≠ name) = others :=
    List.filter_eq_self.mpr fun n hn => decide_eq_true fun h => hnot (h ▸ hn)
  have hsub := (List.sublist_insertIdx others k name).filter fun n => decide (n ≠ name)
  have hlen := ((List.perm_insertIdx name others hk).filter fun n => decide (n ≠ name)).length_eq
  rw [List.filter_cons_of_neg (by simp), hself] at hlen
  rw [hself] at hsub
  exact (hsub.eq_of_length hlen.symm).symm

theorem idxOf_insertIdx {others : List String} (hnodup : others.Nodup) (hnot : name ∉ others)
    {k : ℕ} (hk : k ≤ others.length) :
    (others.insertIdx k name).idxOf name = k := by
  have hlt : k < (others.insertIdx k name).length := by
    rw [List.length_insertIdx_of_le_length hk]
    omega
  have hnodup' : (others.insertIdx k name).Nodup :=
    (List.perm_insertIdx name others hk).nodup_iff.mpr (List.nodup_cons.mpr ⟨hnot, hnodup⟩)
  have hidx := hnodup'.idxOf_getElem k hlt
  rwa [List.getElem_insertIdx_self] at hidx

section Moved

variable {order : List String} {name : String}

theorem perm_cons_others (hnodup : order.Nodup) (hname : name ∈ order) :
    (name :: order.filter fun n => n ≠ name).Perm order := by
  have herase := hnodup.erase_eq_filter name
  have hfilter : order.filter (fun n => n ≠ name) = order.erase name := by
    rw [herase]
    refine List.filter_congr fun n _ => ?_
    by_cases h : n = name
    · simp [h]
    · simp [h]
  rw [hfilter]
  exact (List.perm_cons_erase hname).symm

theorem moved_perm (hnodup : order.Nodup) (hname : name ∈ order) (target : ℤ) :
    (moved order name target).Perm order :=
  (List.perm_insertIdx name _ (min_le_right _ _)).trans (perm_cons_others hnodup hname)

theorem filter_moved (target : ℤ) :
    (moved order name target).filter (fun n => n ≠ name) = order.filter fun n => n ≠ name :=
  filter_insertIdx (by simp) (min_le_right _ _)

theorem idxOf_moved (hnodup : order.Nodup) (hname : name ∈ order) (target : ℤ) :
    ((moved order name target).idxOf name : ℤ) = min (max target 0) (order.length - 1) := by
  have hlen := (perm_cons_others hnodup hname).length_eq
  rw [List.length_cons] at hlen
  rw [moved, idxOf_insertIdx (hnodup.filter _) (by simp) (min_le_right _ _)]
  omega

end Moved

/-- **A job is moved**: it stands at the place `target` of the order, or at the nearest one there
is; the others keep theirs among each other, the priorities are dense, and no job changed in
anything else. -/
structure Moved (l l' : Leader) (name : String) (target : ℤ) : Prop where
  fields : l'.store.jobs.map unranked = l.store.jobs.map unranked
  perm : l'.priorityOrder.Perm l.priorityOrder
  index : (l'.priorityOrder.idxOf name : ℤ) = min (max target 0) (l.store.jobs.length - 1)
  others : l'.priorityOrder.filter (fun n => n ≠ name) = l.priorityOrder.filter fun n => n ≠ name
  dense : l'.Dense

/-- The leader after the renumbering of `patch_job_priority`. -/
def patched (l : Leader) (name : String) (target : ℤ) : Leader :=
  renumber (moved l.priorityOrder name target) 0 l

theorem patchJobPriority_eq {job : Job} (hget : l.store.get name = some job) (net : N) (target : ℤ) :
    l.patchJobPriority net name target = (.ok (),
      ((l.patched name target).emit (.job name)).reconcileJobs net) := by
  rw [patchJobPriority, hget]
  rfl

theorem moved_patched (hname : name ∈ l.priorityOrder) (target : ℤ) :
    Moved l (l.patched name target) name target := by
  have hnodup : l.priorityOrder.Nodup := l.priorityOrder_perm.nodup_iff.mpr l.store.nodup
  have hperm := moved_perm hnodup hname target
  have h : Numbered l (l.patched name target) (moved l.priorityOrder name target) :=
    ⟨hperm.trans l.priorityOrder_perm, jobs_renumber _ (hperm.nodup_iff.mpr hnodup) 0 l⟩
  have hlen : l.priorityOrder.length = l.store.jobs.length := by
    rw [l.priorityOrder_perm.length_eq, List.length_map]
  refine ⟨(renumbers_renumber _ 0 l).jobs, ?_, ?_, ?_, h.dense⟩
  · rw [h.priorityOrder]
    exact hperm
  · rw [h.priorityOrder, idxOf_moved hnodup hname, hlen]
  · rw [h.priorityOrder, filter_moved]

theorem mem_priorityOrder {job : Job} (hget : l.store.get name = some job) :
    name ∈ l.priorityOrder := by
  obtain ⟨hj, hname⟩ := MemStore.get_eq_some_iff.mp hget
  rw [l.priorityOrder_perm.mem_iff, ← hname]
  exact List.mem_map_of_mem hj

/-- The reconcile that follows leaves the store as the renumbering made it. -/
theorem store_patchJobPriority {job : Job} (hget : l.store.get name = some job) (net : Logged N)
    (target : ℤ) :
    (l.patchJobPriority net name target).2.1.store = (l.patched name target).store := by
  have hdense : ((l.patched name target).emit (.job name)).Dense :=
    (moved_patched (mem_priorityOrder hget) target).dense
  rw [patchJobPriority_eq hget]
  exact hdense.store_reconcileJobs net

/-- **The priorities are dense after each numbering.** Normalising keeps the order by effective
priority and name, gives each job its index in it and changes nothing else; doing it again changes
nothing. Moving a stored job puts it at the place asked for, and the other jobs stay in order; the
reconcile that follows leaves the store so. -/
theorem priorities_dense (l : Leader) :
    (l.normalizePriorities.Dense ∧
      (l.priorityOrder.Perm (l.store.jobs.map Job.name) ∧
        l.priorityOrder.Pairwise fun m n => ∀ j j', l.store.get m = some j →
          l.store.get n = some j' → KeyLe (keyOf j) (keyOf j')) ∧
      l.normalizePriorities.priorityOrder = l.priorityOrder ∧
      (∀ name ∈ l.priorityOrder, (l.normalizePriorities.store.get name).bind Job.priority =
        some (l.priorityOrder.idxOf name : ℤ)) ∧
      l.normalizePriorities.store.jobs.map unranked = l.store.jobs.map unranked ∧
      l.normalizePriorities.normalizePriorities = l.normalizePriorities) ∧
    ∀ name job, l.store.get name = some job → ∀ (target : ℤ) (net : Logged N),
      Moved l (l.patched name target) name target ∧
      ((l.patched name target).store.get name).bind Job.priority =
        some (min (max target 0) (l.store.jobs.length - 1)) ∧
      l.patchJobPriority net name target = (.ok (),
        ((l.patched name target).emit (.job name)).reconcileJobs net) ∧
      (l.patchJobPriority net name target).2.1.store = (l.patched name target).store := by
  have h := numbered_normalizePriorities l
  refine ⟨⟨h.dense, ⟨l.priorityOrder_perm, l.priorityOrder_pairwise⟩, h.priorityOrder,
    fun name hname => h.get hname, (renumbers_normalizePriorities l).jobs,
    normalizePriorities_idem l⟩, fun name job hget target net => ?_⟩
  have hmem := mem_priorityOrder hget
  have hmoved := moved_patched hmem target
  refine ⟨hmoved, ?_, patchJobPriority_eq hget net target, store_patchJobPriority hget net target⟩
  rw [hmoved.dense.get (hmoved.perm.mem_iff.mpr hmem), hmoved.index]

/-- Two jobs with one priority, one without and one below all: `c` goes behind `a`. -/
def mixed : Leader :=
  Leader.new "n" ⟨[{ name := "c", priority := some 4 }, { name := "b", priority := none },
    { name := "d", priority := some (-9) }, { name := "a", priority := some 4 }], 0, by decide,
    by decide⟩

theorem priorities_dense_mixed :
    mixed.normalizePriorities.priorityOrder = ["d", "a", "c", "b"] ∧
      (mixed.patched "d" 2).priorityOrder = ["a", "c", "d", "b"] ∧
      ((mixed.patched "d" 7).store.get "d").bind Job.priority = some 3 := by
  have h := priorities_dense (N := FullAgent) mixed
  refine ⟨by rw [h.1.2.2.1]; decide, by decide, ?_⟩
  exact (h.2 "d" { name := "d", priority := some (-9) } (by decide) 7 fullNet).2.1

end Leader

end Hop.Lead
