import Hop.Lead.Persist

/-!
# Loading the committed state

`load_committed_state` takes the jobs that are not in the snapshot out of the store and puts those
of the snapshot in, one at a time, into a store that has a bound. What is left of the old jobs has
names of the snapshot, so there is room for every job that is put (`putLoaded_spec`): the load fails
only where the snapshot cannot be read, and then nothing was touched.
-/

namespace Hop.Lead

open Hop.Types (Job)

variable {jobs : List Job}

/-- The last of the jobs with this name. -/
def lastNamed (jobs : List Job) (name : String) : Option Job :=
  jobs.reverse.find? fun j => j.name = name

theorem lastNamed_cons (job : Job) (rest : List Job) (name : String) :
    lastNamed (job :: rest) name =
      (lastNamed rest name).or (if job.name = name then some job else none) := by
  rw [lastNamed, List.reverse_cons, List.find?_append, ← lastNamed]
  by_cases h : job.name = name
  · rw [if_pos h, List.find?_singleton, if_pos (decide_eq_true h)]
  · rw [if_neg h, List.find?_singleton, if_neg (by simpa using h)]

theorem lastNamed_eq_none_iff {name : String} :
    lastNamed jobs name = none ↔ name ∉ jobs.map Job.name := by
  simp [lastNamed, List.find?_eq_none]

namespace MemStore

/-- What is found after a job was put. -/
theorem get_of_put {s s' : MemStore} {job : Job} (h : s.put job = .ok s') (name : String) :
    s'.get name = if job.name = name then some job else s.get name := by
  have hmem : ∀ j, j ∈ s'.jobs ↔ j = job ∨ j ∈ s.jobs ∧ j.name ≠ job.name := by
    intro j
    rw [put] at h
    split_ifs at h with hname hlen
    · obtain rfl := (Except.ok.inj h).symm
      simp only [replace, List.mem_map]
      constructor
      · rintro ⟨k, hk, rfl⟩
        split_ifs with heq
        · exact .inl rfl
        · exact .inr ⟨hk, heq⟩
      · rintro (rfl | ⟨hj, hne⟩)
        · obtain ⟨k, hk, hkn⟩ := List.mem_map.mp hname
          exact ⟨k, hk, if_pos hkn⟩
        · exact ⟨j, hj, if_neg hne⟩
    · obtain rfl := (Except.ok.inj h).symm
      rw [List.mem_append, List.mem_singleton, or_comm]
      refine or_congr_right ⟨fun hj => ⟨hj, fun heq => hname ?_⟩, fun hj => hj.1⟩
      rw [← heq]
      exact List.mem_map_of_mem hj
  split_ifs with hname
  · exact get_eq_some_iff.mpr ⟨(hmem job).mpr (.inl rfl), hname⟩
  · refine Option.ext fun j => ?_
    rw [get_eq_some_iff, get_eq_some_iff, hmem j]
    constructor
    · rintro ⟨rfl | ⟨hj, -⟩, hj'⟩
      · exact absurd hj' hname
      · exact ⟨hj, hj'⟩
    · rintro ⟨hj, rfl⟩
      exact ⟨.inr ⟨hj, Ne.symm hname⟩, rfl⟩

theorem stateTime_put {s s' : MemStore} {job : Job} (h : s.put job = .ok s') :
    s'.stateTime = s.stateTime := by
  rw [put] at h
  split_ifs at h
  · obtain rfl := (Except.ok.inj h).symm
    rfl
  · obtain rfl := (Except.ok.inj h).symm
    rfl

/-- There is room for a job as long as all names, its own too, are among `names`, and these are not
more than the bound. -/
theorem exists_put {s : MemStore} {job : Job} {names : List String}
    (hstore : ∀ n ∈ s.jobs.map Job.name, n ∈ names) (hjob : job.name ∈ names)
    (hlen : names.length ≤ maxJobs) : ∃ s', s.put job = .ok s' := by
  rw [put]
  by_cases hname : job.name ∈ s.jobs.map Job.name
  · rw [dif_pos hname]
    exact ⟨_, rfl⟩
  · have hnodup : (job.name :: s.jobs.map Job.name).Nodup := List.nodup_cons.mpr ⟨hname, s.nodup⟩
    have hsub : job.name :: s.jobs.map Job.name ⊆ names :=
      List.cons_subset.mpr ⟨hjob, fun n hn => hstore n hn⟩
    have hcount := (hnodup.subperm hsub).length_le
    rw [List.length_cons, List.length_map] at hcount
    rw [dif_neg hname, dif_pos (by omega)]
    exact ⟨_, rfl⟩

theorem get_remove (s : MemStore) (name name' : String) :
    (s.remove name).get name' = if name' = name then none else s.get name' := by
  refine Option.ext fun j => ?_
  rw [get_eq_some_iff, remove, List.mem_filter]
  split_ifs with h
  · simp only [decide_eq_true_eq, iff_false]
    rintro ⟨⟨-, hne⟩, heq⟩
    exact hne (heq.trans h)
  · rw [get_eq_some_iff, decide_eq_true_eq]
    constructor
    · rintro ⟨⟨hj, -⟩, heq⟩
      exact ⟨hj, heq⟩
    · rintro ⟨hj, rfl⟩
      exact ⟨⟨hj, h⟩, rfl⟩

end MemStore

namespace Leader

/-! ### Putting the jobs -/

/-- **The jobs of a snapshot always find room** where all other names are names of it. -/
theorem putLoaded_spec {names : List String} (hlen : names.length ≤ maxJobs) (jobs : List Job)
    {l : Leader} (hjobs : ∀ j ∈ jobs, j.name ∈ names)
    (hstore : ∀ n ∈ l.store.jobs.map Job.name, n ∈ names) :
    ∃ store, putLoaded jobs l = (.ok (), { l with store := store }) ∧
      store.stateTime = l.store.stateTime ∧
      ∀ name, store.get name = (lastNamed jobs name).or (l.store.get name) := by
  induction jobs generalizing l with
  | nil => exact ⟨l.store, rfl, rfl, fun name => rfl⟩
  | cons job rest ih =>
    obtain ⟨hjob, hrest⟩ := List.forall_mem_cons.mp hjobs
    obtain ⟨s, hput⟩ := MemStore.exists_put hstore hjob hlen
    have hstore' : ∀ n ∈ s.jobs.map Job.name, n ∈ names := by
      intro n hn
      obtain ⟨j, hj, rfl⟩ := List.mem_map.mp hn
      rcases MemStore.mem_of_put hput hj with hj | rfl
      · exact hstore _ (List.mem_map_of_mem hj)
      · exact hjob
    obtain ⟨store, heq, htime, hget⟩ := ih (l := { l with store := s }) hrest hstore'
    refine ⟨store, ?_, htime.trans (MemStore.stateTime_put hput), fun name => ?_⟩
    · rw [putLoaded, hput]
      exact heq
    · rw [hget, lastNamed_cons, Option.or_assoc, MemStore.get_of_put hput]
      split_ifs
      · rfl
      · rfl

/-! ### Taking out what is stale -/

theorem storeRemove_eq (l : Leader) (name : String) :
    (l.storeRemove name).2.store.stateTime = l.store.stateTime ∧
      ∀ name', (l.storeRemove name).2.store.get name' =
        if name' = name then none else l.store.get name' := by
  rw [storeRemove]
  rcases hget : l.store.get name with _ | j
  · refine ⟨rfl, fun name' => ?_⟩
    split_ifs with h
    · rw [h]
      exact hget
    · rfl
  · exact ⟨rfl, fun name' => MemStore.get_remove _ name name'⟩

/-- Names are taken out one after the other. -/
theorem get_removeAll (names : List String) (l : Leader) :
    (names.foldl (fun l name => (l.storeRemove name).2) l).store.stateTime = l.store.stateTime ∧
      ∀ name, (names.foldl (fun l name => (l.storeRemove name).2) l).store.get name =
        if name ∈ names then none else l.store.get name := by
  induction names generalizing l with
  | nil => exact ⟨rfl, fun name => (if_neg List.not_mem_nil).symm⟩
  | cons n rest ih =>
    obtain ⟨htime, hget⟩ := ih (l.storeRemove n).2
    obtain ⟨htime', hget'⟩ := l.storeRemove_eq n
    refine ⟨htime.trans htime', fun name => ?_⟩
    rw [List.foldl_cons, hget, hget']
    by_cases hn : name = n
    · rw [if_pos hn, if_pos (List.mem_cons.mpr (.inl hn)), ite_self]
    · rw [if_neg hn]
      by_cases hrest : name ∈ rest
      · rw [if_pos hrest, if_pos (List.mem_cons_of_mem n hrest)]
      · rw [if_neg hrest, if_neg fun h => (List.mem_cons.mp h).elim hn hrest]

/-- What is not stale has a name of the snapshot. -/
theorem mem_stale_iff {l : Leader} {name : String} :
    name ∈ l.stale jobs ↔ name ∈ l.store.jobs.map Job.name ∧ name ∉ jobs.map Job.name := by
  rw [stale, List.mem_map]
  constructor
  · rintro ⟨j, hj, rfl⟩
    obtain ⟨hmem, hnot⟩ := List.mem_filter.mp hj
    exact ⟨List.mem_map_of_mem hmem, of_decide_eq_true hnot⟩
  · rintro ⟨hmem, hnot⟩
    obtain ⟨j, hj, rfl⟩ := List.mem_map.mp hmem
    exact ⟨j, List.mem_filter.mpr ⟨hj, decide_eq_true hnot⟩, rfl⟩

/-! ### The load -/

/-- A snapshot that can be read has no more jobs than a store. -/
theorem length_readState {data : Bytes} {updated : Nanos} (h : readState data = .ok (updated, jobs))
    : jobs.length ≤ maxJobs := by
  rw [readState] at h
  obtain ⟨v, -, h⟩ := bind_eq_ok h
  obtain ⟨obj, -, h⟩ := bind_eq_ok h
  refine foldlM_invariant (P := fun st : Nanos × List Job => st.2.length ≤ maxJobs)
    (fun st kv st' hst hread => ?_) h (Nat.zero_le _)
  rw [readField] at hread
  split_ifs at hread
  · obtain ⟨s, -, hread⟩ := bind_eq_ok hread
    obtain ⟨t, -, hread⟩ := bind_eq_ok hread
    obtain rfl := (Except.ok.inj hread).symm
    exact hst
  · obtain ⟨js, hjs, hread⟩ := bind_eq_ok hread
    obtain rfl := (Except.ok.inj hread).symm
    exact (Types.De.list_invariant (P := fun _ => True) (fun _ _ _ => trivial) hjs).1
  · obtain rfl := (Except.ok.inj hread).symm
    exact hst

/-- A leader that loads these jobs. -/
theorem loadCommittedState_ok {l : Leader} {data : Bytes} {updated : Nanos}
    (h : readState data = .ok (updated, jobs)) :
    ∃ store, putLoaded jobs ((l.stale jobs).foldl (fun l name => (l.storeRemove name).2) l) =
        (.ok (), { (l.stale jobs).foldl (fun l name => (l.storeRemove name).2) l with
          store := store }) ∧
      l.loadCommittedState (some data) = (.ok true,
        { (l.stale jobs).foldl (fun l name => (l.storeRemove name).2) l with
          store := store.setStateTime updated }) ∧
      ∀ name, store.get name = lastNamed jobs name := by
  obtain ⟨-, hget⟩ := get_removeAll (l.stale jobs) l
  -- what the removal left has names of the snapshot only
  have hleft : ∀ name, name ∉ jobs.map Job.name →
      ((l.stale jobs).foldl (fun l name => (l.storeRemove name).2) l).store.get name = none := by
    intro name hname
    rw [hget]
    split_ifs with hstale
    · rfl
    · exact MemStore.get_eq_none_iff.mpr fun hmem => hstale (mem_stale_iff.mpr ⟨hmem, hname⟩)
  have hnames : ∀ n ∈ ((l.stale jobs).foldl (fun l name => (l.storeRemove name).2) l).store.jobs.map
      Job.name, n ∈ jobs.map Job.name := by
    intro n hn
    by_contra hnot
    exact MemStore.get_eq_none_iff.mp (hleft n hnot) hn
  have hlen : (jobs.map Job.name).length ≤ maxJobs := by
    rw [List.length_map]
    exact length_readState h
  obtain ⟨store, hput, -, hstore⟩ :=
    putLoaded_spec hlen jobs (fun j hj => List.mem_map_of_mem hj) hnames
  refine ⟨store, hput, ?_, fun name => ?_⟩
  · rw [loadCommittedState, h]
    dsimp only
    rw [hput]
  · rw [hstore]
    rcases hlast : lastNamed jobs name with _ | j
    · exact hleft name (lastNamed_eq_none_iff.mp hlast)
    · rfl

/-- **Loading is all or nothing, and exact.** Either the snapshot cannot be read and the leader is
what it was; or the store holds the last job of each name of the snapshot and no other, under the
time of the snapshot. -/
theorem load_exact (l : Leader) (data : Bytes) :
    (∃ e, readState data = .error e ∧ l.loadCommittedState (some data) = (.error (.json e), l)) ∨
    ∃ updated jobs, readState data = .ok (updated, jobs) ∧
      (l.loadCommittedState (some data)).1 = .ok true ∧
      (l.loadCommittedState (some data)).2.store.stateTime = updated ∧
      (∀ name, (l.loadCommittedState (some data)).2.store.get name = lastNamed jobs name) ∧
      (∀ j, j ∈ (l.loadCommittedState (some data)).2.store.jobs ↔
        lastNamed jobs j.name = some j) ∧
      (l.loadCommittedState (some data)).2.store.jobs.length ≤ maxJobs := by
  rcases hread : readState data with e | ⟨updated, jobs⟩
  · refine .inl ⟨e, rfl, ?_⟩
    rw [loadCommittedState, hread]
  · obtain ⟨store, -, hload, hget⟩ := loadCommittedState_ok (l := l) hread
    refine .inr ⟨updated, jobs, rfl, ?_⟩
    rw [hload]
    refine ⟨rfl, rfl, hget, fun j => ?_, store.bounded⟩
    rw [← hget]
    exact ⟨fun hj => MemStore.get_eq_some_iff.mpr ⟨hj, rfl⟩,
      fun hj => (MemStore.get_eq_some_iff.mp hj).1⟩

end Leader

end Hop.Lead
