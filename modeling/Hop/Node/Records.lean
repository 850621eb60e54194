import Hop.Node.Agent

/-!
# The records of an agent

Taking records away (`Drops`), and counting the records of each job: the agent reports what it
counts (`placedTaskCounts_get?`).
-/

namespace Hop.Node

open Hop.Types (Driver Job Map Task)

namespace Agent

@[simp] theorem push_count (a : Agent) (x : Action) (name : String) :
    (a.push x).count name = a.count name := rfl

theorem count_forget {a : Agent} {id : String} {e : Entry} (h : a.tasks.get? id = some e)
    (name : String) :
    a.count name = (a.forget id).count name + if e.task.jobName = name then 1 else 0 := by
  simpa [count, forget] using
    SortedMap.countVal_erase (fun e => decide (e.task.jobName = name)) h

/-- The start of a task whose job can run here does not fail. -/
theorem beginStart_of_ready {a : Agent} {id : String} {e : Entry} (job job' : Job)
    (he : a.tasks.get? id = some e) (hjob : a.jobs.get? e.task.jobName = some job)
    (hres : a.resolveJobForRun job = .ok job') (rounds : ℕ) (now : Nanos) :
    beginStart (rounds + 1) a now id =
      (a.modifyTask id fun e => { e with starting := true }).push (.start id job') := by
  simp only [beginStart, he, hjob, hres]

/-! ### What takes records away -/

/-- The records of `T` were taken away, and nothing else changed that matters here. -/
structure Drops (T : Set String) (a a' : Agent) : Prop where
  jobs : a'.jobs = a.jobs
  ids : a'.ids = a.ids
  kept : ∀ {id}, id ∉ T → a'.tasks.get? id = a.tasks.get? id
  gone : ∀ {id}, id ∈ T → a'.tasks.get? id = none
  count : ∀ name, (∀ id e, id ∈ T → a.tasks.get? id = some e → e.task.jobName ≠ name) →
    a'.count name = a.count name

namespace Drops

variable {T : Set String} {a a' : Agent}

/-- A job all of whose records are gone has none. -/
theorem count_zero (hd : Drops T a a') {name : String}
    (hall : ∀ id e, a.tasks.get? id = some e → e.task.jobName = name → id ∈ T) :
    a'.count name = 0 := by
  by_contra hne
  obtain ⟨id, e, he, hname⟩ := SortedMap.countVal_pos_iff.mp (Nat.pos_of_ne_zero hne)
  by_cases hid : id ∈ T
  · rw [hd.gone hid] at he
    cases he
  · exact hid (hall id e (hd.kept hid ▸ he) (by simpa using hname))

end Drops

theorem removeAndStop_drops (a : Agent) (id : String) : Drops {id} a (a.removeAndStop id).2 := by
  unfold removeAndStop
  split
  · rename_i e he
    refine ⟨rfl, rfl, fun hne => ?_, fun heq => ?_, fun name hname => ?_⟩
    · exact (SortedMap.get?_erase ..).trans (if_neg (Ne.symm hne))
    · exact (SortedMap.get?_erase ..).trans (if_pos (Eq.symm heq))
    · rw [push_count, count_forget he name, if_neg (hname id e rfl he)]
      rfl
  · rename_i hnone
    refine ⟨rfl, rfl, fun _ => rfl, fun heq => ?_, fun _ _ => rfl⟩
    obtain rfl : _ = id := heq
    exact hnone

theorem stopEach_drops (ids : List String) (a : Agent) :
    Drops { id | id ∈ ids } a (a.stopEach ids) := by
  induction ids generalizing a with
  | nil => exact ⟨rfl, rfl, fun _ => rfl, fun h => by simp at h, fun _ _ => rfl⟩
  | cons id ids ih =>
    have hone := removeAndStop_drops a id
    have hrest := ih (a.removeAndStop id).2
    refine ⟨hrest.jobs.trans hone.jobs, hrest.ids.trans hone.ids, fun {id'} hid => ?_,
      fun {id'} hid => ?_, fun name hname => ?_⟩
    · obtain ⟨hne, hnot⟩ := not_or.mp (List.mem_cons.not.mp hid)
      exact (hrest.kept hnot).trans (hone.kept hne)
    · by_cases hmem : id' ∈ ids
      · exact hrest.gone hmem
      · exact (hrest.kept hmem).trans (hone.gone ((List.mem_cons.mp hid).resolve_right hmem))
    · refine (hrest.count name fun id' e hmem he => ?_).trans
        (hone.count name fun id' e heq he => hname id' e (List.mem_cons.mpr (.inl heq)) he)
      by_cases heq : id' = id
      · rw [hone.gone heq] at he
        cases he
      · exact hname id' e (List.mem_cons_of_mem _ hmem) (hone.kept heq ▸ he)

theorem mem_idsOfJob {a : Agent} {name id : String} :
    id ∈ a.idsOfJob name ↔ ∃ e, a.tasks.get? id = some e ∧ e.task.jobName = name := by
  unfold idsOfJob
  simp only [List.mem_map, List.mem_filter, decide_eq_true_eq]
  constructor
  · rintro ⟨e, ⟨he, hname⟩, rfl⟩
    exact ⟨e.2, SortedMap.get?_eq_some_iff.mpr he, hname⟩
  · rintro ⟨e, he, hname⟩
    exact ⟨(id, e), ⟨SortedMap.get?_eq_some_iff.mp he, hname⟩, rfl⟩

/-- What stopping a job leaves. -/
theorem stopJob_count (a : Agent) (name name' : String) :
    (a.stopEach (a.idsOfJob name)).count name' = if name = name' then 0 else a.count name' := by
  have hdrops := stopEach_drops (a.idsOfJob name) a
  split_ifs with heq
  · exact heq ▸ hdrops.count_zero fun id e he hname => mem_idsOfJob.mpr ⟨e, he, hname⟩
  · refine hdrops.count name' fun id e hid he => ?_
    obtain ⟨e', he', hname⟩ := mem_idsOfJob.mp hid
    obtain rfl : e = e' := Option.some.inj (he.symm.trans he')
    exact hname ▸ heq

theorem normalized_name (job : Job) : (normalized job).name = job.name := by
  unfold normalized
  dsimp only
  split_ifs <;> rfl

/-! ### The counts that an agent reports -/

theorem count_le_size (a : Agent) (name : String) : a.count name ≤ a.tasks.size :=
  List.countP_le_length

/-- Two records of a job count for two. -/
theorem two_le_count {a : Agent} {id id' : String} {e e' : Entry} (hne : id' ≠ id)
    (he : a.tasks.get? id = some e) (he' : a.tasks.get? id' = some e')
    (hname : e.task.jobName = e'.task.jobName) : 2 ≤ a.count e.task.jobName := by
  have hpos : 0 < (a.forget id).count e.task.jobName := by
    refine SortedMap.countVal_pos_iff.mpr ⟨id', e', ?_, by simp [hname]⟩
    rw [forget, SortedMap.get?_erase, if_neg hne.symm, he']
  have := count_forget he e.task.jobName
  rw [if_pos rfl] at this
  omega

/-- **The reported counts are true**: a job with a name has the number of its records, if there
are any. -/
theorem placedTaskCounts_get? (a : Agent) (name : String) :
    a.placedTaskCounts.get? name =
      if name = "" ∨ a.count name = 0 then none else some (a.count name) := by
  have key : ∀ (es : List (String × Entry)) (m : Map ℕ),
      (es.foldl (fun counts e => if e.2.task.jobName = "" then counts
        else counts.insert e.2.task.jobName ((counts.get? e.2.task.jobName).getD 0 + 1)) m).get?
          name =
        if name = "" ∨ es.countP (fun e => decide (e.2.task.jobName = name)) = 0 then m.get? name
        else some ((m.get? name).getD 0 + es.countP fun e => decide (e.2.task.jobName = name)) := by
    intro es
    induction es with
    | nil => simp
    | cons e es ih =>
      intro m
      rw [List.foldl_cons, ih]
      by_cases hname : e.2.task.jobName = name
      · rw [List.countP_cons_of_pos (by simpa using hname), hname]
        by_cases hempty : name = ""
        · simp [hempty]
        · simp only [hempty, if_false, false_or, SortedMap.get?_insert_self, Option.getD_some,
            Nat.succ_ne_zero]
          split_ifs with hzero
          · rw [hzero]
          · rw [Nat.add_right_comm, Nat.add_assoc]
      · have hget : (if e.2.task.jobName = "" then m else
            m.insert e.2.task.jobName ((m.get? e.2.task.jobName).getD 0 + 1)).get? name =
            m.get? name := by
          split_ifs
          · rfl
          · rw [SortedMap.get?_insert, if_neg hname]
        rw [hget, List.countP_cons_of_neg (by simpa using hname)]
  refine (key a.tasks.entries .empty).trans ?_
  rw [SortedMap.get?_empty, Option.getD_none, Nat.zero_add]
  rfl

end Agent

end Hop.Node
