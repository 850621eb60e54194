import Hop.Lib.Pool
import Hop.Node.Paths

/-!
# What the books charge

The reservations of an agent as charges: a task costs its shares, the tasks of a share group share
one charge, and a task on a core that the node does not hand out costs nothing. The CPU of
`resource_usage` is the sum of these charges (`resourceUsage_cpu`), its memory the sum of the
limits. The runs here are those of every call of the interface, the hand-over included.
-/

namespace Hop.Node

open Hop.Types (Job Map Task)

theorem satI64_eq_clamp (x : ℤ) : satI64 x = Pool.clamp i64Min i64Max x := rfl

namespace Agent

/-- What a task costs, and the pool that it is charged to. -/
def charge (a : Agent) (task : Task) : Option String × ℤ :=
  if a.costsNoCore (a.sharegroupOf task) task then (none, 0)
  else (a.sharegroupOf task, task.cpuShares)

/-- The charges of all records. -/
def books (a : Agent) : Map (Option String × ℤ) := a.tasks.mapVal fun _ e => a.charge e.task

/-- The charges in the order of the ids. -/
def charges (m : Map (Option String × ℤ)) : List (Option String × ℤ) := m.entries.map Prod.snd

/-- What the books add up to. -/
def countedCpu (m : Map (Option String × ℤ)) : ℤ := Pool.counted i64Min i64Max (charges m)

theorem countedCpu_mem (m : Map (Option String × ℤ)) :
    i64Min ≤ countedCpu m ∧ countedCpu m ≤ i64Max :=
  ⟨Pool.lo_le_total (by decide), Pool.total_le_hi (by decide) (by decide)⟩

/-! ### The usage as a sum -/

/-- Counting one task: it costs nothing, it costs its shares, or its pool is counted already. -/
theorem countTask_cases (a : Agent) (u : Usage) (task : Task) :
    ∃ cpu seen, a.countTask u task = ⟨cpu, satAdd u64Max u.mem task.memoryLimit, seen⟩ ∧
      ((cpu = u.cpu ∧ seen = u.seen ∧ a.charge task = (none, 0)) ∨
        (cpu = satI64 (u.cpu + task.cpuShares) ∧ seen = u.seen ∧
          a.charge task = (none, task.cpuShares)) ∨
        ∃ grp, a.charge task = (some grp, task.cpuShares) ∧
          (cpu = u.cpu ∧ seen = u.seen ∧ grp ∈ u.seen ∨
            cpu = satI64 (u.cpu + task.cpuShares) ∧ seen = u.seen ++ [grp] ∧ grp ∉ u.seen)) := by
  unfold countTask charge
  dsimp only
  split_ifs with hfree
  · exact ⟨_, _, rfl, .inl ⟨rfl, rfl, rfl⟩⟩
  · cases a.sharegroupOf task with
    | none => exact ⟨_, _, rfl, .inr (.inl ⟨rfl, rfl, rfl⟩)⟩
    | some grp =>
      dsimp only
      split_ifs with hseen
      · exact ⟨_, _, rfl, .inr (.inr ⟨grp, rfl, .inl ⟨rfl, rfl, hseen⟩⟩)⟩
      · exact ⟨_, _, rfl, .inr (.inr ⟨grp, rfl, .inr ⟨rfl, rfl, hseen⟩⟩)⟩

/-- Counting task after task is adding charge after charge. -/
theorem foldl_countTask (a : Agent) (ts : List Task) (u : Usage) (hlo : i64Min ≤ u.cpu)
    (hhi : u.cpu ≤ i64Max) (hmem : u.mem ≤ u64Max) :
    (ts.foldl a.countTask u).cpu =
      Pool.total i64Min i64Max u.cpu (Pool.firsts u.seen (ts.map a.charge)) ∧
    (ts.foldl a.countTask u).mem = min (u.mem + (ts.map (·.memoryLimit)).sum) u64Max := by
  induction ts generalizing u with
  | nil => exact ⟨rfl, (min_eq_left hmem).symm⟩
  | cons task ts ih =>
    have hclamp : ∀ x, i64Min ≤ satI64 x ∧ satI64 x ≤ i64Max := fun x =>
      ⟨Pool.lo_le_clamp, Pool.clamp_le_hi (by decide)⟩
    obtain ⟨cpu, seen, hcount, hcases⟩ := a.countTask_cases u task
    have hrange : i64Min ≤ cpu ∧ cpu ≤ i64Max := by
      rcases hcases with ⟨rfl, -⟩ | ⟨rfl, -⟩ | ⟨grp, -, ⟨rfl, -⟩ | ⟨rfl, -⟩⟩
      · exact ⟨hlo, hhi⟩
      · exact hclamp _
      · exact ⟨hlo, hhi⟩
      · exact hclamp _
    obtain ⟨hcpu, hm⟩ := ih ⟨cpu, satAdd u64Max u.mem task.memoryLimit, seen⟩ hrange.1 hrange.2
      (satAdd_le_max _ _ _)
    rw [List.foldl_cons, hcount, hcpu, hm, List.map_cons, List.map_cons, List.sum_cons]
    refine ⟨?_, ?_⟩
    · dsimp only
      rcases hcases with ⟨rfl, rfl, hcharge⟩ | ⟨rfl, rfl, hcharge⟩ |
        ⟨grp, hcharge, ⟨rfl, rfl, hseen⟩ | ⟨rfl, rfl, hseen⟩⟩
      · rw [hcharge, Pool.firsts, Pool.total_cons, add_zero, Pool.clamp_of_mem hlo hhi]
      · rw [hcharge, Pool.firsts, Pool.total_cons, satI64_eq_clamp]
      · rw [hcharge, Pool.firsts, if_pos hseen]
      · rw [hcharge, Pool.firsts, if_neg hseen, Pool.total_cons, satI64_eq_clamp]
    · dsimp only
      unfold satAdd
      omega

/-- The tasks that a usage counts. -/
def counts (exclude : Option String) (e : Entry) : Bool := !decide (exclude = some e.task.jobName)

theorem resourceUsageExcluding_eq (a : Agent) (exclude : Option String) :
    a.resourceUsageExcluding exclude =
      (countedCpu ((a.tasks.filterVal (counts exclude)).mapVal fun _ e => a.charge e.task),
        min (((a.tasks.filterVal (counts exclude)).entries.map fun e => e.2.task.memoryLimit).sum)
          u64Max) := by
  have hfold : ∀ (es : List (String × Entry)) (u : Usage), es.foldl (fun u e =>
      if exclude = some e.2.task.jobName then u else a.countTask u e.2.task) u =
      ((es.filter fun e => counts exclude e.2).map fun e => e.2.task).foldl a.countTask u := by
    intro es
    induction es with
    | nil => exact fun u => rfl
    | cons e es ih =>
      intro u
      rw [List.foldl_cons, ih]
      unfold counts
      by_cases h : exclude = some e.2.task.jobName
      · rw [if_pos h, List.filter_cons_of_neg (by simp [h])]
      · rw [if_neg h, List.filter_cons_of_pos (by simp [h]), List.map_cons, List.foldl_cons]
  unfold resourceUsageExcluding
  dsimp only
  rw [hfold]
  obtain ⟨hcpu, hmem⟩ := a.foldl_countTask
    ((a.tasks.entries.filter fun e => counts exclude e.2).map fun e => e.2.task) {}
    (by decide) (by decide) (Nat.zero_le _)
  rw [hcpu, hmem, List.map_map, List.map_map, Nat.zero_add]
  refine Prod.ext ?_ rfl
  unfold countedCpu charges Pool.counted SortedMap.mapVal SortedMap.filterVal
  rw [List.map_map]
  rfl

theorem filterVal_counts_none (m : Map Entry) : m.filterVal (counts none) = m := by
  refine SortedMap.ext_get? fun id => ?_
  rw [SortedMap.get?_filterVal]
  cases m.get? id <;> rfl

/-- **The CPU that is handed out** is the sum of the books. -/
theorem resourceUsage_cpu (a : Agent) : a.resourceUsage.1 = countedCpu a.books := by
  unfold resourceUsage
  rw [resourceUsageExcluding_eq, filterVal_counts_none]
  rfl

/-- The memory limits of all records. -/
def limits (m : Map Entry) : ℕ := (m.entries.map fun e => e.2.task.memoryLimit).sum

theorem resourceUsage_mem (a : Agent) : a.resourceUsage.2 = min (limits a.tasks) u64Max := by
  unfold resourceUsage
  rw [resourceUsageExcluding_eq, filterVal_counts_none]
  rfl

theorem limits_filterVal_le (m : Map Entry) (p : Entry → Bool) : limits (m.filterVal p) ≤ limits m :=
  (List.filter_sublist.map _).sum_le_sum fun x _ => Nat.zero_le x

theorem limits_insert_le (m : Map Entry) (id : String) (e : Entry) :
    limits (m.insert id e) ≤ limits m + e.task.memoryLimit := by
  have herase : limits (m.erase id) ≤ limits m :=
    (List.filter_sublist.map _).sum_le_sum fun x _ => Nat.zero_le x
  have hnone : (m.erase id).get? id = none := by rw [SortedMap.get?_erase, if_pos rfl]
  obtain ⟨l, r, hsplit, hinsert, -⟩ := SortedMap.entries_insert hnone e
  rw [SortedMap.insert_erase_self] at hinsert
  have hsum : limits (m.insert id e) = limits (m.erase id) + e.task.memoryLimit := by
    unfold limits
    rw [hinsert, hsplit]
    simp only [List.map_append, List.map_cons, List.sum_append, List.sum_cons]
    omega
  omega

end Agent

/-! ### The calls of an agent -/

/-- A call of the interface of an agent, or the hand-over from the one before. -/
inductive Call
  | input (i : Input)
  | adopt (jobs : List Job) (tasks : List Task)

/-- The agent after a call. -/
def Agent.answer (a : Agent) : Call → Agent
  | .input i => a.feed i
  | .adopt jobs tasks => a.adopt jobs tasks

/-- The runs of an agent, with hand-overs at any time. -/
def calls : Machine Agent Call where
  Init a := ∃ settings, a = .new settings
  step a c := some (a.answer c)

namespace Agent

theorem adoptJobs_keyed (jobs : List Job) {a : Agent} (h : a.Keyed) : (adoptJobs jobs a).Keyed := by
  induction jobs generalizing a with
  | nil => exact h
  | cons job jobs ih =>
    unfold adoptJobs
    split_ifs
    · exact ih (h.insert job)
    · exact h

theorem adoptTasks_jobs (tasks : List Task) (a : Agent) : (adoptTasks tasks a).jobs = a.jobs := by
  induction tasks generalizing a with
  | nil => rfl
  | cons task tasks ih =>
    unfold adoptTasks
    split_ifs
    · exact ih _
    · rfl

end Agent

/-- In every run the jobs are filed under their names. -/
theorem calls_keyed {a : Agent} (h : calls.Reachable a) : a.Keyed := by
  refine h.invariant (P := Agent.Keyed) ?_ fun a c a' ha hstep => ?_
  · rintro a ⟨settings, rfl⟩ name job hjob
    cases hjob
  · cases hstep
    cases c with
    | input i => exact feed_keyed ha i
    | adopt jobs tasks =>
      intro name job hjob
      change (Agent.adoptTasks tasks (Agent.adoptJobs jobs a)).jobs.get? name = some job at hjob
      rw [Agent.adoptTasks_jobs] at hjob
      exact Agent.adoptJobs_keyed jobs ha name job hjob

end Hop.Node
