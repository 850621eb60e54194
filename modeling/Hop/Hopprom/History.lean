import Hop.Hopprom.Collector

/-!
# What the agents have reported

All reports of the rounds so far, the newest first, and what the counters should say of them. `Orderly`
is what the collector relies on: the identities of the tasks are unique and keep their job and their
agent, every round lists every agent, and a task that is gone does not come back.
-/

namespace Hop.Hopprom

open Hop.Types (TaskState)

variable {F : Type} {job : String} {r s : Seen} {E rs ss : List Seen}

/-- What an entry reports: nothing, if its agent was not reached. -/
def AgentTasks.reports (a : AgentTasks F) : List Seen :=
  match a.tasks with
  | some tasks => tasks.map (Seen.ofReport a.agent)
  | none => []

namespace Poll

def reports (p : Poll F) : List Seen := p.tasks.flatMap AgentTasks.reports

/-- Whether a round has something to say of an agent. -/
def Lists (p : Poll F) (agent : String) : Prop := ∃ a ∈ p.tasks, a.agent = agent

def Reaches (p : Poll F) (agent : String) : Prop :=
  ∃ a ∈ p.tasks, a.agent = agent ∧ a.tasks.isSome = true

def Misses (p : Poll F) (agent : String) : Prop := ∃ a ∈ p.tasks, a.agent = agent ∧ a.tasks = none

/-- Whether a round has a report of a task. -/
def Reports (p : Poll F) (id : String) : Prop := ∃ r ∈ p.reports, r.id = id

end Poll

/-- The reports of all rounds, the newest first. -/
def history (polls : List (Poll F)) : List Seen := (polls.flatMap Poll.reports).reverse

/-- The last report of a task. -/
def lastOf (E : List Seen) (id : String) : Option Seen := E.find? fun s => s.id = id

/-- The pairs of successive reports of one task: the earlier one, the later one. -/
def successive : List Seen → List (Seen × Seen)
  | [] => []
  | r :: E => (lastOf E r.id).toList.map (·, r) ++ successive E

/-- How many tasks of a job have been reported. -/
def starts (job : String) (E : List Seen) : ℕ :=
  ((E.filter fun s => s.job = job).map Seen.id).dedup.length

/-- How often a task of a job has gone to `failed`. -/
def failures (job : String) (E : List Seen) : ℕ :=
  (successive E).countP fun p => p.2.job = job ∧ p.1.state ≠ .failed ∧ p.2.state = .failed

/-- What the collector relies on. -/
structure Orderly (polls : List (Poll F)) : Prop where
  unique : ∀ p ∈ polls, (p.reports.map Seen.id).Nodup
  keeps : ∀ p ∈ polls, ∀ q ∈ polls, ∀ r ∈ p.reports, ∀ s ∈ q.reports, r.id = s.id →
    r.job = s.job ∧ r.agent = s.agent
  lists : ∀ p ∈ polls, ∀ q ∈ polls, ∀ agent, p.Lists agent → q.Lists agent
  either : ∀ p ∈ polls, ∀ agent, p.Reaches agent → ¬ p.Misses agent
  /-- Who is reached and says no more of a task never does. -/
  gone : ∀ before p after, polls = before ++ p :: after → ∀ q ∈ before, ∀ r ∈ q.reports,
    p.Reaches r.agent → ¬ p.Reports r.id → ∀ q' ∈ after, ¬ q'.Reports r.id

/-! ### Reports of a round -/

theorem mem_history {polls : List (Poll F)} : r ∈ history polls ↔ ∃ p ∈ polls, r ∈ p.reports := by
  rw [history, List.mem_reverse, List.mem_flatMap]

theorem history_concat (polls : List (Poll F)) (p : Poll F) :
    history (polls ++ [p]) = p.reports.reverse ++ history polls := by
  rw [history, List.flatMap_append, List.reverse_append, List.flatMap_singleton, history]

theorem mem_reports {p : Poll F} :
    r ∈ p.reports ↔ ∃ a ∈ p.tasks, ∃ tasks, a.tasks = some tasks ∧ r ∈ tasks.map (Seen.ofReport a.agent) := by
  rw [Poll.reports, List.mem_flatMap]
  refine exists_congr fun a => and_congr_right fun _ => ?_
  rw [AgentTasks.reports]
  rcases a.tasks with - | tasks
  · simp only [List.not_mem_nil, reduceCtorEq, false_and, exists_false]
  · simp only [Option.some.injEq, exists_eq_left']

/-- Who reports was reached. -/
theorem Poll.reaches_of_mem {p : Poll F} (h : r ∈ p.reports) : p.Reaches r.agent := by
  obtain ⟨a, ha, tasks, htasks, hr⟩ := mem_reports.mp h
  obtain ⟨t, -, rfl⟩ := List.mem_map.mp hr
  exact ⟨a, ha, rfl, by rw [htasks]; rfl⟩

theorem Poll.Reaches.lists {p : Poll F} {agent : String} (h : p.Reaches agent) : p.Lists agent := by
  obtain ⟨a, ha, hagent, -⟩ := h
  exact ⟨a, ha, hagent⟩

theorem Poll.Lists.cases {p : Poll F} {agent : String} (h : p.Lists agent) :
    p.Reaches agent ∨ p.Misses agent := by
  obtain ⟨a, ha, hagent⟩ := h
  rcases htasks : a.tasks with - | tasks
  · exact .inr ⟨a, ha, hagent, htasks⟩
  · exact .inl ⟨a, ha, hagent, by rw [htasks]; rfl⟩

theorem Orderly.earlier {polls more : List (Poll F)} (h : Orderly (polls ++ more)) :
    Orderly polls where
  unique q hq := h.unique q (List.mem_append_left _ hq)
  keeps q hq q' hq' := h.keeps q (List.mem_append_left _ hq) q' (List.mem_append_left _ hq')
  lists q hq q' hq' := h.lists q (List.mem_append_left _ hq) q' (List.mem_append_left _ hq')
  either q hq := h.either q (List.mem_append_left _ hq)
  gone before q after hcut := fun q₀ hq₀ r hr hreach hno q' hq' =>
    h.gone before q (after ++ more) (by rw [hcut, List.append_assoc, List.cons_append]) q₀ hq₀ r hr
      hreach hno q' (List.mem_append_left _ hq')

/-! ### One report more -/

theorem lastOf_eq_none_iff {id : String} : lastOf E id = none ↔ ∀ s ∈ E, s.id ≠ id := by
  rw [lastOf, List.find?_eq_none]
  simp only [decide_eq_true_eq, ne_eq]

theorem mem_of_lastOf {id : String} (h : lastOf E id = some s) : s ∈ E ∧ s.id = id :=
  ⟨List.mem_of_find?_eq_some h, of_decide_eq_true (List.find?_some h :)⟩

/-- Reports of other tasks hide nothing. -/
theorem lastOf_append (h : ∀ s ∈ rs, s.id ≠ r.id) : lastOf (rs ++ E) r.id = lastOf E r.id := by
  have hnone : lastOf rs r.id = none := lastOf_eq_none_iff.mpr h
  rw [lastOf, List.find?_append]
  exact (congrArg (·.or (lastOf E r.id)) hnone).trans Option.none_or

/-- A task is counted at its first report. -/
theorem starts_cons (hjob : ∀ s ∈ E, s.id = r.id → s.job = r.job) :
    starts job (r :: E) =
      starts job E + if r.job = job ∧ lastOf E r.id = none then 1 else 0 := by
  rw [starts, starts, List.filter_cons]
  by_cases hr : r.job = job
  · rw [if_pos (decide_eq_true hr), List.map_cons]
    by_cases hlast : lastOf E r.id = none
    · rw [if_pos ⟨hr, hlast⟩, List.dedup_cons_of_notMem, List.length_cons]
      intro hmem
      obtain ⟨s, hs, hid⟩ := List.mem_map.mp hmem
      exact lastOf_eq_none_iff.mp hlast s (List.mem_of_mem_filter hs) hid
    · rw [if_neg fun h => hlast h.2, List.dedup_cons_of_mem, Nat.add_zero]
      obtain ⟨s, hs⟩ := Option.ne_none_iff_exists'.mp hlast
      obtain ⟨hmem, hid⟩ := mem_of_lastOf hs
      refine List.mem_map.mpr ⟨s, List.mem_filter.mpr ⟨hmem, decide_eq_true ?_⟩, hid⟩
      rw [hjob s hmem hid, hr]
  · rw [if_neg (by rwa [decide_eq_true_eq]), if_neg fun h => hr h.1, Nat.add_zero]

/-- A failure is counted at the report that says so first. -/
theorem failures_cons (job : String) (r : Seen) (E : List Seen) :
    failures job (r :: E) = failures job E +
      if ∃ s, lastOf E r.id = some s ∧ r.job = job ∧ s.state ≠ .failed ∧ r.state = .failed then 1
      else 0 := by
  rw [failures, failures, successive, List.countP_append]
  rcases lastOf E r.id with - | s
  · rw [Option.toList_none, List.map_nil, List.countP_nil, if_neg, Nat.add_zero, Nat.zero_add]
    rintro ⟨s, hs, -⟩
    cases hs
  · rw [Option.toList_some, List.map_singleton, List.countP_singleton, Nat.add_comm]
    simp only [Option.some.injEq, exists_eq_left', decide_eq_true_eq]

end Hop.Hopprom
