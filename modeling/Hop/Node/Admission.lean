import Hop.Node.Charges

/-!
# Admission

Whether an agent hands out more than it has. The memory of a job that was admitted always fits.
Its cores fit if the admission charges it in full: a job that replaces is admitted as if its own
tasks were gone, but its pool counts as running while they are the only ones in it; a new member
of a pool is charged nothing, also when it will be the one that the pool is charged by; a new
definition moves the tasks that stay to another pool; and a job without shares is not looked at.
Where no charge is negative, what the new member costs more than its pool is charged must fit, or the
node is overbooked (`admission_within_iff`).
-/

namespace Hop.Node

open Hop.Types (Job Map Task)

namespace Agent

/-- The tasks that stay when the job is taken on. -/
def stays (job : Job) (replace : Bool) (e : Entry) : Bool :=
  !(replace && decide (e.task.jobName = job.name))

/-- The share group of a task under the new definition of the job. -/
def groupWith (a : Agent) (job : Job) (task : Task) : Option String :=
  if task.jobName = job.name then shareGroup job.tags else a.sharegroupOf task

/-- The books with the new task of the job, on a node without free groups. -/
def booksWith (a : Agent) (job : Job) (replace : Bool) : Map (Option String × ℤ) :=
  ((a.tasks.filterVal (stays job replace)).mapVal fun _ e =>
    (a.groupWith job e.task, e.task.cpuShares)).insert a.ids.id.1 (shareGroup job.tags, job.cpuShares)

/-- The books of the tasks that stay, as the admission counts them on such a node. -/
def stayingBooks (a : Agent) (job : Job) (replace : Bool) : Map (Option String × ℤ) :=
  (a.tasks.filterVal (stays job replace)).mapVal fun _ e => (a.sharegroupOf e.task, e.task.cpuShares)

/-- What is in use beside the new task. -/
def besideCpu (a : Agent) (job : Job) (replace : Bool) : ℤ :=
  (a.resourceUsageExcluding (if replace then some job.name else none)).1

/-- The CPU that the admission counts: what is in use, and the new task. -/
def admittedCpu (a : Agent) (job : Job) (replace : Bool) : ℤ :=
  a.besideCpu job replace +
    if (shareGroup job.tags).any (fun g => a.sharegroupRunning g) then 0 else job.cpuShares

/-- What the new task costs more than its pool is charged for the tasks that stay. -/
def extraCpu (a : Agent) (job : Job) (replace : Bool) (g : String) : ℤ :=
  max 0 (max job.cpuShares 0 - Pool.charge g (charges (a.stayingBooks job replace)))

/-- **The new task is charged in full**: it takes no other record's place, the tasks of its job that
stay keep their pool, what is in use beside it fits even if the admission does not look, and its pool
does not run yet, or is charged by a task that stays, or there is room for what the new task costs
more. -/
structure ChargedInFull (a : Agent) (job : Job) (replace : Bool) : Prop where
  free : a.tasks.get? a.ids.id.1 = none
  kept : replace = true ∨ ∀ id e, a.tasks.get? id = some e → e.task.jobName = job.name →
    a.sharegroupOf e.task = shareGroup job.tags
  looked : 0 < job.cpuShares ∨ a.besideCpu job replace ≤ a.settings.effectiveCpuShares
  pool : ∀ g, shareGroup job.tags = some g → a.sharegroupRunning g = false ∨
    (∃ id e, a.tasks.get? id = some e ∧ stays job replace e = true ∧
      a.sharegroupOf e.task = some g ∧ id < a.ids.id.1) ∨
    satI64 (a.besideCpu job replace + a.extraCpu job replace g) ≤ a.settings.effectiveCpuShares

/-- No charge is negative, the job has shares, and it moves no task to another pool. -/
structure Plain (a : Agent) (job : Job) (replace : Bool) : Prop where
  nonneg : ∀ id e, a.tasks.get? id = some e → 0 ≤ e.task.cpuShares
  shares : 0 < job.cpuShares
  free : a.tasks.get? a.ids.id.1 = none
  kept : replace = true ∨ ∀ id e, a.tasks.get? id = some e → e.task.jobName = job.name →
    a.sharegroupOf e.task = shareGroup job.tags

/-! ### The books after the admission -/

variable {a : Agent}

theorem freeGroup_of_nil (hfree : a.settings.freeGroups = []) (grp : String) :
    a.freeGroup grp = false := by
  unfold freeGroup
  rw [hfree]
  rfl

theorem charge_of_nil (hfree : a.settings.freeGroups = []) (task : Task) :
    a.charge task = (a.sharegroupOf task, task.cpuShares) := by
  unfold charge costsNoCore
  cases a.sharegroupOf task with
  | none => rw [if_neg (by simp [freeGroup_of_nil hfree])]
  | some g => rw [if_neg (by simp [freeGroup_of_nil hfree])]

/-- The records after a job was taken on: those that stay, and a new one. -/
theorem takeOn_tasks (hk : a.Keyed) (now : Nanos) (job : Job) (replace : Bool) :
    ∃ flag e, FreshOf job a.ids.id.1 e ∧ (a.takeOn now job replace).2.settings = a.settings ∧
      (a.takeOn now job replace).2.jobs = a.jobs.insert job.name { job with deploying := flag } ∧
      (a.takeOn now job replace).2.tasks =
        (a.tasks.filterVal (stays job replace)).insert a.ids.id.1 e := by
  obtain ⟨flag, kind, e, acts, hbirth⟩ := takeOn_turns False hk now job replace
  obtain ⟨flag', hjobs⟩ := a.prepared_jobs job replace
  have htasks : (a.prepared job replace).tasks = a.tasks.filterVal (stays job replace) := by
    refine SortedMap.ext_get? fun id => ?_
    rw [prepared_get?, SortedMap.get?_filterVal]
    rfl
  refine ⟨flag', e, ⟨hbirth.fresh.id, hbirth.fresh.jobName, hbirth.fresh.cpuShares,
    hbirth.fresh.memoryLimit⟩, ?_, ?_, ?_⟩
  · rw [hbirth.turn.settings, prepared_settings]
  · rw [hbirth.turn.jobs, hjobs]
  · rw [hbirth.turn.tasks, htasks]
    exact SortedMap.insert_erase_self _ _ _

theorem takeOn_books (hk : a.Keyed) (hfree : a.settings.freeGroups = []) (now : Nanos) (job : Job)
    (replace : Bool) : (a.takeOn now job replace).2.books = a.booksWith job replace := by
  obtain ⟨flag, e, hfresh, hsettings, hjobs, htasks⟩ := takeOn_tasks hk now job replace
  generalize (a.takeOn now job replace).2 = a' at hsettings hjobs htasks
  have hgroup : ∀ task : Task, a'.sharegroupOf task = a.groupWith job task := by
    intro task
    unfold sharegroupOf groupWith
    rw [hjobs, SortedMap.get?_insert]
    by_cases hname : task.jobName = job.name
    · rw [if_pos hname.symm, if_pos hname]
      rfl
    · rw [if_neg (Ne.symm hname), if_neg hname]
      rfl
  have hcharge : ∀ task : Task, a'.charge task = (a.groupWith job task, task.cpuShares) := by
    intro task
    rw [charge_of_nil (by rw [hsettings, hfree]), hgroup]
  refine SortedMap.ext_get? fun id => ?_
  unfold books booksWith
  rw [SortedMap.get?_mapVal, htasks, SortedMap.get?_insert, SortedMap.get?_insert,
    SortedMap.get?_mapVal]
  split_ifs
  · rw [Option.map_some, hcharge, hfresh.cpuShares]
    unfold groupWith
    rw [if_pos hfresh.jobName]
  · simp only [hcharge]

/-! ### What the admission checks -/

theorem filterVal_stays (m : Map Entry) (job : Job) (replace : Bool) :
    m.filterVal (counts (if replace then some job.name else none)) = m.filterVal (stays job replace) := by
  refine SortedMap.ext_get? fun id => ?_
  rw [SortedMap.get?_filterVal, SortedMap.get?_filterVal]
  refine congrArg (fun p => Option.filter p _) (funext fun e => ?_)
  unfold counts stays
  cases replace with
  | false => rfl
  | true => simp [eq_comm]

theorem admitJob_ok (hfree : a.settings.freeGroups = []) {job : Job} {replace : Bool}
    {poolLargest : Option ℕ} (h : a.admitJob job replace poolLargest = .ok ()) :
    (0 < job.cpuShares → satI64 (a.admittedCpu job replace) ≤ a.settings.effectiveCpuShares) ∧
    (0 < job.memoryLimit → satAdd u64Max
      (a.resourceUsageExcluding (if replace then some job.name else none)).2 job.memoryLimit ≤
        a.settings.effectiveMemoryBytes) := by
  unfold admitJob at h
  dsimp only at h
  have hgroups : (shareGroup job.tags).any (fun g => a.freeGroup g) = false := by
    cases shareGroup job.tags with
    | none => rfl
    | some g => exact freeGroup_of_nil hfree g
  rw [hgroups, freeGroup_of_nil hfree] at h
  unfold admittedCpu besideCpu
  generalize a.resourceUsageExcluding (if replace then some job.name else none) = used at h ⊢
  generalize (if (shareGroup job.tags).any (fun g => a.sharegroupRunning g) then (0 : ℤ)
    else job.cpuShares) = new at h ⊢
  split_ifs at h with hcpu hmem
  refine ⟨fun hshares => ?_, fun hlimit => not_lt.mp fun hlt => hmem ⟨hlimit, hlt⟩⟩
  by_contra hlt
  refine hcpu ?_
  simp [hshares, not_le.mp hlt]

/-- The memory of an admitted job fits. -/
theorem takeOn_mem (hk : a.Keyed) (hfree : a.settings.freeGroups = []) (now : Nanos) {job : Job}
    {replace : Bool} {poolLargest : Option ℕ} (h : a.admitJob job replace poolLargest = .ok ())
    (hused : a.resourceUsage.2 ≤ a.settings.effectiveMemoryBytes) :
    (a.takeOn now job replace).2.resourceUsage.2 ≤ a.settings.effectiveMemoryBytes := by
  obtain ⟨flag, e, hfresh, -, -, htasks⟩ := takeOn_tasks hk now job replace
  have hinsert := limits_insert_le (a.tasks.filterVal (stays job replace)) a.ids.id.1 e
  have hstay := limits_filterVal_le a.tasks (stays job replace)
  have hlimit := hfresh.memoryLimit
  have hcheck := (admitJob_ok hfree h).2
  rw [resourceUsage_mem] at hused ⊢
  rw [resourceUsageExcluding_eq, filterVal_stays] at hcheck
  rw [htasks]
  change 0 < job.memoryLimit → satAdd u64Max (min (limits (a.tasks.filterVal (stays job replace)))
    u64Max) job.memoryLimit ≤ a.settings.effectiveMemoryBytes at hcheck
  unfold satAdd at hcheck
  omega

/-! ### Cores -/

section Cores

variable {job : Job} {replace : Bool}

theorem besideCpu_eq (hfree : a.settings.freeGroups = []) (job : Job) (replace : Bool) :
    a.besideCpu job replace = countedCpu (a.stayingBooks job replace) := by
  unfold besideCpu
  rw [resourceUsageExcluding_eq, filterVal_stays]
  unfold stayingBooks
  simp only [charge_of_nil hfree]

/-- If the tasks of the job that stay keep their pool, the new record is all that is new. -/
theorem booksWith_eq (hkept : replace = true ∨ ∀ id e, a.tasks.get? id = some e →
      e.task.jobName = job.name → a.sharegroupOf e.task = shareGroup job.tags) :
    a.booksWith job replace =
      (a.stayingBooks job replace).insert a.ids.id.1 (shareGroup job.tags, job.cpuShares) := by
  unfold booksWith stayingBooks
  congr 1
  refine SortedMap.ext_get? fun id => ?_
  rw [SortedMap.get?_mapVal, SortedMap.get?_mapVal, SortedMap.get?_filterVal]
  refine Option.map_congr fun e he => ?_
  obtain ⟨he, hstays⟩ := Option.filter_eq_some_iff.mp he
  unfold groupWith
  split_ifs with hname
  · rcases hkept with rfl | hkept
    · simp [stays, hname] at hstays
    · rw [hkept id e he hname]
  · rfl

/-- A record in the books of the tasks that stay is the record of one. -/
theorem mem_stayingBooks {id : String} {c : Option String × ℤ}
    (h : (id, c) ∈ (a.stayingBooks job replace).entries) : ∃ e, a.tasks.get? id = some e ∧
      stays job replace e = true ∧ a.sharegroupOf e.task = c.1 ∧ e.task.cpuShares = c.2 := by
  have hget := SortedMap.get?_eq_some_iff.mpr h
  unfold stayingBooks at hget
  rw [SortedMap.get?_mapVal, SortedMap.get?_filterVal] at hget
  obtain ⟨e, he, rfl⟩ := Option.map_eq_some_iff.mp hget
  obtain ⟨he, hstays⟩ := Option.filter_eq_some_iff.mp he
  exact ⟨e, he, hstays, rfl, rfl⟩

/-- A pool that does not run has no member among the tasks that stay. -/
theorem not_mem_charges {g : String} (hrun : a.sharegroupRunning g = false) (x : ℤ) :
    (some g, x) ∉ charges (a.stayingBooks job replace) := by
  intro hmem
  obtain ⟨⟨id, c⟩, hp, rfl⟩ := List.mem_map.mp hmem
  obtain ⟨e, he, -, hgroup, -⟩ := mem_stayingBooks hp
  have hany : a.sharegroupRunning g = true := by
    refine List.any_eq_true.mpr ⟨(id, e), SortedMap.get?_eq_some_iff.mp he, ?_⟩
    simp [hgroup]
  rw [hrun] at hany
  cases hany

/-- The books before and behind the place of the new record. -/
structure Split (a : Agent) (job : Job) (replace : Bool) (l r : List (Option String × ℤ)) : Prop where
  before : charges (a.stayingBooks job replace) = l ++ r
  after : charges (a.booksWith job replace) = l ++ (shareGroup job.tags, job.cpuShares) :: r
  /-- The records with smaller ids are in front. -/
  small : ∀ id e, a.tasks.get? id = some e → stays job replace e = true → id < a.ids.id.1 →
    (a.sharegroupOf e.task, e.task.cpuShares) ∈ l
  front : ∀ c ∈ l, ∃ id e, a.tasks.get? id = some e ∧ stays job replace e = true ∧
    a.sharegroupOf e.task = c.1 ∧ id < a.ids.id.1

theorem exists_split (hnew : a.tasks.get? a.ids.id.1 = none)
    (hkept : replace = true ∨ ∀ id e, a.tasks.get? id = some e → e.task.jobName = job.name →
      a.sharegroupOf e.task = shareGroup job.tags) : ∃ l r, Split a job replace l r := by
  have hnone : (a.stayingBooks job replace).get? a.ids.id.1 = none := by
    unfold stayingBooks
    rw [SortedMap.get?_mapVal, SortedMap.get?_filterVal, hnew]
    rfl
  obtain ⟨l, r, hsplit, hinsert, hsmall⟩ :=
    SortedMap.entries_insert hnone (shareGroup job.tags, job.cpuShares)
  refine ⟨l.map Prod.snd, r.map Prod.snd, ?_, ?_, ?_, ?_⟩
  · rw [charges, hsplit, List.map_append]
  · rw [booksWith_eq hkept, charges, hinsert, List.map_append, List.map_cons]
  · intro id e he hstays hid
    refine List.mem_map.mpr ⟨(id, (a.sharegroupOf e.task, e.task.cpuShares)), hsmall _ ?_ hid, rfl⟩
    refine SortedMap.get?_eq_some_iff.mp ?_
    unfold stayingBooks
    rw [SortedMap.get?_mapVal, SortedMap.get?_filterVal, he, Option.filter_some, if_pos hstays,
      Option.map_some]
  · intro c hc
    obtain ⟨⟨id, c⟩, hmem, rfl⟩ := List.mem_map.mp hc
    have hentry : (id, c) ∈ (a.stayingBooks job replace).entries := by
      rw [hsplit]
      exact List.mem_append_left r hmem
    obtain ⟨e, he, hstays, hgroup, -⟩ := mem_stayingBooks hentry
    refine ⟨id, e, he, hstays, hgroup, ?_⟩
    -- the entries are sorted by their ids
    have hsorted := ((a.stayingBooks job replace).insert a.ids.id.1
      (shareGroup job.tags, job.cpuShares)).sorted
    rw [hinsert] at hsorted
    have hless := (List.pairwise_append.mp hsorted).2.2 (id, c) hmem
    exact hless (a.ids.id.1, (shareGroup job.tags, job.cpuShares)) List.mem_cons_self

theorem i64_range : i64Min ≤ 0 ∧ (0 : ℤ) ≤ i64Max := by decide

namespace Split

variable {l r : List (Option String × ℤ)}

/-- A task that counts beside the others. -/
theorem counted_le_of_beside (h : Split a job replace l r) (hfree : a.settings.freeGroups = [])
    (hrun : (shareGroup job.tags).any (fun g => a.sharegroupRunning g) = false) :
    (0 < job.cpuShares → countedCpu (a.booksWith job replace) ≤ satI64 (a.admittedCpu job replace)) ∧
    (job.cpuShares ≤ 0 → countedCpu (a.booksWith job replace) ≤ a.besideCpu job replace) := by
  obtain ⟨xs, ys, hxs, hys⟩ : ∃ xs ys, Pool.firsts [] (charges (a.booksWith job replace)) =
        xs ++ job.cpuShares :: ys ∧
      Pool.firsts [] (charges (a.stayingBooks job replace)) = xs ++ ys := by
    rw [h.after, h.before]
    cases hgroup : shareGroup job.tags with
    | none => exact Pool.firsts_insert_none [] l r job.cpuShares
    | some g =>
      rw [hgroup, Option.any_some] at hrun
      have hnot : ∀ x, (some g, x) ∉ l ++ r := h.before ▸ not_mem_charges hrun
      exact Pool.firsts_insert_new List.not_mem_nil (fun y hy => hnot y (List.mem_append_left _ hy))
        (fun y hy => hnot y (List.mem_append_right _ hy)) job.cpuShares
  unfold admittedCpu
  rw [besideCpu_eq hfree, hrun, if_neg Bool.false_ne_true, satI64_eq_clamp]
  unfold countedCpu Pool.counted
  rw [hxs, hys]
  exact ⟨fun hpos => Pool.total_insert_le (by decide) i64_range.1 i64_range.2 hpos.le,
    fun hneg => Pool.total_insert_le_of_nonpos (by decide) i64_range.1 i64_range.2 hneg⟩

/-- A task whose pool is charged by one before it. -/
theorem counted_eq_of_paid (h : Split a job replace l r) (hfree : a.settings.freeGroups = []) {g : String}
    (hgroup : shareGroup job.tags = some g) {id : String} {e : Entry} (he : a.tasks.get? id = some e)
    (hstays : stays job replace e = true) (hmember : a.sharegroupOf e.task = some g)
    (hid : id < a.ids.id.1) :
    countedCpu (a.booksWith job replace) = a.besideCpu job replace := by
  have hmem := h.small id e he hstays hid
  rw [hmember] at hmem
  rw [besideCpu_eq hfree]
  unfold countedCpu Pool.counted
  rw [h.after, h.before, hgroup, Pool.firsts_insert_member (.inr ⟨_, hmem⟩)]

/-- No task of the pool is in front if none with a smaller id stays. -/
theorem not_mem_front (h : Split a job replace l r) {g : String}
    (hno : ¬ ∃ id e, a.tasks.get? id = some e ∧ stays job replace e = true ∧
      a.sharegroupOf e.task = some g ∧ id < a.ids.id.1) (x : ℤ) : (some g, x) ∉ l := by
  intro hmem
  obtain ⟨id, e, he, hstays, hgroup, hid⟩ := h.front _ hmem
  exact hno ⟨id, e, he, hstays, hgroup, hid⟩

theorem charge_eq (h : Split a job replace l r) {g : String} (hfront : ∀ x, (some g, x) ∉ l) :
    Pool.charge g (charges (a.stayingBooks job replace)) = Pool.charge g r := by
  rw [h.before]
  exact Pool.charge_append hfront r

/-- A task that its pool will be charged by. -/
theorem counted_le_of_first (h : Split a job replace l r) (hfree : a.settings.freeGroups = []) {g : String}
    (hgroup : shareGroup job.tags = some g) (hfront : ∀ x, (some g, x) ∉ l) :
    countedCpu (a.booksWith job replace) ≤
      satI64 (a.besideCpu job replace + a.extraCpu job replace g) := by
  have hextra : max job.cpuShares 0 ≤ Pool.charge g r + a.extraCpu job replace g := by
    unfold extraCpu
    rw [h.charge_eq hfront]
    omega
  have hnonneg : 0 ≤ a.extraCpu job replace g := le_max_left 0 _
  have hle := Pool.total_insert_first_le hnonneg hextra List.not_mem_nil hfront i64_range.1 i64_range.2
  have htop := (countedCpu_mem (a.booksWith job replace)).2
  rw [besideCpu_eq hfree, satI64_eq_clamp]
  unfold countedCpu Pool.counted at htop ⊢
  rw [h.before]
  rw [h.after, hgroup] at htop ⊢
  unfold Pool.clamp
  omega

end Split

/-- If its pool runs, the admission counts nothing for the new task. -/
theorem satI64_admittedCpu (hfree : a.settings.freeGroups = []) {g : String}
    (hgroup : shareGroup job.tags = some g) (hrun : ¬ a.sharegroupRunning g = false) :
    satI64 (a.admittedCpu job replace) = a.besideCpu job replace := by
  have hmem := countedCpu_mem (a.stayingBooks job replace)
  have hruns : a.sharegroupRunning g = true := Bool.eq_true_of_not_eq_false hrun
  unfold admittedCpu
  rw [hgroup, Option.any_some, if_pos hruns, add_zero, besideCpu_eq hfree, satI64_eq_clamp,
    Pool.clamp_of_mem hmem.1 hmem.2]

/-- The cores of a job that is charged in full fit. -/
theorem ChargedInFull.within (h : a.ChargedInFull job replace) (hfree : a.settings.freeGroups = [])
    {poolLargest : Option ℕ} (hadmitted : a.admitJob job replace poolLargest = .ok ()) :
    countedCpu (a.booksWith job replace) ≤ a.settings.effectiveCpuShares := by
  obtain ⟨l, r, hsplit⟩ := exists_split h.free h.kept
  have hchecked := (admitJob_ok hfree hadmitted).1
  have hbeside : (shareGroup job.tags).any (fun g => a.sharegroupRunning g) = false →
      countedCpu (a.booksWith job replace) ≤ a.settings.effectiveCpuShares := by
    intro hrun
    obtain ⟨hpos, hneg⟩ := hsplit.counted_le_of_beside hfree hrun
    by_cases hshares : 0 < job.cpuShares
    · exact (hpos hshares).trans (hchecked hshares)
    · exact (hneg (not_lt.mp hshares)).trans (h.looked.resolve_left hshares)
  cases hgroup : shareGroup job.tags with
  | none => exact hbeside (by rw [hgroup]; rfl)
  | some g =>
    by_cases hrun : a.sharegroupRunning g = false
    · exact hbeside (by rw [hgroup, Option.any_some, hrun])
    by_cases hpaid : ∃ id e, a.tasks.get? id = some e ∧ stays job replace e = true ∧
        a.sharegroupOf e.task = some g ∧ id < a.ids.id.1
    · obtain ⟨id, e, he, hstays, hmember, hid⟩ := hpaid
      rw [hsplit.counted_eq_of_paid hfree hgroup he hstays hmember hid]
      rcases h.looked with hshares | hfits
      · have hfits := hchecked hshares
        rwa [satI64_admittedCpu hfree hgroup hrun] at hfits
      · exact hfits
    · have hroom := ((h.pool g hgroup).resolve_left hrun).resolve_left hpaid
      exact (hsplit.counted_le_of_first hfree hgroup (hsplit.not_mem_front hpaid)).trans hroom

/-- **Where no charge is negative**, a task that was taken on without being charged in full does not
fit. -/
theorem Plain.chargedInFull (h : a.Plain job replace) (hfree : a.settings.freeGroups = [])
    {poolLargest : Option ℕ} (hadmitted : a.admitJob job replace poolLargest = .ok ())
    (hfits : countedCpu (a.booksWith job replace) ≤ a.settings.effectiveCpuShares) :
    a.ChargedInFull job replace := by
  refine ⟨h.free, h.kept, .inl h.shares, fun g hgroup => ?_⟩
  by_cases hrun : a.sharegroupRunning g = false
  · exact .inl hrun
  by_cases hpaid : ∃ id e, a.tasks.get? id = some e ∧ stays job replace e = true ∧
      a.sharegroupOf e.task = some g ∧ id < a.ids.id.1
  · exact .inr (.inl hpaid)
  refine .inr (.inr ?_)
  obtain ⟨l, r, hsplit⟩ := exists_split h.free h.kept
  have hfront := hsplit.not_mem_front hpaid
  have hnonneg : ∀ c ∈ l ++ r, 0 ≤ c.2 := by
    intro c hc
    rw [← hsplit.before] at hc
    obtain ⟨⟨id, c⟩, hmem, rfl⟩ := List.mem_map.mp hc
    obtain ⟨e, he, -, -, hshares⟩ := mem_stayingBooks hmem
    exact hshares ▸ h.nonneg id e he
  -- both sums are clamped at the top only
  have htotal : ∀ cs : List (Option String × ℤ), (∀ c ∈ cs, 0 ≤ c.2) →
      Pool.counted i64Min i64Max cs = min i64Max (Pool.firsts [] cs).sum := by
    intro cs hcs
    have hfirsts : ∀ x ∈ Pool.firsts [] cs, 0 ≤ x := by
      intro x hx
      obtain ⟨c, hc, rfl⟩ := Pool.firsts_subset [] cs x hx
      exact hcs c hc
    unfold Pool.counted
    rw [Pool.total_eq hfirsts i64_range.1 i64_range.2, zero_add]
  have hafter : ∀ c ∈ l ++ (some g, job.cpuShares) :: r, 0 ≤ c.2 := by
    intro c hc
    rcases List.mem_append.mp hc with hc | hc
    · exact hnonneg c (List.mem_append_left r hc)
    · rcases List.mem_cons.mp hc with rfl | hc
      · exact h.shares.le
      · exact hnonneg c (List.mem_append_right l hc)
  have hsum : (Pool.firsts [] (l ++ (some g, job.cpuShares) :: r)).sum =
      (Pool.firsts [] (l ++ r)).sum + (job.cpuShares - Pool.charge g r) :=
    Pool.sum_insert_first List.not_mem_nil hfront _
  have hchecked := (admitJob_ok hfree hadmitted).1 h.shares
  rw [satI64_admittedCpu hfree hgroup hrun] at hchecked
  have hbeside : a.besideCpu job replace = min i64Max (Pool.firsts [] (l ++ r)).sum := by
    rw [besideCpu_eq hfree, countedCpu, hsplit.before, htotal _ hnonneg]
  rw [countedCpu, hsplit.after, hgroup, htotal _ hafter, hsum] at hfits
  have hshares := h.shares
  unfold extraCpu
  rw [hsplit.charge_eq hfront, satI64_eq_clamp]
  have hlow := (besideCpu_eq hfree job replace ▸ countedCpu_mem (a.stayingBooks job replace)).1
  unfold Pool.clamp
  omega

end Cores

end Agent

/-- What is handed out is within what the node has. -/
def Within (a : Agent) : Prop :=
  a.resourceUsage.1 ≤ a.settings.effectiveCpuShares ∧
    a.resourceUsage.2 ≤ a.settings.effectiveMemoryBytes

/-- **Admission is sound** when the new task is charged in full; and where no charge is negative,
only then. -/
theorem admission_within_iff {a : Agent} (h : calls.Reachable a)
    (hfree : a.settings.freeGroups = []) (hwithin : Within a) {now : Nanos} {job : Job}
    {replace : Bool} {poolLargest : Option ℕ} {id : String} {a' : Agent}
    (hrun : a.run now job replace poolLargest = (.ok id, a')) :
    (a.ChargedInFull (Agent.normalized job) replace → Within a') ∧
      (a.Plain (Agent.normalized job) replace → Within a' →
        a.ChargedInFull (Agent.normalized job) replace) := by
  have hk := calls_keyed h
  rcases a.run_cases now job replace poolLargest with ⟨err, b, herr, -⟩ | ⟨hadmitted, hok⟩
  · rw [hrun] at herr
    cases herr
  rw [hrun] at hok
  obtain rfl : a' = (a.takeOn now (Agent.normalized job) replace).2 := congrArg Prod.snd hok
  obtain ⟨flag, e, -, hsettings, -, -⟩ := Agent.takeOn_tasks hk now (Agent.normalized job) replace
  have hcpu : (a.takeOn now (Agent.normalized job) replace).2.resourceUsage.1 =
      Agent.countedCpu (a.booksWith (Agent.normalized job) replace) := by
    rw [Agent.resourceUsage_cpu, Agent.takeOn_books hk hfree]
  have hmem := Agent.takeOn_mem hk hfree now hadmitted hwithin.2
  unfold Within
  rw [hsettings, hcpu]
  exact ⟨fun hfull => ⟨hfull.within hfree hadmitted, hmem⟩,
    fun hplain hfits => hplain.chargedInFull hfree hadmitted hfits.1⟩

/-- A node of one core, and a job in the pool `p` of this size. -/
def oneCore : Settings := { id := "node", cpuCores := 1 }

def pooled (shares : ℤ) : Job :=
  { name := "web", command := "web", cpuShares := shares, tags := .ofList [("sharegroup", "p")] }

/-- A second member of the pool, which is charged by the first of the two. -/
theorem admission_within_second :
    let a := (Agent.new oneCore).feed (.run 0 (pooled 1024) false none)
    Within a ∧ a.ChargedInFull (Agent.normalized (pooled 512)) false ∧
      Within (a.run 0 (pooled 512) false none).2 := by
  intro a
  have hreach : calls.Reachable a :=
    ⟨.new oneCore, [.input (.run 0 (pooled 1024) false none)], ⟨oneCore, rfl⟩, rfl⟩
  have hwithin : Within a := by
    refine ⟨?_, ?_⟩ <;> decide
  obtain ⟨id, hid⟩ : ∃ id, (a.run 0 (pooled 512) false none).1 = .ok id := by
    have hok : (a.run 0 (pooled 512) false none).1.toBool = true := by decide
    cases hres : (a.run 0 (pooled 512) false none).1 with
    | error err =>
      rw [hres] at hok
      cases hok
    | ok id => exact ⟨id, rfl⟩
  have hrun : a.run 0 (pooled 512) false none = (.ok id, (a.run 0 (pooled 512) false none).2) := by
    rw [← hid]
  have hfull : a.ChargedInFull (Agent.normalized (pooled 512)) false := by
    refine ⟨by decide, .inr fun id e he hname => ?_, .inl (by decide), fun g hg => ?_⟩
    · unfold Agent.sharegroupOf
      rw [hname]
      rfl
    · cases hg
      exact .inr (.inr (by decide))
  exact ⟨hwithin, hfull, (admission_within_iff hreach rfl hwithin hrun).1 hfull⟩

/-- A job that takes the place of the only member of its own pool is charged nothing: a node of one
core takes on a task of two. -/
theorem replace_own_pool_overbooks : ¬ ∀ a now job replace poolLargest id a', calls.Reachable a →
    a.settings.freeGroups = [] → Within a →
    a.run now job replace poolLargest = (.ok id, a') → Within a' := by
  intro hall
  have hreach : calls.Reachable ((Agent.new oneCore).feed (.run 0 (pooled 1024) false none)) :=
    ⟨.new oneCore, [.input (.run 0 (pooled 1024) false none)], ⟨oneCore, rfl⟩, rfl⟩
  have hwithin : Within ((Agent.new oneCore).feed (.run 0 (pooled 1024) false none)) := by
    refine ⟨?_, ?_⟩ <;> decide
  have hover := hall _ 0 (pooled 2048) true none _ _ hreach rfl hwithin rfl
  exact absurd hover.1 (by decide)

end Hop.Node
