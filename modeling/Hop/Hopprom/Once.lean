import Hop.Hopprom.History

/-!
# Every task is counted once

What the collector remembers is the last report of every task that can still come
(`Known`), so its search finds the last report of a task (`Known.find`) and its counters say what the
history says (`Told`). Nothing of this depends on the allocator but whether there is a result (`Meets`).
-/

namespace Hop.Hopprom

open Alloc
open Hop.Types (Map TaskState)

variable {F : Type} {ops : F64 F} {c c' : Counters} {r s : Seen} {E seen rs : List Seen}
  {polls : List (Poll F)} {p : Poll F} {job : String}

/-! ### What a round comes to -/

/-- `delta` for a report, against the last one of the same task. -/
def deltaOf (before : Option Seen) (r : Seen) (c : Counters) : Counters :=
  match before with
  | none => ⟨bumped c.starts r.job 1, c.failures,
      if 0 < r.restarts then bumped c.restarts r.job 1 else c.restarts⟩
  | some prev => ⟨c.starts,
      if r.state = .failed ∧ prev.state ≠ .failed then bumped c.failures r.job 1 else c.failures,
      if 0 < satI64 (r.restarts - prev.restarts) then
        bumped c.restarts r.job (satI64 (r.restarts - prev.restarts)).toNat
      else c.restarts⟩

/-- What the memory of the collector says of a task. -/
def remembered (seen : List Seen) (id : String) : Option Seen := Bisect.findKey Seen.key (utf8 id) seen

theorem meets_delta (self : Collector) (agent : String) (t : Report F) (c : Counters) :
    Meets (self.delta t c)
      (· = deltaOf (remembered self.seen t.task.id) (Seen.ofReport agent t) c) := by
  rw [Collector.delta, remembered]
  rcases Bisect.findKey Seen.key (utf8 t.task.id) self.seen with - | prev
  · refine (meets_bump _ _ _).bind fun starts hstarts => (meets_bumpIf _ _ _ _).bind fun _ hrestarts =>
      .pure ?_
    rw [hstarts, hrestarts]
    rfl
  · refine (meets_bumpIf _ _ _ _).bind fun _ hfailures => (meets_bumpIf _ _ _ _).bind fun _ hrestarts =>
      .pure ?_
    rw [hfailures, hrestarts]
    rfl

theorem meets_gauge (g : TaskGauges F) (t : Report F) : Meets (gauge ops g t) fun _ => True := by
  refine (meets_bump _ _ _).bind fun _ _ => Meets.bind (P := fun _ => True) ?_ fun g _ =>
    (meets_bumpIf _ _ _ _).bind fun _ _ => .pure trivial
  rw [gaugePlaced]
  split_ifs
  · refine (meets_bump _ _ _).bind fun _ _ => Meets.bind (P := fun _ => True) ?_ fun _ _ => .pure trivial
    rw [addSum]
    rcases SortedMap.get? _ _ with - | s
    · exact (meets_insertNew _ _ _).mono fun _ _ => trivial
    · exact .pure trivial
  · exact .pure trivial

theorem meets_seen (s : Seen) : Meets s.tryClone (· = s) :=
  meets_reserve.bind fun _ _ => meets_reserve.bind fun _ _ => meets_reserve.bind fun _ _ => .pure rfl

theorem meets_of (agent : String) (t : Report F) :
    Meets (Seen.of agent t) (· = Seen.ofReport agent t) :=
  meets_reserve.bind fun _ _ => meets_reserve.bind fun _ _ => meets_reserve.bind fun _ _ => .pure rfl

/-- What an entry leaves behind: its reports, or what was there before. -/
def AgentTasks.leaves (seen : List Seen) (a : AgentTasks F) : List Seen :=
  match a.tasks with
  | some tasks => tasks.map (Seen.ofReport a.agent)
  | none => seen.filter (·.agent = a.agent)

/-- The counters after some reports. -/
def tell (seen : List Seen) (c : Counters) (rs : List Seen) : Counters :=
  rs.foldl (fun c r => deltaOf (remembered seen r.id) r c) c

/-- Two folds at once. -/
theorem foldl_pair {α β γ : Type} (f : β → α → β) (g : γ → α → γ) (as : List α) (q : β × γ) :
    as.foldl (fun q a => (f q.1 a, g q.2 a)) q = (as.foldl f q.1, as.foldl g q.2) := by
  induction as generalizing q with
  | nil => rfl
  | cons a as ih => exact ih (f q.1 a, g q.2 a)

theorem foldl_concat (rs ss : List Seen) : ss.foldl (fun rs s => rs ++ [s]) rs = rs ++ ss := by
  induction ss generalizing rs with
  | nil => exact (List.append_nil rs).symm
  | cons s ss ih =>
    rw [List.foldl_cons, ih, List.append_assoc, List.singleton_append]

theorem meets_agentTasks (self : Collector) (st : Collector.Round F) (a : AgentTasks F) :
    Meets (self.agentTasks ops st a) fun st' =>
      st'.2 = (tell self.seen st.2.1 a.reports, st.2.2 ++ a.leaves self.seen) := by
  rw [Collector.agentTasks, AgentTasks.reports, AgentTasks.leaves]
  rcases a.tasks with - | tasks
  · have hcarry := Meets.foldlM (f := Collector.carry) (g := fun rs s => rs ++ [s])
      (R := fun rs ss => rs = ss) (fun rs ss s hrs => (meets_seen s).bind fun s' hs' =>
        meets_reserve.bind fun _ _ => .pure (by rw [hrs, hs'])) (self.seen.filter (·.agent = a.agent))
      (s := st.2.2) rfl
    refine hcarry.bind fun seen hseen => .pure ?_
    rw [hseen, foldl_concat]
    rfl
  · have hsee := Meets.foldlM (f := self.see ops a.agent)
      (g := fun q t => (deltaOf (remembered self.seen t.task.id) (Seen.ofReport a.agent t) q.1,
        q.2 ++ [Seen.ofReport a.agent t]))
      (R := fun st q => st.2 = q) (fun st q t hst => (meets_gauge st.1 t).bind fun _ _ =>
        (meets_delta self a.agent t st.2.1).bind fun c' hc' => (meets_of a.agent t).bind fun s' hs' =>
          meets_reserve.bind fun _ _ => .pure (by rw [hc', hs', hst])) tasks (s := st) rfl
    refine hsee.mono fun st' hst' => hst'.trans ?_
    rw [tell, ← foldl_concat, List.foldl_map, List.foldl_map]
    exact foldl_pair (fun c t => deltaOf (remembered self.seen t.task.id) (Seen.ofReport a.agent t) c)
      (fun seen t => seen ++ [Seen.ofReport a.agent t]) tasks st.2

/-- The counters and the memory after a round. -/
theorem meets_tasks (self : Collector) (perAgent : List (AgentTasks F)) (c : Counters) :
    Meets (self.tasks ops perAgent c) fun st =>
      st.2 = (tell self.seen c (perAgent.flatMap AgentTasks.reports),
        Collector.sortSeen (perAgent.flatMap (AgentTasks.leaves self.seen))) := by
  have hfold := Meets.foldlM (f := self.agentTasks ops)
    (g := fun q a => (tell self.seen q.1 (AgentTasks.reports a), q.2 ++ a.leaves self.seen))
    (R := fun st q => st.2 = q) (fun st q a hst => (meets_agentTasks self st a).mono fun st' hst' => by
      rw [hst', hst]) perAgent (s := ({}, c, [])) rfl
  refine hfold.bind fun st hst => .pure ?_
  have hpair : st.2 = (perAgent.foldl (fun c a => tell self.seen c (AgentTasks.reports a)) c,
      perAgent.foldl (fun seen a => seen ++ a.leaves self.seen) []) :=
    hst.trans (foldl_pair (fun c a => tell self.seen c (AgentTasks.reports a))
      (fun seen a => seen ++ AgentTasks.leaves self.seen a) perAgent (c, []))
  have hcounters : st.2.1 = tell self.seen c (perAgent.flatMap AgentTasks.reports) := by
    rw [hpair, tell, List.foldl_flatMap]
    rfl
  have hseen : st.2.2 = perAgent.flatMap (AgentTasks.leaves self.seen) := by
    rw [hpair]
    exact List.foldl_append_eq_append
  rw [hcounters, hseen]

/-- What a round leaves of the counters and of what is seen, and what it exports of them. -/
structure After (old : Collector) (poll : Poll F) (m : Metrics F) (next : Collector) : Prop where
  counters : next.counters = tell old.seen old.counters poll.reports
  seen : next.seen = Collector.sortSeen (poll.tasks.flatMap (AgentTasks.leaves old.seen))
  changes : next.leaderChanges = old.leaderChanges ∨
    next.leaderChanges = satAdd u64Max old.leaderChanges 1
  exported : m.startsTotal = next.counters.starts ∧ m.failuresTotal = next.counters.failures ∧
    m.restartsTotal = next.counters.restarts ∧ m.leaderChanges = next.leaderChanges

theorem meets_counters (c : Counters) : Meets c.tryClone (· = c) := by
  refine (meets_cloneMap _).bind fun _ hs => (meets_cloneMap _).bind fun _ hf =>
    (meets_cloneMap _).bind fun _ hr => .pure ?_
  rw [hs, hf, hr]

theorem meets_cloneText (s : String) : Meets (Collector.cloneText s) (· = s) :=
  meets_reserve.bind fun _ _ => .pure rfl

theorem meets_cloneTexts (ss : List String) : Meets (Collector.cloneTexts ss) (· = ss) :=
  meets_reserve.bind fun _ _ => (meets_forM ss fun _ => meets_reserve).bind fun _ _ => .pure rfl

theorem meets_capacities (self : Collector) (poll : Poll F) :
    Meets (self.capacities poll) fun _ => True := by
  refine Meets.foldlM_true (fun out a => ?_) _ _
  dsimp only
  split
  · exact (meets_insertNew _ _ _).mono fun _ _ => trivial
  · exact .pure trivial

theorem meets_agentMetrics (agents : List PolledAgent) (capacity : Map CapacityMetric) :
    Meets (agentMetrics agents capacity) fun _ => True :=
  Meets.foldlM_true (fun _ _ => (meets_insertNew _ _ _).mono fun _ _ => trivial) _ _

theorem meets_jobMetrics (poll : Poll F) (g : TaskGauges F) :
    Meets (jobMetrics ops poll g) fun _ => True :=
  Meets.foldlM_true (fun _ _ => (meets_insertNew _ _ _).mono fun _ _ => trivial) _ _

theorem meets_readLeader (self : Collector) (answer : Option Leader) :
    Meets (self.readLeader answer) fun l =>
      l.2.2 = self.leaderChanges ∨ l.2.2 = satAdd u64Max self.leaderChanges 1 := by
  refine (meets_cloneText _).bind fun leader _ => ?_
  rcases answer with - | l
  · exact .pure (.inl rfl)
  · refine (meets_cloneText _).bind fun _ _ => .pure ?_
    dsimp only
    split_ifs
    · exact .inr rfl
    · exact .inl rfl

theorem meets_readStatus (self : Collector) (answer : Option Status) :
    Meets (self.readStatus answer) fun _ => True := by
  rcases answer with - | s
  · exact (meets_cloneTexts _).bind fun _ _ => .pure trivial
  · exact (meets_cloneTexts _).bind fun _ _ => .pure trivial

theorem meets_round (ops : F64 F) (self : Collector) (poll : Poll F) (now : Option Nanos) :
    Meets (self.round ops poll now) fun res => After self poll res.1 res.2 := by
  refine (meets_counters _).bind fun c hc => (meets_tasks self poll.tasks c).bind fun st hst =>
    (meets_capacities self poll).bind fun _ _ => (meets_agentMetrics _ _).bind fun _ _ =>
    (meets_jobMetrics poll _).bind fun _ _ => (meets_readLeader self _).bind fun l hl =>
    (meets_readStatus self _).bind fun _ _ => (meets_cloneMap _).bind fun _ hstarts =>
    (meets_cloneMap _).bind fun _ hfailures => (meets_cloneMap _).bind fun _ hrestarts =>
    (meets_cloneText _).bind fun _ _ => (meets_cloneTexts _).bind fun _ _ => .pure ?_
  have hcounters : st.2.1 = tell self.seen self.counters poll.reports :=
    (congrArg Prod.fst hst).trans (congrArg (tell self.seen · poll.reports) hc)
  exact ⟨hcounters, congrArg Prod.snd hst, hl, hstarts, hfailures, hrestarts, rfl⟩

/-- **A round is all or nothing.** -/
theorem observe_cases (ops : F64 F) (self : Collector) (poll : Poll F) (now : Option Nanos)
    (room : ℕ → Bool) :
    self.observe ops poll now room = (none, self) ∨
      ∃ m next, self.observe ops poll now room = (some m, next) ∧ After self poll m next := by
  rw [Collector.observe]
  rcases hround : self.round ops poll now room with - | ⟨⟨m, next⟩, room'⟩
  · exact .inl rfl
  · exact .inr ⟨m, next, rfl, (meets_round ops self poll now).sound room _ room' hround⟩

/-- With memory, a round succeeds. -/
theorem observe_always (ops : F64 F) (self : Collector) (poll : Poll F) (now : Option Nanos) :
    ∃ m, (self.observe ops poll now always).1 = some m := by
  obtain ⟨⟨m, next⟩, hround⟩ := (meets_round ops self poll now).complete
  exact ⟨m, by rw [Collector.observe, hround]⟩

/-! ### What is remembered -/

/-- A task that will not come again: its agent was reached and said no more of it. -/
def Gone (polls : List (Poll F)) (id : String) : Prop :=
  ∃ before p after, polls = before ++ p :: after ∧
    (∃ q ∈ before, ∃ r ∈ q.reports, r.id = id ∧ p.Reaches r.agent) ∧ ¬ p.Reports id

/-- What is remembered after these rounds. -/
structure Known (seen : List Seen) (polls : List (Poll F)) : Prop where
  sorted : seen.Pairwise fun a b => a.key ≤ b.key
  last : ∀ s ∈ seen, lastOf (history polls) s.id = some s
  missing : ∀ r ∈ history polls, r.id ∉ seen.map Seen.id → Gone polls r.id

theorem Known.nil : Known [] ([] : List (Poll F)) where
  sorted := List.Pairwise.nil
  last _ hs := absurd hs List.not_mem_nil
  missing _ hr := absurd hr List.not_mem_nil

theorem Gone.concat {id : String} (h : Gone polls id) (p : Poll F) : Gone (polls ++ [p]) id := by
  obtain ⟨before, q, after, hcut, hrest⟩ := h
  exact ⟨before, q, after ++ [p], by rw [hcut, List.append_assoc, List.cons_append], hrest⟩

/-- A task that is gone is in no later round. -/
theorem Gone.not_reports {id : String} (h : Gone polls id) (hpolls : Orderly (polls ++ [p])) :
    ¬ p.Reports id := by
  obtain ⟨before, q, after, hcut, ⟨q₀, hq₀, r, hr, rfl, hreach⟩, hno⟩ := h
  exact hpolls.gone before q (after ++ [p]) (by rw [hcut, List.append_assoc, List.cons_append]) q₀ hq₀ r
    hr hreach hno p (List.mem_append_right _ (List.mem_singleton_self p))

/-- **The search finds the last report** of a task. -/
theorem Known.find (h : Known seen polls) (hpolls : Orderly (polls ++ [p])) (hr : r ∈ p.reports) :
    remembered seen r.id = lastOf (history polls) r.id := by
  rcases hfind : remembered seen r.id with - | s
  · rcases hlast : lastOf (history polls) r.id with - | t
    · rfl
    · obtain ⟨hmem, hid⟩ := mem_of_lastOf hlast
      have hnot : t.id ∉ seen.map Seen.id := by
        intro hin
        obtain ⟨s, hs, hsid⟩ := List.mem_map.mp hin
        exact Bisect.ne_of_findKey h.sorted hfind s hs (congrArg utf8 (hsid.trans hid))
      exact absurd ⟨r, hr, hid.symm⟩ ((h.missing t hmem hnot).not_reports hpolls)
  · obtain ⟨hs, hkey⟩ := Bisect.mem_of_findKey hfind
    rw [← utf8_injective hkey, h.last s hs]

/-- What is left of a task after a round. -/
theorem mem_leaves {q : Poll F} :
    s ∈ q.tasks.flatMap (AgentTasks.leaves seen) ↔ s ∈ q.reports ∨ s ∈ seen ∧ q.Misses s.agent := by
  rw [List.mem_flatMap, mem_reports]
  constructor
  · rintro ⟨a, ha, hs⟩
    rw [AgentTasks.leaves] at hs
    rcases htasks : a.tasks with - | tasks
    · rw [htasks] at hs
      obtain ⟨hmem, hagent⟩ := List.mem_filter.mp hs
      exact .inr ⟨hmem, a, ha, (of_decide_eq_true hagent).symm, htasks⟩
    · rw [htasks] at hs
      exact .inl ⟨a, ha, tasks, htasks, hs⟩
  · rintro (⟨a, ha, tasks, htasks, hs⟩ | ⟨hmem, a, ha, hagent, htasks⟩)
    · refine ⟨a, ha, ?_⟩
      rw [AgentTasks.leaves, htasks]
      exact hs
    · refine ⟨a, ha, ?_⟩
      rw [AgentTasks.leaves, htasks]
      exact List.mem_filter.mpr ⟨hmem, decide_eq_true hagent.symm⟩

/-- In a round with one report of each task, that is the last one. -/
theorem lastOf_reports (hunique : (p.reports.map Seen.id).Nodup) (hr : r ∈ p.reports) :
    lastOf (history (polls ++ [p])) r.id = some r := by
  obtain ⟨as, bs, hcut⟩ := List.append_of_mem hr
  rw [hcut, List.map_append, List.map_cons, List.nodup_append] at hunique
  obtain ⟨-, hbs, -⟩ := hunique
  have hne : ∀ s ∈ bs.reverse, s.id ≠ r.id := fun s hs heq =>
    (List.nodup_cons.mp hbs).1 (List.mem_map.mpr ⟨s, List.mem_reverse.mp hs, heq⟩)
  rw [history_concat, hcut, List.reverse_append, List.reverse_cons, List.append_assoc,
    List.append_assoc, lastOf_append hne, lastOf, List.singleton_append, List.find?_cons_of_pos]
  exact decide_eq_true rfl

theorem sorted_sortSeen (seen : List Seen) :
    (Collector.sortSeen seen).Pairwise fun a b => a.key ≤ b.key := by
  refine (List.pairwise_mergeSort (fun a b c hab hbc => ?_) (fun a b => ?_) seen).imp of_decide_eq_true
  · exact decide_eq_true (le_trans (of_decide_eq_true hab) (of_decide_eq_true hbc))
  · rw [Bool.or_eq_true, decide_eq_true_eq, decide_eq_true_eq]
    exact le_total a.key b.key

/-- **What is remembered after one round more.** -/
theorem Known.concat (h : Known seen polls) (hpolls : Orderly (polls ++ [p])) :
    Known (Collector.sortSeen (p.tasks.flatMap (AgentTasks.leaves seen))) (polls ++ [p]) := by
  have hp : p ∈ polls ++ [p] := List.mem_append_right _ (List.mem_singleton_self p)
  have hmem : ∀ s, s ∈ Collector.sortSeen (p.tasks.flatMap (AgentTasks.leaves seen)) ↔
      s ∈ p.reports ∨ s ∈ seen ∧ p.Misses s.agent := fun s => List.mem_mergeSort.trans mem_leaves
  refine ⟨sorted_sortSeen _, fun s hs => ?_, fun r hr hnot => ?_⟩
  · rcases (hmem s).mp hs with hs | ⟨hs, hmiss⟩
    · exact lastOf_reports (hpolls.unique p hp) hs
    · -- its agent was not reached, so nobody reports it
      have hlast := h.last s hs
      obtain ⟨hin, -⟩ := mem_of_lastOf hlast
      obtain ⟨q, hq, hsq⟩ := mem_history.mp hin
      have hno : ∀ r ∈ p.reports.reverse, r.id ≠ s.id := by
        intro r hr hid
        have hrp := List.mem_reverse.mp hr
        obtain ⟨-, hagent⟩ := hpolls.keeps p hp q (List.mem_append_left _ hq) r hrp s hsq hid
        refine hpolls.either p hp r.agent (Poll.reaches_of_mem hrp) ?_
        rw [hagent]
        exact hmiss
      rw [history_concat, lastOf_append hno]
      exact hlast
  · rw [history_concat] at hr
    have hrep : ¬ p.Reports r.id := by
      rintro ⟨s, hs, hid⟩
      exact hnot (List.mem_map.mpr ⟨s, (hmem s).mpr (.inl hs), hid⟩)
    have hold : r ∈ history polls := by
      rcases List.mem_append.mp hr with hr | hr
      · exact absurd ⟨r, List.mem_reverse.mp hr, rfl⟩ hrep
      · exact hr
    by_cases hseen : r.id ∈ seen.map Seen.id
    · obtain ⟨s, hs, hid⟩ := List.mem_map.mp hseen
      obtain ⟨hin, -⟩ := mem_of_lastOf (h.last s hs)
      obtain ⟨q, hq, hsq⟩ := mem_history.mp hin
      have hlisted : p.Lists s.agent := hpolls.lists q (List.mem_append_left _ hq) p hp s.agent
        (Poll.reaches_of_mem hsq).lists
      rcases hlisted.cases with hreach | hmiss
      · exact ⟨polls, p, [], rfl, ⟨q, hq, s, hsq, hid, hreach⟩, hrep⟩
      · exact absurd (List.mem_map.mpr ⟨s, (hmem s).mpr (.inr ⟨hs, hmiss⟩), hid⟩) hnot
    · exact (h.missing r hold hseen).concat p

/-! ### What is counted -/

/-- The value of a counter. -/
def total (m : Map ℕ) (job : String) : ℕ := (m.get? job).getD 0

theorem total_bumped (m : Map ℕ) (key : String) (n : ℕ) (job : String) (hn : n ≤ u64Max) :
    total (bumped m key n) job =
      if job = key then min (total m key + n) u64Max else total m job := by
  rw [total, bumped, SortedMap.get?_insert, if_congr eq_comm rfl rfl]
  split_ifs with hkey
  · rw [total]
    rcases m.get? key with - | v
    · rw [Option.getD_some, Option.getD_none, Nat.zero_add]
      exact (min_eq_left hn).symm
    · rfl
  · rfl

/-- The counters say what the history says. -/
def Told (c : Counters) (E : List Seen) : Prop :=
  ∀ job, total c.starts job = min (starts job E) u64Max ∧
    total c.failures job = min (failures job E) u64Max

theorem min_add_min (a n max : ℕ) : min (min a max + n) max = min (a + n) max := by omega

/-- One report more is counted once. -/
theorem Told.cons (h : Told c E) (hjob : ∀ s ∈ E, s.id = r.id → s.job = r.job) :
    Told (deltaOf (lastOf E r.id) r c) (r :: E) := by
  intro job
  obtain ⟨hstarts, hfailures⟩ := h job
  have hone : 1 ≤ u64Max := by decide
  rw [starts_cons hjob, failures_cons]
  rcases hlast : lastOf E r.id with - | prev
  · have hno : ¬ ∃ s, (none : Option Seen) = some s ∧ r.job = job ∧ s.state ≠ .failed ∧
        r.state = .failed := by
      rintro ⟨s, hs, -⟩
      cases hs
    rw [if_neg hno, deltaOf]
    dsimp only
    rw [total_bumped _ _ _ _ hone]
    refine ⟨?_, hfailures⟩
    by_cases hr : r.job = job
    · rw [if_pos hr.symm, if_pos ⟨hr, rfl⟩, hr, hstarts, min_add_min]
    · rw [if_neg (Ne.symm hr), if_neg fun h => hr h.1]
      exact hstarts
  · have hcount : (∃ s, some prev = some s ∧ r.job = job ∧ s.state ≠ .failed ∧ r.state = .failed) ↔
        r.job = job ∧ prev.state ≠ .failed ∧ r.state = .failed := by
      simp only [Option.some.injEq, exists_eq_left']
    rw [if_congr hcount rfl rfl, if_neg fun h => Option.some_ne_none _ h.2, deltaOf]
    dsimp only
    refine ⟨hstarts, ?_⟩
    by_cases hfall : r.state = .failed ∧ prev.state ≠ .failed
    · rw [if_pos hfall, total_bumped _ _ _ _ hone]
      by_cases hr : r.job = job
      · rw [if_pos hr.symm, if_pos ⟨hr, hfall.2, hfall.1⟩, hr, hfailures, min_add_min]
      · rw [if_neg (Ne.symm hr), if_neg fun h => hr h.1]
        exact hfailures
    · rw [if_neg hfall, if_neg fun h => hfall ⟨h.2.2, h.2.1⟩]
      exact hfailures

/-- **The reports of a round are counted**, one after the other. -/
theorem Told.tell (hknown : Known seen polls) (hpolls : Orderly (polls ++ [p]))
    {done rest : List Seen} (hcut : p.reports = done ++ rest)
    (h : Told c (done.reverse ++ history polls)) :
    Told (tell seen c rest) (history (polls ++ [p])) := by
  have hp : p ∈ polls ++ [p] := List.mem_append_right _ (List.mem_singleton_self p)
  induction rest generalizing done c with
  | nil =>
    rw [List.append_nil] at hcut
    rw [history_concat, hcut]
    exact h
  | cons r rest ih =>
    have hr : r ∈ p.reports := hcut ▸ List.mem_append_right _ List.mem_cons_self
    have hnextcut : p.reports = (done ++ [r]) ++ rest := by
      rw [hcut, List.append_assoc, List.singleton_append]
    refine ih hnextcut ?_
    have hunique := hpolls.unique p hp
    rw [hcut, List.map_append, List.map_cons, List.nodup_append] at hunique
    obtain ⟨-, -, hne⟩ := hunique
    have hothers : ∀ s ∈ done.reverse, s.id ≠ r.id := fun s hs heq =>
      hne s.id (List.mem_map.mpr ⟨s, List.mem_reverse.mp hs, rfl⟩) r.id List.mem_cons_self heq
    have hjob : ∀ s ∈ done.reverse ++ history polls, s.id = r.id → s.job = r.job := by
      intro s hs hid
      rcases List.mem_append.mp hs with hs | hs
      · exact absurd hid (hothers s hs)
      · obtain ⟨q, hq, hsq⟩ := mem_history.mp hs
        exact (hpolls.keeps q (List.mem_append_left _ hq) p hp s hsq r hr hid).1
    have hnext := h.cons hjob
    rw [lastOf_append hothers, ← hknown.find hpolls hr] at hnext
    rw [List.reverse_concat, List.cons_append]
    exact hnext

/-! ### What never decreases -/

/-- The counters are `u64`. -/
structure Counters.InRange (c : Counters) : Prop where
  starts : ∀ job, total c.starts job ≤ u64Max
  failures : ∀ job, total c.failures job ≤ u64Max
  restarts : ∀ job, total c.restarts job ≤ u64Max

/-- No counter decreases. -/
structure Counters.Grows (c c' : Counters) : Prop where
  starts : ∀ job, total c.starts job ≤ total c'.starts job
  failures : ∀ job, total c.failures job ≤ total c'.failures job
  restarts : ∀ job, total c.restarts job ≤ total c'.restarts job

theorem Counters.Grows.refl (c : Counters) : c.Grows c :=
  ⟨fun _ => le_rfl, fun _ => le_rfl, fun _ => le_rfl⟩

theorem Counters.Grows.trans {c c' c'' : Counters} (h : c.Grows c') (h' : c'.Grows c'') :
    c.Grows c'' :=
  ⟨fun job => (h.starts job).trans (h'.starts job),
    fun job => (h.failures job).trans (h'.failures job),
    fun job => (h.restarts job).trans (h'.restarts job)⟩

theorem bumped_grows {m : Map ℕ} (hm : ∀ job, total m job ≤ u64Max) (key : String) {n : ℕ}
    (hn : n ≤ u64Max) : (∀ job, total m job ≤ total (bumped m key n) job) ∧
      ∀ job, total (bumped m key n) job ≤ u64Max := by
  refine ⟨fun job => ?_, fun job => ?_⟩
  · rw [total_bumped m key n job hn]
    split_ifs with hkey
    · rw [hkey]
      exact le_min (Nat.le_add_right _ _) (hm key)
    · exact le_rfl
  · rw [total_bumped m key n job hn]
    split_ifs
    · exact min_le_right _ _
    · exact hm job

theorem toNat_satI64_le (x : ℤ) : (satI64 x).toNat ≤ u64Max := by
  rw [satI64, i64Min, i64Max, u64Max]
  omega

theorem deltaOf_grows (hc : c.InRange) (before : Option Seen) (r : Seen) :
    c.Grows (deltaOf before r c) ∧ (deltaOf before r c).InRange := by
  have hone : 1 ≤ u64Max := by decide
  obtain ⟨hs, hsmax⟩ := bumped_grows hc.starts r.job hone
  obtain ⟨hf, hfmax⟩ := bumped_grows hc.failures r.job hone
  obtain ⟨hr, hrmax⟩ := bumped_grows hc.restarts r.job hone
  rcases before with - | prev
  · rw [deltaOf]
    split_ifs
    · exact ⟨⟨hs, fun _ => le_rfl, hr⟩, hsmax, hc.failures, hrmax⟩
    · exact ⟨⟨hs, fun _ => le_rfl, fun _ => le_rfl⟩, hsmax, hc.failures, hc.restarts⟩
  · obtain ⟨hg, hgmax⟩ := bumped_grows hc.restarts r.job (toNat_satI64_le (r.restarts - prev.restarts))
    rw [deltaOf]
    split_ifs
    · exact ⟨⟨fun _ => le_rfl, hf, hg⟩, hc.starts, hfmax, hgmax⟩
    · exact ⟨⟨fun _ => le_rfl, hf, fun _ => le_rfl⟩, hc.starts, hfmax, hc.restarts⟩
    · exact ⟨⟨fun _ => le_rfl, fun _ => le_rfl, hg⟩, hc.starts, hc.failures, hgmax⟩
    · exact ⟨.refl c, hc⟩

theorem tell_grows (hc : c.InRange) (seen rs : List Seen) :
    c.Grows (tell seen c rs) ∧ (tell seen c rs).InRange := by
  induction rs generalizing c with
  | nil => exact ⟨.refl c, hc⟩
  | cons r rs ih =>
    obtain ⟨hgrows, hnext⟩ := deltaOf_grows hc (remembered seen r.id) r
    obtain ⟨hrest, hrange⟩ := ih hnext
    exact ⟨hgrows.trans hrest, hrange⟩

/-! ### Runs -/

/-- A call of `observe`. -/
structure Attempt (F : Type) where
  poll : Poll F
  now : Option Nanos
  room : ℕ → Bool

namespace Collector

def run (ops : F64 F) (self : Collector) (attempts : List (Attempt F)) : Collector :=
  attempts.foldl (fun c a => (c.observe ops a.poll a.now a.room).2) self

/-- The rounds that were observed. -/
def observed (ops : F64 F) : Collector → List (Attempt F) → List (Poll F)
  | _, [] => []
  | self, a :: attempts =>
    ((self.observe ops a.poll a.now a.room).1.map fun _ => a.poll).toList ++
      observed ops (self.observe ops a.poll a.now a.room).2 attempts

/-- What holds of a collector after some rounds. -/
structure Reached (col : Collector) (polls : List (Poll F)) : Prop where
  told : Told col.counters (history polls)
  known : Known col.seen polls

theorem reached_new : Reached {} ([] : List (Poll F)) :=
  ⟨fun _ => ⟨rfl, rfl⟩, Known.nil⟩

variable {self next : Collector} {m : Metrics F}

theorem Reached.concat (h : self.Reached polls) (hafter : After self p m next)
    (hpolls : Orderly (polls ++ [p])) : next.Reached (polls ++ [p]) := by
  refine ⟨?_, ?_⟩
  · rw [hafter.counters]
    exact Told.tell h.known hpolls (List.nil_append _).symm h.told
  · rw [hafter.seen]
    exact h.known.concat hpolls

theorem Reached.run (ops : F64 F) (attempts : List (Attempt F)) (h : self.Reached polls)
    (hpolls : Orderly (polls ++ self.observed ops attempts)) :
    (self.run ops attempts).Reached (polls ++ self.observed ops attempts) := by
  induction attempts generalizing self polls with
  | nil =>
    rw [observed, List.append_nil]
    exact h
  | cons a attempts ih =>
    rcases observe_cases ops self a.poll a.now a.room with heq | ⟨m, next, heq, hafter⟩
    · -- nothing has changed
      rw [observed, heq] at hpolls ⊢
      rw [Collector.run, List.foldl_cons, heq]
      exact ih h hpolls
    · have hcut : polls ++ self.observed ops (a :: attempts) =
          (polls ++ [a.poll]) ++ next.observed ops attempts := by
        rw [observed, heq, List.append_assoc]
        rfl
      rw [hcut] at hpolls ⊢
      rw [Collector.run, List.foldl_cons, heq]
      exact ih (h.concat hafter hpolls.earlier) hpolls

/-- What holds of every collector. -/
structure InRange (col : Collector) : Prop where
  counters : col.counters.InRange
  changes : col.leaderChanges ≤ u64Max

theorem inRange_new : InRange {} :=
  ⟨⟨fun _ => Nat.zero_le _, fun _ => Nat.zero_le _, fun _ => Nat.zero_le _⟩, Nat.zero_le _⟩

theorem InRange.observe (h : self.InRange) (ops : F64 F) (a : Attempt F) :
    (self.observe ops a.poll a.now a.room).2.InRange ∧
      self.counters.Grows (self.observe ops a.poll a.now a.room).2.counters ∧
      self.leaderChanges ≤ (self.observe ops a.poll a.now a.room).2.leaderChanges := by
  rcases observe_cases ops self a.poll a.now a.room with heq | ⟨m, next, heq, hafter⟩
  · rw [heq]
    exact ⟨h, .refl _, le_rfl⟩
  · rw [heq]
    obtain ⟨hgrows, hrange⟩ := tell_grows h.counters self.seen a.poll.reports
    rw [← hafter.counters] at hgrows hrange
    have hmax := h.changes
    have hchanges : self.leaderChanges ≤ next.leaderChanges ∧ next.leaderChanges ≤ u64Max := by
      rcases hafter.changes with hc | hc
      · exact ⟨hc.ge, hc ▸ hmax⟩
      · rw [hc, satAdd]
        exact ⟨le_min (Nat.le_succ _) hmax, min_le_right _ _⟩
    exact ⟨⟨hrange, hchanges.2⟩, hgrows, hchanges.1⟩

theorem InRange.run (h : self.InRange) (ops : F64 F) (attempts : List (Attempt F)) :
    (self.run ops attempts).InRange := by
  induction attempts generalizing self with
  | nil => exact h
  | cons a attempts ih => exact ih (h.observe ops a).1

end Collector

open Collector

theorem told_observe (ops : F64 F) (attempts : List (Attempt F)) (a : Attempt F) {m : Metrics F}
    (hm : ((run ops {} attempts).observe ops a.poll a.now a.room).1 = some m)
    (hpolls : Orderly (observed ops {} attempts ++ [a.poll])) (job : String) :
    total m.startsTotal job = min (starts job (history (observed ops {} attempts ++ [a.poll]))) u64Max ∧
      total m.failuresTotal job =
        min (failures job (history (observed ops {} attempts ++ [a.poll]))) u64Max := by
  have hbefore : (run ops {} attempts).Reached (observed ops {} attempts) :=
    Reached.run ops attempts reached_new hpolls.earlier
  rcases observe_cases ops (run ops {} attempts) a.poll a.now a.room with heq | ⟨m', next, heq, hafter⟩
  · cases (congrArg Prod.fst heq).symm.trans hm
  · obtain rfl : m' = m := Option.some.inj ((congrArg Prod.fst heq).symm.trans hm)
    rw [hafter.exported.1, hafter.exported.2.1]
    exact (hbefore.concat hafter hpolls).told job

/-- **Every task is counted once**: after any rounds, of which some lacked memory and may have been
repeated, a round that is observed exports for each job the number of its tasks so far and of the
reports with which one of them failed, as far as a `u64` can count. No counter ever decreases, and a
round that lacks memory changes nothing. -/
theorem every_task_once (ops : F64 F) (attempts : List (Attempt F)) (a : Attempt F) :
    let before := run ops {} attempts
    let after := before.observe ops a.poll a.now a.room
    let polls := observed ops {} attempts ++ [a.poll]
    (∀ m, after.1 = some m → Orderly polls → ∀ job,
      total m.startsTotal job = min (starts job (history polls)) u64Max ∧
      total m.failuresTotal job = min (failures job (history polls)) u64Max) ∧
    (before.counters.Grows after.2.counters ∧ before.leaderChanges ≤ after.2.leaderChanges) ∧
    (∀ m, after.1 = some m → m.startsTotal = after.2.counters.starts ∧
      m.failuresTotal = after.2.counters.failures ∧ m.restartsTotal = after.2.counters.restarts ∧
      m.leaderChanges = after.2.leaderChanges) ∧
    (after.1 = none → after.2 = before) := by
  intro before after polls
  have hrange : before.InRange := inRange_new.run ops attempts
  refine ⟨fun m hm hpolls => told_observe ops attempts a hm hpolls, (hrange.observe ops a).2,
    fun m hm => ?_, fun hnone => ?_⟩
  · rcases observe_cases ops before a.poll a.now a.room with heq | ⟨m', next, heq, hafter⟩
    · cases (congrArg Prod.fst heq).symm.trans hm
    · obtain rfl : m' = m := Option.some.inj ((congrArg Prod.fst heq).symm.trans hm)
      rw [show after = (some m', next) from heq]
      exact hafter.exported
  · rcases observe_cases ops before a.poll a.now a.room with heq | ⟨m', next, heq, hafter⟩
    · exact congrArg Prod.snd heq
    · cases (congrArg Prod.fst heq).symm.trans hnone

/-! ### Rounds with one task -/

/-- Whole numbers of percents. -/
def wholePercents : F64 ℤ where
  zero := 0
  add := (· + ·)
  per sum n := sum / n
  ratio a b := a / b
  isNan _ := false
  isInfinite _ := false
  positive v := decide (0 < v)
  fixed _ v := v.repr.toList

/-- A round in which one agent reports one task. -/
def roundOf (id : String) (state : TaskState) : Poll ℤ where
  agents := []
  jobs := []
  tasks := [⟨"a", some [⟨{ id := id, jobName := "j", state := state }, 0, 0⟩]⟩]
  capacities := []
  status := none
  leader := none

/-- The report of such a round. -/
def reportOf (id : String) (state : TaskState) : Seen := ⟨id, "j", "a", state, 0⟩

/-- A round in which the agent cannot be reached. -/
def missedRound : Poll ℤ where
  agents := []
  jobs := []
  tasks := [⟨"a", none⟩]
  capacities := []
  status := none
  leader := none

/-- With one report a round, all that matters is that no task comes back. -/
theorem orderly_rounds {polls : List (Poll ℤ)}
    (h : ∀ p ∈ polls, (∃ id state, p = roundOf id state) ∨ p = missedRound)
    (hgone : ∀ before id₀ state₀ after, polls = before ++ roundOf id₀ state₀ :: after →
      ∀ id state, roundOf id state ∈ before → id ≠ id₀ → ∀ state', roundOf id state' ∉ after) :
    Orderly polls := by
  have hreport : ∀ p ∈ polls, ∀ r ∈ p.reports, ∃ id state,
      p = roundOf id state ∧ r = reportOf id state := by
    intro p hp r hr
    obtain ⟨id, state, rfl⟩ | rfl := h p hp
    · exact ⟨id, state, rfl, List.mem_singleton.mp hr⟩
    · exact absurd hr List.not_mem_nil
  refine ⟨fun p hp => ?_, fun p hp q hq r hr s hs _ => ?_, fun p hp q hq agent hlists => ?_,
    fun p hp agent hreach hmiss => ?_, fun before p after hcut q hq r hr hreach hno q' hq' hrep => ?_⟩
  · obtain ⟨id, state, rfl⟩ | rfl := h p hp
    · exact List.nodup_singleton _
    · exact List.nodup_nil
  · obtain ⟨id, state, -, rfl⟩ := hreport p hp r hr
    obtain ⟨id', state', -, rfl⟩ := hreport q hq s hs
    exact ⟨rfl, rfl⟩
  · obtain ⟨e, he, hagent⟩ := hlists
    obtain ⟨id, state, rfl⟩ | rfl := h p hp <;> obtain ⟨id', state', rfl⟩ | rfl := h q hq
    all_goals
      rw [List.mem_singleton.mp he] at hagent
      exact ⟨_, List.mem_singleton_self _, hagent⟩
  · obtain ⟨e, he, -, hsome⟩ := hreach
    obtain ⟨e', he', -, hnone⟩ := hmiss
    obtain ⟨id, state, rfl⟩ | rfl := h p hp
    · rw [List.mem_singleton.mp he'] at hnone
      cases hnone
    · rw [List.mem_singleton.mp he] at hsome
      cases hsome
  · have hmem : ∀ x ∈ before ++ p :: after, x ∈ polls := fun x hx => hcut ▸ hx
    obtain ⟨id, state, rfl, rfl⟩ := hreport q (hmem q (List.mem_append_left _ hq)) r hr
    obtain ⟨id₀, state₀, rfl⟩ | rfl := h p (hmem p (List.mem_append_right _ List.mem_cons_self))
    · obtain ⟨s, hs, hid⟩ := hrep
      obtain ⟨id', state', rfl, rfl⟩ :=
        hreport q' (hmem q' (List.mem_append_right _ (List.mem_cons_of_mem _ hq'))) s hs
      obtain rfl : id' = id := hid
      exact hgone before id₀ state₀ after hcut id' state hq (fun heq =>
        hno ⟨reportOf id₀ state₀, List.mem_singleton_self _, heq.symm⟩) state' hq'
    · obtain ⟨e, he, -, hsome⟩ := hreach
      rw [List.mem_singleton.mp he] at hsome
      cases hsome

/-- With memory, every round is observed. -/
theorem observed_always (ops : F64 F) (self : Collector) {attempts : List (Attempt F)}
    (h : ∀ a ∈ attempts, a.room = always) :
    self.observed ops attempts = attempts.map Attempt.poll := by
  induction attempts generalizing self with
  | nil => rfl
  | cons a attempts ih =>
    obtain ⟨m, hm⟩ := observe_always ops self a.poll a.now
    rw [observed, h a List.mem_cons_self, hm, ih _ fun b hb => h b (List.mem_cons_of_mem _ hb)]
    rfl

theorem observed_append (ops : F64 F) (self : Collector) (before after : List (Attempt F)) :
    self.observed ops (before ++ after) =
      self.observed ops before ++ (run ops self before).observed ops after := by
  induction before generalizing self with
  | nil => rfl
  | cons a before ih =>
    rw [List.cons_append, observed, observed, ih, List.append_assoc]
    rfl

/-- Three rounds: the task runs; the agent is out of reach; the task has failed, and there is no
memory to observe it. -/
def threeAttempts : List (Attempt ℤ) :=
  [⟨roundOf "t" .running, none, always⟩, ⟨missedRound, none, always⟩,
    ⟨roundOf "t" .failed, none, fun _ => false⟩]

/-- The failure is counted when the round is repeated, and once. -/
theorem every_task_once_failed : ∃ m : Metrics ℤ,
    ((run wholePercents {} threeAttempts).observe wholePercents (roundOf "t" .failed) none always).1 =
      some m ∧
    total m.startsTotal "j" = 1 ∧ total m.failuresTotal "j" = 1 := by
  obtain ⟨m, hm⟩ := observe_always wholePercents (run wholePercents {} threeAttempts)
    (roundOf "t" .failed) none
  obtain ⟨htold, -, -, -⟩ := every_task_once wholePercents threeAttempts
    ⟨roundOf "t" .failed, none, always⟩
  have hpolls : observed wholePercents {} threeAttempts = [roundOf "t" .running, missedRound] := by
    have hcut : threeAttempts = [⟨roundOf "t" .running, none, always⟩, ⟨missedRound, none, always⟩] ++
      [⟨roundOf "t" .failed, none, fun _ => false⟩] := rfl
    rw [hcut, observed_append, observed_always]
    · rfl
    · intro a ha
      rcases List.mem_cons.mp ha with rfl | ha
      · rfl
      · rw [List.mem_singleton.mp ha]
  have horder : Orderly ([roundOf "t" .running, missedRound] ++ [roundOf "t" .failed]) := by
    have hone : ∀ p ∈ [roundOf "t" .running, missedRound] ++ [roundOf "t" .failed],
        (∃ state, p = roundOf "t" state) ∨ p = missedRound := by
      intro p hp
      rcases List.mem_cons.mp hp with rfl | hp
      · exact .inl ⟨.running, rfl⟩
      rcases List.mem_cons.mp hp with rfl | hp
      · exact .inr rfl
      · exact .inl ⟨.failed, List.mem_singleton.mp hp⟩
    refine orderly_rounds (fun p hp => (hone p hp).imp_left fun ⟨state, hp⟩ => ⟨"t", state, hp⟩) ?_
    intro before id₀ state₀ after hcut id state hin hne
    rw [hcut] at hone
    have hid : ∀ id state, roundOf id state ∈ before ++ roundOf id₀ state₀ :: after → id = "t" := by
      intro id state hmem
      obtain ⟨state', heq⟩ | heq := hone _ hmem
      · exact congrArg Seen.id (List.singleton_inj.mp (congrArg Poll.reports heq))
      · cases congrArg Poll.reports heq
    exact absurd ((hid id state (List.mem_append_left _ hin)).trans
      (hid id₀ state₀ (List.mem_append_right _ List.mem_cons_self)).symm) hne
  rw [hpolls] at htold
  exact ⟨m, hm, htold m hm horder "j"⟩

/-! ### More tasks than a counter can count -/

/-- The name of a number. -/
def textOf (n : ℕ) : String := String.ofList (Nat.toDigits 10 n)

theorem textOf_injective {n m : ℕ} (h : textOf n = textOf m) : n = m := by
  have hdigits : Nat.toDigits 10 n = Nat.toDigits 10 m := String.ofList_injective h
  rw [← ofDigits_decimal n, ← ofDigits_decimal m, decimal, decimal, hdigits]

/-- So many rounds, each with a task of its own. -/
def roundsUpTo (n : ℕ) : List (Poll ℤ) := (List.range n).map fun i => roundOf (textOf i) .running

theorem reports_roundsUpTo (n : ℕ) :
    (roundsUpTo n).flatMap Poll.reports = (List.range n).map fun i => reportOf (textOf i) .running := by
  rw [roundsUpTo, List.flatMap_map]
  exact List.map_eq_flatMap.symm

theorem nodup_roundsUpTo (n : ℕ) : (((roundsUpTo n).flatMap Poll.reports).map Seen.id).Nodup := by
  rw [reports_roundsUpTo, List.map_map]
  exact List.nodup_range.map fun _ _ => textOf_injective

theorem orderly_roundsUpTo (n : ℕ) : Orderly (roundsUpTo n) := by
  refine orderly_rounds (fun p hp => ?_) ?_
  · obtain ⟨i, -, rfl⟩ := List.mem_map.mp hp
    exact .inl ⟨_, _, rfl⟩
  · intro before id₀ state₀ after hcut id state hin _ state' hin'
    have hunique := nodup_roundsUpTo n
    have hreports : ∀ {polls : List (Poll ℤ)} {state}, roundOf id state ∈ polls →
        id ∈ (polls.flatMap Poll.reports).map Seen.id := fun {_ state} hmem =>
      List.mem_map.mpr ⟨reportOf id state, List.mem_flatMap.mpr ⟨_, hmem, List.mem_singleton_self _⟩, rfl⟩
    rw [hcut, List.flatMap_append, List.map_append, List.nodup_append] at hunique
    exact hunique.2.2 id (hreports hin) id (hreports (List.mem_cons_of_mem _ hin')) rfl

theorem starts_roundsUpTo (n : ℕ) : starts "j" (history (roundsUpTo n)) = n := by
  have hall : (history (roundsUpTo n)).filter (fun s => s.job = "j") = history (roundsUpTo n) := by
    refine List.filter_eq_self.mpr fun s hs => ?_
    rw [history, reports_roundsUpTo] at hs
    obtain ⟨i, -, rfl⟩ := List.mem_map.mp (List.mem_reverse.mp hs)
    rfl
  rw [starts, hall, history, List.map_reverse, (List.nodup_reverse.mpr (nodup_roundsUpTo n)).dedup,
    List.length_reverse, List.length_map, reports_roundsUpTo, List.length_map, List.length_range]

/-- So many rounds, with memory. -/
def attemptsUpTo (n : ℕ) : List (Attempt ℤ) := (roundsUpTo n).map fun p => ⟨p, none, always⟩

theorem observed_attemptsUpTo (n : ℕ) :
    observed wholePercents {} (attemptsUpTo n) ++ [roundOf (textOf n) .running] =
      roundsUpTo (n + 1) := by
  rw [observed_always _ _ fun a ha => by obtain ⟨p, -, rfl⟩ := List.mem_map.mp ha; rfl, attemptsUpTo,
    List.map_map, roundsUpTo, roundsUpTo, List.range_succ, List.map_append]
  congr 1
  exact List.map_id _

theorem total_attemptsUpTo (n : ℕ) {m : Metrics ℤ}
    (hm : ((run wholePercents {} (attemptsUpTo n)).observe wholePercents
      (roundOf (textOf n) .running) none always).1 = some m) :
    total m.startsTotal "j" = min (n + 1) u64Max := by
  have horder : Orderly (observed wholePercents {} (attemptsUpTo n) ++
      [roundOf (textOf n) .running]) := by
    rw [observed_attemptsUpTo]
    exact orderly_roundsUpTo (n + 1)
  have htold := (told_observe wholePercents (attemptsUpTo n)
    ⟨roundOf (textOf n) .running, none, always⟩ hm horder "j").1
  rw [htold, observed_attemptsUpTo, starts_roundsUpTo]

/-- **A counter stops at its largest value**: after 2^64 - 1 rounds with a task each, one more. -/
theorem starts_stop : ∃ m : Metrics ℤ,
    ((run wholePercents {} (attemptsUpTo u64Max)).observe wholePercents
      (roundOf (textOf u64Max) .running) none always).1 = some m ∧
    Orderly (observed wholePercents {} (attemptsUpTo u64Max) ++
      [roundOf (textOf u64Max) .running]) ∧
    total m.startsTotal "j" ≠ starts "j" (history (observed wholePercents {} (attemptsUpTo u64Max) ++
      [roundOf (textOf u64Max) .running])) := by
  obtain ⟨m, hm⟩ := observe_always wholePercents (run wholePercents {} (attemptsUpTo u64Max))
    (roundOf (textOf u64Max) .running) none
  refine ⟨m, hm, ?_, ?_⟩
  · rw [observed_attemptsUpTo]
    exact orderly_roundsUpTo (u64Max + 1)
  · rw [total_attemptsUpTo u64Max hm, observed_attemptsUpTo, starts_roundsUpTo]
    omega

end Hop.Hopprom
