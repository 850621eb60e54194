import Hop.Lead.Booked
import Hop.Lead.Converge

/-!
# Whom preemption hits

A job that is placed may displace another one only if that is strictly less important, and then
the least important one of the agent: at each `stop_job` of `place` the job it names is a victim
in this sense, by the books of that moment (`told_place`). So a reconcile, which places the jobs
from the most important one on, never takes from a job what it gave it: along the order of
priority the priorities do not fall (`priorityOrder_sorted`), and a victim comes later.
-/

namespace Hop.Lead

open Hop.Types (Agent Job Map)

namespace Leader

open Counts

variable {l : Leader}

variable {N : Type} [Transport N]

/-! ### The victim -/

/-- `victim` is stored and placed on the agent, strictly less important than a job with this
priority, and no stored job that is placed there is less important than it. -/
def IsVictim (store : MemStore) (k : Counts) (agentId victim : String) (priority : Option ℤ) :
    Prop :=
  0 < k agentId victim ∧ ∃ j, store.get victim = some j ∧
    effectivePriority priority < effectivePriority j.priority ∧
    ∀ n j', store.get n = some j' → 0 < k agentId n →
      effectivePriority j'.priority ≤ effectivePriority j.priority

/-- What the search for a victim remembers after the entries `es`: a bound of the priorities it
saw, reached by the job it names. -/
structure Search (l : Leader) (start : ℤ) (es : List (String × ℕ)) (acc : ℤ × Option String) :
    Prop where
  le : start ≤ acc.1
  seen : ∀ n c j, (n, c) ∈ es → c ≠ 0 → l.store.get n = some j →
    effectivePriority j.priority ≤ acc.1
  reached : ∀ v, acc.2 = some v → ∃ c j, (v, c) ∈ es ∧ c ≠ 0 ∧ l.store.get v = some j ∧
    effectivePriority j.priority = acc.1 ∧ start < acc.1

theorem Search.step {start : ℤ} {es : List (String × ℕ)} {acc : ℤ × Option String}
    (h : Search l start es acc) (e : String × ℕ) : Search l start (es ++ [e]) (l.worse acc e) := by
  have hkeep : (∀ j, e.2 ≠ 0 → l.store.get e.1 = some j → effectivePriority j.priority ≤ acc.1) →
      Search l start (es ++ [e]) acc := by
    intro hle
    refine ⟨h.le, fun n c j hmem hc hget => ?_, fun v hv => ?_⟩
    · rcases List.mem_append.mp hmem with hmem | hmem
      · exact h.seen n c j hmem hc hget
      · obtain rfl := List.mem_singleton.mp hmem
        exact hle j hc hget
    · obtain ⟨c, j, hmem, hrest⟩ := h.reached v hv
      exact ⟨c, j, List.mem_append_left _ hmem, hrest⟩
  rw [worse]
  by_cases hzero : e.2 = 0
  · rw [if_pos hzero]
    exact hkeep fun j hne => absurd hzero hne
  · rw [if_neg hzero]
    rcases hget : l.store.get e.1 with _ | j
    · dsimp only
      exact hkeep fun j _ hj => by rw [hget] at hj; cases hj
    · dsimp only
      by_cases hlt : acc.1 < effectivePriority j.priority
      · rw [if_pos hlt]
        refine ⟨h.le.trans hlt.le, fun n c j' hmem hc hget' => ?_, fun v hv => ?_⟩
        · rcases List.mem_append.mp hmem with hmem | hmem
          · exact (h.seen n c j' hmem hc hget').trans hlt.le
          · obtain rfl := List.mem_singleton.mp hmem
            rw [hget] at hget'
            exact (Option.some.inj hget' ▸ le_refl _)
        · obtain rfl : e.1 = v := Option.some.inj hv
          exact ⟨e.2, j, List.mem_append_right _ (List.mem_singleton_self _), hzero, hget, rfl,
            lt_of_le_of_lt h.le hlt⟩
      · rw [if_neg hlt]
        refine hkeep fun j' _ hget' => ?_
        rw [hget] at hget'
        exact Option.some.inj hget' ▸ not_lt.mp hlt

theorem search_foldl (l : Leader) (start : ℤ) (es : List (String × ℕ)) :
    Search l start es (es.foldl l.worse (start, none)) := by
  induction es using List.reverseRecOn with
  | nil => exact ⟨le_refl _, fun _ _ _ h => absurd h List.not_mem_nil, fun _ h => by cases h⟩
  | append_singleton es e ih =>
    rw [List.foldl_append]
    exact ih.step e

/-- **`find_victim` finds a victim**, the least important one of the agent. -/
theorem isVictim_of_findVictim {agentId victim : String} {p : Option ℤ}
    (h : l.findVictim agentId p = some victim) :
    IsVictim l.store l.placedOn agentId victim p := by
  refine ⟨findVictim_placed h, ?_⟩
  rw [findVictim] at h
  rcases hjobs : l.placed.get? agentId with _ | jobs
  · simp only [hjobs] at h
    cases h
  · simp only [hjobs] at h
    have hsearch := search_foldl l (effectivePriority p) jobs.entries
    obtain ⟨c, j, -, -, hget, heq, hlt⟩ := hsearch.reached victim h
    refine ⟨j, hget, heq ▸ hlt, fun n j' hget' hpos => ?_⟩
    -- a job that is placed there is one of the entries the search went through
    simp only [placedOn, hjobs, Option.bind_some] at hpos
    rcases hn : jobs.get? n with _ | c'
    · simp [hn] at hpos
    · rw [hn, Option.getD_some] at hpos
      rw [heq]
      exact hsearch.seen n c' j' (SortedMap.get?_eq_some_iff.mp hn) hpos.ne' hget'

/-! ### Placing -/

/-- The call asks an agent to run `job`, beside what it runs. -/
def Asks (job : Job) : Call → Prop
  | .run _ j false _ => j = job
  | _ => False

/-- The call asks an agent to run `job`, or stops a victim for it. -/
def Displaces (store : MemStore) (job : Job) (k : Counts) : Call → Prop
  | .run _ j false _ => j = job
  | .stopJob agent victim _ => IsVictim store k agent.id victim job.priority
  | _ => False

theorem told_tries (name : String) (job : Job) (l : Leader) (net : Logged N) :
    Tries job (Told name (fun _ => Asks job) l net) (Told name (fun _ => Asks job) l net) where
  next h := h.trans (.nextAgent _ _)
  refused h _ hrun hr := h.trans (.refused hrun hr rfl)
  accepted h _ hrun := h.trans (.accepted hrun rfl)

/-- Without preemption only `run`s are called. -/
theorem told_place_without (name : String) (l : Leader) (net : Logged N) (job : Job) :
    Told name (fun _ => Asks job) l net (l.place net job false).2.1
      (l.place net job false).2.2 := by
  simpa using (told_tries name job l net).beside (.refl l net)

theorem told_serves (name : String) (job : Job) (l : Leader) (net : Logged N) :
    Serves job (Told name (Displaces l.store job) l net) where
  next h := h.trans (.nextAgent _ _)
  refused h _ hrun hr := h.trans (.refused hrun hr rfl)
  accepted h _ hrun := h.trans (.accepted hrun rfl)
  unconfirmed h _ hv hstop :=
    h.trans (.unconfirmed hstop (h.moves.store ▸ isVictim_of_findVictim hv))
  confirmed h _ hv hstop := h.trans (.confirmed hstop (h.moves.store ▸ isVictim_of_findVictim hv))
  emit h e := h.trans (.emit _ _ e)

/-- **The stops of `place`**: each names a victim by the books of that moment. -/
theorem told_place (name : String) (l : Leader) (net : Logged N) (job : Job) (allowPreempt : Bool) :
    Told name (Displaces l.store job) l net (l.place net job allowPreempt).2.1
      (l.place net job allowPreempt).2.2 :=
  (told_serves name job l net).place (.refl l net) allowPreempt

theorem told_daemonLoop (name : String) (job : Job) (l : Leader) (net : Logged N) :
    Told name (fun _ => Asks job) l net (daemonLoop job (l.missing job.name) l net).2.1
      (daemonLoop job (l.missing job.name) l net).2.2 :=
  Tries.daemonLoop (I := fun _ => Told name (fun _ => Asks job) l net)
    (fun _ => told_tries name job l net) (l.missing job.name) 0 (.refl l net)
    fun _ ha => (List.mem_filter.mp ha).1

theorem told_reconcileJob (name : String) (l : Leader) (net : Logged N) (job : Job) :
    Told name (Displaces l.store job) l net (l.reconcileJob net job).2.1
      (l.reconcileJob net job).2.2 :=
  (told_serves name job l net).reconcileJob (.refl l net)

/-! ### The order of priority -/

instance : Std.Total KeyLe where
  total a b := by
    rcases lt_trichotomy a.1 b.1 with h | h | h
    · exact .inl (.inl h)
    · exact (le_total a.2 b.2).imp (fun h' => .inr ⟨h, h'⟩) fun h' => .inr ⟨h.symm, h'⟩
    · exact .inr (.inl h)

instance : IsTrans (ℤ × String) KeyLe where
  trans a b c hab hbc := by
    rcases hab with hab | ⟨hab, hab'⟩
    · rcases hbc with hbc | ⟨hbc, -⟩
      · exact .inl (hab.trans hbc)
      · exact .inl (hbc ▸ hab)
    · rcases hbc with hbc | ⟨hbc, hbc'⟩
      · exact .inl (hab ▸ hbc)
      · exact .inr ⟨hab.trans hbc, hab'.trans hbc'⟩

/-- The key of a job in the order. -/
def keyOf (j : Job) : ℤ × String := (effectivePriority j.priority, j.name)

/-- Along the order of priority, the keys of the jobs ascend. -/
theorem priorityOrder_pairwise (l : Leader) : l.priorityOrder.Pairwise fun m n =>
    ∀ j j', l.store.get m = some j → l.store.get n = some j' → KeyLe (keyOf j) (keyOf j') := by
  rw [priorityOrder]
  refine List.pairwise_map.mpr ((List.pairwise_insertionSort KeyLe _).imp_of_mem ?_)
  rintro key key' hkey hkey' hle j j' hj hj'
  -- a key is that of the stored job with its name
  have hkeyOf : ∀ key ∈ (l.store.jobs.map keyOf).insertionSort KeyLe, ∀ j,
      l.store.get key.2 = some j → keyOf j = key := by
    intro key hkey j hj
    obtain ⟨i, hi, rfl⟩ := List.mem_map.mp ((List.mem_insertionSort KeyLe).mp hkey)
    have hget : l.store.get i.name = some i := MemStore.get_eq_some_iff.mpr ⟨hi, rfl⟩
    have heq : i = j := Option.some.inj (hget.symm.trans hj)
    rw [heq]
  rw [hkeyOf key hkey j hj, hkeyOf key' hkey' j' hj']
  exact hle

/-- Along the order of priority the jobs do not become more important. -/
theorem priorityOrder_sorted (l : Leader) : l.priorityOrder.Pairwise fun m n =>
    ∀ j j', l.store.get m = some j → l.store.get n = some j' →
      effectivePriority j.priority ≤ effectivePriority j'.priority := by
  refine l.priorityOrder_pairwise.imp fun hle j j' hj hj' => ?_
  rcases hle j j' hj hj' with hlt | ⟨heq, -⟩
  · exact hlt.le
  · exact heq.le

/-! ### A round -/

/-- What asks only for `job` and stops only others than `m` leaves the counts of `m`. -/
theorem afterAll_spared {name m : String} {job : Job} {k : Counts} {cs : List Call}
    (hname : job.name ≠ m)
    (h : ∀ c ∈ cs, Asks job c ∨ ∃ agent victim b, c = .stopJob agent victim b ∧ victim ≠ m)
    (a : String) : afterAll name k cs a m = k a m := by
  induction cs generalizing k with
  | nil => rfl
  | cons c cs ih =>
    obtain ⟨hc, hcs⟩ := List.forall_mem_cons.mp h
    refine (ih hcs).trans ?_
    rcases hc with hc | ⟨agent, victim, b, rfl, hne⟩
    · rcases c with ⟨agent, j, _ | _, r⟩ | _ | _ | _ | _ | _
      · obtain rfl : j = job := hc
        rcases r with _ | _ | _ | _ | _
        · exact if_neg fun h => hname h.2
        all_goals rfl
      all_goals exact hc.elim
    · rcases b with _ | _
      · rfl
      · exact if_neg fun h => hne h.2

/-- A call of a list at which the job is displaced asks for it or stops a less important job. -/
theorem displaces_mem {name : String} {store : MemStore} {job : Job} {k : Counts}
    {cs : List Call} (h : AtCalls name (Displaces store job) k cs) : ∀ c ∈ cs,
      Asks job c ∨ ∃ agent victim b, c = .stopJob agent victim b ∧ ∃ j,
        store.get victim = some j ∧ effectivePriority job.priority < effectivePriority j.priority := by
  intro c hc
  obtain ⟨pre, post, rfl⟩ := List.append_of_mem hc
  have hat := h.split
  rcases c with ⟨agent, j, _ | _, r⟩ | ⟨agent, victim, b⟩ | _ | _ | _ | _
  · exact .inl hat
  · exact hat.elim
  · obtain ⟨-, j, hget, hlt, -⟩ := hat
    exact .inr ⟨agent, victim, b, rfl, j, hget, hlt⟩
  all_goals exact hat.elim

theorem reconcileLoop_append (pre post : List String) (l : Leader) (net : N) :
    reconcileLoop (pre ++ post) l net =
      reconcileLoop post (reconcileLoop pre l net).1 (reconcileLoop pre l net).2 := by
  induction pre generalizing l net with
  | nil => rfl
  | cons name pre ih =>
    rw [List.cons_append, reconcileLoop, reconcileLoop]
    rcases l.store.get name with _ | job
    · exact ih l net
    · dsimp only
      split_ifs
      · exact ih l net
      · exact ih _ _

/-- One job's turn: nothing happens, or the job of the store is placed. -/
theorem told_turn (l : Leader) (net : Logged N) (n : String) :
    reconcileLoop [n] l net = (l, net) ∨ ∃ job, l.store.get n = some job ∧
      Told n (Displaces l.store job) l net (reconcileLoop [n] l net).1
        (reconcileLoop [n] l net).2 := by
  rw [reconcileLoop]
  rcases l.store.get n with _ | job
  · exact .inl rfl
  · dsimp only
    split_ifs
    · exact .inl rfl
    · exact .inr ⟨job, rfl, told_reconcileJob n l net job⟩

/-- A turn spares each job that is as important as the one whose turn it is. -/
theorem spares_turn (net : Logged N) {m n : String}
    (hle : ∀ j j', l.store.get m = some j → l.store.get n = some j' →
      effectivePriority j.priority ≤ effectivePriority j'.priority) :
    (m ≠ n → ∀ a, (reconcileLoop [n] l net).1.placedOn a m = l.placedOn a m) ∧
      ∀ agent b, Call.stopJob agent m b ∉ (reconcileLoop [n] l net).2.since net := by
  rcases told_turn l net n with heq | ⟨job, hget, htold⟩
  · rw [heq, Logged.since_refl]
    exact ⟨fun _ _ => rfl, fun _ _ => List.not_mem_nil⟩
  · have hcalls := displaces_mem htold.tally.calls
    -- a victim is less important than `n`, so it is not `m`
    have hvictim : ∀ victim j, l.store.get victim = some j →
        effectivePriority job.priority < effectivePriority j.priority → victim ≠ m := by
      rintro victim j hj hlt rfl
      exact absurd hlt (not_lt.mpr (hle j job hj hget))
    refine ⟨fun hne a => ?_, fun agent b hmem => ?_⟩
    · rw [htold.tally.counts]
      have hname : job.name ≠ m := by
        rw [(MemStore.get_eq_some_iff.mp hget).2]
        exact hne.symm
      refine afterAll_spared hname (fun c hc => (hcalls c hc).imp_right ?_) a
      rintro ⟨agent, victim, b, rfl, j, hj, hlt⟩
      exact ⟨agent, victim, b, rfl, hvictim victim j hj hlt⟩
    · rcases hcalls _ hmem with hask | ⟨agent', victim, b', heq, j, hj, hlt⟩
      · exact hask.elim
      · cases heq
        exact hvictim m j hj hlt rfl

/-- The turn of `n` in a round spares the jobs that come before it. -/
theorem spares_round (net : Logged N) {pre post : List String} {n : String}
    (horder : l.priorityOrder = pre ++ n :: post) {m : String} (hm : m ∈ pre ++ [n]) :
    (m ≠ n → ∀ a, (reconcileLoop (pre ++ [n]) l net).1.placedOn a m =
        (reconcileLoop pre l net).1.placedOn a m) ∧
      ∀ agent b, Call.stopJob agent m b ∉
        (reconcileLoop (pre ++ [n]) l net).2.since (reconcileLoop pre l net).2 := by
  have hstore := (moves_reconcileLoop pre l net).store
  rw [reconcileLoop_append]
  refine spares_turn _ fun j j' hj hj' => ?_
  rw [hstore] at hj hj'
  rcases List.mem_append.mp hm with hm | hm
  · have hsorted := l.priorityOrder_sorted
    rw [horder, List.pairwise_append] at hsorted
    exact hsorted.2.2 m hm n List.mem_cons_self j j' hj hj'
  · obtain rfl := List.mem_singleton.mp hm
    rw [hj] at hj'
    exact Option.some.inj hj' ▸ le_refl _

/-- What the rest of a round does not take from the jobs whose turn is over. -/
theorem spares_rest (net : Logged N) {pre post : List String}
    (horder : l.priorityOrder = pre ++ post) (hnodup : l.priorityOrder.Nodup) {m : String}
    (hm : m ∈ pre) (a : String) : (reconcileLoop (pre ++ post) l net).1.placedOn a m =
      (reconcileLoop pre l net).1.placedOn a m := by
  induction post generalizing pre with
  | nil => rw [List.append_nil]
  | cons n post ih =>
    have hne : m ≠ n := by
      rintro rfl
      rw [horder] at hnodup
      exact List.disjoint_of_nodup_append hnodup hm List.mem_cons_self
    have horder' : l.priorityOrder = (pre ++ [n]) ++ post := by simpa using horder
    have hrest := ih horder' (List.mem_append_left _ hm)
    rw [List.append_assoc, List.singleton_append] at hrest
    exact hrest.trans ((spares_round net horder (List.mem_append_left _ hm)).1 hne a)

/-- **Preemption hits only less important jobs.** Whatever the agents reply, each stop that `place`
sends names a victim, and without `allowPreempt` it only asks agents to run the job; the counts at
each call are those that the replies before it gave. In a round of `reconcileJobs`, where the jobs
have their turns in the order of priority, the turn of a job stops neither it nor one before it,
and what those have they keep to the end of the round. -/
theorem preempts_less_important (l : Leader) (net : Logged N) :
    (∀ job allowPreempt,
      AtCalls job.name (fun k c => ∀ agent victim b, c = .stopJob agent victim b →
          IsVictim l.store k agent.id victim job.priority)
        l.placedOn ((l.place net job allowPreempt).2.2.since net) ∧
      (l.place net job allowPreempt).2.1.placedOn =
        afterAll job.name l.placedOn ((l.place net job allowPreempt).2.2.since net)) ∧
    (∀ job, ∀ c ∈ (l.place net job false).2.2.since net, Asks job c) ∧
    ∀ pre n post, l.ranked.priorityOrder = pre ++ n :: post →
      (∀ agent victim b, .stopJob agent victim b ∈ (reconcileLoop (pre ++ [n]) l.ranked net).2.since
          (reconcileLoop pre l.ranked net).2 → victim ∉ pre ++ [n]) ∧
      ∀ m ∈ pre,
        (∀ a, (reconcileLoop (pre ++ [n]) l.ranked net).1.placedOn a m =
          (reconcileLoop pre l.ranked net).1.placedOn a m) ∧
        (reconcileLoop (pre ++ [n]) l.ranked net).1.totalPlaced m =
          (reconcileLoop pre l.ranked net).1.totalPlaced m ∧
        (l.reconcileJobs net).1.totalPlaced m =
          (reconcileLoop pre l.ranked net).1.totalPlaced m := by
  refine ⟨fun job allowPreempt => ?_, fun job => ?_, fun pre n post horder => ?_⟩
  · have htold := told_place job.name l net job allowPreempt
    refine ⟨htold.tally.calls.mono ?_, htold.tally.counts⟩
    rintro k c - hc agent victim b rfl
    exact hc
  · exact (told_place_without job.name l net job).tally.forall_calls
  · have hnodup := l.ranked_priorityOrder_nodup
    have hagents : ∀ names, (reconcileLoop names l.ranked net).1.agents = l.agents := fun names =>
      (moves_reconcileLoop names l.ranked net).agents.trans l.ranked_books.2
    refine ⟨fun agent victim b hcall hmem => (spares_round net horder hmem).2 agent b hcall,
      fun m hm => ?_⟩
    have hne : m ≠ n := by
      rintro rfl
      rw [horder] at hnodup
      exact List.disjoint_of_nodup_append hnodup hm List.mem_cons_self
    have hturn := (spares_round net horder (List.mem_append_left _ hm)).1 hne
    refine ⟨hturn, totalPlaced_congr ((hagents _).trans (hagents _).symm) hturn, ?_⟩
    rw [reconcileJobs_eq]
    split_ifs with hempty
    · rcases hempty with hjobs | hno
      · -- no jobs, no order
        have hnames : l.ranked.store.jobs.map Job.name = [] := by
          rw [ranked, (renumbers_normalizePriorities l).names, hjobs]
          rfl
        have hnil := l.ranked.priorityOrder_perm
        rw [horder, hnames] at hnil
        exact absurd hnil.length_eq (by simp)
      · rw [totalPlaced, totalPlaced, hagents, hno]
        rfl
    · refine totalPlaced_congr ((hagents _).trans (hagents _).symm) fun a => ?_
      rw [horder]
      exact spares_rest net horder hnodup hm a

/-- An agent that is full until it was told to stop something. -/
structure FullAgent where
  freed : Bool

instance : Transport FullAgent where
  run n _ _ _ := (if n.freed then .accepted else .noCapacity, ⟨false⟩)
  stopJob _ _ _ := (true, ⟨true⟩)
  stopTask n _ _ := n
  deleteJob n _ _ := n
  tasks n _ := (none, n)
  pause n _ := n

theorem sorted_oneAgent : ([{ id := "a" }] : List Agent).Pairwise fun a b => a.id < b.id :=
  List.pairwise_singleton _ _

/-- One agent with two jobs, and a third that is more important than one of them. -/
def crowded : Leader :=
  { Leader.new "a" ⟨[{ name := "batch", priority := none }, { name := "db", priority := some 0 },
      { name := "web", priority := some 1 }], 0, by decide, by decide⟩ with
    agents := [{ id := "a" }]
    placed := SortedMap.empty.insert "a"
      ((SortedMap.empty.insert "batch" 1).insert "db" 1)
    agentsSorted := sorted_oneAgent }

def fullNet : Logged FullAgent := ⟨⟨false⟩, []⟩

/-- `web` displaces `batch`, which has no priority, and `db` keeps what it has. -/
theorem preempts_batch :
    Call.stopJob { id := "a" } "batch" true ∈ (crowded.reconcileJobs fullNet).2.since fullNet ∧
      (crowded.reconcileJobs fullNet).1.totalPlaced "batch" = 0 ∧
      (crowded.reconcileJobs fullNet).1.totalPlaced "db" = 1 ∧
      (crowded.reconcileJobs fullNet).1.totalPlaced "web" = 1 := by
  refine ⟨by decide, by decide, ?_, by decide⟩
  have hturn := (preempts_less_important crowded fullNet).2.2 ["db"] "web" ["batch"] (by decide)
  rw [(hturn.2 "db" (by decide)).2.2]
  decide

end Leader

end Hop.Lead
