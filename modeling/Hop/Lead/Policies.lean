import Hop.Lead.Rolling

/-!
# Where the update policies end

With agents that accept everything and answer with task lists that equal the books, an update
should end at the wanted number of instances: `desired` of an ordinary job, one on every agent of
a daemon. The rolling policy reconciles at its end and gets there. Recreate dispatches, which
during the settle period only stores; and blue-green places `desired` instances, which for a daemon
is one, and does not reconcile (`updateJob_reaches_iff`).
-/

namespace Hop.Lead

open Hop.Types (Agent Job Map Task)

namespace Leader

open Counts

variable {N : Type} [Transport N]

/-! ### One job in a round where everything is accepted -/

theorem spares_dispatchLoop {job : Job} {count k i : ℕ} {l : Leader} {net : Logged N}
    (ha : l.agents ≠ []) (h : Accepted net (dispatchLoop job count k i l net).2.2) {n : String}
    (hn : n ≠ job.name) (a : String) :
    (dispatchLoop job count k i l net).2.1.placedOn a n = l.placedOn a n := by
  induction k generalizing i l net with
  | zero => rfl
  | succ k ih =>
    have hplace := @place_eq_of_accepted l job N _ net true ha
    have hmoves := moves_place l net job true
    rw [dispatchLoop] at h ⊢
    rcases heq : l.place net job true with ⟨why | _, l', net'⟩
    · rw [heq] at hplace h
      obtain ⟨_, _, _, heq', -⟩ := hplace h
      cases heq'
    · rw [heq] at hplace hmoves h
      dsimp only at hplace hmoves h ⊢
      obtain ⟨agent, -, net'', heq', -⟩ := hplace (h.of_initial (moves_dispatchLoop _ _ _ _ _ _).log)
      have hrest := ih (hmoves.agents ▸ ha) (h.of_suffix hmoves.log)
      refine hrest.trans ?_
      cases heq'
      rw [placedOn_trackPlacement, if_neg fun h => hn h.2.symm,
        placedOn_congr l.nextAgent_books.1]

/-- What a turn in which everything is accepted does to the other jobs: nothing. -/
theorem spares_accepted_turn {l : Leader} {net : Logged N} {n m : String} (ha : l.agents ≠ [])
    (h : Accepted net (reconcileLoop [m] l net).2) (hn : n ≠ m) (a : String) :
    (reconcileLoop [m] l net).1.placedOn a n = l.placedOn a n := by
  rw [reconcileLoop] at h ⊢
  rcases hget : l.store.get m with _ | job
  · rfl
  · have hname := (MemStore.get_eq_some_iff.mp hget).2
    rw [hget] at h
    dsimp only at h ⊢
    by_cases hempty : job.name = ""
    · rw [if_pos hempty]
      rfl
    · rw [if_neg hempty] at h ⊢
      change Accepted net (l.reconcileJob net job).2.2 at h
      change (l.reconcileJob net job).2.1.placedOn a n = l.placedOn a n
      rw [reconcileJob] at h ⊢
      dsimp only at h ⊢
      split_ifs at h ⊢
      · rw [reconcileDaemon]
        dsimp only
        have hloop := told_daemonLoop job.name job l net
        have hsame : (daemonLoop job (l.missing job.name) l net).2.1.placedOn a n =
            l.placedOn a n := by
          rw [hloop.tally.counts]
          exact afterAll_spared (fun h => hn (h.symm.trans hname))
            (fun c hc => .inl (hloop.tally.forall_calls c hc)) a
        split_ifs
        · exact hsame
        · exact hsame
        · exact hsame
        · exact hsame
      · rfl
      · exact spares_dispatchLoop ha h (fun h => hn (h.trans hname)) a

theorem spares_accepted_loop {names : List String} {l : Leader} {net : Logged N} {n : String}
    (ha : l.agents ≠ []) (h : Accepted net (reconcileLoop names l net).2) (hn : n ∉ names)
    (a : String) : (reconcileLoop names l net).1.placedOn a n = l.placedOn a n := by
  induction names generalizing l net with
  | nil => rfl
  | cons m rest ih =>
    have heq := reconcileLoop_append [m] rest l net
    rw [List.singleton_append] at heq
    have hmoves := moves_reconcileLoop [m] l net
    have hlog := (moves_reconcileLoop rest (reconcileLoop [m] l net).1
      (reconcileLoop [m] l net).2).log
    rw [heq] at h ⊢
    refine (ih (hmoves.agents ▸ ha) (h.of_suffix hmoves.log) fun hmem =>
      hn (List.mem_cons_of_mem m hmem)).trans ?_
    exact spares_accepted_turn ha (h.of_initial hlog) (fun heq => hn (heq ▸ List.mem_cons_self)) a

theorem FillsUp.congr {l₁ l₂ l l' : Leader} {job : Job} (h : FillsUp l₁ l₂ job)
    (ha : l.agents = l₁.agents) (ha' : l'.agents = l₂.agents)
    (hl : ∀ a, l.placedOn a job.name = l₁.placedOn a job.name)
    (hl' : ∀ a, l'.placedOn a job.name = l₂.placedOn a job.name) : FillsUp l l' job := by
  refine ⟨fun hd => ?_, fun hd agent hagent => ?_⟩
  · rw [totalPlaced_congr ha hl, totalPlaced_congr ha' hl']
    exact h.1 hd
  · rw [hl, hl']
    exact h.2 hd agent (ha ▸ hagent)

/-- In a loop in which everything is accepted, each job of the list comes to its number. -/
theorem fillsUp_loop {names : List String} {l : Leader} {net : Logged N} {job : Job}
    (ha : l.agents ≠ []) (hjob : job ∈ l.store.jobs) (hname : job.name ≠ "")
    (hcount : job.count < 2 ^ 32) (hmem : job.name ∈ names) (hnodup : names.Nodup)
    (h : Accepted net (reconcileLoop names l net).2) : FillsUp l (reconcileLoop names l net).1 job := by
  induction names generalizing l net with
  | nil => exact absurd hmem List.not_mem_nil
  | cons m rest ih =>
    obtain ⟨hm, hrest⟩ := List.nodup_cons.mp hnodup
    have heq := reconcileLoop_append [m] rest l net
    rw [List.singleton_append] at heq
    have hmoves := moves_reconcileLoop [m] l net
    have hmoves' := moves_reconcileLoop rest (reconcileLoop [m] l net).1 (reconcileLoop [m] l net).2
    have ha' : (reconcileLoop [m] l net).1.agents ≠ [] := hmoves.agents ▸ ha
    rw [heq] at h ⊢
    have hlater := h.of_suffix hmoves.log
    by_cases hturn : job.name = m
    · subst hturn
      -- its own turn, and nothing after it
      have hturn : reconcileLoop [job.name] l net =
          ((l.reconcileJob net job).2.1, (l.reconcileJob net job).2.2) := by
        rw [reconcileLoop, MemStore.get_eq_some_iff.mpr ⟨hjob, rfl⟩]
        dsimp only
        rw [if_neg hname]
        rfl
      have hacc := h.of_initial hmoves'.log
      have hspared := fun a => spares_accepted_loop ha' hlater hm a
      rw [hturn] at hacc hspared hmoves' ⊢
      exact (fillsUp_reconcileJob ha hcount hacc).1.congr rfl hmoves'.agents (fun _ => rfl) hspared
    · have hspared := spares_accepted_turn ha (h.of_initial hmoves'.log) hturn
      have hmem' : job.name ∈ rest := (List.mem_cons.mp hmem).resolve_left hturn
      exact (ih ha' (hmoves.store ▸ hjob) hmem' hrest hlater).congr hmoves.agents.symm rfl
        (fun a => (hspared a).symm) fun _ => rfl

/-- **A reconcile in which everything is accepted brings the job to its number.** -/
theorem fillsUp_one {l : Leader} {net : Logged N} {job : Job} (ha : l.agents ≠ [])
    (hjob : job ∈ l.store.jobs) (hname : job.name ≠ "") (hcount : job.count < 2 ^ 32)
    (h : Accepted net (l.reconcileJobs net).2) : FillsUp l (l.reconcileJobs net).1 job := by
  obtain ⟨job', hjob', heq⟩ := (renumbers_normalizePriorities l).mem hjob
  obtain ⟨hname', hcount'⟩ := unranked_eq heq
  obtain ⟨hon, htotal⟩ := l.ranked_counts
  have hne : ¬ (l.store.jobs = [] ∨ l.agents = []) := by
    rintro (hnil | hnil)
    · rw [hnil] at hjob
      exact absurd hjob List.not_mem_nil
    · exact ha hnil
  rw [reconcileJobs_eq, if_neg hne] at h ⊢
  have hstored : job' ∈ l.ranked.store.jobs := hjob'
  have hmem : job'.name ∈ l.ranked.priorityOrder := by
    rw [l.ranked.priorityOrder_perm.mem_iff]
    exact List.mem_map_of_mem hstored
  have hfills := fillsUp_loop (l.ranked_books.2 ▸ ha) hstored (hname' ▸ hname) (hcount' ▸ hcount)
    hmem l.ranked_priorityOrder_nodup h
  -- the job with its new priority is the job in all that counts here
  rw [FillsUp, Job.isDaemon, Job.desired, hname', hcount', hon, htotal, l.ranked_books.2] at hfills
  exact hfills

/-! ### The policies -/

/-- The job has the number of instances that it should have. -/
def AtDesired (l : Leader) (job : Job) : Prop :=
  (job.isDaemon = false → l.totalPlaced job.name = job.desired) ∧
    (job.isDaemon = true → ∀ agent ∈ l.agents, l.placedOn agent.id job.name = 1)

theorem AtDesired.congr_iff {l l' : Leader} {job : Job} (ha : l'.agents = l.agents)
    (hp : l'.placed = l.placed) : AtDesired l' job ↔ AtDesired l job := by
  have hcounts := placedOn_congr hp
  rw [AtDesired, AtDesired, totalPlaced_congr ha fun a => by rw [hcounts], ha, hcounts]

theorem count_lt_of_desired {job : Job} (h : job.desired ≤ u32Max) : job.count < 2 ^ 32 := by
  rw [Job.desired, u32Max] at h
  omega

/-- Rolling reconciles at its end. -/
theorem updateRolling_reaches {l : Leader} {net : Logged N} {job old : Job}
    (hget : l.store.get job.name = some old) (hname : job.name ≠ "")
    (hsmall : l.totalPlaced job.name + job.desired ≤ u32Max)
    (hok : (l.updateRolling net job).1 = .ok ()) (hacc : Accepted net (l.updateRolling net job).2.2)
    (hlists : ListsBooks l job.name ((l.updateRolling net job).2.2.since net)) :
    AtDesired (l.updateRolling net job).2.1 job ↔ job.isDaemon = true ∨ l.agents ≠ [] := by
  obtain ⟨l₁, hput⟩ := storePut_of_get hget
  have hone := job.one_le_desired
  have hsnap := tally_snapshotJobTasks l net job.name job.name l.placedOn
  have hids := agentIds_snapshotJobTasks net hget
  rw [updateRolling_eq, rollPart, hput] at hok hacc hlists ⊢
  generalize l.snapshotJobTasks net job.name = snap at hsnap hids hok hacc hlists ⊢
  obtain ⟨olds, net₁⟩ := snap
  dsimp only at hsnap hids hok hacc hlists ⊢
  have hloop := moves_rollLoop job olds 0 l₁ net₁
  have hmidway := fun hmid : Midway job (l.totalPlaced job.name) l.agents l.placedOn olds 0 l₁ =>
    (tally_rollLoop (show l.totalPlaced job.name < u32Max by omega) hmid net₁).2
  generalize rollLoop job olds 0 l₁ net₁ = r at hloop hmidway hok hacc hlists ⊢
  obtain ⟨e | ⟨⟩, l₂, net₂⟩ := r
  · cases hok
  · dsimp only at hloop hmidway hacc hlists ⊢
    have hrec := (l₂.reconcileJobs_frame net₂).1
    have hids' := hids (hlists.mono (hloop.log.trans hrec))
    have hend := hmidway (midway_start hput hids') rfl
    have hstored : job ∈ l₂.store.jobs := hloop.store ▸ mem_of_storePut hput
    have hagents := (l₂.reconcileJobs_frame net₂).2.1
    have htotal := hend.total
    rw [List.length_nil, Nat.zero_add] at htotal
    by_cases ha : l.agents = []
    · -- nobody to place on: the reconcile does nothing
      have hnone : l₂.agents = [] := hend.known.trans ha
      rw [reconcileJobs_eq, if_pos (.inr hnone)]
      have hzero : l₂.totalPlaced job.name = 0 := by
        rw [totalPlaced, hnone]
        rfl
      rw [AtDesired, hzero, hnone]
      constructor
      · intro h
        rcases hd : job.isDaemon with _ | _
        · have := h.1 hd
          omega
        · exact .inl rfl
      · intro h
        have hd := h.resolve_right fun h => h ha
        refine ⟨fun hno => absurd (hd.symm.trans hno) (by simp), fun _ _ hmem => ?_⟩
        exact absurd hmem List.not_mem_nil
    · have ha₂ : l₂.agents ≠ [] := hend.known ▸ ha
      obtain ⟨hplain, hdaemon⟩ := fillsUp_one ha₂ hstored hname
        (count_lt_of_desired (by omega)) (hacc.of_suffix (hsnap.log.trans hloop.log))
      refine ⟨fun _ => .inr ha, fun _ => ⟨fun hd => ?_, fun hd agent hagent => ?_⟩⟩
      · rw [hplain hd]
        omega
      · rw [hagents] at hagent
        rw [hdaemon hd agent hagent]
        have hle := placedOn_le_totalPlaced hagent job.name
        rw [desired_of_isDaemon hd] at htotal
        omega

/-- Without agents nothing is dispatched. -/
theorem agents_of_dispatchLoop (job : Job) (count k i : ℕ) (l : Leader) (net : Logged N)
    (hok : (dispatchLoop job count (k + 1) i l net).1 = .ok ()) : l.agents ≠ [] := by
  intro hnil
  rw [dispatchLoop, place, hnil] at hok
  cases hok

/-- A dispatch from empty books, where everything is accepted. -/
theorem dispatchJob_reaches {l : Leader} {net : Logged N} {job old : Job}
    (hget : l.store.get job.name = some old) (hzero : ∀ a, l.placedOn a job.name = 0)
    (hsmall : job.desired ≤ u32Max) (hok : (l.dispatchJob net job).1 = .ok ())
    (hacc : Accepted net (l.dispatchJob net job).2.2) :
    AtDesired (l.dispatchJob net job).2.1 job ↔
      l.settled = true ∨ job.isDaemon = true ∧ l.agents = [] := by
  have hone := job.one_le_desired
  obtain ⟨l₁, hput⟩ := storePut_of_get hget
  obtain ⟨hplaced, hagents, hsettled⟩ := storePut_frame hput
  have hzero₁ : ∀ a, l₁.placedOn a job.name = 0 := fun a => by
    rw [placedOn_congr hplaced, hzero]
  have htotal : l₁.totalPlaced job.name = 0 := by
    rw [totalPlaced]
    simp [hzero₁]
  rw [dispatchJob] at hok hacc ⊢
  by_cases hempty : job.name = ""
  · rw [if_pos hempty] at hok
    cases hok
  rw [if_neg hempty, hput] at hok hacc ⊢
  rw [← hsettled, ← hagents]
  dsimp only at hok hacc ⊢
  rcases hset : l₁.settled with _ | _
  · -- the settle period: only stored
    simp only [Bool.not_false, if_true, Bool.false_eq_true, false_or]
    rw [AtDesired, htotal]
    constructor
    · intro h
      rcases hd : job.isDaemon with _ | _
      · have := h.1 hd
        omega
      · refine ⟨rfl, List.eq_nil_iff_forall_not_mem.mpr fun agent hagent => ?_⟩
        have := h.2 hd agent hagent
        rw [hzero₁] at this
        cases this
    · rintro ⟨hd, hnil⟩
      refine ⟨fun hno => absurd (hd.symm.trans hno) (by simp), fun _ agent hmem => ?_⟩
      rw [hnil] at hmem
      exact absurd hmem List.not_mem_nil
  · simp only [hset, Bool.not_true, Bool.false_eq_true, if_false, true_or, iff_true] at hok hacc ⊢
    rcases hd : job.isDaemon with _ | _
    · simp only [hd, Bool.false_eq_true, if_false] at hok hacc ⊢
      rw [dispatchCount, max_eq_left hone] at hok hacc ⊢
      obtain ⟨k, hk⟩ : ∃ k, job.desired = k + 1 := Nat.exists_eq_succ_of_ne_zero (by omega)
      have hne := agents_of_dispatchLoop job job.desired k 0 l₁ net
      have hfills := fun hne =>
        @fills_dispatchLoop l₁ job N net _ job.desired job.desired 0 hne (by omega)
      rw [← hk] at hne
      generalize dispatchLoop job job.desired job.desired 0 l₁ net = r at hok hacc hne hfills ⊢
      obtain ⟨e | ⟨⟩, l₂, net₂⟩ := r
      · cases hok
      · have hfilled := hfills (hne rfl) hacc
        refine ⟨fun _ => ?_, fun h => absurd (hd.symm.trans h) (by simp)⟩
        have := hfilled.total
        dsimp only at this ⊢
        rw [htotal, Nat.zero_add] at this
        exact this
    · simp only [hd, if_true] at hok hacc ⊢
      have hmoves := moves_reconcileJob l₁ net job
      have hfills := fun hne =>
        @fillsUp_reconcileJob l₁ job N net _ hne (count_lt_of_desired hsmall)
      generalize l₁.reconcileJob net job = r at hok hacc hmoves hfills ⊢
      obtain ⟨e | ⟨⟩, l₂, net₂⟩ := r
      · cases hok
      · refine ⟨fun h => absurd (hd.symm.trans h) (by simp), fun _ agent hagent => ?_⟩
        have hagent₁ : agent ∈ l₁.agents := hmoves.agents ▸ hagent
        have hone := (hfills (List.ne_nil_of_mem hagent₁) hacc).1.2 hd agent hagent₁
        rw [hzero₁] at hone
        exact hone

/-- Recreate stops everything and dispatches, which during the settle period only stores. -/
theorem updateRecreate_reaches {l : Leader} {net : Logged N} {job old : Job}
    (hget : l.store.get job.name = some old) (hsmall : job.desired ≤ u32Max)
    (hok : (l.updateRecreate net job).1 = .ok ())
    (hacc : Accepted net (l.updateRecreate net job).2.2) :
    AtDesired (l.updateRecreate net job).2.1 job ↔
      l.settled = true ∨ job.isDaemon = true ∧ l.agents = [] := by
  have hstops := (tasks_of_places (places_stopJobs (l.takePlacement job.name).2 job.name
    (l.takePlacement job.name).1 net)).1
  have hempty : ∀ a, (l.takePlacement job.name).2.placedOn a job.name = 0 := fun a => by
    rw [placedOn_takePlacement, if_pos rfl]
  exact dispatchJob_reaches (l := (l.takePlacement job.name).2) hget hempty hsmall hok
    (hacc.of_suffix hstops)

theorem fills_blueGreenLoop {job : Job} {count k i : ℕ} {l : Leader} {net : Logged N}
    (ha : l.agents ≠ []) (hle : l.totalPlaced job.name + k ≤ u32Max)
    (h : Accepted net (blueGreenLoop job count k i l net).2.2) :
    (blueGreenLoop job count k i l net).2.1.totalPlaced job.name = l.totalPlaced job.name + k := by
  induction k generalizing i l net with
  | zero => rfl
  | succ k ih =>
    have hplace := @place_of_accepted l job N _ net false ha (by omega)
    have hmoves := (moves_place l net job false).log
    rw [blueGreenLoop] at h ⊢
    rcases heq : l.place net job false with ⟨why | _, l', net'⟩
    · rw [heq] at hplace h
      cases (hplace h).1
    · rw [heq] at hplace hmoves h
      dsimp only at hplace hmoves h ⊢
      have hlog := (told_blueGreenLoop job.name job count k (i + 1) l' net').moves.log
      obtain ⟨-, hfills⟩ := hplace (h.of_initial hlog)
      rw [ih (hfills.agents ▸ ha) (by rw [hfills.total]; omega) (h.of_suffix hmoves), hfills.total]
      omega

theorem total_stopOldTasks {name : String} {olds : List TaskRef} {l : Leader} (net : Logged N)
    (hreg : ∀ old ∈ olds, old.agentId ∈ l.agents.map Agent.id)
    (hbooked : ∀ a, (olds.map TaskRef.agentId).count a ≤ l.placedOn a name) :
    (stopOldTasks name olds l net).1.totalPlaced name + olds.length = l.totalPlaced name := by
  induction olds generalizing l net with
  | nil => rfl
  | cons old rest ih =>
    obtain ⟨hold, hrest⟩ := List.forall_mem_cons.mp hreg
    obtain ⟨a, ha, hid⟩ := List.mem_map.mp hold
    have hagent : l.agent old.agentId = some a := hid ▸ agent_of_mem ha
    have hpos : 0 < l.placedOn old.agentId name := by
      have := hbooked old.agentId
      rw [List.map_cons, List.count_cons_self] at this
      omega
    have huntrack := totalPlaced_untrackOne hold hpos
    have hleft : ∀ b, (rest.map TaskRef.agentId).count b ≤
        (l.untrackOne old.agentId name).placedOn b name := by
      intro b
      have := hbooked b
      rw [List.map_cons, List.count_cons] at this
      rw [placedOn_untrack]
      simp only [beq_iff_eq] at this
      split_ifs at this ⊢ <;> omega
    rw [stopOldTasks, stopOldTask, hagent]
    have := ih (l := l.untrackOne old.agentId name) (Transport.stopTask net a old.taskId) hrest hleft
    dsimp only at this ⊢
    rw [List.length_cons]
    omega

/-- Blue-green places its number beside the old, and stops the old. -/
theorem updateBlueGreen_reaches {l : Leader} {net : Logged N} {job old : Job}
    (hget : l.store.get job.name = some old)
    (hsmall : l.totalPlaced job.name + job.desired ≤ u32Max)
    (hok : (l.updateBlueGreen net job).1 = .ok ())
    (hacc : Accepted net (l.updateBlueGreen net job).2.2)
    (hlists : ListsBooks l job.name ((l.updateBlueGreen net job).2.2.since net)) :
    AtDesired (l.updateBlueGreen net job).2.1 job ↔
      job.isDaemon = false ∨ l.agents.length = 1 := by
  obtain ⟨l₁, hput⟩ := storePut_of_get hget
  have hone := job.one_le_desired
  have hcounts := placedOn_storePut hput
  have hsnap := tally_snapshotJobTasks l net job.name job.name l.placedOn
  have hids := agentIds_snapshotJobTasks net hget
  rw [updateBlueGreen] at hok hacc hlists ⊢
  generalize l.snapshotJobTasks net job.name = snap at hsnap hids hok hacc hlists ⊢
  obtain ⟨olds, net₁⟩ := snap
  simp only [hput] at hsnap hids hok hacc hlists ⊢
  have htold := told_blueGreenLoop job.name job job.desired job.desired 0 l₁ net₁
  have hfills := fun ha hle => @fills_blueGreenLoop N _ job job.desired job.desired 0 l₁ net₁ ha hle
  have hagents₁ : l₁.agents = l.agents := (storePut_frame hput).2.1
  have hne : (blueGreenLoop job job.desired job.desired 0 l₁ net₁).1 = .ok () → l.agents ≠ [] := by
    obtain ⟨k, hk⟩ : ∃ k, job.desired = k + 1 := Nat.exists_eq_succ_of_ne_zero (by omega)
    intro hok hnil
    rw [hk, blueGreenLoop, place, hagents₁, hnil] at hok
    cases hok
  generalize blueGreenLoop job job.desired job.desired 0 l₁ net₁ = r
    at htold hfills hne hok hacc hlists ⊢
  obtain ⟨e | ⟨⟩, l₂, net₂⟩ := r
  · cases hok
  · dsimp only at htold hfills hne hacc hlists ⊢
    have hstop := moves_stopOldTasks job.name olds l₂ net₂
    have hmid := midway_start hput (hids (hlists.mono (htold.moves.log.trans hstop.log)))
    have hlen : olds.length = l.totalPlaced job.name := by simpa using hmid.left
    have htotal₁ : l₁.totalPlaced job.name = l.totalPlaced job.name := by
      rw [hmid.total]
      omega
    have hagents₂ : l₂.agents = l.agents := htold.moves.agents.trans hagents₁
    have htotal₂ := hfills (hagents₁ ▸ hne rfl) (by omega)
      ((hacc.of_suffix hsnap.log).of_initial hstop.log)
    -- the old tasks are still booked beside the new
    have hbooked : ∀ a, (olds.map TaskRef.agentId).count a ≤ l₂.placedOn a job.name := by
      intro a
      by_cases hcount : 0 < (olds.map TaskRef.agentId).count a
      · obtain ⟨o, ho, rfl⟩ := List.mem_map.mp (List.count_pos_iff.mp hcount)
        obtain ⟨b, hb, hid⟩ := List.mem_map.mp (hmid.registered o ho)
        have hle : l₁.placedOn o.agentId job.name ≤ u32Max := by
          rw [← hid, hcounts]
          have := placedOn_le_totalPlaced hb job.name
          omega
        refine (hmid.booked _).trans ?_
        rw [htold.tally.counts]
        exact afterAll_grows hle fun c hc => (htold.tally.forall_calls c hc).grows
      · omega
    have hstopped := total_stopOldTasks net₂ (hagents₂ ▸ hmid.registered) hbooked
    have hfinal : (stopOldTasks job.name olds l₂ net₂).1.totalPlaced job.name = job.desired := by
      omega
    have hagents : (stopOldTasks job.name olds l₂ net₂).1.agents = l.agents :=
      hstop.agents.trans hagents₂
    generalize (stopOldTasks job.name olds l₂ net₂).1 = l₃ at hfinal hagents ⊢
    refine (AtDesired.congr_iff (l := l₃) rfl rfl).trans ?_
    rcases hd : job.isDaemon with _ | _
    · exact ⟨fun _ => .inl rfl, fun _ => ⟨fun _ => hfinal, fun h => absurd (hd.symm.trans h) (by simp)⟩⟩
    · rw [desired_of_isDaemon hd] at hfinal
      constructor
      · intro h
        -- one on each agent and one in total
        refine .inr ?_
        have hall : l₃.agents.map (fun a => l₃.placedOn a.id job.name) =
            List.replicate l₃.agents.length 1 :=
          List.eq_replicate_iff.mpr ⟨List.length_map _, by
            rintro n hn
            obtain ⟨a, ha, rfl⟩ := List.mem_map.mp hn
            exact h.2 hd a ha⟩
        rw [totalPlaced, hall, List.sum_replicate_nat, mul_one, hagents] at hfinal
        exact hfinal
      · intro h
        have hlen := h.resolve_left (by simp)
        obtain ⟨a, ha⟩ := List.length_eq_one_iff.mp hlen
        refine ⟨fun hno => absurd (hd.symm.trans hno) (by simp), fun _ agent hagent => ?_⟩
        rw [hagents, ha, List.mem_singleton] at hagent
        rw [totalPlaced, hagents, ha] at hfinal
        simpa [hagent] using hfinal

/-- **Where an update ends.** With agents that accept everything and task lists that equal the
books, an update that succeeds ends at the wanted number of instances exactly if: it is rolling and
the job is a daemon or there are agents; it is recreate and the settle period is over (or a daemon
has no agent to be on); or it is blue-green and the job is no daemon or there is one agent. -/
theorem updateJob_reaches_iff (l : Leader) (net : Logged N) (job : Job) (hname : job.name ≠ "")
    (hsmall : l.totalPlaced job.name + job.desired ≤ u32Max)
    (hok : (l.updateJob net job).1 = .ok ()) (hacc : Accepted net (l.updateJob net job).2.2)
    (hlists : ListsBooks l job.name ((l.updateJob net job).2.2.since net)) :
    AtDesired (l.updateJob net job).2.1 job ↔
      (job.policy = .rolling → job.isDaemon = true ∨ l.agents ≠ []) ∧
      (job.policy = .recreate → l.settled = true ∨ job.isDaemon = true ∧ l.agents = []) ∧
      (job.policy = .blueGreen → job.isDaemon = false ∨ l.agents.length = 1) := by
  obtain ⟨old, hget, hroll⟩ := rollable_of_ok hok
  rw [updateJob_eq net hget hroll] at hok hacc hlists ⊢
  dsimp only at hok hacc hlists ⊢
  -- the books are those at the end of the rollout
  have hnorm : ∀ l' : Leader, AtDesired l'.normalizePriorities job ↔ AtDesired l' job := fun l' =>
    AtDesired.congr_iff (renumbers_normalizePriorities l').books.2
      (renumbers_normalizePriorities l').books.1
  have hdeploy : ∀ l' : Leader, AtDesired (l'.storeSetDeploying job.name false) job ↔
      AtDesired l' (updated old job) := by
    intro l'
    rw [storeSetDeploying]
    split
    · exact AtDesired.congr_iff rfl rfl
    · exact Iff.rfl
  rw [hnorm, hok]
  dsimp only
  rw [hdeploy]
  rw [rollout] at hok hacc hlists ⊢
  rw [policy_updated] at hok hacc hlists ⊢
  have hdaemon : (updated old job).isDaemon = job.isDaemon := rfl
  rcases hp : job.policy with _ | _ | _
  · simp only [hp] at hok hacc hlists ⊢
    rw [@updateRolling_reaches N _ l net (updated old job) old hget hname hsmall hok hacc hlists,
      hdaemon]
    simp
  · simp only [hp] at hok hacc hlists ⊢
    have hdesired : (updated old job).desired ≤ u32Max := (Nat.le_add_left _ _).trans hsmall
    rw [@updateRecreate_reaches N _ l net (updated old job) old hget hdesired hok hacc,
      hdaemon]
    simp
  · simp only [hp] at hok hacc hlists ⊢
    rw [@updateBlueGreen_reaches N _ l net (updated old job) old hget hsmall hok hacc hlists,
      hdaemon]
    simp

/-- A blue-green rollout of a new definition of the daemon. -/
def blueGreenLog : Job := { newLog with updatePolicy := some .blueGreen }

/-- A rolling update of the daemon on two agents ends with one instance on each. -/
theorem updateJob_reaches_rolling :
    (twoLogs.updateJob logNet newLog).1 = .ok () ∧
      AtDesired (twoLogs.updateJob logNet newLog).2.1 newLog := by
  have hok : (twoLogs.updateJob logNet newLog).1 = .ok () := by decide
  have hlists : ListsBooks twoLogs "log" ((twoLogs.updateJob logNet newLog).2.2.since logNet) :=
    listsBooks_of_all (by decide)
  refine ⟨hok, (updateJob_reaches_iff twoLogs logNet newLog (by decide)
    (by decide) hok (by decide) hlists).mpr ⟨fun _ => .inl rfl, fun h => ?_, fun h => ?_⟩⟩
  · exact absurd h (by decide)
  · exact absurd h (by decide)

/-- On two agents a blue-green update of a daemon succeeds and leaves one agent without it. -/
theorem updateJob_reaches_not_two :
    blueGreenLog.checkRollable = .ok () ∧ blueGreenLog.isDaemon = true ∧
      (twoLogs.updateJob logNet blueGreenLog).1 = .ok () ∧
      Accepted logNet (twoLogs.updateJob logNet blueGreenLog).2.2 ∧
      ListsBooks twoLogs "log" ((twoLogs.updateJob logNet blueGreenLog).2.2.since logNet) ∧
      ¬ AtDesired (twoLogs.updateJob logNet blueGreenLog).2.1 blueGreenLog := by
  refine ⟨rfl, rfl, by decide, by decide, listsBooks_of_all (by decide),
    fun h => ?_⟩
  have hone := h.2 rfl { id := "b" } (by decide)
  exact absurd hone (by decide)

end Leader

end Hop.Lead
