import Hop.Lead.Frame

/-!
# When a reconcile asks an agent to run something

A job is *satisfied* if it has its number of instances. A reconcile in which every job is
satisfied makes no call at all and leaves the books alone; otherwise, if there is an agent, it
asks one to run something, whatever the replies.
-/

namespace Hop.Lead

open Hop.Types (Agent Job Map)

namespace Leader

variable {l : Leader} {job : Job}

variable {N : Type} [Transport N]

/-- The job has its number of instances. -/
def Satisfied (l : Leader) (job : Job) : Prop :=
  (job.isDaemon = true → l.missing job.name = []) ∧
    (job.isDaemon = false → job.desired ≤ l.totalPlaced job.name)

instance (l : Leader) (job : Job) : Decidable (l.Satisfied job) :=
  inferInstanceAs (Decidable ((_ → _) ∧ (_ → _)))

/-- Satisfaction reads the books, the agents, and the job without its priority. -/
theorem satisfied_congr {l' : Leader} {job' : Job} (hp : l'.placed = l.placed)
    (ha : l'.agents = l.agents) (hj : unranked job' = unranked job) :
    l'.Satisfied job' ↔ l.Satisfied job := by
  obtain ⟨hname, hcount⟩ := unranked_eq hj
  have hon : l'.placedOn = l.placedOn := by
    funext a n
    rw [placedOn, placedOn, hp]
  have hmissing : l'.missing job'.name = l.missing job.name := by
    rw [missing, missing, ha, hon, hname]
  have htotal : l'.totalPlaced job'.name = l.totalPlaced job.name := by
    rw [totalPlaced, totalPlaced, ha, hon, hname]
  have hdaemon : job'.isDaemon = job.isDaemon := by rw [Job.isDaemon, Job.isDaemon, hcount]
  have hdesired : job'.desired = job.desired := by rw [Job.desired, Job.desired, hcount]
  rw [Satisfied, Satisfied, hdaemon, hmissing, hdesired, htotal]

/-- There is nothing to do for any job, or nobody to do it. -/
def Quiet (l : Leader) : Prop :=
  l.agents = [] ∨ ∀ job ∈ l.store.jobs, job.name ≠ "" → l.Satisfied job

instance (l : Leader) : Decidable l.Quiet := inferInstanceAs (Decidable (_ ∨ _))

/-- Whether a reconcile is quiet depends on the books, the agents, and the jobs without their
priorities. -/
theorem quiet_of_congr {l' : Leader} (hp : l'.placed = l.placed) (ha : l'.agents = l.agents)
    (hj : l'.store.jobs.map unranked = l.store.jobs.map unranked) (h : l.Quiet) : l'.Quiet := by
  rcases h with h | h
  · exact Or.inl (ha.trans h)
  · refine Or.inr fun job hjob hname => ?_
    have hmem : unranked job ∈ l.store.jobs.map unranked := hj ▸ List.mem_map_of_mem hjob
    obtain ⟨job', hjob', heq⟩ := List.mem_map.mp hmem
    have hname' : job'.name ≠ "" := by
      rwa [(unranked_eq heq).1]
    exact (satisfied_congr hp ha heq.symm).mpr (h job' hjob' hname')

theorem quiet_congr {l' : Leader} (hp : l'.placed = l.placed) (ha : l'.agents = l.agents)
    (hj : l'.store.jobs.map unranked = l.store.jobs.map unranked) : l'.Quiet ↔ l.Quiet :=
  ⟨quiet_of_congr hp.symm ha.symm hj.symm, quiet_of_congr hp ha hj⟩

/-- A call to run a job was made between the two states. -/
def Ran (net net' : Logged N) : Prop := ∃ c ∈ net'.since net, c.isRun = true

omit [Transport N] in
theorem not_ran_refl (net : Logged N) : ¬ Ran net net := by
  simp [Ran, Logged.since]

omit [Transport N] in
theorem Ran.mono_right {net net' net'' : Logged N} (h : Ran net net')
    (hlog : net'.log <+: net''.log) : Ran net net'' := by
  obtain ⟨c, hc, hrun⟩ := h
  exact ⟨c, Logged.mem_since_of_initial hlog hc, hrun⟩

omit [Transport N] in
theorem Ran.mono_left {net net' net'' : Logged N} (h : Ran net' net'')
    (hlog : net.log <+: net'.log) : Ran net net'' := by
  obtain ⟨c, hc, hrun⟩ := h
  exact ⟨c, Logged.mem_since_of_suffix hlog hc, hrun⟩

theorem ran_run {net net' : Logged N} {agent : Agent} {replace : Bool} {r : RunReply}
    (h : Transport.run net agent job replace = (r, net')) : Ran net net' :=
  ⟨.run agent job replace r, by rw [Logged.since_eq (Logged.log_run h)]; simp, rfl⟩

/-! ### Nothing to do -/

theorem reconcileJob_of_satisfied (net : N) (h : l.Satisfied job) :
    l.reconcileJob net job = (.ok (), l, net) := by
  unfold reconcileJob
  cases hd : job.isDaemon
  · simp [h.2 hd]
  · simp [reconcileDaemon, h.1 hd, daemonLoop]

theorem reconcileLoop_of_satisfied (net : N) (names : List String)
    (h : ∀ job ∈ l.store.jobs, job.name ≠ "" → l.Satisfied job) :
    reconcileLoop names l net = (l, net) := by
  induction names with
  | nil => rfl
  | cons name rest ih =>
    unfold reconcileLoop
    split
    · exact ih
    · rename_i job hget
      split_ifs with hname
      · exact ih
      · have hjob := (MemStore.get_eq_some_iff.mp hget).1
        rw [reconcileJob_of_satisfied net (h job hjob hname)]
        exact ih

/-- Renumbering does not matter. -/
theorem quiet_ranked (l : Leader) : l.ranked.Quiet ↔ l.Quiet :=
  quiet_congr l.ranked_books.1 l.ranked_books.2 (renumbers_normalizePriorities l).jobs

/-- A quiet reconcile makes no call and leaves the books alone. -/
theorem reconcileJobs_of_quiet (net : Logged N) (h : l.Quiet) :
    (l.reconcileJobs net).2 = net ∧ (l.reconcileJobs net).1.placed = l.placed := by
  rw [reconcileJobs_eq]
  split_ifs with hempty
  · exact ⟨rfl, rfl⟩
  · have hall := (l.quiet_ranked.mpr h).resolve_left fun ha =>
      hempty (Or.inr (l.ranked_books.2 ▸ ha))
    rw [reconcileLoop_of_satisfied net _ hall]
    exact ⟨rfl, l.ranked_books.1⟩

/-! ### Something to do -/

theorem nextAgent_isSome (h : l.agents ≠ []) :
    ∃ agent ∈ l.agents, l.nextAgent.1 = some agent := by
  have hpos : 0 < l.agents.length := List.length_pos_iff.mpr h
  have hlt := Nat.mod_lt l.roundRobin hpos
  refine ⟨l.agents[l.roundRobin % l.agents.length], List.getElem_mem hlt, ?_⟩
  unfold nextAgent
  rw [if_neg hpos.ne']
  exact List.getElem?_eq_getElem hlt

/-- Whatever the replies, a placement with an agent asks it to run the job. -/
theorem ran_place (net : Logged N) (job : Job) (allowPreempt : Bool) (h : l.agents ≠ []) :
    Ran net (l.place net job allowPreempt).2.2 := by
  obtain ⟨k, hk⟩ : ∃ k, l.agents.length = k + 1 :=
    Nat.exists_eq_succ_of_ne_zero (List.length_pos_iff.mpr h).ne'
  have hfirst : Ran net (firstRound job l.agents.length [] l net).2.2 := by
    obtain ⟨agent, -, hnext⟩ := nextAgent_isSome h
    rw [hk]
    unfold firstRound
    split
    · rename_i l' heq
      rw [heq] at hnext
      cases hnext
    · rename_i agent' l' heq
      split
      · rename_i net' hrun
        exact ran_run hrun
      · rename_i net' hrun
        exact (ran_run hrun).mono_right (moves_firstRound _ _ _ _ _).log
      · rename_i r net' _ _ hrun
        exact (ran_run hrun).mono_right (moves_firstRound _ _ _ _ _).log
  have hfull := (firstRound_agents (l := l) job l.agents.length [] net (by simp)).2
  unfold place
  dsimp only
  rw [if_neg (by omega)]
  split
  · rename_i _ l' net' heq
    rwa [heq] at hfirst
  · rename_i l' net' heq
    rwa [heq] at hfirst
  · rename_i full l' net' _ heq
    rw [heq] at hfirst hfull
    have hpre := (moves_preemptRound job net' hfull).log
    split_ifs
    · exact hfirst
    · split
      · rename_i l'' net'' heq'
        rw [heq'] at hpre
        exact hfirst.mono_right hpre
      · rename_i l'' net'' heq'
        rw [heq'] at hpre
        exact hfirst.mono_right hpre

theorem ran_dispatchCount (net : Logged N) (job : Job) (count : ℕ) (h : l.agents ≠ []) :
    Ran net (l.dispatchCount net job count).2.2 := by
  have hplace := ran_place net job true h
  obtain ⟨k, hk⟩ : ∃ k, max count 1 = k + 1 :=
    Nat.exists_eq_succ_of_ne_zero (by omega)
  unfold dispatchCount
  rw [hk]
  unfold dispatchLoop
  split
  · rename_i why l' net' heq
    rwa [heq] at hplace
  · rename_i l' net' heq
    rw [heq] at hplace
    exact hplace.mono_right (moves_dispatchLoop _ _ _ _ _ _).log

theorem ran_daemonLoop (job : Job) {agents : List Agent} (l : Leader) (net : Logged N)
    (h : agents ≠ []) : Ran net (daemonLoop job agents l net).2.2 := by
  cases agents with
  | nil => exact absurd rfl h
  | cons agent rest =>
    unfold daemonLoop
    split
    · rename_i net' hrun
      exact (ran_run hrun).mono_right (moves_daemonLoop _ _ _ _).log
    · rename_i r net' _ hrun
      exact (ran_run hrun).mono_right (moves_daemonLoop _ _ _ _).log

theorem ran_reconcileJob (net : Logged N) (ha : l.agents ≠ []) (h : ¬ l.Satisfied job) :
    Ran net (l.reconcileJob net job).2.2 := by
  unfold reconcileJob
  cases hd : job.isDaemon
  · have hlt : ¬ job.desired ≤ l.totalPlaced job.name := by simpa [Satisfied, hd] using h
    simp only [Bool.false_eq_true, if_false, hlt]
    exact ran_dispatchCount net job _ ha
  · have hmiss : l.missing job.name ≠ [] := by simpa [Satisfied, hd] using h
    have := ran_daemonLoop job l net hmiss
    simp only [if_true, reconcileDaemon]
    split_ifs <;> exact this

theorem ran_reconcileLoop (net : Logged N) {names : List String} (ha : l.agents ≠ [])
    {name : String} (hmem : name ∈ names) (hget : l.store.get name = some job)
    (hname : job.name ≠ "") (h : ¬ l.Satisfied job) :
    Ran net (reconcileLoop names l net).2 := by
  induction names with
  | nil => cases hmem
  | cons n rest ih =>
    unfold reconcileLoop
    rcases eq_or_ne n name with rfl | hne
    · rw [hget]
      dsimp only
      rw [if_neg hname]
      exact (ran_reconcileJob net ha h).mono_right (moves_reconcileLoop _ _ _).log
    · have hrest := ih (List.mem_of_ne_of_mem hne.symm hmem)
      split
      · exact hrest
      · rename_i job' hget'
        split_ifs with hname'
        · exact hrest
        · -- a job before it is satisfied, or it has something run itself
          by_cases hsat : l.Satisfied job'
          · rw [reconcileJob_of_satisfied net hsat]
            exact hrest
          · exact (ran_reconcileJob net ha hsat).mono_right (moves_reconcileLoop _ _ _).log

/-- **A reconcile has something run exactly if it is not quiet**, whatever the replies. -/
theorem ran_reconcileJobs_iff (l : Leader) (net : Logged N) :
    Ran net (l.reconcileJobs net).2 ↔ ¬ l.Quiet := by
  constructor
  · intro h hquiet
    rw [(reconcileJobs_of_quiet net hquiet).1] at h
    exact not_ran_refl net h
  · intro h
    obtain ⟨ha, job, hjob, hname, hsat⟩ : l.ranked.agents ≠ [] ∧
        ∃ job ∈ l.ranked.store.jobs, job.name ≠ "" ∧ ¬ l.ranked.Satisfied job := by
      rw [← quiet_ranked] at h
      simpa [Quiet, not_or] using h
    have hget : l.ranked.store.get job.name = some job :=
      MemStore.get_eq_some_iff.mpr ⟨hjob, rfl⟩
    have hmem : job.name ∈ l.ranked.priorityOrder :=
      l.ranked.priorityOrder_perm.mem_iff.mpr (List.mem_map_of_mem hjob)
    rw [reconcileJobs_eq, if_neg]
    · exact ran_reconcileLoop net ha hmem hget hname hsat
    · rintro (hj | hj)
      · obtain ⟨job', hjob', -⟩ := List.mem_map.mp
          ((renumbers_normalizePriorities l).jobs ▸ List.mem_map_of_mem hjob)
        rw [hj] at hjob'
        cases hjob'
      · exact ha (l.ranked_books.2.trans hj)

end Leader

end Hop.Lead
