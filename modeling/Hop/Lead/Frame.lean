import Hop.Lead.Rule

/-!
# What placing leaves alone

Placing and reconciling change the books, the round robin and the events, and nothing else of
the leader; and they only add calls to the log. `Moves` is that relation between two states of
the leader with a logging transport; it composes, so every function of `Place.lean` and the loops
of an update are instances. Only `reconcileJobs` also renumbers the priorities in the store
(`Renumbers`).
-/

namespace Hop.Lead

open Hop.Types (Agent Job Map)

namespace Leader

variable {N : Type}

/-- The leader changed in its books, its round robin and its events only, and calls were only
added to the log. -/
structure Moves (l : Leader) (net : Logged N) (l' : Leader) (net' : Logged N) : Prop where
  log : net.log <+: net'.log
  books : ∃ placed rr ev, l' = { l with placed := placed, roundRobin := rr, events := ev }

namespace Moves

variable {l l' l'' : Leader} {net net' net'' : Logged N}

theorem refl (l : Leader) (net : Logged N) : Moves l net l net :=
  ⟨List.prefix_rfl, l.placed, l.roundRobin, l.events, rfl⟩

theorem trans (h : Moves l net l' net') (h' : Moves l' net' l'' net'') :
    Moves l net l'' net'' := by
  obtain ⟨hlog, placed, rr, ev, rfl⟩ := h
  obtain ⟨hlog', placed', rr', ev', rfl⟩ := h'
  exact ⟨hlog.trans hlog', placed', rr', ev', rfl⟩

theorem agents (h : Moves l net l' net') : l'.agents = l.agents := by
  obtain ⟨-, placed, rr, ev, rfl⟩ := h
  rfl

theorem store (h : Moves l net l' net') : l'.store = l.store := by
  obtain ⟨-, placed, rr, ev, rfl⟩ := h
  rfl

theorem settled (h : Moves l net l' net') :
    l'.settled = l.settled ∧ l'.settleAt = l.settleAt := by
  obtain ⟨-, placed, rr, ev, rfl⟩ := h
  exact ⟨rfl, rfl⟩

end Moves

/-! ### Single steps -/

theorem moves_trackPlacement (l : Leader) (net : Logged N) (a n : String) :
    Moves l net (l.trackPlacement a n) net := ⟨List.prefix_rfl, _, l.roundRobin, l.events, rfl⟩

theorem moves_dropPlacement (l : Leader) (net : Logged N) (a n : String) :
    Moves l net (l.dropPlacement a n) net := ⟨List.prefix_rfl, _, l.roundRobin, l.events, rfl⟩

theorem moves_emit (l : Leader) (net : Logged N) (e : Event) : Moves l net (l.emit e) net :=
  ⟨List.prefix_rfl, l.placed, l.roundRobin, _, rfl⟩

theorem moves_nextAgent (l : Leader) (net : Logged N) : Moves l net l.nextAgent.2 net := by
  unfold nextAgent
  split_ifs
  · exact .refl l net
  · exact ⟨List.prefix_rfl, l.placed, _, l.events, rfl⟩

variable [Transport N]

theorem moves_run (l : Leader) {net net' : Logged N} {agent : Agent} {job : Job} {replace : Bool}
    {r : RunReply} (h : Transport.run net agent job replace = (r, net')) : Moves l net l net' :=
  ⟨Logged.log_run h ▸ List.prefix_append _ _, l.placed, l.roundRobin, l.events, rfl⟩

theorem moves_stopJob (l : Leader) {net net' : Logged N} {agent : Agent} {job : String}
    {b : Bool} (h : Transport.stopJob net agent job = (b, net')) : Moves l net l net' :=
  ⟨Logged.log_stopJob h ▸ List.prefix_append _ _, l.placed, l.roundRobin, l.events, rfl⟩

theorem moves_stopOldTask (l : Leader) (net : Logged N) (name : String) (old : TaskRef) :
    Moves l net (l.stopOldTask net name old).1 (l.stopOldTask net name old).2 := by
  unfold stopOldTask
  split
  · rename_i a _
    exact ⟨List.prefix_append _ _, _, l.roundRobin, l.events, rfl⟩
  · exact .refl l net

/-! ### Placing -/

theorem moves_serves (job : Job) (l : Leader) (net : Logged N) : Serves job (Moves l net) where
  next h := h.trans (moves_nextAgent _ _)
  refused h _ hrun _ := h.trans (moves_run _ hrun)
  accepted h _ hrun := (h.trans (moves_run _ hrun)).trans (moves_trackPlacement _ _ _ _)
  unconfirmed h _ _ hstop := h.trans (moves_stopJob _ hstop)
  confirmed h _ _ hstop := (h.trans (moves_stopJob _ hstop)).trans (moves_dropPlacement _ _ _ _)
  emit h e := h.trans (moves_emit _ _ e)

theorem moves_firstRound (job : Job) (k : ℕ) (full : List Agent) (l : Leader) (net : Logged N) :
    Moves l net (firstRound job k full l net).2.1 (firstRound job k full l net).2.2 := by
  simpa using (moves_serves job l net).toTries.firstRound k full (.refl l net)

theorem moves_preemptRound (job : Job) {full : List Agent} {l : Leader} (net : Logged N)
    (hfull : ∀ a ∈ full, a ∈ l.agents) :
    Moves l net (preemptRound job full l net).2.1 (preemptRound job full l net).2.2 := by
  simpa using (moves_serves job l net).seats.preemptRound (.refl l net) hfull

theorem moves_place (l : Leader) (net : Logged N) (job : Job) (allowPreempt : Bool) :
    Moves l net (l.place net job allowPreempt).2.1 (l.place net job allowPreempt).2.2 :=
  (moves_serves job l net).place (.refl l net) allowPreempt

theorem moves_dispatchLoop (job : Job) (count k i : ℕ) (l : Leader) (net : Logged N) :
    Moves l net (dispatchLoop job count k i l net).2.1 (dispatchLoop job count k i l net).2.2 :=
  (moves_serves job l net).dispatchLoop count k i (.refl l net)

theorem moves_daemonLoop (job : Job) (agents : List Agent) (l : Leader) (net : Logged N) :
    Moves l net (daemonLoop job agents l net).2.1 (daemonLoop job agents l net).2.2 := by
  induction agents generalizing l net with
  | nil => exact .refl l net
  | cons agent rest ih =>
    unfold daemonLoop
    split
    · rename_i net' hrun
      exact ((moves_run l hrun).trans (moves_trackPlacement _ _ _ _)).trans (ih _ _)
    · rename_i r net' _ hrun
      exact (moves_run l hrun).trans (ih _ _)

theorem moves_reconcileJob (l : Leader) (net : Logged N) (job : Job) :
    Moves l net (l.reconcileJob net job).2.1 (l.reconcileJob net job).2.2 :=
  (moves_serves job l net).reconcileJob (.refl l net)

theorem moves_reconcileLoop (names : List String) (l : Leader) (net : Logged N) :
    Moves l net (reconcileLoop names l net).1 (reconcileLoop names l net).2 :=
  reconcileLoop_keeps (fun _ job _ _ => moves_serves job l net) names (.refl l net)

/-! ### Updating -/

theorem moves_advances (job : Job) (l : Leader) (net : Logged N) : Advances job (Moves l net) where
  toTries := (moves_serves job l net).toTries
  emit h e := h.trans (moves_emit _ _ e)
  replaced h _ hrun := h.trans (moves_run _ hrun)
  stopTask {l' _ _} h _ _ := h.trans ⟨List.prefix_append _ _, _, l'.roundRobin, l'.events, rfl⟩
  pause {l' _} h _ :=
    h.trans ⟨List.prefix_append _ _, l'.placed, l'.roundRobin, l'.events, rfl⟩

theorem moves_rollOne (l : Leader) (net : Logged N) (job : Job) (old : TaskRef) :
    Moves l net (l.rollOne net job old).2.1 (l.rollOne net job old).2.2 :=
  (moves_advances job l net).rollOne (.refl l net) old

theorem moves_rollAfter (l : Leader) (net : Logged N) (job : Job) (i : ℕ) (old : TaskRef)
    (replaced : Bool) :
    Moves l net (l.rollAfter net job i old replaced).1 (l.rollAfter net job i old replaced).2 :=
  (moves_advances job l net).rollAfter (.refl l net) i old replaced

theorem moves_rollLoop (job : Job) (olds : List TaskRef) (i : ℕ) (l : Leader) (net : Logged N) :
    Moves l net (rollLoop job olds i l net).2.1 (rollLoop job olds i l net).2.2 :=
  (moves_advances job l net).rollLoop olds i (.refl l net)

theorem moves_blueGreenLoop (job : Job) (count k i : ℕ) (l : Leader) (net : Logged N) :
    Moves l net (blueGreenLoop job count k i l net).2.1 (blueGreenLoop job count k i l net).2.2 :=
  (moves_advances job l net).blueGreenLoop count k i (.refl l net)

theorem moves_stopOldTasks (name : String) (olds : List TaskRef) (l : Leader) (net : Logged N) :
    Moves l net (stopOldTasks name olds l net).1 (stopOldTasks name olds l net).2 := by
  induction olds generalizing l net with
  | nil => exact .refl l net
  | cons old rest ih => exact (moves_stopOldTask l net name old).trans (ih _ _)

/-! ### Renumbering -/

/-- The job without its priority. -/
def unranked (j : Job) : Job := { j with priority := none }

theorem unranked_eq {j j' : Job} (h : unranked j' = unranked j) :
    j'.name = j.name ∧ j'.count = j.count := by
  have hname : (unranked j').name = (unranked j).name := congrArg Job.name h
  have hcount : (unranked j').count = (unranked j).count := congrArg Job.count h
  exact ⟨hname, hcount⟩

/-- The leader changed in the priorities of its jobs only. -/
structure Renumbers (l l' : Leader) : Prop where
  jobs : l'.store.jobs.map unranked = l.store.jobs.map unranked
  rest : ∃ store dirty, l' = { l with store := store, dirty := dirty }

namespace Renumbers

variable {l l' l'' : Leader}

theorem refl (l : Leader) : Renumbers l l := ⟨rfl, l.store, l.dirty, rfl⟩

theorem trans (h : Renumbers l l') (h' : Renumbers l' l'') : Renumbers l l'' := by
  obtain ⟨hjobs, store, dirty, rfl⟩ := h
  obtain ⟨hjobs', store', dirty', rfl⟩ := h'
  exact ⟨hjobs'.trans hjobs, store', dirty', rfl⟩

theorem books (h : Renumbers l l') : l'.placed = l.placed ∧ l'.agents = l.agents := by
  obtain ⟨-, store, dirty, rfl⟩ := h
  exact ⟨rfl, rfl⟩

theorem settled (h : Renumbers l l') : l'.settled = l.settled ∧ l'.settleAt = l.settleAt := by
  obtain ⟨-, store, dirty, rfl⟩ := h
  exact ⟨rfl, rfl⟩

/-- The names, in order. -/
theorem names (h : Renumbers l l') :
    l'.store.jobs.map Job.name = l.store.jobs.map Job.name := by
  have := congrArg (List.map Job.name) h.jobs
  simpa [List.map_map, Function.comp_def, unranked] using this

/-- Each job is there again, up to its priority. -/
theorem mem (h : Renumbers l l') {j : Job} (hj : j ∈ l.store.jobs) :
    ∃ j' ∈ l'.store.jobs, unranked j' = unranked j := by
  have : unranked j ∈ l'.store.jobs.map unranked := by
    rw [h.jobs]
    exact List.mem_map_of_mem hj
  obtain ⟨j', hj', heq⟩ := List.mem_map.mp this
  exact ⟨j', hj', heq⟩

end Renumbers

theorem renumbers_storeSetPriority (l : Leader) (name : String) (p : ℤ) :
    Renumbers l (l.storeSetPriority name p) := by
  unfold storeSetPriority
  split
  · refine ⟨?_, _, _, rfl⟩
    simp only [MemStore.setPriority, MemStore.update, List.map_map]
    refine List.map_congr_left fun j _ => ?_
    dsimp only [Function.comp]
    split_ifs <;> rfl
  · exact .refl l

theorem renumbers_normalizeLoop (names : List String) (i : ℕ) (l : Leader) :
    Renumbers l (normalizeLoop names i l) := by
  induction names generalizing i l with
  | nil => exact .refl l
  | cons name rest ih =>
    unfold normalizeLoop
    dsimp only
    split_ifs
    · exact ih _ _
    · exact (renumbers_storeSetPriority l name i).trans (ih _ _)

theorem renumbers_normalizePriorities (l : Leader) : Renumbers l l.normalizePriorities :=
  renumbers_normalizeLoop _ _ _

/-- The order of priority is a permutation of the names. -/
theorem priorityOrder_perm (l : Leader) :
    l.priorityOrder.Perm (l.store.jobs.map Job.name) := by
  have := ((l.store.jobs.map fun j =>
    (effectivePriority j.priority, j.name)).perm_insertionSort KeyLe).map Prod.snd
  simpa [priorityOrder, List.map_map, Function.comp_def] using this

/-- The leader that a reconcile loops over. -/
def ranked (l : Leader) : Leader := { l.normalizePriorities with roundRobin := 0 }

theorem reconcileJobs_eq (l : Leader) (net : Logged N) :
    l.reconcileJobs net = if l.store.jobs = [] ∨ l.agents = [] then (l, net)
      else reconcileLoop l.ranked.priorityOrder l.ranked net := rfl

theorem ranked_books (l : Leader) : l.ranked.placed = l.placed ∧ l.ranked.agents = l.agents :=
  (renumbers_normalizePriorities l).books

theorem ranked_settled (l : Leader) :
    l.ranked.settled = l.settled ∧ l.ranked.settleAt = l.settleAt :=
  (renumbers_normalizePriorities l).settled

/-- The log and the settle period of a reconcile. -/
theorem reconcileJobs_frame (l : Leader) (net : Logged N) :
    net.log <+: (l.reconcileJobs net).2.log ∧ (l.reconcileJobs net).1.agents = l.agents ∧
      (l.reconcileJobs net).1.settled = l.settled ∧
      (l.reconcileJobs net).1.settleAt = l.settleAt := by
  rw [reconcileJobs_eq]
  split_ifs
  · exact ⟨List.prefix_rfl, rfl, rfl, rfl⟩
  · have h := moves_reconcileLoop l.ranked.priorityOrder l.ranked net
    exact ⟨h.log, h.agents.trans l.ranked_books.2, h.settled.1.trans l.ranked_settled.1,
      h.settled.2.trans l.ranked_settled.2⟩

end Leader

end Hop.Lead
