import Hop.Lead.Ops

/-!
# What the rounds over the agents keep

An invariant of the leader with its transport goes through the same loops whatever it says: the
rounds of `place`, the loops of a reconcile and those of an update. Each loop is followed here
once, for any invariant.

`Tries` is what the first round has to keep and `Seats` what `place` with its preemption; both have
an invariant `I` for before the job is accepted and a `J` for after, so that instances can be
counted. `Serves` is what a turn of a reconcile has to keep and `Advances` what an update has to.
-/

namespace Hop.Lead

open Hop.Types (Agent Job)

namespace Leader

section

variable {N : Type} [Transport N]

theorem nextAgent_books (l : Leader) :
    l.nextAgent.2.placed = l.placed ∧ l.nextAgent.2.store = l.store ∧
      l.nextAgent.2.agents = l.agents := by
  unfold nextAgent
  split_ifs <;> exact ⟨rfl, rfl, rfl⟩

/-- The agent of the round robin is registered. -/
theorem nextAgent_mem {l l' : Leader} {agent : Agent} (h : l.nextAgent = (some agent, l')) :
    agent ∈ l.agents ∧ l'.agents = l.agents ∧ l'.placed = l.placed := by
  unfold nextAgent at h
  split_ifs at h
  · cases h
  · obtain ⟨hget, rfl⟩ := Prod.mk.inj h
    exact ⟨List.mem_of_getElem? hget, rfl, rfl⟩

theorem mem_of_agent {l : Leader} {id : String} {a : Agent} (h : l.agent id = some a) :
    a ∈ l.agents ∧ a.id = id :=
  ⟨List.mem_of_find?_eq_some h, by simpa using List.find?_some h⟩

/-- The first round keeps the agents, and only they are full. -/
theorem firstRound_agents (job : Job) (k : ℕ) (full : List Agent) {l : Leader} (net : N)
    (hfull : ∀ a ∈ full, a ∈ l.agents) : (firstRound job k full l net).2.1.agents = l.agents ∧
      ∀ a ∈ (firstRound job k full l net).1.2, a ∈ (firstRound job k full l net).2.1.agents := by
  induction k generalizing full l net with
  | zero => exact ⟨rfl, hfull⟩
  | succ k ih =>
    have hagents := l.nextAgent_books.2.2
    rw [firstRound]
    rcases hnext : l.nextAgent with ⟨_ | agent, l'⟩
    · rw [hnext] at hagents
      exact ⟨hagents, fun a ha => hagents ▸ hfull a ha⟩
    · rw [hnext] at hagents
      have hfull' : ∀ a ∈ full ++ [agent], a ∈ l'.agents := by
        intro a ha
        rw [show l'.agents = l.agents from hagents]
        rcases List.mem_append.mp ha with ha | ha
        · exact hfull a ha
        · exact List.mem_singleton.mp ha ▸ (nextAgent_mem hnext).1
      have hrest := fun a ha => hfull' a (List.mem_append_left _ ha)
      dsimp only
      split
      · exact ⟨hagents, hrest⟩
      · exact ⟨(ih _ _ hfull').1.trans hagents, (ih _ _ hfull').2⟩
      · exact ⟨(ih _ _ hrest).1.trans hagents, (ih _ _ hrest).2⟩

end

end Leader

open Leader

variable {N : Type} [Transport N]

/-- The first round keeps `I` until an agent accepts the job, and has `J` then. -/
structure Tries (job : Job) (I J : Leader → N → Prop) : Prop where
  next : ∀ {l net}, I l net → I l.nextAgent.2 net
  refused : ∀ {l net net' agent r}, I l net → agent ∈ l.agents →
    Transport.run net agent job false = (r, net') → r ≠ .accepted → I l net'
  accepted : ∀ {l net net' agent}, I l net → agent ∈ l.agents →
    Transport.run net agent job false = (.accepted, net') →
    J (l.trackPlacement agent.id job.name) net'

/-- So does the second round, with the stop of a victim and the `run` that it makes room for. -/
structure Seats (job : Job) (I J : Leader → N → Prop) : Prop extends Tries job I J where
  unconfirmed : ∀ {l net net' agent victim}, I l net → agent ∈ l.agents →
    l.findVictim agent.id job.priority = some victim →
    Transport.stopJob net agent victim = (false, net') → I l net'
  displaced : ∀ {l net net' net'' agent victim}, I l net → agent ∈ l.agents →
    l.findVictim agent.id job.priority = some victim →
    Transport.stopJob net agent victim = (true, net') →
    Transport.run net' agent job false = (.accepted, net'') →
    J (((l.dropPlacement agent.id victim).trackPlacement agent.id job.name).emit (.job victim)) net''
  vain : ∀ {l net net' net'' agent victim r}, I l net → agent ∈ l.agents →
    l.findVictim agent.id job.priority = some victim →
    Transport.stopJob net agent victim = (true, net') →
    Transport.run net' agent job false = (r, net'') → r ≠ .accepted →
    I (l.dropPlacement agent.id victim) net''

/-- A turn of a reconcile keeps `I`, call by call. -/
structure Serves (job : Job) (I : Leader → N → Prop) : Prop extends Tries job I I where
  unconfirmed : ∀ {l net net' agent victim}, I l net → agent ∈ l.agents →
    l.findVictim agent.id job.priority = some victim →
    Transport.stopJob net agent victim = (false, net') → I l net'
  confirmed : ∀ {l net net' agent victim}, I l net → agent ∈ l.agents →
    l.findVictim agent.id job.priority = some victim →
    Transport.stopJob net agent victim = (true, net') → I (l.dropPlacement agent.id victim) net'
  emit : ∀ {l net}, I l net → ∀ e, I (l.emit e) net

/-- The loop of an update keeps `I`. -/
structure Advances (job : Job) (I : Leader → N → Prop) : Prop extends Tries job I I where
  emit : ∀ {l net}, I l net → ∀ e, I (l.emit e) net
  replaced : ∀ {l net net' agent r}, I l net → agent ∈ l.agents →
    Transport.run net agent job true = (r, net') → I l net'
  stopTask : ∀ {l net agent}, I l net → agent ∈ l.agents → ∀ taskId,
    I (l.untrackOne agent.id job.name) (Transport.stopTask net agent taskId)
  pause : ∀ {l net}, I l net → ∀ d, I l (Transport.pause net d)

section

variable {job : Job} {l : Leader} {net : N}

/-! ### Placing -/

namespace Tries

variable {I J : Leader → N → Prop}

theorem firstRound (R : Tries job I J) (k : ℕ) (full : List Agent) (h : I l net) :
    (bif (firstRound job k full l net).1.1 then J else I) (firstRound job k full l net).2.1
      (firstRound job k full l net).2.2 := by
  induction k generalizing full l net with
  | zero => exact h
  | succ k ih =>
    have h' := R.next h
    rw [Leader.firstRound]
    rcases hnext : l.nextAgent with ⟨_ | agent, l'⟩
    · rw [hnext] at h'
      exact h'
    · rw [hnext] at h'
      have hmem : agent ∈ l'.agents := (nextAgent_mem hnext).2.1 ▸ (nextAgent_mem hnext).1
      dsimp only
      split
      · rename_i net' hrun
        exact R.accepted h' hmem hrun
      · rename_i net' hrun
        exact ih _ (R.refused h' hmem hrun (by simp))
      · rename_i r net' hacc _ hrun
        exact ih _ (R.refused h' hmem hrun fun hr => hacc hr)

/-- Placing, if the second round is known. -/
theorem place (R : Tries job I J) (preempt : Bool) (h : I l net)
    (hsecond : preempt = true → ∀ {full l' net'}, I l' net' → (∀ a ∈ full, a ∈ l'.agents) →
      (bif (preemptRound job full l' net').1 then J else I) (preemptRound job full l' net').2.1
        (preemptRound job full l' net').2.2) :
    (bif (l.place net job preempt).1.toBool then J else I) (l.place net job preempt).2.1
      (l.place net job preempt).2.2 := by
  have hfirst := R.firstRound l.agents.length [] h
  have hfull := (firstRound_agents (l := l) job l.agents.length [] net (by simp)).2
  rw [Leader.place]
  by_cases hn : l.agents.length = 0
  · rw [if_pos hn]
    exact h
  · rw [if_neg hn]
    split
    · rename_i _ l' net' heq
      rwa [heq] at hfirst
    · rename_i l' net' heq
      rwa [heq] at hfirst
    · rename_i full l' net' _ heq
      rw [heq] at hfirst hfull
      cases preempt with
      | false => exact hfirst
      | true =>
        have hpre := hsecond rfl hfirst hfull
        simp only [Bool.not_true, Bool.false_eq_true, if_false]
        generalize preemptRound job full l' net' = second at hpre ⊢
        obtain ⟨_ | _, l'', net''⟩ := second
        · exact hpre
        · exact hpre

/-- Placing without preemption. -/
theorem beside (R : Tries job I J) (h : I l net) :
    (bif (l.place net job false).1.toBool then J else I) (l.place net job false).2.1
      (l.place net job false).2.2 :=
  R.place false h nofun

end Tries

namespace Seats

variable {I J : Leader → N → Prop}

theorem preemptRound (R : Seats job I J) {full : List Agent} (h : I l net)
    (hfull : ∀ a ∈ full, a ∈ l.agents) :
    (bif (preemptRound job full l net).1 then J else I) (preemptRound job full l net).2.1
      (preemptRound job full l net).2.2 := by
  induction full generalizing l net with
  | nil => exact h
  | cons agent rest ih =>
    obtain ⟨hmem, hrest⟩ := List.forall_mem_cons.mp hfull
    rw [Leader.preemptRound]
    rcases hv : l.findVictim agent.id job.priority with _ | victim
    · exact ih h hrest
    · dsimp only
      split
      · rename_i net' hstop
        exact ih (R.unconfirmed h hmem hv hstop) hrest
      · rename_i net' hstop
        split
        · rename_i net'' hrun
          exact R.displaced h hmem hv hstop hrun
        · rename_i r net'' hacc hrun
          exact ih (R.vain h hmem hv hstop hrun fun hr => hacc hr) hrest

theorem place (R : Seats job I J) (h : I l net) (preempt : Bool) :
    (bif (l.place net job preempt).1.toBool then J else I) (l.place net job preempt).2.1
      (l.place net job preempt).2.2 :=
  R.toTries.place preempt h fun _ => R.preemptRound

end Seats

section

variable {I : ℕ → Leader → N → Prop}

/-- The instances that a dispatch placed. -/
theorem Seats.dispatchLoop (R : ∀ j, Seats job (I j) (I (j + 1))) (count k i j : ℕ) (h : I j l net) :
    ∃ m ≤ k, I (j + m) (dispatchLoop job count k i l net).2.1 (dispatchLoop job count k i l net).2.2 ∧
      ((dispatchLoop job count k i l net).1.toBool = true ↔ m = k) := by
  induction k generalizing i j l net with
  | zero => exact ⟨0, le_refl 0, h, by simp [Leader.dispatchLoop, Except.toBool]⟩
  | succ k ih =>
    have hplace := (R j).place h true
    rw [Leader.dispatchLoop]
    generalize l.place net job true = r at hplace ⊢
    obtain ⟨why | _, l', net'⟩ := r
    · exact ⟨0, Nat.zero_le _, hplace, by simp [Except.toBool]⟩
    · obtain ⟨m, hm, hI, hok⟩ := ih (i + 1) (j + 1) hplace
      exact ⟨m + 1, Nat.succ_le_succ hm, by rwa [Nat.add_right_comm] at hI, by rw [hok]; omega⟩

/-- The instances of a blue-green update. -/
theorem Tries.blueGreenLoop (R : ∀ j, Tries job (I j) (I (j + 1))) (count k i j : ℕ) (h : I j l net) :
    ∃ m ≤ k, I (j + m) (blueGreenLoop job count k i l net).2.1
        (blueGreenLoop job count k i l net).2.2 ∧
      ((blueGreenLoop job count k i l net).1.toBool = true ↔ m = k) := by
  induction k generalizing i j l net with
  | zero => exact ⟨0, le_refl 0, h, by simp [Leader.blueGreenLoop, Except.toBool]⟩
  | succ k ih =>
    have hplace := (R j).beside h
    rw [Leader.blueGreenLoop]
    generalize l.place net job false = r at hplace ⊢
    obtain ⟨why | _, l', net'⟩ := r
    · exact ⟨0, Nat.zero_le _, hplace, by simp [Except.toBool]⟩
    · obtain ⟨m, hm, hI, hok⟩ := ih (i + 1) (j + 1) hplace
      exact ⟨m + 1, Nat.succ_le_succ hm, by rwa [Nat.add_right_comm] at hI, by rw [hok]; omega⟩

/-- The agents that took the daemon. -/
theorem Tries.daemonLoop (R : ∀ j, Tries job (I j) (I (j + 1))) (agents : List Agent) (j : ℕ)
    (h : I j l net) (hin : ∀ a ∈ agents, a ∈ l.agents) :
    I (j + (daemonLoop job agents l net).1) (daemonLoop job agents l net).2.1
      (daemonLoop job agents l net).2.2 := by
  induction agents generalizing j l net with
  | nil => exact h
  | cons agent rest ih =>
    obtain ⟨hmem, hrest⟩ := List.forall_mem_cons.mp hin
    rw [Leader.daemonLoop]
    split
    · rename_i net' hrun
      have hloop := ih (j + 1) ((R j).accepted h hmem hrun) hrest
      rwa [Nat.add_right_comm] at hloop
    · rename_i r net' hacc hrun
      exact ih j ((R j).refused h hmem hrun fun hr => hacc hr) hrest

end

/-! ### Reconciling -/

namespace Serves

variable {I : Leader → N → Prop}

theorem seats (S : Serves job I) : Seats job I I where
  toTries := S.toTries
  unconfirmed := S.unconfirmed
  displaced h hmem hv hstop hrun := S.emit (S.accepted (S.confirmed h hmem hv hstop) hmem hrun) _
  vain h hmem hv hstop := S.refused (S.confirmed h hmem hv hstop) hmem

theorem place (S : Serves job I) (h : I l net) (preempt : Bool) :
    I (l.place net job preempt).2.1 (l.place net job preempt).2.2 := by
  simpa using S.seats.place h preempt

theorem dispatchLoop (S : Serves job I) (count k i : ℕ) (h : I l net) :
    I (dispatchLoop job count k i l net).2.1 (dispatchLoop job count k i l net).2.2 := by
  obtain ⟨_, -, hI, -⟩ := Seats.dispatchLoop (I := fun _ => I) (fun _ => S.seats) count k i 0 h
  exact hI

theorem reconcileJob (S : Serves job I) (h : I l net) :
    I (l.reconcileJob net job).2.1 (l.reconcileJob net job).2.2 := by
  have hloop := Tries.daemonLoop (I := fun _ => I) (fun _ => S.toTries) (l.missing job.name) 0 h
    fun a ha => (List.mem_filter.mp ha).1
  rw [Leader.reconcileJob]
  dsimp only
  split_ifs
  · rw [reconcileDaemon]
    dsimp only
    split_ifs
    · exact S.emit hloop _
    · exact hloop
    · exact S.emit hloop _
    · exact hloop
  · exact h
  · exact S.emit (S.dispatchLoop _ _ 0 h) _

end Serves

/-- A reconcile keeps what each of its turns keeps. -/
theorem reconcileLoop_keeps {I : Leader → N → Prop}
    (S : ∀ {l net}, I l net → ∀ job ∈ l.store.jobs, job.name ≠ "" → Serves job I)
    (names : List String) (h : I l net) :
    I (reconcileLoop names l net).1 (reconcileLoop names l net).2 := by
  induction names generalizing l net with
  | nil => exact h
  | cons name rest ih =>
    rw [reconcileLoop]
    rcases hget : l.store.get name with _ | job
    · exact ih h
    · dsimp only
      split_ifs with hname
      · exact ih h
      · exact ih ((S h job (MemStore.get_eq_some_iff.mp hget).1 hname).reconcileJob h)

/-! ### Updating -/

namespace Advances

variable {I : Leader → N → Prop}

theorem stopOldTask (R : Advances job I) (h : I l net) (old : TaskRef) :
    I (l.stopOldTask net job.name old).1 (l.stopOldTask net job.name old).2 := by
  rw [Leader.stopOldTask]
  split
  · rename_i a hagent
    obtain ⟨ha, hid⟩ := mem_of_agent hagent
    rw [← hid]
    exact R.stopTask h ha old.taskId
  · exact h

theorem stopOldTasks (R : Advances job I) (olds : List TaskRef) (h : I l net) :
    I (stopOldTasks job.name olds l net).1 (stopOldTasks job.name olds l net).2 := by
  induction olds generalizing l net with
  | nil => exact h
  | cons old rest ih => exact ih (R.stopOldTask h old)

theorem rollOne (R : Advances job I) (h : I l net) (old : TaskRef) :
    I (l.rollOne net job old).2.1 (l.rollOne net job old).2.2 := by
  have hplace := R.toTries.beside h
  rw [Bool.cond_self] at hplace
  rw [Leader.rollOne]
  split
  · rename_i l' net' heq
    rwa [heq] at hplace
  · rename_i k l' net' heq
    rw [heq] at hplace
    split
    · exact hplace
    · rename_i a hagent
      have ha := (mem_of_agent hagent).1
      split
      · rename_i net'' hrun
        exact R.replaced hplace ha hrun
      · rename_i r net'' _ hrun
        exact R.replaced hplace ha hrun
  · rename_i why l' net' _ heq
    rwa [heq] at hplace

theorem rollAfter (R : Advances job I) (h : I l net) (i : ℕ) (old : TaskRef) (replaced : Bool) :
    I (l.rollAfter net job i old replaced).1 (l.rollAfter net job i old replaced).2 := by
  have hend : ∀ {l net}, I l net → I (l.emit (.job job.name))
      (if i + 1 < job.desired then Transport.pause net rollingUpdateDelay else net) := by
    intro l net h
    split_ifs
    · exact R.pause (R.emit h _) _
    · exact R.emit h _
  rw [Leader.rollAfter]
  cases replaced with
  | false => exact hend (R.stopOldTask h old)
  | true => exact hend h

theorem rollLoop (R : Advances job I) (olds : List TaskRef) (i : ℕ) (h : I l net) :
    I (rollLoop job olds i l net).2.1 (rollLoop job olds i l net).2.2 := by
  induction olds generalizing i l net with
  | nil => exact h
  | cons old rest ih =>
    rw [Leader.rollLoop]
    split_ifs
    · have hone := R.rollOne h old
      generalize l.rollOne net job old = r at hone ⊢
      obtain ⟨why | replaced, l', net'⟩ := r
      · exact hone
      · exact ih _ (R.rollAfter hone i old replaced)
    · exact ih _ (R.rollAfter h i old false)

theorem blueGreenLoop (R : Advances job I) (count k i : ℕ) (h : I l net) :
    I (blueGreenLoop job count k i l net).2.1 (blueGreenLoop job count k i l net).2.2 := by
  obtain ⟨_, -, hI, -⟩ := Tries.blueGreenLoop (I := fun _ => I) (fun _ => R.toTries) count k i 0 h
  exact hI

end Advances

end

end Hop.Lead
