import Hop.Agentd.Books

/-!
# Updates keep the books

A rolling or blue-green update first asks the agents for their tasks of the job, and later stops
these one by one. `Rolls` adds to the invariant that the tasks that still have to be stopped are
there, each once: placing beside them does not touch them, and a replacement of one for one takes
only the task it replaces. With that every operation of the leader and every event of an agent
keeps the books.
-/

namespace Hop.Agentd

open Hop.Types (Agent Job Map Task)
open Hop.Lead (Leader RunReply Transport)
open Hop.Lead.Leader (TaskRef)

variable {job : Job}

/-- The tasks of a list are there, and of this job. -/
def Listed (name : String) (refs : List TaskRef) (w : World) : Prop :=
  ∀ r ∈ refs, ∃ n e, w.nodes.get? r.agentId = some n ∧ n.tasks.get? r.taskId = some e ∧
    e.task.jobName = name

/-- The invariant of an update, with the old tasks that remain. -/
structure Rolls (name : String) (refs : List TaskRef) (l : Leader) (w : World) : Prop where
  agree : Agree [] l w
  nodup : refs.Nodup
  listed : Fair w → Listed name refs w

/-- No record went. -/
structure Grows (w w' : World) : Prop where
  fair : Fair w' → Fair w
  kept : Fair w' → ∀ {id n}, w.nodes.get? id = some n → ∃ n', w'.nodes.get? id = some n' ∧
    ∀ {t e}, n.tasks.get? t = some e → n'.tasks.get? t = some e

namespace Grows

variable {w w' w'' : World}

theorem refl (w : World) : Grows w w := ⟨fun h => h, fun _ _ n hn => ⟨n, hn, fun h => h⟩⟩

theorem trans (h : Grows w w') (h' : Grows w' w'') : Grows w w'' := by
  refine ⟨fun hf => h.fair (h'.fair hf), fun hf id n hn => ?_⟩
  obtain ⟨n', hn', hk⟩ := h.kept (h'.fair hf) hn
  obtain ⟨n'', hn'', hk'⟩ := h'.kept hf hn'
  exact ⟨n'', hn'', fun he => hk' (hk he)⟩

/-- A step of one agent that keeps its records. -/
theorem of_steps {id : String} {n n' : Node.Agent} (hs : Steps id n n' w w')
    (hk : n'.ids.draws ≤ 2 ^ 64 → ∀ {t e}, n.tasks.get? t = some e → n'.tasks.get? t = some e) :
    Grows w w' := by
  refine ⟨hs.fair, fun hf id' m hm => ?_⟩
  by_cases hid : id' = id
  · subst hid
    obtain rfl : n = m := Option.some.inj (hs.before.symm.trans hm)
    exact ⟨n', hs.after, fun he => hk (hf.draws id' n' hs.after) he⟩
  · exact ⟨m, (hs.other hid).trans hm, fun he => he⟩

/-- The old tasks are still there. -/
theorem rolls {name : String} {refs : List TaskRef} {l l' : Leader} (hg : Grows w w')
    (h : Rolls name refs l w) (h' : Agree [] l' w') : Rolls name refs l' w' := by
  refine ⟨h', h.nodup, fun hf r hr => ?_⟩
  obtain ⟨n, e, hn, he, hname⟩ := h.listed (hg.fair hf) r hr
  obtain ⟨n', hn', hk⟩ := hg.kept hf hn
  exact ⟨n', e, hn', hk he, hname⟩

end Grows

variable {l l' : Leader} {w w' : World}

/-- A job that is refused or placed beside the others takes no record away. -/
theorem grows_run (h : Agree [] l w) {a : Agent} (hne : job.name ≠ "") {r : RunReply}
    (hrun : Transport.run w a job false = (r, w')) : Grows w w' := by
  rcases h.run_cases hne hrun with ⟨-, rfl⟩ | ⟨n, n', -, hn, hk, rfl⟩ | ⟨n, n', -, hn, hr, rfl⟩
  · exact .refl _
  · exact .of_steps (Steps.set hn hk.1.draws) fun _ _ _ he => hk.2 ▸ he
  · exact .of_steps (Agree.steps_accept hn hr) fun hd _ _ he =>
      hr.others hd (fun hc => by cases hc) he

/-- Placing without displacing takes no record away. -/
theorem grows_place (hne : job.name ≠ "") (h : Agree [] l w) :
    Grows w (l.place w job false).2.2 := by
  have R : Lead.Tries job (fun l' w' => Agree [] l' w' ∧ Grows w w')
      fun l' w' => Agree [] l' w' ∧ Grows w w' := by
    have hserves := Agree.ledger.serves hne
    exact {
      next := fun h => ⟨hserves.next h.1, h.2⟩
      refused := fun h ha hrun hr =>
        ⟨hserves.refused h.1 ha hrun hr, h.2.trans (grows_run h.1 hne hrun)⟩
      accepted := fun h ha hrun => ⟨hserves.accepted h.1 ha hrun, h.2.trans (grows_run h.1 hne hrun)⟩ }
  have hbeside := R.beside ⟨h, .refl w⟩
  rw [Bool.cond_self] at hbeside
  exact hbeside.2

namespace Rolls

variable {name : String} {old : TaskRef} {rest refs : List TaskRef}

theorem emit (h : Rolls name refs l w) (e : Lead.Event) : Rolls name refs (l.emit e) w :=
  ⟨Agree.ledger.emit h.agree e, h.nodup, h.listed⟩

theorem tail (h : Rolls name (old :: rest) l w) : Rolls name rest l w :=
  ⟨h.agree, (List.nodup_cons.mp h.nodup).2, fun hf r hr =>
    h.listed hf r (List.mem_cons_of_mem _ hr)⟩

/-- The old tasks that remain are still there after a step of the agent of `old` that takes only
`old` away. -/
theorem tail_of_steps {n n' : Node.Agent} (h : Rolls name (old :: rest) l w)
    (hs : Steps old.agentId n n' w w') (h' : Agree [] l' w')
    (hk : Fair w' → ∀ {t e}, t ≠ old.taskId → n.tasks.get? t = some e → e.task.jobName = name →
      n'.tasks.get? t = some e) : Rolls name rest l' w' := by
  refine ⟨h', (List.nodup_cons.mp h.nodup).2, fun hf r hr => ?_⟩
  obtain ⟨m, e, hm, he, hname⟩ := h.listed (hs.fair hf) r (List.mem_cons_of_mem _ hr)
  by_cases hid : r.agentId = old.agentId
  · rw [hid] at hm ⊢
    obtain rfl : n = m := Option.some.inj (hs.before.symm.trans hm)
    have hne : r.taskId ≠ old.taskId := by
      intro heq
      have : r = old := by
        obtain ⟨_, _⟩ := r
        obtain ⟨_, _⟩ := old
        simp_all
      exact (List.nodup_cons.mp h.nodup).1 (this ▸ hr)
    exact ⟨n', e, hs.after, hk hf hne he hname, hname⟩
  · exact ⟨m, e, (hs.other hid).trans hm, he, hname⟩

/-- Stop an old task, and book it off. -/
theorem stopOldTask (h : Rolls name (old :: rest) l w) :
    Rolls name rest (l.stopOldTask w name old).1 (l.stopOldTask w name old).2 := by
  unfold Leader.stopOldTask
  split
  · rename_i a hagent
    obtain ⟨ha, hid⟩ := Leader.mem_of_agent hagent
    change Rolls name rest (l.untrackOne old.agentId name) (w.stopTask a old.taskId)
    unfold World.stopTask
    split
    · rename_i hn
      exact ⟨h.agree.absent ha hn rfl, h.tail.nodup,
        fun hf => absurd hf (h.agree.not_fair ha hn)⟩
    · rename_i n hn
      rw [hid] at hn ⊢
      have hdrops : Node.Agent.Drops {old.taskId} n (n.stopTask old.taskId).2 :=
        Node.Agent.removeAndStop_drops n old.taskId
      have hs : Steps old.agentId n _ w (w.set old.agentId (n.stopTask old.taskId).2) :=
        Steps.set hn (by rw [hdrops.ids])
      refine h.tail_of_steps hs (h.agree.less hn (hdrops.sound (h.agree.sound hn)) hdrops.ids
        fun hf => ?_) fun _ t e hne he _ => (hdrops.kept hne).trans he
      obtain ⟨m, e, hm, he, hname⟩ := h.listed hf old List.mem_cons_self
      obtain rfl : n = m := Option.some.inj (hn.symm.trans hm)
      exact hname ▸ (Node.Agent.stopTask_spec (h.agree.sound hn) he).2.2.2
  · exact h.tail

theorem stopOldTasks (h : Rolls name refs l w) :
    Agree [] (Leader.stopOldTasks name refs l w).1 (Leader.stopOldTasks name refs l w).2 := by
  induction refs generalizing l w with
  | nil => exact h.agree
  | cons old rest ih => exact ih h.stopOldTask

/-- A replacement of one for one takes only the old task. -/
theorem replaced (hne : job.name ≠ "") (h : Rolls job.name (old :: rest) l w) {a : Agent}
    (hagent : l.agent old.agentId = some a) (hrun : Transport.run w a job true = (.accepted, w')) :
    Rolls job.name rest l w' := by
  have hagree := h.agree.replaced hne hrun
  obtain ⟨ha, hid⟩ := Leader.mem_of_agent hagent
  rcases h.agree.run_cases hne hrun with ⟨hr, -⟩ | ⟨n, n', hr, -⟩ | ⟨n, n', -, hn, hruns, rfl⟩
  · exact absurd rfl hr
  · exact absurd rfl hr
  · rw [hid] at hn hagree ⊢
    have hs := Agree.steps_accept hn hruns
    refine h.tail_of_steps hs hagree fun hf t e hne' he hname => ?_
    -- the old task is the only one of its job on the agent
    have hfound : n.count job.name = 1 :=
      hf.swaps ⟨old.agentId, job.name, n.count job.name⟩ (by simp [World.accept])
    obtain ⟨m, e', hm, he', hname'⟩ := h.listed (hs.fair hf) old List.mem_cons_self
    obtain rfl : n = m := Option.some.inj (hn.symm.trans hm)
    have htwo := Node.Agent.two_le_count hne' he' he (hname'.trans hname.symm)
    rw [hname', hfound] at htwo
    omega

/-- What holds after the placement of the next new instance. -/
theorem rollOne (hne : job.name ≠ "") (h : Rolls job.name (old :: rest) l w) :
    match l.rollOne w job old with
    | (.error _, l', w') => Agree [] l' w'
    | (.ok false, l', w') => Rolls job.name (old :: rest) l' w'
    | (.ok true, l', w') => Rolls job.name rest l' w' := by
  have hplace := (grows_place hne h.agree).rolls h ((Agree.ledger.serves hne).place h.agree false)
  unfold Leader.rollOne
  generalize l.place w job false = r at hplace ⊢
  obtain ⟨result, l', w'⟩ := r
  dsimp only at hplace
  cases result with
  | ok u => exact hplace
  | error why =>
    cases why with
    | noAgents => exact hplace.agree
    | noneAccepted k => exact hplace.agree
    | full k =>
      cases hagent : l'.agent old.agentId with
      | none => simpa only [hagent] using hplace.agree
      | some a =>
        simp only [hagent]
        generalize hrun : Transport.run w' a job true = r
        obtain ⟨reply, w''⟩ := r
        cases reply with
        | accepted => exact hplace.replaced hne hagent hrun
        | affinityMismatch => exact hplace.agree.refused hne hrun (by simp)
        | noCapacity => exact hplace.agree.refused hne hrun (by simp)
        | rejected status => exact hplace.agree.refused hne hrun (by simp)
        | unreachable => exact hplace.agree.refused hne hrun (by simp)

theorem rollAfter_stop (h : Rolls job.name (old :: rest) l w) (i : ℕ) :
    Rolls job.name rest (l.rollAfter w job i old false).1 (l.rollAfter w job i old false).2 := by
  have hstop := h.stopOldTask.emit (.job job.name)
  unfold Leader.rollAfter
  simp only [Bool.false_eq_true, if_false]
  split_ifs <;> exact hstop

theorem rollAfter_replaced (h : Rolls job.name rest l w) (i : ℕ) (old : TaskRef) :
    Rolls job.name rest (l.rollAfter w job i old true).1 (l.rollAfter w job i old true).2 := by
  have hemit := h.emit (.job job.name)
  unfold Leader.rollAfter
  simp only [if_true]
  split_ifs <;> exact hemit

theorem rollLoop (hne : job.name ≠ "") (i : ℕ) (h : Rolls job.name refs l w) :
    Agree [] (Leader.rollLoop job refs i l w).2.1 (Leader.rollLoop job refs i l w).2.2 := by
  induction refs generalizing i l w with
  | nil => exact h.agree
  | cons old rest ih =>
    unfold Leader.rollLoop
    by_cases hi : i < job.desired
    · rw [if_pos hi]
      have hone := h.rollOne hne
      generalize l.rollOne w job old = r at hone ⊢
      obtain ⟨_ | replaced, l', w'⟩ := r
      · exact hone
      · cases replaced with
        | false => exact ih _ (rollAfter_stop hone i)
        | true => exact ih _ (rollAfter_replaced hone i old)
    · rw [if_neg hi]
      exact ih _ (rollAfter_stop h i)

end Rolls

/-! ### The old tasks of an update -/

/-- The tasks of an agent, by their keys. -/
theorem taskList_ids {n : Node.Agent} (h : n.Sound) : n.taskList.map Task.id = n.tasks.keys := by
  unfold Node.Agent.taskList SortedMap.keys
  rw [List.map_map]
  exact List.map_congr_left fun e he => (h.entry (SortedMap.get?_eq_some_iff.mpr he)).key

theorem mem_taskList {n : Node.Agent} (h : n.Sound) {t : Task} (ht : t ∈ n.taskList) :
    ∃ e, n.tasks.get? t.id = some e ∧ e.task = t := by
  obtain ⟨e, he, rfl⟩ := List.mem_map.mp ht
  have hget := SortedMap.get?_eq_some_iff.mpr he
  exact ⟨e.2, (h.entry hget).key.symm ▸ hget, rfl⟩

/-- The tasks of a job on the agents of a list that have it. -/
def oldTasks (l : Leader) (w : World) (name : String) (agents : List Agent) :
    List (String × List Task) :=
  (agents.filter fun a => l.placedOn a.id name ≠ 0).filterMap fun a =>
    (w.nodes.get? a.id).map fun n => (a.id, n.taskList.filter fun t => t.jobName = name)

theorem jobStatusLoop_eq (l : Leader) (w : World) (name : String) (agents : List Agent) :
    l.jobStatusLoop name agents w = (oldTasks l w name agents, w) := by
  unfold oldTasks
  induction agents with
  | nil => rfl
  | cons a rest ih =>
    have htasks : Transport.tasks w a = (w.tasks a, w) := rfl
    unfold Leader.jobStatusLoop
    by_cases hzero : l.placedOn a.id name = 0
    · rw [if_pos hzero, ih, List.filter_cons_of_neg (by simpa using hzero)]
    · rw [if_neg hzero, htasks, List.filter_cons_of_pos (by simpa using hzero)]
      unfold World.tasks
      cases hn : w.nodes.get? a.id with
      | none => simp [hn, ih]
      | some n => simp [hn, ih]

/-- The references to the tasks of a job. -/
def refsOf (status : List (String × List Task)) : List TaskRef :=
  status.flatMap fun p => p.2.map fun t => ⟨p.1, t.id⟩

theorem mem_oldTasks {l : Leader} {w : World} {name : String} {agents : List Agent}
    {p : String × List Task} (hp : p ∈ oldTasks l w name agents) :
    ∃ a ∈ agents, ∃ n, w.nodes.get? a.id = some n ∧
      p = (a.id, n.taskList.filter fun t => t.jobName = name) := by
  obtain ⟨a, ha, hpa⟩ := List.mem_filterMap.mp hp
  obtain ⟨n, hn, rfl⟩ := Option.map_eq_some_iff.mp hpa
  exact ⟨a, (List.mem_filter.mp ha).1, n, hn, rfl⟩

/-- Each old task is there. -/
theorem listed_oldTasks (h : Agree [] l w) (name : String) (agents : List Agent) :
    Listed name (refsOf (oldTasks l w name agents)) w := by
  intro r hr
  obtain ⟨p, hp, hrp⟩ := List.mem_flatMap.mp hr
  obtain ⟨a, -, n, hn, rfl⟩ := mem_oldTasks hp
  obtain ⟨t, ht, rfl⟩ := List.mem_map.mp hrp
  obtain ⟨htask, hname⟩ := List.mem_filter.mp ht
  obtain ⟨e, he, rfl⟩ := mem_taskList (h.sound hn) htask
  exact ⟨n, e, hn, he, by simpa using hname⟩

/-- Each old task is listed once. -/
theorem nodup_oldTasks (h : Agree [] l w) (name : String) {agents : List Agent}
    (hsorted : agents.Pairwise fun a b => a.id < b.id) :
    (refsOf (oldTasks l w name agents)).Nodup := by
  refine List.nodup_flatMap.mpr ⟨fun p hp => ?_, ?_⟩
  · obtain ⟨a, -, n, hn, rfl⟩ := mem_oldTasks hp
    have hkeys : (n.taskList.map Task.id).Nodup := by
      rw [taskList_ids (h.sound hn)]
      exact n.tasks.keys_nodup
    refine List.Nodup.of_map TaskRef.taskId ?_
    rw [List.map_map]
    exact hkeys.sublist (List.filter_sublist.map _)
  · unfold oldTasks
    refine List.Pairwise.filterMap _ (fun a b hlt p hp q hq => ?_) (hsorted.filter _)
    obtain ⟨n, -, rfl⟩ := Option.map_eq_some_iff.mp hp
    obtain ⟨m, -, rfl⟩ := Option.map_eq_some_iff.mp hq
    intro r hr hr'
    obtain ⟨t, -, rfl⟩ := List.mem_map.mp hr
    obtain ⟨t', -, heq⟩ := List.mem_map.mp hr'
    exact hlt.ne (congrArg TaskRef.agentId heq).symm

/-- An update begins with the old tasks of its job. -/
theorem rolls_snapshot (h : Agree [] l w) (name : String) :
    (l.snapshotJobTasks w name).2 = w ∧ Rolls name (l.snapshotJobTasks w name).1 l w := by
  have hloop := jobStatusLoop_eq l w name l.agents
  unfold Leader.snapshotJobTasks Leader.jobStatus
  cases l.store.get name with
  | none => exact ⟨rfl, h, List.nodup_nil, fun _ r hr => by cases hr⟩
  | some j =>
    dsimp only
    rw [hloop]
    exact ⟨rfl, h, nodup_oldTasks h name l.agentsSorted, fun _ => listed_oldTasks h name l.agents⟩

namespace Agree

theorem updateRolling (h : Agree [] l w) (hne : job.name ≠ "") :
    Agree [] (l.updateRolling w job).2.1 (l.updateRolling w job).2.2 := by
  obtain ⟨hw, hrolls⟩ := rolls_snapshot h job.name
  unfold Leader.updateRolling
  generalize l.snapshotJobTasks w job.name = r at hw hrolls ⊢
  obtain ⟨refs, w'⟩ := r
  obtain rfl : w' = w := hw
  dsimp only at hrolls ⊢
  cases hput : l.storePut job with
  | error e => exact h
  | ok l' =>
    have hstored : Rolls job.name refs l' w' :=
      ⟨Agree.ledger.storePut h hne hput, hrolls.nodup, hrolls.listed⟩
    have hloop := hstored.rollLoop hne 0
    dsimp only
    generalize Leader.rollLoop job refs 0 l' w' = r at hloop ⊢
    obtain ⟨_ | _, l'', w''⟩ := r
    · exact hloop
    · exact Agree.ledger.reconcileJobs hloop

theorem blueGreenLoop (hne : job.name ≠ "") {refs : List TaskRef} (count k i : ℕ)
    (h : Rolls job.name refs l w) :
    Rolls job.name refs (Leader.blueGreenLoop job count k i l w).2.1
      (Leader.blueGreenLoop job count k i l w).2.2 := by
  induction k generalizing i l w with
  | zero => exact h
  | succ k ih =>
    have hplace := (grows_place hne h.agree).rolls h ((Agree.ledger.serves hne).place h.agree false)
    unfold Leader.blueGreenLoop
    generalize l.place w job false = r at hplace ⊢
    obtain ⟨_ | _, l', w'⟩ := r
    · exact hplace
    · exact ih _ hplace

theorem updateBlueGreen (h : Agree [] l w) (hne : job.name ≠ "") :
    Agree [] (l.updateBlueGreen w job).2.1 (l.updateBlueGreen w job).2.2 := by
  obtain ⟨hw, hrolls⟩ := rolls_snapshot h job.name
  unfold Leader.updateBlueGreen
  generalize l.snapshotJobTasks w job.name = r at hw hrolls ⊢
  obtain ⟨refs, w'⟩ := r
  obtain rfl : w' = w := hw
  dsimp only at hrolls ⊢
  cases hput : l.storePut job with
  | error e => exact h
  | ok l' =>
    have hstored : Rolls job.name refs l' w' :=
      ⟨Agree.ledger.storePut h hne hput, hrolls.nodup, hrolls.listed⟩
    have hloop := blueGreenLoop hne job.desired job.desired 0 hstored
    dsimp only
    generalize Leader.blueGreenLoop job job.desired job.desired 0 l' w' = r at hloop ⊢
    obtain ⟨_ | _, l'', w''⟩ := r
    · exact hloop.agree
    · exact Agree.ledger.emit hloop.stopOldTasks _

theorem updateJob (h : Agree [] l w) (job : Job) :
    Agree [] (l.updateJob w job).2.1 (l.updateJob w job).2.2 :=
  ledger.updateJob h job (fun _ _ hne => h.updateRolling hne) fun _ _ hne => h.updateBlueGreen hne

/-! ### Events of the agents -/

/-- An event that keeps the task keeps the books. -/
theorem node {id : String} {n n' : Node.Agent} (h : Agree [] l w) (hn : w.nodes.get? id = some n)
    {now : Nanos} {e : NodeEvent} (he : nodeStep n now e = some n') :
    Agree [] l (w.set id n') := by
  have hawaited : ∀ {t}, awaited n t = true → ∀ e, n.tasks.get? t = some e → e.starting = true := by
    intro t ht e he
    simpa [awaited, he] using ht
  cases e with
  | started t driver ok =>
    simp only [nodeStep] at he
    split_ifs at he with ht
    cases he
    exact h.keeps hn fun hs => Node.Agent.onStarted_keeps hs now (hawaited ht) driver (by simp)
  | startFailed t driver =>
    simp only [nodeStep] at he
    split_ifs at he with ht
    cases he
    exact h.keeps hn fun hs => Node.Agent.onStarted_keeps hs now (hawaited ht) driver (by simp)
  | progress t downloaded total =>
    cases he
    exact h.keeps hn fun hs => Node.Agent.onProgress_keeps hs t downloaded total
  | status t status =>
    cases he
    exact h.keeps hn fun hs => Node.Agent.onStatus_keeps hs now t status
  | probed t outcome =>
    cases he
    exact h.keeps hn fun hs => Node.Agent.onProbe_keeps hs now t outcome
  | usage t cores core =>
    cases he
    exact h.keeps hn fun hs => Node.Agent.recordUsage_keeps hs t cores core
  | tick =>
    cases he
    exact h.keeps hn fun hs => Node.Agent.tick_keeps hs now

/-- **Every operation keeps the invariant.** -/
theorem opStep (h : Agree [] l w) {op : Op} {s : Cluster} (hs : opStep l w op = some s) :
    Agree [] s.leader s.world := by
  cases op with
  | dispatchJob job =>
    cases hs
    exact ledger.dispatchJob h job
  | updateJob job =>
    cases hs
    exact h.updateJob job
  | deleteJob name =>
    cases hs
    exact ledger.removeJob h name
  | patchJobPriority name target =>
    cases hs
    exact ledger.patchJobPriority h name target
  | tick =>
    cases hs
    exact ledger.tick h w.now
  | registerAgent agent =>
    obtain ⟨n, hn, rfl⟩ := Option.map_eq_some_iff.mp hs
    exact ledger.registerAgent h agent _ w.now (h.insertAgent { agent with lastSeen := w.now } hn)
  | heartbeat id version =>
    cases hs
    exact h.heartbeat id version w.now
  | node id e =>
    obtain ⟨n, hn, hs⟩ := Option.bind_eq_some_iff.mp hs
    obtain ⟨n', hn', rfl⟩ := Option.map_eq_some_iff.mp hs
    exact h.node hn hn'
  | handBack id taskId driver =>
    obtain ⟨n, hn, hs⟩ := Option.bind_eq_some_iff.mp hs
    obtain ⟨e, he, hs⟩ := Option.bind_eq_some_iff.mp hs
    split_ifs at hs
    cases hs
    obtain ⟨hsound, hids, hcount⟩ :=
      Node.Agent.onStarted_noCapacity (h.sound hn) w.now taskId driver he
    exact ledger.reconcileJobs (h.less hn hsound hids fun _ => hcount)

end Agree

/-! ### Runs -/

theorem Fresh.agree {s : Cluster} (h : Fresh s) : Agree [] s.leader s.world := by
  refine ⟨h.named, fun {id n} hn => ?_, fun _ a ha => ?_⟩
  · obtain ⟨settings, rfl⟩ := h.nodes id n hn
    exact Node.Agent.sound_new settings
  · rw [h.agents] at ha
    cases ha

/-- The state after a step has only replacements of one for one, and ids left. -/
def FairStep (s : Cluster) (e : Event) : Prop :=
  ∀ s', cluster.step s e = some s' → Fair s'.world

theorem fair_iff {w : World} : Fair w ↔
    (∀ s ∈ w.swaps, s.found = 1) ∧ ∀ e ∈ w.nodes.entries, e.2.ids.draws ≤ 2 ^ 64 :=
  ⟨fun h => ⟨h.swaps, fun e he => h.draws e.1 e.2 (SortedMap.get?_eq_some_iff.mpr he)⟩,
    fun h => ⟨h.1, fun id n hn => h.2 (id, n) (SortedMap.get?_eq_some_iff.mp hn)⟩⟩

instance : DecidablePred Fair := fun _ => decidable_of_iff _ fair_iff.symm

instance (s : Cluster) (e : Event) : Decidable (FairStep s e) :=
  inferInstanceAs (Decidable (∀ s', cluster.step s e = some s' → Fair s'.world))

/-- **The books of the leader are those of the agents**: in every run from the start in which each
replacement of a rolling update is one for one, after every operation. -/
theorem books_always {s : Cluster} {es : List Event} (hinit : cluster.Init s)
    (hfair : cluster.Along FairStep s es) : cluster.Always Books s es := by
  have hstart : Agree [] s.leader s.world ∧ Fair s.world := by
    refine ⟨hinit.agree, ⟨fun x hx => ?_, fun id n hn => ?_⟩⟩
    · rw [hinit.swaps] at hx
      cases hx
    · obtain ⟨settings, rfl⟩ := hinit.nodes id n hn
      exact Nat.zero_le _
  refine hfair.always (K := fun s => Agree [] s.leader s.world ∧ Fair s.world)
    (fun s hs a ha => ?_) (fun s e s' hs hstep hok => ⟨?_, hok s' hstep⟩) hstart
  · obtain ⟨n, hn, hcount⟩ := hs.1.books hs.2 a ha
    exact ⟨n, hn, fun job => by simpa using hcount job⟩
  · have hnow : Agree [] s.leader { s.world with now := e.now } :=
      ⟨hs.1.named, hs.1.sound, fun hf => hs.1.books ⟨hf.swaps, hf.draws⟩⟩
    exact hnow.opStep hstep

/-- What the leader has booked on an agent, and what the agent has. -/
def Cluster.booked (s : Cluster) (id job : String) : ℕ × Option ℕ :=
  (s.leader.placedOn id job, (s.world.nodes.get? id).map fun n => n.count job)

theorem Cluster.booked_of_books {s : Cluster} (h : Books s) {a : Agent} (ha : a ∈ s.leader.agents)
    (job : String) : (s.booked a.id job).2 = some (s.booked a.id job).1 := by
  obtain ⟨n, hn, hcount⟩ := h a ha
  simp [booked, hn, hcount job]

/-- A leader without jobs, and one agent with four cores. -/
def oneNode : Cluster where
  leader := .new "a" .new
  world := ⟨SortedMap.empty.insert "a" (.new { id := "a", cpuCores := 4 }), 0, []⟩

theorem fresh_oneNode : Fresh oneNode := by
  refine ⟨rfl, fun j hj => (by cases hj), fun id n hn => ⟨{ id := "a", cpuCores := 4 }, ?_⟩, rfl⟩
  simp only [oneNode, SortedMap.get?_insert] at hn
  split_ifs at hn
  · exact (Option.some.inj hn).symm
  · cases hn

/-- A service of two instances of `shares` each. -/
def service (shares : ℤ) : Job :=
  { name := "web", command := "serve", count := 2, cpuShares := shares }

/-- One instance of two cores is updated to three cores, in its place. -/
def updateOne : List Event :=
  [⟨1, .registerAgent { id := "a" }⟩, ⟨2, .dispatchJob { service 2048 with count := 1 }⟩,
    ⟨3, .updateJob { service 3072 with count := 1 }⟩]

theorem books_updateOne : cluster.Init oneNode ∧ cluster.Along FairStep oneNode updateOne ∧
    cluster.Always Books oneNode updateOne := by
  have hfair : cluster.Along FairStep oneNode updateOne := by decide
  exact ⟨fresh_oneNode, hfair, books_always fresh_oneNode hfair⟩

/-- Two instances of two cores each are updated to three cores each: there is no room beside them,
so the agent replaces them. -/
def updateInPlace : List Event :=
  [⟨1, .registerAgent { id := "a" }⟩, ⟨2, .dispatchJob (service 2048)⟩,
    ⟨3, .updateJob (service 3072)⟩]

/-- The agent stops both tasks for one new one, twice; the leader counts one for one, twice: it has
booked two instances, and there is one. -/
theorem replace_loses_instance :
    cluster.Init oneNode ∧ ∃ s, cluster.run oneNode updateInPlace = some s ∧
      s.booked "a" "web" = (2, some 1) ∧ ¬ Books s := by
  obtain ⟨s, hs, heq⟩ := Option.map_eq_some_iff.mp
    (show (cluster.run oneNode updateInPlace).map
      (fun s => (s.booked "a" "web", s.leader.agents)) =
        some ((2, some 1), [{ id := "a", lastSeen := 1 }]) by decide)
  obtain ⟨hbooked, hagents⟩ := Prod.ext_iff.mp heq
  refine ⟨fresh_oneNode, s, hs, hbooked, fun hbooks => ?_⟩
  have := Cluster.booked_of_books hbooks (a := { id := "a", lastSeen := 1 })
    (by rw [show s.leader.agents = _ from hagents]; exact List.mem_singleton.mpr rfl) "web"
  rw [show s.booked "a" "web" = _ from hbooked] at this
  cases this

end Hop.Agentd
