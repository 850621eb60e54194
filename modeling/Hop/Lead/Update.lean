import Hop.Lead.Resurrection

/-!
# Complete rollouts

An update that succeeds clears the rollout flag of the job. By then every task of the old version
should be replaced or told to stop. A recreate stops the job on every agent that has it. A rolling
or blue-green update first asks those agents for their tasks, and an agent that does not answer is
skipped without a word: it keeps the old version, and the flag says that the rollout is finished.
`complete_iff_answered` says that this is the only way.
-/

namespace Hop.Lead

open Hop.Types (Agent Job Map Task)

namespace Logged

variable {N : Type}

/-- The calls since a moment, cut at a later one. -/
theorem since_trans {net net' net'' : Logged N} (h : net.log <+: net'.log)
    (h' : net'.log <+: net''.log) : net''.since net = net'.since net ++ net''.since net' := by
  obtain ⟨cs, hcs⟩ := h
  obtain ⟨cs', hcs'⟩ := h'
  rw [since_eq hcs.symm, since_eq hcs'.symm]
  exact since_eq (by rw [← hcs', ← hcs, List.append_assoc])

theorem since_refl (net : Logged N) : net.since net = [] :=
  since_eq (List.append_nil net.log).symm

end Logged

namespace Leader

variable {N : Type} [Transport N]
variable {old : Job} {l' : Leader}
variable {l : Leader} {net : Logged N} {job : Job} {a : Agent} {name : String}

/-! ### Asking -/

/-- Whether each agent of a list that has the job answers when it is asked for its tasks. -/
def allAnswer (l : Leader) (name : String) : List Agent → N → Bool
  | [], _ => true
  | a :: rest, net =>
    if l.placedOn a.id name = 0 then l.allAnswer name rest net
    else match Transport.tasks net a with
      | (none, _) => false
      | (some _, net) => l.allAnswer name rest net

theorem log_tasks {net' : Logged N} {reply : Option (List Task)}
    (h : Transport.tasks net a = (reply, net')) : net'.log = net.log ++ [.tasks a reply] := by
  cases h
  rfl

/-- An agent that does not answer is in the log. -/
theorem jobStatusLoop_unanswered {agents : List Agent} (h : l.allAnswer name agents net = false) :
    ∃ a ∈ agents, 0 < l.placedOn a.id name ∧
      .tasks a none ∈ (l.jobStatusLoop name agents net).2.since net := by
  induction agents generalizing net with
  | nil => cases h
  | cons a rest ih =>
    unfold allAnswer at h
    unfold jobStatusLoop
    by_cases hpos : l.placedOn a.id name = 0
    · rw [if_pos hpos] at h ⊢
      obtain ⟨a', ha', hpos', hcall⟩ := ih h
      exact ⟨a', List.mem_cons_of_mem a ha', hpos', hcall⟩
    rw [if_neg hpos] at h ⊢
    cases hask : Transport.tasks net a with
    | mk reply net' =>
      have hlog := log_tasks hask
      have hinitial : net.log <+: net'.log := ⟨_, hlog.symm⟩
      have hrest := (silent_jobStatusLoop l name rest net').log
      rw [hask] at h
      cases reply with
      | none =>
        refine ⟨a, List.mem_cons_self, Nat.pos_of_ne_zero hpos, ?_⟩
        refine Logged.mem_since_of_initial hrest ?_
        rw [Logged.since_eq hlog]
        exact List.mem_singleton_self _
      | some tasks =>
        obtain ⟨a', ha', hpos', hcall⟩ := ih h
        exact ⟨a', List.mem_cons_of_mem a ha', hpos', Logged.mem_since_of_suffix hinitial hcall⟩

/-- If all answer, their replies are in the log and in the list. -/
theorem jobStatusLoop_answered {agents : List Agent} (h : l.allAnswer name agents net = true) :
    (∀ a, .tasks a none ∉ (l.jobStatusLoop name agents net).2.since net) ∧
      ∀ a ∈ agents, 0 < l.placedOn a.id name → ∃ tasks,
        .tasks a (some tasks) ∈ (l.jobStatusLoop name agents net).2.since net ∧
        (a.id, tasks.filter fun t => t.jobName = name) ∈ (l.jobStatusLoop name agents net).1 := by
  induction agents generalizing net with
  | nil =>
    refine ⟨fun a ha => ?_, fun a ha => absurd ha List.not_mem_nil⟩
    change _ ∈ net.since net at ha
    rw [Logged.since_refl] at ha
    exact absurd ha List.not_mem_nil
  | cons a rest ih =>
    unfold allAnswer at h
    unfold jobStatusLoop
    by_cases hpos : l.placedOn a.id name = 0
    · rw [if_pos hpos] at h ⊢
      obtain ⟨hnone, hall⟩ := ih h
      refine ⟨hnone, fun a' ha' hpos' => ?_⟩
      rcases List.mem_cons.mp ha' with rfl | ha'
      · exact absurd hpos' (by omega)
      · exact hall a' ha' hpos'
    rw [if_neg hpos] at h ⊢
    cases hask : Transport.tasks net a with
    | mk reply net' =>
      have hlog := log_tasks hask
      have hinitial : net.log <+: net'.log := ⟨_, hlog.symm⟩
      have hrest := (silent_jobStatusLoop l name rest net').log
      rw [hask] at h
      cases reply with
      | none => cases h
      | some tasks =>
        obtain ⟨hnone, hall⟩ := ih h
        have hsince := Logged.since_trans hinitial hrest
        rw [Logged.since_eq hlog] at hsince
        dsimp only
        refine ⟨fun a' ha' => ?_, fun a' ha' hpos' => ?_⟩
        · rw [hsince, List.mem_append, List.mem_singleton] at ha'
          rcases ha' with ha' | ha'
          · cases ha'
          · exact hnone a' ha'
        · rcases List.mem_cons.mp ha' with rfl | ha'
          · refine ⟨tasks, ?_, List.mem_cons_self⟩
            rw [hsince]
            exact List.mem_append_left _ (List.mem_singleton_self _)
          · obtain ⟨ts, hcall, hmem⟩ := hall a' ha' hpos'
            exact ⟨ts, Logged.mem_since_of_suffix hinitial hcall, List.mem_cons_of_mem _ hmem⟩

/-- The old tasks that were found, if all agents answer. -/
theorem snapshotJobTasks_answered (hget : l.store.get name = some old)
    (h : l.allAnswer name l.agents net = true) :
    (∀ a, .tasks a none ∉ (l.snapshotJobTasks net name).2.since net) ∧
      ∀ a ∈ l.agents, 0 < l.placedOn a.id name → ∃ tasks,
        .tasks a (some tasks) ∈ (l.snapshotJobTasks net name).2.since net ∧
        ∀ t ∈ tasks, t.jobName = name → ⟨a.id, t.id⟩ ∈ (l.snapshotJobTasks net name).1 := by
  obtain ⟨hnone, hall⟩ := jobStatusLoop_answered h
  unfold snapshotJobTasks jobStatus
  rw [hget]
  refine ⟨hnone, fun a ha hpos => ?_⟩
  obtain ⟨tasks, hcall, hmem⟩ := hall a ha hpos
  refine ⟨tasks, hcall, fun t ht hname => ?_⟩
  refine List.mem_flatMap.mpr ⟨_, hmem, List.mem_map.mpr ⟨t, ?_, rfl⟩⟩
  exact List.mem_filter.mpr ⟨ht, by simpa using hname⟩

theorem snapshotJobTasks_unanswered (hget : l.store.get name = some old)
    (h : l.allAnswer name l.agents net = false) :
    ∃ a ∈ l.agents, 0 < l.placedOn a.id name ∧
      .tasks a none ∈ (l.snapshotJobTasks net name).2.since net := by
  unfold snapshotJobTasks jobStatus
  rw [hget]
  exact jobStatusLoop_unanswered h

/-- Placing asks nobody for its tasks. -/
theorem tasks_of_places {s s' : Sys N} (h : Places s s') :
    s.net.log <+: s'.net.log ∧ ∀ c ∈ s'.net.since s.net, c.isTasks = false := by
  refine h.invariant (P := fun t => s.net.log <+: t.net.log ∧
    ∀ c ∈ t.net.since s.net, c.isTasks = false) (fun t t' hstep ht => ?_) ?_
  · obtain ⟨hlog, hcalls⟩ := ht
    have happend : ∀ c, t'.net.log = t.net.log ++ [c] → c.isTasks = false →
        s.net.log <+: t'.net.log ∧ ∀ c ∈ t'.net.since s.net, c.isTasks = false := by
      intro c hc htasks
      have hinitial : t.net.log <+: t'.net.log := ⟨_, hc.symm⟩
      refine ⟨hlog.trans hinitial, fun c' hc' => ?_⟩
      rw [Logged.since_trans hlog hinitial, Logged.since_eq hc, List.mem_append,
        List.mem_singleton] at hc'
      rcases hc' with hc' | rfl
      · exact hcalls c' hc'
      · exact htasks
    cases hstep with
    | run l net agent job replace ha hj => exact happend _ rfl rfl
    | call l net net' c hlog' hc ht => exact happend c hlog' ht
    | track => exact ⟨hlog, hcalls⟩
    | untrack => exact ⟨hlog, hcalls⟩
    | drop => exact ⟨hlog, hcalls⟩
    | note => exact ⟨hlog, hcalls⟩
    | rank => exact ⟨hlog, hcalls⟩
  · refine ⟨List.prefix_rfl, fun c hc => ?_⟩
    rw [Logged.since_refl] at hc
    exact absurd hc List.not_mem_nil

/-! ### Old tasks go -/

/-- The registered agent with an id is the one that is found. -/
theorem agent_of_mem (h : a ∈ l.agents) : l.agent a.id = some a := by
  obtain ⟨b, hb⟩ : ∃ b, l.agent a.id = some b :=
    Option.isSome_iff_exists.mp (List.find?_isSome.mpr ⟨a, h, by simp⟩)
  obtain ⟨hmem, hid⟩ := mem_of_agent hb
  have hnodup : (l.agents.map Agent.id).Nodup :=
    List.pairwise_map.mpr (l.agentsSorted.imp fun h => h.ne)
  rw [hb, List.inj_on_of_nodup_map hnodup hmem h hid]

theorem agent_congr (h : l'.agents = l.agents) (id : String) :
    l'.agent id = l.agent id := by
  unfold agent
  rw [h]

/-- A stop for the task was sent, or its agent accepted to replace it. -/
def Removed (calls : List Call) (job : Job) (a : Agent) (taskId : String) : Prop :=
  .stopTask a taskId ∈ calls ∨ .run a job true .accepted ∈ calls

omit [Transport N] in
theorem Removed.mono {net' net'' : Logged N} {taskId : String}
    (h : Removed (net'.since net) job a taskId) (hlog : net'.log <+: net''.log) :
    Removed (net''.since net) job a taskId :=
  h.imp (Logged.mem_since_of_initial hlog) (Logged.mem_since_of_initial hlog)

omit [Transport N] in
theorem Removed.mono_left {net' net'' : Logged N} {taskId : String}
    (h : Removed (net''.since net') job a taskId) (hlog : net.log <+: net'.log) :
    Removed (net''.since net) job a taskId :=
  h.imp (Logged.mem_since_of_suffix hlog) (Logged.mem_since_of_suffix hlog)

theorem removed_stopOldTask (net : Logged N) (job : Job) {old : TaskRef}
    (ha : l.agent old.agentId = some a) :
    Removed ((l.stopOldTask net job.name old).2.since net) job a old.taskId := by
  have hlog : (l.stopOldTask net job.name old).2.log = net.log ++ [.stopTask a old.taskId] := by
    unfold stopOldTask
    rw [ha]
    rfl
  rw [Logged.since_eq hlog]
  exact .inl (List.mem_singleton_self _)

/-- Where the old task counts as replaced, its agent accepted the replacement. -/
theorem removed_rollOne {net' : Logged N} {old : TaskRef}
    (h : l.rollOne net job old = (.ok true, l', net')) (ha : l.agent old.agentId = some a) :
    Removed (net'.since net) job a old.taskId := by
  have hmoves := moves_place l net job false
  unfold rollOne at h
  split at h
  · cases h
  · rename_i k l₁ net₁ heq
    rw [heq] at hmoves
    rw [agent_congr hmoves.agents, ha] at h
    dsimp only at h
    split at h
    · rename_i net₂ hrun
      cases h
      refine .inr (Logged.mem_since_of_suffix hmoves.log ?_)
      rw [Logged.since_eq (Logged.log_run hrun)]
      exact List.mem_singleton_self _
    · cases h
  · cases h

theorem removed_rollAfter (net : Logged N) (job : Job) (i : ℕ) {old : TaskRef}
    (ha : l.agent old.agentId = some a) :
    Removed ((l.rollAfter net job i old false).2.since net) job a old.taskId := by
  refine (removed_stopOldTask net job ha).mono ?_
  unfold rollAfter
  simp only [Bool.false_eq_true, if_false]
  split_ifs
  · exact ⟨_, rfl⟩
  · exact List.prefix_rfl

/-- **A rolling update that went through removed every old task.** -/
theorem removed_rollLoop {olds : List TaskRef} {i : ℕ} (h : (rollLoop job olds i l net).1 = .ok ()) :
    ∀ old ∈ olds, ∀ a, l.agent old.agentId = some a →
      Removed ((rollLoop job olds i l net).2.2.since net) job a old.taskId := by
  induction olds generalizing i l net with
  | nil => exact fun _ hold => absurd hold List.not_mem_nil
  | cons old rest ih =>
    have hone := moves_rollOne l net job old
    unfold rollLoop at h ⊢
    by_cases hi : i < job.desired
    · rw [if_pos hi] at h ⊢
      cases hroll : l.rollOne net job old with
      | mk r st =>
        obtain ⟨l', net'⟩ := st
        rw [hroll] at h hone
        cases r with
        | error why => cases h
        | ok replaced =>
          have hafter := moves_rollAfter l' net' job i old replaced
          have hloop := moves_rollLoop job rest (i + 1) (l'.rollAfter net' job i old replaced).1
            (l'.rollAfter net' job i old replaced).2
          intro old' hold' a ha
          have ha' : l'.agent old'.agentId = some a := by rwa [agent_congr hone.agents]
          rcases List.mem_cons.mp hold' with rfl | hold'
          · cases replaced with
            | true => exact (removed_rollOne hroll ha).mono (hafter.log.trans hloop.log)
            | false =>
              exact ((removed_rollAfter net' job i ha').mono hloop.log).mono_left hone.log
          · have ha'' : (l'.rollAfter net' job i old replaced).1.agent old'.agentId = some a := by
              rwa [agent_congr hafter.agents]
            exact (ih h old' hold' a ha'').mono_left (hone.log.trans hafter.log)
    · rw [if_neg hi] at h ⊢
      have hafter := moves_rollAfter l net job i old false
      have hloop := moves_rollLoop job rest (i + 1) (l.rollAfter net job i old false).1
        (l.rollAfter net job i old false).2
      intro old' hold' a ha
      rcases List.mem_cons.mp hold' with rfl | hold'
      · exact (removed_rollAfter net job i ha).mono hloop.log
      · have ha' : (l.rollAfter net job i old false).1.agent old'.agentId = some a := by
          rwa [agent_congr hafter.agents]
        exact (ih h old' hold' a ha').mono_left hafter.log

theorem removed_stopOldTasks (job : Job) {olds : List TaskRef} :
    ∀ old ∈ olds, ∀ a, l.agent old.agentId = some a →
      Removed ((stopOldTasks job.name olds l net).2.since net) job a old.taskId := by
  induction olds generalizing l net with
  | nil => exact fun _ hold => absurd hold List.not_mem_nil
  | cons old rest ih =>
    have hone := moves_stopOldTask l net job.name old
    have hloop := moves_stopOldTasks job.name rest (l.stopOldTask net job.name old).1
      (l.stopOldTask net job.name old).2
    intro old' hold' a ha
    rcases List.mem_cons.mp hold' with rfl | hold'
    · exact (removed_stopOldTask net job ha).mono hloop.log
    · have ha' : (l.stopOldTask net job.name old).1.agent old'.agentId = some a := by
        rwa [agent_congr hone.agents]
      exact (ih old' hold' a ha').mono_left hone.log

/-! ### The rollout flag -/

/-- The store says that a rollout of the job is under way. -/
def Deploying (l : Leader) (name : String) : Prop :=
  ∃ j ∈ l.store.jobs, j.name = name ∧ j.deploying = true

omit [Transport N] in
theorem deploying_renumbers (h : Renumbers l l') :
    l'.Deploying name ↔ l.Deploying name := by
  have key : ∀ l : Leader, l.Deploying name ↔
      ∃ j ∈ l.store.jobs.map unranked, j.name = name ∧ j.deploying = true := by
    intro l
    constructor
    · rintro ⟨j, hj, hname, hdep⟩
      exact ⟨unranked j, List.mem_map_of_mem hj, hname, hdep⟩
    · rintro ⟨j, hj, hname, hdep⟩
      obtain ⟨k, hk, rfl⟩ := List.mem_map.mp hj
      exact ⟨k, hk, hname, hdep⟩
  rw [key, key, h.jobs]

/-- Placing keeps the flag. -/
theorem deploying_of_places {s s' : Sys N} (h : Places s s') (hdep : s.leader.Deploying name) :
    s'.leader.Deploying name := by
  refine h.invariant (P := fun t => t.leader.Deploying name) (fun t t' hstep ht => ?_) hdep
  cases hstep with
  | run => exact ht
  | call => exact ht
  | track => exact ht
  | untrack => exact ht
  | drop => exact ht
  | note l l' net hnotes =>
    obtain ⟨j, hj, hname, hflag⟩ := ht
    exact ⟨j, by rwa [hnotes.store], hname, hflag⟩
  | rank l net n i hi => exact (deploying_renumbers (renumbers_storeSetPriority l n i)).mpr ht

omit [Transport N] in
theorem not_deploying_storeSetDeploying (l : Leader) (name : String) :
    ¬ (l.storeSetDeploying name false).Deploying name := by
  rintro ⟨j, hj, hname, hflag⟩
  unfold storeSetDeploying at hj
  cases hget : l.store.get name with
  | none =>
    rw [hget] at hj
    exact MemStore.get_eq_none_iff.mp hget (List.mem_map.mpr ⟨j, hj, hname⟩)
  | some k =>
    rw [hget] at hj
    obtain ⟨i, -, rfl⟩ := List.mem_map.mp hj
    split_ifs at hname hflag with hi
    exact hi hname

/-! ### The policies -/

omit [Transport N] in
/-- A job that is there can be replaced. -/
theorem storePut_of_get (h : l.store.get job.name = some old) :
    ∃ l', l.storePut job = .ok l' := by
  obtain ⟨hold, hname⟩ := MemStore.get_eq_some_iff.mp h
  have hmem : job.name ∈ l.store.jobs.map Job.name := List.mem_map.mpr ⟨old, hold, hname⟩
  unfold storePut MemStore.put
  rw [dif_pos hmem]
  exact ⟨_, rfl⟩

/-- A rollout that begins with the list of the old tasks: it stores the job and places, and if it
goes through, every old task is removed. -/
structure Rolls (l : Leader) (net : Logged N) (job : Job)
    (r : Except Error Unit × Leader × Logged N) : Prop where
  stored : ∃ l₁, l.storePut job = .ok l₁ ∧
    Places ⟨l₁, (l.snapshotJobTasks net job.name).2⟩ ⟨r.2.1, r.2.2⟩
  removed : r.1 = .ok () → ∀ old ∈ (l.snapshotJobTasks net job.name).1, ∀ a,
    l.agent old.agentId = some a →
      Removed (r.2.2.since (l.snapshotJobTasks net job.name).2) job a old.taskId

theorem rolls_updateRolling (net : Logged N) (hget : l.store.get job.name = some old) :
    Rolls l net job (l.updateRolling net job) := by
  obtain ⟨l₁, hput⟩ := storePut_of_get hget
  unfold updateRolling
  generalize hsnap : l.snapshotJobTasks net job.name = snap
  obtain ⟨olds, net₁⟩ := snap
  dsimp only
  rw [hput]
  have hloop := places_rollLoop olds 0 net₁ (holds_of_mem (mem_of_storePut hput))
  have hremoved : (rollLoop job olds 0 l₁ net₁).1 = .ok () → ∀ old ∈ olds, ∀ a,
      l₁.agent old.agentId = some a →
        Removed ((rollLoop job olds 0 l₁ net₁).2.2.since net₁) job a old.taskId := removed_rollLoop
  dsimp only
  generalize rollLoop job olds 0 l₁ net₁ = r at hloop hremoved
  obtain ⟨res, l₂, net₂⟩ := r
  cases res with
  | error e => exact ⟨⟨l₁, hput, by rw [hsnap]; exact hloop⟩, fun h => by cases h⟩
  | ok u =>
    have hreconcile := places_reconcileJobs l₂ net₂
    refine ⟨⟨l₁, hput, by rw [hsnap]; exact hloop.trans hreconcile⟩, fun _ o ho a ha => ?_⟩
    rw [hsnap] at ho ⊢
    have ha₁ : l₁.agent o.agentId = some a := by rwa [agent_congr (storePut_frame hput).2.1]
    exact (hremoved rfl o ho a ha₁).mono (tasks_of_places hreconcile).1

theorem rolls_updateBlueGreen (net : Logged N) (hget : l.store.get job.name = some old) :
    Rolls l net job (l.updateBlueGreen net job) := by
  obtain ⟨l₁, hput⟩ := storePut_of_get hget
  unfold updateBlueGreen
  generalize hsnap : l.snapshotJobTasks net job.name = snap
  obtain ⟨olds, net₁⟩ := snap
  dsimp only
  rw [hput]
  have hj : l₁.Holds job := holds_of_mem (mem_of_storePut hput)
  have hloop := places_blueGreenLoop job.desired job.desired 0 net₁ hj
  have hmoves := moves_blueGreenLoop job job.desired job.desired 0 l₁ net₁
  dsimp only
  generalize blueGreenLoop job job.desired job.desired 0 l₁ net₁ = r at hloop hmoves
  obtain ⟨res, l₂, net₂⟩ := r
  cases res with
  | error e => exact ⟨⟨l₁, hput, by rw [hsnap]; exact hloop⟩, fun h => by cases h⟩
  | ok u =>
    have hstops := places_stopOldTasks olds net₂ (holds_congr hmoves.store hj)
    refine ⟨⟨l₁, hput, ?_⟩, fun _ o ho a ha => ?_⟩
    · rw [hsnap]
      exact (hloop.trans hstops).trans (places_emit _ _ _)
    · rw [hsnap] at ho ⊢
      have ha₂ : l₂.agent o.agentId = some a := by
        rwa [agent_congr (hmoves.agents.trans (storePut_frame hput).2.1)]
      exact (removed_stopOldTasks job o ho a ha₂).mono_left hmoves.log

/-- A call that asks is no part of placing. -/
theorem not_tasks_of_places {s s' : Sys N} (h : Places s s') {reply : Option (List Task)} :
    .tasks a reply ∉ s'.net.since s.net := by
  intro hcall
  have hno := (tasks_of_places h).2 _ hcall
  cases hno

theorem places_stopJobs (l : Leader) (name : String) (agents : List Agent) (net : Logged N) :
    Places ⟨l, net⟩ ⟨l, agents.foldl (fun net a => (Transport.stopJob net a name).2) net⟩ :=
  places_foldl l (fun _ _ => places_stopJob rfl) agents net

/-- What the agents of a list are told when the job is stopped on each of them. -/
theorem stopJob_foldl (l : Leader) (name : String) (agents : List Agent) (net : Logged N) :
    ∀ a ∈ agents, ∃ b, .stopJob a name b ∈
      (agents.foldl (fun net a => (Transport.stopJob net a name).2) net).since net := by
  induction agents generalizing net with
  | nil => exact fun a ha => absurd ha List.not_mem_nil
  | cons a rest ih =>
    have hlog : (Transport.stopJob net a name).2.log =
        net.log ++ [.stopJob a name (Transport.stopJob net a name).1] := rfl
    have hrest := (tasks_of_places (places_stopJobs l name rest (Transport.stopJob net a name).2)).1
    intro a' ha'
    rcases List.mem_cons.mp ha' with rfl | ha'
    · refine ⟨(Transport.stopJob net a' name).1, Logged.mem_since_of_initial hrest ?_⟩
      rw [Logged.since_eq hlog]
      exact List.mem_singleton_self _
    · obtain ⟨b, hb⟩ := ih _ a' ha'
      exact ⟨b, Logged.mem_since_of_suffix ⟨_, hlog.symm⟩ hb⟩

/-- A recreate stops the job on every agent that has it, and asks nobody. -/
theorem stops_updateRecreate (l : Leader) (net : Logged N) (job : Job) :
    (∀ a ∈ l.agents, 0 < l.placedOn a.id job.name →
      ∃ b, .stopJob a job.name b ∈ (l.updateRecreate net job).2.2.since net) ∧
      ∀ a reply, .tasks a reply ∉ (l.updateRecreate net job).2.2.since net := by
  have hstop := stopJob_foldl l job.name (l.takePlacement job.name).1 net
  have hfold := places_stopJobs (l.takePlacement job.name).2 job.name (l.takePlacement job.name).1 net
  unfold updateRecreate
  dsimp only
  generalize (l.takePlacement job.name).1.foldl
    (fun net a => (Transport.stopJob net a job.name).2) net = net₁ at hstop hfold ⊢
  have hstop' : ∀ a ∈ l.agents, 0 < l.placedOn a.id job.name →
      ∃ b, .stopJob a job.name b ∈ net₁.since net := fun a ha hpos =>
    hstop a (List.mem_filter.mpr ⟨ha, decide_eq_true hpos⟩)
  obtain ⟨hlog, hcalls⟩ := tasks_of_places hfold
  rcases places_dispatchJob (l.takePlacement job.name).2 net₁ job with ⟨e, heq⟩ | ⟨l', hput, hplaces⟩
  · rw [heq]
    exact ⟨hstop', fun a reply hcall => by cases hcalls _ hcall⟩
  · have hlog' := (tasks_of_places hplaces).1
    refine ⟨fun a ha hpos => ?_, fun a reply hcall => ?_⟩
    · obtain ⟨b, hb⟩ := hstop' a ha hpos
      exact ⟨b, Logged.mem_since_of_initial hlog' hb⟩
    · rw [Logged.since_trans hlog hlog', List.mem_append] at hcall
      rcases hcall with hcall | hcall
      · cases hcalls _ hcall
      · exact not_tasks_of_places hplaces hcall

/-! ### Complete rollouts -/

/-- The task was told to stop, by itself or with its job, or was replaced. -/
def Gone (calls : List Call) (name : String) (a : Agent) (t : Task) : Prop :=
  .stopTask a t.id ∈ calls ∨ (∃ b, .stopJob a name b ∈ calls) ∨
    ∃ job : Job, job.name = name ∧ .run a job true .accepted ∈ calls

/-- An update with the calls `calls` that took the leader from `l` to `l'` is a complete rollout,
if the agents ran the tasks of `ran` before it. -/
structure Complete (ran : Agent → List Task) (name : String) (l : Leader) (calls : List Call)
    (l' : Leader) : Prop where
  gone : ∀ a ∈ l.agents, 0 < l.placedOn a.id name → ∀ t ∈ ran a, t.jobName = name →
    Gone calls name a t
  /-- An agent that could not be asked for its tasks leaves the rollout under way. -/
  asked : ∀ a ∈ l.agents, 0 < l.placedOn a.id name → .tasks a none ∈ calls → l'.Deploying name

/-- The agents report what they run. -/
def Truthful (ran : Agent → List Task) (calls : List Call) : Prop :=
  ∀ a tasks, .tasks a (some tasks) ∈ calls → tasks = ran a

section Rolls

variable {l : Leader} {net : Logged N} {job old : Job} {r : Except Error Unit × Leader × Logged N}

theorem Rolls.log (h : Rolls l net job r) :
    net.log <+: (l.snapshotJobTasks net job.name).2.log ∧
      (l.snapshotJobTasks net job.name).2.log <+: r.2.2.log := by
  obtain ⟨l₁, -, hplaces⟩ := h.stored
  exact ⟨(silent_snapshotJobTasks l net job.name).log, (tasks_of_places hplaces).1⟩

/-- The flag is up when the rollout ends, well or not. -/
theorem Rolls.deploying (h : Rolls l net job r) (hflag : job.deploying = true) :
    r.2.1.Deploying job.name := by
  obtain ⟨l₁, hput, hplaces⟩ := h.stored
  exact deploying_of_places hplaces ⟨job, mem_of_storePut hput, rfl, hflag⟩

theorem Rolls.unanswered (h : Rolls l net job r) (hget : l.store.get job.name = some old)
    (hans : l.allAnswer job.name l.agents net = false) :
    ∃ a ∈ l.agents, 0 < l.placedOn a.id job.name ∧ .tasks a none ∈ r.2.2.since net := by
  obtain ⟨a, ha, hpos, hcall⟩ := snapshotJobTasks_unanswered hget hans
  exact ⟨a, ha, hpos, Logged.mem_since_of_initial h.log.2 hcall⟩

theorem Rolls.answered (h : Rolls l net job r) (hget : l.store.get job.name = some old)
    (hans : l.allAnswer job.name l.agents net = true) (a : Agent) :
    .tasks a none ∉ r.2.2.since net := by
  obtain ⟨l₁, -, hplaces⟩ := h.stored
  intro hcall
  rw [Logged.since_trans h.log.1 h.log.2, List.mem_append] at hcall
  rcases hcall with hcall | hcall
  · exact (snapshotJobTasks_answered hget hans).1 a hcall
  · exact not_tasks_of_places hplaces hcall

theorem Rolls.gone (h : Rolls l net job r) (hget : l.store.get job.name = some old)
    (hans : l.allAnswer job.name l.agents net = true) (hok : r.1 = .ok ()) {ran : Agent → List Task}
    (htruth : Truthful ran (r.2.2.since net)) (ha : a ∈ l.agents)
    (hpos : 0 < l.placedOn a.id job.name) {t : Task} (ht : t ∈ ran a) (hname : t.jobName = job.name)
    : Gone (r.2.2.since net) job.name a t := by
  obtain ⟨tasks, hcall, hrefs⟩ := (snapshotJobTasks_answered hget hans).2 a ha hpos
  have htasks := htruth a tasks (Logged.mem_since_of_initial h.log.2 hcall)
  have hremoved := h.removed hok _ (hrefs t (htasks ▸ ht) hname) a (agent_of_mem ha)
  rcases hremoved.mono_left h.log.1 with hstop | hrun
  · exact .inl hstop
  · exact .inr (.inr ⟨job, rfl, hrun⟩)

end Rolls

/-- The rollout of a stored definition by its policy. -/
def rollout (l : Leader) (net : Logged N) (job : Job) : Except Error Unit × Leader × Logged N :=
  match job.policy with
  | .rolling => l.updateRolling net job
  | .recreate => l.updateRecreate net job
  | .blueGreen => l.updateBlueGreen net job

theorem updateJob_eq (net : Logged N) (hget : l.store.get job.name = some old)
    (hroll : job.checkRollable = .ok ()) :
    l.updateJob net job =
      ((l.rollout net (updated old job)).1,
        (match (l.rollout net (updated old job)).1 with
          | .ok () => (l.rollout net (updated old job)).2.1.storeSetDeploying job.name false
          | .error _ => (l.rollout net (updated old job)).2.1).normalizePriorities,
        (l.rollout net (updated old job)).2.2) := by
  unfold updateJob
  rw [hget]
  dsimp only
  rw [hroll]
  rfl

theorem rollable_of_ok (h : (l.updateJob net job).1 = .ok ()) :
    ∃ old, l.store.get job.name = some old ∧ job.checkRollable = .ok () := by
  unfold updateJob at h
  cases hget : l.store.get job.name with
  | none =>
    rw [hget] at h
    cases h
  | some old =>
    rw [hget] at h
    dsimp only at h
    cases hroll : job.checkRollable with
    | error e =>
      rw [hroll] at h
      cases h
    | ok u => exact ⟨old, rfl, rfl⟩

theorem rolls_rollout (net : Logged N) (hget : l.store.get job.name = some old)
    (hpolicy : job.policy ≠ .recreate) :
    Rolls l net job (l.rollout net job) := by
  unfold rollout
  cases hp : job.policy with
  | rolling => exact rolls_updateRolling net hget
  | recreate => exact absurd hp hpolicy
  | blueGreen => exact rolls_updateBlueGreen net hget

/-- A rollout that goes through is complete, up to the flag, exactly if it asks nobody or
everybody answers. -/
theorem complete_rollout (hget : l.store.get job.name = some old)
    (hok : (l.rollout net job).1 = .ok ()) (hflag : ¬ l'.Deploying job.name)
    {ran : Agent → List Task} (htruth : Truthful ran ((l.rollout net job).2.2.since net)) :
    Complete ran job.name l ((l.rollout net job).2.2.since net) l' ↔
      job.policy = .recreate ∨ l.allAnswer job.name l.agents net = true := by
  by_cases hpolicy : job.policy = .recreate
  · have heq : l.rollout net job = l.updateRecreate net job := by
      unfold rollout
      rw [hpolicy]
    obtain ⟨hstop, hask⟩ := stops_updateRecreate l net job
    rw [heq]
    refine ⟨fun _ => .inl hpolicy, fun _ => ⟨fun a ha hpos t _ _ => .inr (.inl ?_), ?_⟩⟩
    · exact hstop a ha hpos
    · exact fun a _ _ hcall => absurd hcall (hask a none)
  have hrolls := rolls_rollout net hget hpolicy
  constructor
  · intro hcomplete
    refine .inr (Bool.eq_true_of_not_eq_false fun hans => ?_)
    obtain ⟨a, ha, hpos, hcall⟩ := hrolls.unanswered hget hans
    exact hflag (hcomplete.asked a ha hpos hcall)
  · intro hcond
    have hans := hcond.resolve_left hpolicy
    refine ⟨fun a ha hpos t ht hname => ?_, fun a _ _ hcall => ?_⟩
    · exact hrolls.gone hget hans hok htruth ha hpos ht hname
    · exact absurd hcall (hrolls.answered hget hans a)

/-- A failed update that could not ask an agent leaves the flag up. -/
theorem deploying_of_unanswered (hfail : (l.updateJob net job).1 ≠ .ok ())
    (hcall : .tasks a none ∈ (l.updateJob net job).2.2.since net) :
    (l.updateJob net job).2.1.Deploying job.name := by
  have hrefused : ∀ e, l.updateJob net job ≠ (.error e, l, net) := by
    intro e heq
    rw [heq, Logged.since_refl] at hcall
    exact absurd hcall List.not_mem_nil
  cases hget : l.store.get job.name with
  | none => exact absurd (by unfold updateJob; rw [hget]) (hrefused (.notFound (.new job.name)))
  | some old =>
    cases hroll : job.checkRollable with
    | error e =>
      exact absurd (by unfold updateJob; rw [hget]; dsimp only; rw [hroll]) (hrefused (.json e))
    | ok u =>
      have hget' : l.store.get (updated old job).name = some old := hget
      rw [updateJob_eq net hget hroll] at hfail hcall ⊢
      dsimp only at hfail hcall ⊢
      cases hres : (l.rollout net (updated old job)).1 with
      | ok u => exact absurd hres hfail
      | error e =>
        dsimp only
        rw [deploying_renumbers (renumbers_normalizePriorities _)]
        by_cases hpolicy : (updated old job).policy = .recreate
        · have heq : l.rollout net (updated old job) = l.updateRecreate net (updated old job) := by
            unfold rollout
            rw [hpolicy]
          rw [heq] at hcall
          exact absurd hcall ((stops_updateRecreate l net _).2 a none)
        · exact (rolls_rollout net hget' hpolicy).deploying rfl

end Leader

open Leader

variable {N : Type} [Transport N]

/-- **When an update is a complete rollout.** If the update succeeds, the flag of the job is down,
and the rollout is complete if and only if the policy is recreate or every agent that has the job
answers when it is asked for its tasks. If it fails, an agent that did not answer leaves the flag
up. -/
theorem complete_iff_answered (l : Leader) (net : Logged N) (job : Job) (ran : Agent → List Task)
    (htruth : Truthful ran ((l.updateJob net job).2.2.since net)) :
    ((l.updateJob net job).1 = .ok () → ¬ (l.updateJob net job).2.1.Deploying job.name ∧
      (Complete ran job.name l ((l.updateJob net job).2.2.since net) (l.updateJob net job).2.1 ↔
        job.policy = .recreate ∨ l.allAnswer job.name l.agents net = true)) ∧
    ((l.updateJob net job).1 ≠ .ok () → ∀ a ∈ l.agents, 0 < l.placedOn a.id job.name →
      .tasks a none ∈ (l.updateJob net job).2.2.since net →
        (l.updateJob net job).2.1.Deploying job.name) := by
  refine ⟨fun hok => ?_, fun hfail a _ _ hcall => ?_⟩
  · obtain ⟨old, hget, hroll⟩ := rollable_of_ok hok
    have hget' : l.store.get (updated old job).name = some old := hget
    rw [updateJob_eq net hget hroll] at hok htruth ⊢
    have hres : (l.rollout net (updated old job)).1 = .ok () := hok
    dsimp only at htruth ⊢
    rw [hres]
    have hflag : ¬ ((l.rollout net (updated old job)).2.1.storeSetDeploying job.name
        false).normalizePriorities.Deploying job.name := by
      rw [deploying_renumbers (renumbers_normalizePriorities _)]
      exact not_deploying_storeSetDeploying _ _
    exact ⟨hflag, complete_rollout hget' hres hflag htruth⟩
  · exact deploying_of_unanswered hfail hcall

/-- Agents that accept everything and report the tasks of a list. -/
structure ReportingAgents where
  tasks : List Task

instance : Transport ReportingAgents where
  run n _ _ _ := (.accepted, n)
  stopJob n _ _ := (true, n)
  stopTask n _ _ := n
  deleteJob n _ _ := n
  tasks n _ := (some n.tasks, n)
  pause n _ := n

/-- A leader with the job `web` placed once, on agent `b`. -/
def placedOnce : Leader :=
  ((emptyLeader.serve (.op (.registerAgent { id := "b" } .empty 5))).serve
    (.op (.dispatchJob { name := "web" }))).leader

/-- The agent answers: its old task is stopped beside the new one. -/
theorem complete_reported_task :
    let net : Logged ReportingAgents := ⟨⟨[{ id := "web-1", jobName := "web" }]⟩, []⟩
    let r := placedOnce.updateJob net { name := "web" }
    r.1 = .ok () ∧ Complete (fun _ => net.net.tasks) "web" placedOnce (r.2.2.since net) r.2.1 := by
  intro net r
  have hlog : r.2.2.since net = [.tasks { id := "b", lastSeen := 5 } (some net.net.tasks),
      .run { id := "b", lastSeen := 5 } { name := "web", deploying := true }
        false .accepted, .stopTask { id := "b", lastSeen := 5 } "web-1"] := by decide
  have htruth : Truthful (fun _ => net.net.tasks) (r.2.2.since net) := by
    intro a tasks hcall
    rw [hlog] at hcall
    simp only [List.mem_cons, Call.tasks.injEq, Option.some.injEq, reduceCtorEq, List.not_mem_nil,
      or_false] at hcall
    exact hcall.2
  refine ⟨rfl, ?_⟩
  exact (((complete_iff_answered placedOnce net { name := "web" } _ htruth).1 rfl).2).mpr
    (.inr (by decide))

/-- The agent does not answer: its old task is not touched, and the update succeeds. -/
theorem silent_agent_keeps_task :
    let net : Logged WillingAgents := ⟨⟨⟩, []⟩
    let ran : Agent → List Task := fun _ => [{ id := "web-1", jobName := "web" }]
    let r := placedOnce.updateJob net { name := "web" }
    Truthful ran (r.2.2.since net) ∧ r.1 = .ok () ∧
      r.2.2.log = [.tasks { id := "b", lastSeen := 5 } none] ∧
      placedOnce.agents = [{ id := "b", lastSeen := 5 }] ∧ placedOnce.placedOn "b" "web" = 1 ∧
      ¬ r.2.1.Deploying "web" ∧ ¬ Gone r.2.2.log "web" { id := "b", lastSeen := 5 }
        { id := "web-1", jobName := "web" } ∧
      ¬ Complete ran "web" placedOnce (r.2.2.since net) r.2.1 := by
  intro net ran r
  have hlog : r.2.2.log = [.tasks { id := "b", lastSeen := 5 } none] := by decide
  have hsince : r.2.2.since net = [.tasks { id := "b", lastSeen := 5 } none] := hlog
  have hagents : placedOnce.agents = [{ id := "b", lastSeen := 5 }] := by decide
  have hcount : placedOnce.placedOn "b" "web" = 1 := by decide
  have hgone : ¬ Gone r.2.2.log "web" { id := "b", lastSeen := 5 }
      { id := "web-1", jobName := "web" } := by
    rw [hlog]
    simp [Gone]
  refine ⟨?_, rfl, hlog, hagents, hcount, ?_, hgone, fun h => hgone ?_⟩
  · intro a tasks hcall
    rw [hsince] at hcall
    simp at hcall
  · rintro ⟨j, hj, -, hflag⟩
    revert j
    decide
  · exact h.gone _ (by rw [hagents]; exact List.mem_singleton_self _) (by rw [hcount]; decide) _
      (List.mem_singleton_self _) rfl

end Hop.Lead
