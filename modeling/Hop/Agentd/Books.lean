import Hop.Agentd.Net
import Hop.Lead.Ledger

/-!
# The books of the leader are those of the agents

For every registered agent and every job, the leader has booked as many instances as the agent has
records (`Books`). Placing, stopping, reconciling and the updates keep that, in every run in which
an agent that replaces its tasks of a job by one new task had exactly one (`Fair`): the leader of a
rolling update takes a replacement for one against one.

Between two calls of an operation the leader may have booked off what an agent still has. `Agree`
therefore carries a list of what is booked off already, and each call that stops it shortens the
list.
-/

namespace Hop.Agentd

open Hop.Types (Agent Job Map Task)
open Hop.Lead (Leader RunReply Transport)

variable {a : Agent} {name : String}

/-- Every replacement was one for one, and no agent ran out of ids. -/
structure Fair (w : World) : Prop where
  swaps : ∀ s ∈ w.swaps, s.found = 1
  draws : ∀ id n, w.nodes.get? id = some n → n.ids.draws ≤ 2 ^ 64

/-- The leader has booked what the agents have, without what is booked off in advance. -/
def BooksBut (off : List (String × String)) (l : Leader) (w : World) : Prop :=
  ∀ a ∈ l.agents, ∃ n, w.nodes.get? a.id = some n ∧
    ∀ job, l.placedOn a.id job = if (a.id, job) ∈ off then 0 else n.count job

/-- **The books of the leader are those of the agents.** -/
def Books (s : Cluster) : Prop :=
  ∀ a ∈ s.leader.agents, ∃ n, s.world.nodes.get? a.id = some n ∧
    ∀ job, s.leader.placedOn a.id job = n.count job

/-- The invariant of the cluster. -/
structure Agree (off : List (String × String)) (l : Leader) (w : World) : Prop where
  named : ∀ j ∈ l.store.jobs, j.name ≠ ""
  sound : ∀ {id n}, w.nodes.get? id = some n → n.Sound
  books : Fair w → BooksBut off l w

/-- The next world has at least the swaps and the draws of this one. -/
theorem Fair.before {w w' : World} (hf : Fair w') (hswaps : w.swaps ⊆ w'.swaps)
    (hnodes : ∀ {id n}, w.nodes.get? id = some n →
      ∃ n', w'.nodes.get? id = some n' ∧ n.ids.draws ≤ n'.ids.draws) : Fair w where
  swaps s hs := hf.swaps s (hswaps hs)
  draws id n hn := by
    obtain ⟨n', hn', hle⟩ := hnodes hn
    exact hle.trans (hf.draws id n' hn')

/-- One agent made a step. -/
structure Steps (id : String) (n n' : Node.Agent) (w w' : World) : Prop where
  before : w.nodes.get? id = some n
  nodes : w'.nodes = w.nodes.insert id n'
  swaps : w.swaps ⊆ w'.swaps
  draws : n.ids.draws ≤ n'.ids.draws

namespace Steps

variable {id : String} {n n' : Node.Agent} {w w' : World}

theorem set (hn : w.nodes.get? id = some n) (hd : n.ids.draws ≤ n'.ids.draws) :
    Steps id n n' w (w.set id n') := ⟨hn, rfl, List.Subset.refl _, hd⟩

theorem after (h : Steps id n n' w w') : w'.nodes.get? id = some n' := by
  rw [h.nodes, SortedMap.get?_insert_self]

theorem other (h : Steps id n n' w w') {id' : String} (hne : id' ≠ id) :
    w'.nodes.get? id' = w.nodes.get? id' := by
  rw [h.nodes, SortedMap.get?_insert, if_neg hne.symm]

theorem fair (h : Steps id n n' w w') (hf : Fair w') : Fair w := by
  refine hf.before h.swaps fun {id' m} hm => ?_
  by_cases hid : id' = id
  · subst hid
    obtain rfl : n = m := Option.some.inj (h.before.symm.trans hm)
    exact ⟨n', h.after, h.draws⟩
  · exact ⟨m, (h.other hid).trans hm, le_refl _⟩

end Steps

namespace Agree

variable {off off' : List (String × String)} {l l' : Leader} {w w' : World}

/-- A change of the leader that does not touch its books. -/
theorem congr (h : Agree off l w) (hagents : l'.agents = l.agents) (hplaced : l'.placed = l.placed)
    (hnamed : ∀ j ∈ l'.store.jobs, j.name ≠ "") : Agree off l' w := by
  refine ⟨hnamed, h.sound, fun hf a ha => ?_⟩
  obtain ⟨n, hn, hcount⟩ := h.books hf a (hagents ▸ ha)
  refine ⟨n, hn, fun job => ?_⟩
  rw [← hcount job, Leader.placedOn, hplaced, Leader.placedOn]

/-- What is booked off in advance is a set, and only registered agents count. -/
theorem reorder (h : Agree off l w)
    (hoff : ∀ a ∈ l.agents, ∀ job, (a.id, job) ∈ off' ↔ (a.id, job) ∈ off) : Agree off' l w := by
  refine ⟨h.named, h.sound, fun hf a ha => ?_⟩
  obtain ⟨n, hn, hcount⟩ := h.books hf a ha
  refine ⟨n, hn, fun job => ?_⟩
  rw [hcount job]
  simp only [hoff a ha job]

/-- **The rule for a step of one agent**: the books of that agent have to follow, and the others
must not change. -/
theorem step {id : String} {n n' : Node.Agent} (h : Agree off l w) (hs : Steps id n n' w w')
    (hsound : n.Sound → n'.Sound) (hagents : l'.agents = l.agents) (hstore : l'.store = l.store)
    (hother : ∀ {id'}, id' ≠ id → ∀ job, l'.placedOn id' job = l.placedOn id' job ∧
      ((id', job) ∈ off' ↔ (id', job) ∈ off))
    (hthis : Fair w' → n.Sound →
      (∀ job, l.placedOn id job = if (id, job) ∈ off then 0 else n.count job) →
      ∀ job, l'.placedOn id job = if (id, job) ∈ off' then 0 else n'.count job) :
    Agree off' l' w' := by
  refine ⟨fun j hj => h.named j (hstore ▸ hj), fun {id' m} hm => ?_, fun hf a ha => ?_⟩
  · by_cases hid : id' = id
    · subst hid
      obtain rfl : n' = m := Option.some.inj (hs.after.symm.trans hm)
      exact hsound (h.sound hs.before)
    · exact h.sound (hs.other hid ▸ hm)
  · obtain ⟨m, hm, hcount⟩ := h.books (hs.fair hf) a (hagents ▸ ha)
    by_cases hid : a.id = id
    · rw [hid] at hm hcount ⊢
      obtain rfl : n = m := Option.some.inj (hs.before.symm.trans hm)
      exact ⟨n', hs.after, hthis hf (h.sound hs.before) hcount⟩
    · refine ⟨m, (hs.other hid).trans hm, fun job => ?_⟩
      obtain ⟨hplaced, hoff⟩ := hother hid job
      rw [hplaced, hcount job]
      simp only [hoff]

/-! ### The calls of the leader -/

/-- A step of an agent that keeps its records. -/
theorem keeps {id : String} {n n' : Node.Agent} (h : Agree off l w) (hn : w.nodes.get? id = some n)
    (hk : n.Sound → Node.Agent.Keeps n n') : Agree off l (w.set id n') := by
  have hk := hk (h.sound hn)
  have hs := Steps.set hn hk.draws
  refine h.step hs (fun _ => hk.sound) rfl rfl (fun _ _ => ⟨rfl, Iff.rfl⟩) fun hf _ hcount job => ?_
  rw [hcount job, hk.count (hf.draws id n' hs.after) job]

/-- What a `run` of the leader can do. -/
theorem run_cases (h : Agree off l w) {job : Job} (hne : job.name ≠ "") {replace : Bool}
    {r : RunReply} (hrun : Transport.run w a job replace = (r, w')) :
    (r ≠ .accepted ∧ w' = w) ∨
    (∃ n n', r ≠ .accepted ∧ w.nodes.get? a.id = some n ∧
      (Node.Agent.Keeps n n' ∧ n'.tasks = n.tasks) ∧ w' = w.set a.id n') ∨
    ∃ n n', r = .accepted ∧ w.nodes.get? a.id = some n ∧
      Node.Agent.Runs job.name replace n n' ∧ w' = w.accept a.id job.name replace n n' := by
  change w.run a job replace = _ at hrun
  unfold World.run at hrun
  split at hrun
  · cases hrun
    exact .inl ⟨by simp, rfl⟩
  · rename_i n hn
    have hspec := Node.Agent.run_spec (h.sound hn) w.now hne replace none
    split at hrun
    · rename_i id n' hok
      rw [hok] at hspec
      cases hrun
      exact .inr (.inr ⟨n, n', rfl, hn, hspec, rfl⟩)
    · rename_i e n' herr
      rw [herr] at hspec
      cases hrun
      refine .inr (.inl ⟨n, n', ?_, hn, hspec, rfl⟩)
      cases e <;> simp [runReply]

/-- A refused job changes no books. -/
theorem refused (h : Agree off l w) {job : Job} (hne : job.name ≠ "") {replace : Bool}
    {r : RunReply} (hrun : Transport.run w a job replace = (r, w')) (hr : r ≠ .accepted) :
    Agree off l w' := by
  rcases h.run_cases hne hrun with ⟨-, rfl⟩ | ⟨n, n', -, hn, hk, rfl⟩ | ⟨n, n', rfl, -⟩
  · exact h
  · exact h.keeps hn fun _ => hk.1
  · exact absurd rfl hr

/-- An agent that accepted a job steps. -/
theorem steps_accept {id job : String} {replace : Bool} {n n' : Node.Agent}
    (hn : w.nodes.get? id = some n) (hr : Node.Agent.Runs job replace n n') :
    Steps id n n' w (w.accept id job replace n n') := by
  refine ⟨hn, rfl, ?_, hr.draws⟩
  unfold World.accept
  split_ifs
  · exact List.subset_append_left _ _
  · exact List.Subset.refl _

/-- A job that was accepted beside the others is booked. -/
theorem accepted (h : Agree [] l w) {job : Job} (hne : job.name ≠ "")
    (hrun : Transport.run w a job false = (.accepted, w')) :
    Agree [] (l.trackPlacement a.id job.name) w' := by
  rcases h.run_cases hne hrun with ⟨hr, -⟩ | ⟨n, n', hr, -⟩ | ⟨n, n', -, hn, hruns, rfl⟩
  · exact absurd rfl hr
  · exact absurd rfl hr
  · have hs := steps_accept hn hruns
    refine h.step hs (fun _ => hruns.sound) rfl rfl (fun {id'} hid job' => ⟨?_, Iff.rfl⟩)
      fun hf _ hcount job' => ?_
    · rw [Leader.placedOn_trackPlacement, if_neg fun hc => hid hc.1.symm]
    · have hsize := (n.count_le_size job.name).trans_lt hruns.size
      have hmax : Node.maxTasks = 1024 := rfl
      simp only [List.not_mem_nil, if_false] at hcount ⊢
      rw [Leader.placedOn_trackPlacement, hruns.count (hf.draws a.id n' hs.after) job', hcount,
        hcount]
      by_cases hname : job.name = job'
      · subst hname
        simp [satAdd, u32Max]
        omega
      · simp [hname]

/-- A replacement of one task by one leaves the books alone. -/
theorem replaced (h : Agree [] l w) {job : Job} (hne : job.name ≠ "")
    (hrun : Transport.run w a job true = (.accepted, w')) : Agree [] l w' := by
  rcases h.run_cases hne hrun with ⟨hr, -⟩ | ⟨n, n', hr, -⟩ | ⟨n, n', -, hn, hruns, rfl⟩
  · exact absurd rfl hr
  · exact absurd rfl hr
  · have hs := steps_accept hn hruns
    refine h.step hs (fun _ => hruns.sound) rfl rfl (fun _ _ => ⟨rfl, Iff.rfl⟩)
      fun hf _ hcount job' => ?_
    have hfound : n.count job.name = 1 :=
      hf.swaps ⟨a.id, job.name, n.count job.name⟩ (by simp [World.accept])
    rw [hcount job', hruns.count (hf.draws a.id n' hs.after) job']
    by_cases hname : job.name = job'
    · simp [← hname, hfound]
    · simp [hname]

/-- The records of a job are gone on an agent where it is booked off already. -/
theorem cleared {id : String} {n n' : Node.Agent} (h : Agree ((id, name) :: off) l w)
    (hn : w.nodes.get? id = some n)
    (hclear : n.Sound → n'.Sound ∧ n'.ids = n.ids ∧ ∀ name',
      n'.count name' = if name = name' then 0 else n.count name') :
    Agree off l (w.set id n') := by
  obtain ⟨hsound, hids, hcount⟩ := hclear (h.sound hn)
  refine h.step (Steps.set hn (by rw [hids])) (fun _ => hsound) rfl rfl
    (fun {id'} hid job => ⟨rfl, ?_⟩) fun _ _ hbooks job => ?_
  · simp [hid]
  · rw [hbooks job, hcount job]
    by_cases hname : name = job
    · simp [hname]
    · simp [hname, Ne.symm hname]

/-- One record of a job is gone on an agent, and one instance is booked off. -/
theorem less {id : String} {n n' : Node.Agent} (h : Agree [] l w) (hn : w.nodes.get? id = some n)
    (hsound : n'.Sound) (hids : n'.ids = n.ids)
    (hless : Fair w → ∀ name', n.count name' = n'.count name' + if name = name' then 1 else 0) :
    Agree [] (l.untrackOne id name) (w.set id n') := by
  have hs : Steps id n n' w (w.set id n') := Steps.set hn (by rw [hids])
  refine h.step hs (fun _ => hsound) rfl rfl (fun {id'} hid job => ⟨?_, Iff.rfl⟩)
    fun hf _ hbooks job => ?_
  · rw [Leader.placedOn_untrackOne, if_neg fun hc => hid hc.1.symm]
  · have hcount := hless (hs.fair hf)
    simp only [List.not_mem_nil, if_false] at hbooks ⊢
    rw [Leader.placedOn_untrackOne, hbooks, hbooks, hcount job, hcount name]
    by_cases hname : name = job
    · simp [hname]
    · simp [hname]

/-- A job is booked off on one agent, in advance. -/
theorem dropPlacement (h : Agree off l w) (id name : String) :
    Agree ((id, name) :: off) (l.dropPlacement id name) w := by
  refine ⟨h.named, h.sound, fun hf a ha => ?_⟩
  obtain ⟨n, hn, hcount⟩ := h.books hf a ha
  refine ⟨n, hn, fun job => ?_⟩
  rw [Leader.placedOn_dropPlacement, hcount job]
  by_cases hc : id = a.id ∧ name = job
  · simp [hc.1, hc.2]
  · have hne : ¬ (a.id = id ∧ job = name) := fun h => hc ⟨h.1.symm, h.2.symm⟩
    simp [hc, hne]

/-- The world has every registered agent. -/
theorem not_fair (h : Agree off l w) (ha : a ∈ l.agents) (hn : w.nodes.get? a.id = none) :
    ¬ Fair w := by
  intro hf
  obtain ⟨n, hn', -⟩ := h.books hf a ha
  rw [hn] at hn'
  cases hn'

/-- There are no books to keep with an agent that the world does not have. -/
theorem absent (h : Agree off l w) (ha : a ∈ l.agents) (hn : w.nodes.get? a.id = none)
    (hstore : l'.store = l.store) : Agree off' l' w :=
  ⟨fun j hj => h.named j (hstore ▸ hj), h.sound, fun hf => absurd hf (h.not_fair ha hn)⟩

/-- A stop clears what is booked off. -/
theorem stopJob (h : Agree ((a.id, name) :: off) l w) (ha : a ∈ l.agents) :
    Agree off l (Transport.stopJob w a name).2 := by
  change Agree off l (w.stopJob a name).2
  unfold World.stopJob
  split
  · rename_i hn
    exact h.absent ha hn rfl
  · rename_i n hn
    exact h.cleared hn fun hs => Node.Agent.stopJobTasks_spec hs name

theorem stopJob_false (h : Transport.stopJob w a name = (false, w')) : w' = w := by
  change w.stopJob a name = _ at h
  unfold World.stopJob at h
  split at h
  · cases h
    rfl
  · cases h

theorem deleteJob (h : Agree ((a.id, name) :: off) l w) (ha : a ∈ l.agents) :
    Agree off l (Transport.deleteJob w a name) := by
  change Agree off l (w.deleteJob a name)
  unfold World.deleteJob
  split
  · rename_i hn
    exact h.absent ha hn rfl
  · rename_i n hn
    exact h.cleared hn fun hs => Node.Agent.deleteJob_spec hs w.now name

/-! ### The books as a ledger -/

/-- A job is booked off everywhere, in advance. -/
theorem takePlacement (h : Agree [] l w) (name : String) :
    Agree ((l.takePlacement name).1.map fun a => (a.id, name)) (l.takePlacement name).2 w := by
  refine ⟨h.named, h.sound, fun hf a ha => ?_⟩
  obtain ⟨n, hn, hcount⟩ := h.books hf a ha
  refine ⟨n, hn, fun job => ?_⟩
  simp only [List.not_mem_nil, if_false] at hcount
  rw [Leader.placedOn_takePlacement]
  by_cases hname : name = job
  · subst hname
    rw [if_pos rfl]
    split_ifs with hoff
    · rfl
    · by_contra hne
      refine hoff (List.mem_map.mpr ⟨a, List.mem_filter.mpr ⟨ha, ?_⟩, rfl⟩)
      rw [decide_eq_true_eq, hcount name]
      omega
  · have hoff : (a.id, job) ∉ (l.takePlacement name).1.map fun a => (a.id, name) := by
      intro hmem
      obtain ⟨a', -, heq⟩ := List.mem_map.mp hmem
      exact hname (Prod.ext_iff.mp heq).2
    rw [if_neg hname, if_neg hoff, hcount job]

theorem removeAgent (h : Agree [] l w) (id : String) : Agree [] (l.removeAgent id) w := by
  refine ⟨h.named, h.sound, fun hf a ha => ?_⟩
  obtain ⟨ha, hne⟩ := List.mem_filter.mp ha
  obtain ⟨n, hn, hcount⟩ := h.books hf a ha
  refine ⟨n, hn, fun job => ?_⟩
  rw [Leader.placedOn_removeAgent, if_neg fun heq => by simp [heq] at hne, hcount job]

/-- An agent comes in with its true counts. -/
theorem insertAgent (h : Agree [] l w) (agent : Agent) {n : Node.Agent}
    (hn : w.nodes.get? agent.id = some n) :
    Agree [] (l.insertAgent agent n.placedTaskCounts) w := by
  refine ⟨h.named, h.sound, fun hf a ha => ?_⟩
  by_cases hid : agent.id = a.id
  · refine ⟨n, hid ▸ hn, fun job => ?_⟩
    rw [Leader.placedOn_insertAgent, if_pos hid, Node.Agent.placedTaskCounts_get (h.sound hn)]
    rfl
  · have ha' : a ∈ l.agents := by
      rcases Leader.mem_insertSorted.mp ha with rfl | ha
      · exact absurd rfl hid
      · exact (List.mem_filter.mp ha).1
    obtain ⟨m, hm, hcount⟩ := h.books hf a ha'
    refine ⟨m, hm, fun job => ?_⟩
    rw [Leader.placedOn_insertAgent, if_neg hid, hcount job]

theorem heartbeat (h : Agree [] l w) (id version : String) (now : Nanos) :
    Agree [] (l.heartbeat id version now).2 w := by
  unfold Leader.heartbeat
  split
  · exact h
  · refine ⟨h.named, h.sound, fun hf a ha => ?_⟩
    obtain ⟨a', ha', rfl⟩ := List.mem_map.mp ha
    have hid : (if a'.id = id then { a' with lastSeen := now, version := version } else a').id =
        a'.id := by
      split_ifs <;> rfl
    rw [hid]
    exact h.books hf a' ha'

/-- The calls of the leader keep the books. -/
theorem ledger : Lead.Ledger (· ≠ "") Agree where
  good _ h := h
  named h := h.named
  congr h := h.congr
  reorder h := h.reorder
  refused h hne _ := h.refused hne
  accepted h hne _ := h.accepted hne
  dropPlacement h := h.dropPlacement
  takePlacement h := h.takePlacement
  stopJob h ha := h.stopJob ha
  stopFailed h hfalse := stopJob_false hfalse ▸ h
  deleteJob h ha := h.deleteJob ha
  removeAgent h := h.removeAgent
  heartbeat h := h.heartbeat

end Agree

end Hop.Agentd
