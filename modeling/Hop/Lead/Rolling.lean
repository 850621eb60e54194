import Hop.Lead.BlueGreen

/-!
# A rolling update at every call

For each old task a rolling update first places a new one and then stops the old, so the number of
instances should never fall below the smaller of what there was and what is wanted. For an
ordinary job that holds: at the start of step `i` with `r` old tasks left the total is
`r + min i desired` (`tally_rollLoop`). A daemon has no number of instances; its `desired` is 1, so
the loop places one new instance and stops every other old one without a new one in its place
(`rolling_downtime_iff`).
-/

namespace Hop.Lead

open Hop.Types (Agent Job Map Task)

namespace Counts

/-- The number of instances of `name` on the agents. -/
def total (k : Counts) (agents : List Agent) (name : String) : ℕ :=
  (agents.map fun a => k a.id name).sum

end Counts

namespace Leader

open Counts

variable {N : Type} [Transport N]
variable {l : Leader} {name : String} {Q : Counts → Prop}

/-! ### The old tasks -/

/-- Every agent that was asked for its tasks answered, with as many tasks of the job as are booked
on it. -/
def ListsBooks (l : Leader) (name : String) (cs : List Call) : Prop :=
  ∀ a reply, .tasks a reply ∈ cs → ∃ tasks, reply = some tasks ∧
    (tasks.filter fun t => t.jobName = name).length = l.placedOn a.id name

omit [Transport N] in
theorem ListsBooks.mono {net net' net'' : Logged N} (h : ListsBooks l name (net''.since net))
    (hlog : net'.log <+: net''.log) :
    ListsBooks l name (net'.since net) :=
  fun a reply hmem => h a reply (Logged.mem_since_of_initial hlog hmem)

/-- The agents of the old tasks, in order: each agent as often as the books say. -/
theorem agentIds_jobStatusLoop {agents : List Agent} {net : Logged N}
    (h : ListsBooks l name ((l.jobStatusLoop name agents net).2.since net)) :
    ((l.jobStatusLoop name agents net).1.flatMap fun p => p.2.map fun _ => p.1) =
      agents.flatMap fun a => List.replicate (l.placedOn a.id name) a.id := by
  induction agents generalizing net with
  | nil => rfl
  | cons a rest ih =>
    rw [jobStatusLoop] at h ⊢
    rw [List.flatMap_cons]
    by_cases hzero : l.placedOn a.id name = 0
    · rw [if_pos hzero] at h ⊢
      rw [hzero, List.replicate_zero, List.nil_append]
      exact ih h
    · rw [if_neg hzero] at h ⊢
      rcases hreply : Transport.tasks net a with ⟨reply, net'⟩
      have hlog := log_tasks hreply
      have hrest := (tally_jobStatusLoop l name name rest l.placedOn net').log
      have hcall : Call.tasks a reply ∈ (l.jobStatusLoop name rest net').2.since net := by
        refine Logged.mem_since_of_initial hrest ?_
        rw [Logged.since_eq hlog]
        exact List.mem_singleton_self _
      simp only [hreply] at h ⊢
      rcases reply with _ | tasks
      · obtain ⟨tasks, htasks, -⟩ := h a none hcall
        cases htasks
      · obtain ⟨tasks', htasks, hlen⟩ := h a (some tasks) hcall
        cases htasks
        have hlater : ListsBooks l name ((l.jobStatusLoop name rest net').2.since net') :=
          fun b reply hmem => h b reply
            (Logged.mem_since_of_suffix (hlog ▸ List.prefix_append _ _) hmem)
        dsimp only
        rw [List.flatMap_cons, ih hlater, List.map_const', hlen]

theorem agentIds_snapshotJobTasks (net : Logged N) {old : Job} (hget : l.store.get name = some old)
    (h : ListsBooks l name ((l.snapshotJobTasks net name).2.since net)) :
    (l.snapshotJobTasks net name).1.map TaskRef.agentId =
      l.agents.flatMap fun a => List.replicate (l.placedOn a.id name) a.id := by
  rw [snapshotJobTasks, jobStatus, hget] at h ⊢
  rw [← agentIds_jobStatusLoop h]
  simp only [List.map_flatMap, List.map_map, Function.comp_def]

omit [Transport N] in
/-- How often an agent is among those of the old tasks. -/
theorem count_agentIds {agents : List Agent} (hnodup : (agents.map Agent.id).Nodup) (f : String → ℕ)
    (x : String) : (agents.flatMap fun a => List.replicate (f a.id) a.id).count x =
      if x ∈ agents.map Agent.id then f x else 0 := by
  induction agents with
  | nil => rfl
  | cons a rest ih =>
    rw [List.map_cons, List.nodup_cons] at hnodup
    rw [List.flatMap_cons, List.count_append, ih hnodup.2, List.count_replicate, List.map_cons]
    by_cases hx : a.id = x
    · subst hx
      simp [hnodup.1]
    · simp [hx, Ne.symm hx]

omit [Transport N] in
theorem length_agentIds (l : Leader) (name : String) :
    (l.agents.flatMap fun a => List.replicate (l.placedOn a.id name) a.id).length =
      l.totalPlaced name := by
  rw [List.length_flatMap, totalPlaced]
  simp

/-! ### One step -/

/-- The call asks an agent to run `job`, and it does not. -/
def Refused (job : Job) : Call → Prop
  | .run _ j _ r => j = job ∧ r ≠ .accepted
  | _ => False

omit [Transport N] in
theorem Refused.after {job : Job} {c : Call} (h : Refused job c) (name : String) (k : Counts) :
    k.after name c = k := by
  rcases c with ⟨agent, j, _ | _, r⟩ | _ | _ | _ | _ | _
  · rcases r with _ | _ | _ | _ | _
    · exact absurd rfl h.2
    all_goals rfl
  · rfl
  all_goals exact h.elim

omit [Transport N] in
theorem Tally.refused (name : String) {job : Job} {k : Counts} {net net' : Logged N}
    {cs : List Call} (hlog : net'.log = net.log ++ cs) (hcs : ∀ c ∈ cs, Refused job c) (hQ : Q k) :
    Tally name (fun k _ => Q k) k net k net' := by
  have hsince := Logged.since_eq hlog
  have hkeep : afterAll name k cs = k ∧ AtCalls name (fun k _ => Q k) k cs := by
    clear hlog hsince
    induction cs with
    | nil => exact ⟨rfl, trivial⟩
    | cons c cs ih =>
      obtain ⟨hc, hcs⟩ := List.forall_mem_cons.mp hcs
      obtain ⟨hall, hat⟩ := ih hcs
      have hafter := hc.after name k
      refine ⟨?_, hQ, ?_⟩
      · rw [afterAll, List.foldl_cons, hafter]
        exact hall
      · rw [hafter]
        exact hat
  exact ⟨hlog ▸ List.prefix_append _ _, by rw [hsince, hkeep.1], by rw [hsince]; exact hkeep.2⟩

/-- What placing without preemption does: some agents refuse, and then one accepts or none does. -/
inductive Placed (l : Leader) (net : Logged N) (job : Job) (ok : Prop) (l' : Leader)
    (net' : Logged N) : Prop
  | on (cs : List Call) (agent : Agent) (hok : ok) (hcs : ∀ c ∈ cs, Refused job c)
      (hagent : agent ∈ l.agents)
      (hlog : net'.log = net.log ++ (cs ++ [.run agent job false .accepted]))
      (hcounts : l'.placedOn = (l.trackPlacement agent.id job.name).placedOn)
  | nowhere (cs : List Call) (hok : ¬ ok) (hcs : ∀ c ∈ cs, Refused job c)
      (hlog : net'.log = net.log ++ cs) (hcounts : l'.placedOn = l.placedOn)

/-- Every agent refused so far. -/
structure AllRefused (l : Leader) (net : Logged N) (job : Job) (l' : Leader) (net' : Logged N) :
    Prop where
  calls : ∃ cs, (∀ c ∈ cs, Refused job c) ∧ net'.log = net.log ++ cs
  agents : l'.agents = l.agents
  counts : l'.placedOn = l.placedOn

theorem placed_tries (l : Leader) (net : Logged N) (job : Job) :
    Tries job (AllRefused l net job) (Placed l net job True) where
  next {l' _} h := ⟨h.calls, l'.nextAgent_books.2.2.trans h.agents,
    (placedOn_congr l'.nextAgent_books.1).trans h.counts⟩
  refused {l' _ net'' agent r} h _ hrun hr := by
    obtain ⟨cs, hcs, hlog⟩ := h.calls
    refine ⟨⟨cs ++ [.run agent job false r], fun c hc => ?_, ?_⟩, h.agents, h.counts⟩
    · rcases List.mem_append.mp hc with hc | hc
      · exact hcs c hc
      · exact List.mem_singleton.mp hc ▸ ⟨rfl, hr⟩
    · rw [Logged.log_run hrun, hlog, List.append_assoc]
  accepted {l' _ net'' agent} h ha hrun := by
    obtain ⟨cs, hcs, hlog⟩ := h.calls
    refine .on cs agent trivial hcs (h.agents ▸ ha) ?_ ?_
    · rw [Logged.log_run hrun, hlog, List.append_assoc]
    · funext a n
      rw [placedOn_trackPlacement, placedOn_trackPlacement, h.counts]

theorem placed_place (l : Leader) (net : Logged N) (job : Job) :
    Placed l net job ((l.place net job false).1 = .ok ()) (l.place net job false).2.1
      (l.place net job false).2.2 := by
  have hnone : AllRefused l net job l net := ⟨⟨[], by simp, by simp⟩, rfl, rfl⟩
  have hbeside := (placed_tries l net job).beside hnone
  generalize l.place net job false = r at hbeside ⊢
  obtain ⟨_ | ⟨⟩, l', net'⟩ := r
  · obtain ⟨⟨cs, hcs, hlog⟩, -, hcounts⟩ := hbeside
    exact .nowhere cs (by simp) hcs hlog hcounts
  · rwa [← eq_true (rfl : (Except.ok () : Except Refusal Unit) = .ok ())] at hbeside

/-- What the step for one old task may do first: a new instance beside the old one, one in its
place, or none. -/
inductive Rolled (l : Leader) (net : Logged N) (job : Job) (old : TaskRef)
    (r : Except Refusal Bool × Leader × Logged N) : Prop
  | beside (cs : List Call) (agent : Agent) (hr : r.1 = .ok false)
      (hcs : ∀ c ∈ cs, Refused job c) (hagent : agent ∈ l.agents)
      (hlog : r.2.2.log = net.log ++ (cs ++ [.run agent job false .accepted]))
      (hcounts : r.2.1.placedOn = (l.trackPlacement agent.id job.name).placedOn)
  | inPlace (cs : List Call) (agent : Agent) (hr : r.1 = .ok true)
      (hcs : ∀ c ∈ cs, Refused job c) (hagent : l.agent old.agentId = some agent)
      (hlog : r.2.2.log = net.log ++ (cs ++ [.run agent job true .accepted]))
      (hcounts : r.2.1.placedOn = l.placedOn)
  | refused (cs : List Call) (why : Refusal) (hr : r.1 = .error why)
      (hcs : ∀ c ∈ cs, Refused job c) (hlog : r.2.2.log = net.log ++ cs)
      (hcounts : r.2.1.placedOn = l.placedOn)

theorem rolled_rollOne (l : Leader) (net : Logged N) (job : Job) (old : TaskRef) :
    Rolled l net job old (l.rollOne net job old) := by
  have hplaced := placed_place l net job
  have hmoves := moves_place l net job false
  rw [rollOne]
  rcases h : l.place net job false with ⟨why | _, l', net'⟩
  · rw [h] at hplaced hmoves
    rcases hplaced with ⟨-, -, hok, -⟩ | ⟨cs, -, hcs, hlog, hcounts⟩
    · cases hok
    · rcases why with _ | k | tried
      · exact .refused cs _ rfl hcs hlog hcounts
      · dsimp only
        rcases hagent : l'.agent old.agentId with _ | a
        · exact .refused cs _ rfl hcs hlog hcounts
        · dsimp only
          rw [agent_congr hmoves.agents] at hagent
          rcases hrun : Transport.run net' a job true with ⟨r, net''⟩
          have hlog' := Logged.log_run hrun
          rw [show net'.log = net.log ++ cs from hlog, List.append_assoc] at hlog'
          by_cases hr : r = .accepted
          · subst hr
            exact .inPlace cs a rfl hcs hagent hlog' hcounts
          · have hlast : ∀ c ∈ cs ++ [.run a job true r], Refused job c := fun c hc => by
              rcases List.mem_append.mp hc with hc | hc
              · exact hcs c hc
              · obtain rfl := List.mem_singleton.mp hc
                exact ⟨rfl, hr⟩
            rcases r with _ | _ | _ | _ | _
            · exact absurd rfl hr
            all_goals exact .refused _ _ rfl hlast hlog' hcounts
      · exact .refused cs _ rfl hcs hlog hcounts
  · rw [h] at hplaced
    rcases hplaced with ⟨cs, agent, -, hcs, hagent, hlog, hcounts⟩ | ⟨-, hok, -⟩
    · exact .beside cs agent rfl hcs hagent hlog hcounts
    · exact absurd rfl hok

/-- The pause between two steps, where there is one. -/
theorem tally_pause (name : String) {k : Counts} (net : Logged N) (p : Prop) [Decidable p]
    (hQ : Q k) : Tally name (fun k _ => Q k) k net k
      (if p then Transport.pause net rollingUpdateDelay else net) := by
  split_ifs
  · exact .one (c := .pause rollingUpdateDelay) rfl rfl hQ
  · exact .refl k net

theorem tally_stopOldTask (name : String) (net : Logged N) {old : TaskRef} {a : Agent}
    (ha : l.agent old.agentId = some a) (hQ : Q l.placedOn) :
    Tally name (fun k _ => Q k) l.placedOn net (l.untrackOne old.agentId name).placedOn
      (l.stopOldTask net name old).2 := by
  rw [stopOldTask, ha]
  refine .one (c := .stopTask a old.taskId) rfl ?_ hQ
  funext x n
  rw [placedOn_untrackOne, ← (mem_of_agent ha).2]
  rfl

/-- The rest of a step whose old task was not replaced. -/
theorem tally_rollAfter (net : Logged N) {job : Job} (i : ℕ) {old : TaskRef} {a : Agent}
    (ha : l.agent old.agentId = some a) (hQ : Q l.placedOn)
    (hQ' : Q (l.untrackOne old.agentId job.name).placedOn) :
    (l.rollAfter net job i old false).1.placedOn = (l.untrackOne old.agentId job.name).placedOn ∧
      Tally job.name (fun k _ => Q k) l.placedOn net (l.untrackOne old.agentId job.name).placedOn
        (l.rollAfter net job i old false).2 := by
  refine ⟨?_, (tally_stopOldTask job.name net ha hQ).trans (tally_pause job.name _ _ hQ')⟩
  rw [rollAfter, stopOldTask, ha]
  rfl

/-! ### The loop -/

omit [Transport N] in
theorem placedOn_track_of_lt {x : String} (h : l.placedOn x name < u32Max) (a : String) :
    (l.trackPlacement x name).placedOn a name =
      l.placedOn a name + if x = a then 1 else 0 := by
  rw [placedOn_trackPlacement]
  by_cases hx : x = a
  · subst hx
    simp only [and_self, if_true, satAdd]
    omega
  · simp [hx]

omit [Transport N] in
theorem placedOn_untrack (l : Leader) (x name a : String) :
    (l.untrackOne x name).placedOn a name = l.placedOn a name - if x = a then 1 else 0 := by
  rw [placedOn_untrackOne]
  by_cases hx : x = a
  · subst hx
    simp
  · simp [hx]

omit [Transport N] in
theorem totalPlaced_untrackOne {x : String} (hx : x ∈ l.agents.map Agent.id)
    (hpos : 0 < l.placedOn x name) :
    (l.untrackOne x name).totalPlaced name + 1 = l.totalPlaced name := by
  rw [totalPlaced_eq_ids, totalPlaced_eq_ids, ← sum_bump (l.untrackOne x name).agents_id_nodup _ hx]
  refine congrArg List.sum (List.map_congr_left fun a _ => ?_)
  rw [placedOn_untrack]
  split_ifs with h
  · subst h
    omega
  · rfl

omit [Transport N] in
/-- The total of one more and one less. -/
theorem total_congr {k : Counts} {l' : Leader} (name : String) (hk : k = l'.placedOn)
    (ha : l'.agents = l.agents) : k.total l.agents name = l'.totalPlaced name := by
  rw [hk, total, totalPlaced, ha]

/-- The loop of a rolling update that had `T` old tasks, at its step `i`: the books hold the tasks
that are left and what was placed, and do so for the old tasks of each agent. -/
structure Midway (job : Job) (T : ℕ) (agents : List Agent) (p : Counts) (olds : List TaskRef)
    (i : ℕ) (l : Leader) : Prop where
  known : l.agents = agents
  left : olds.length + i = T
  total : l.totalPlaced job.name = olds.length + min i job.desired
  registered : ∀ old ∈ olds, old.agentId ∈ agents.map Agent.id
  booked : ∀ a, (olds.map TaskRef.agentId).count a ≤ l.placedOn a job.name
  others : ∀ a n, n ≠ job.name → l.placedOn a n = p a n

/-- What holds at each call of the loop. -/
def NoDowntime (job : Job) (T : ℕ) (agents : List Agent) (p k : Counts) : Prop :=
  min T job.desired ≤ k.total agents job.name ∧ ∀ a n, n ≠ job.name → k a n = p a n

section Midway

variable {job : Job} {T : ℕ} {agents : List Agent} {p : Counts} {old : TaskRef}
  {olds : List TaskRef} {i : ℕ} {l l' : Leader}

omit [Transport N] in
theorem Midway.noDowntime (h : Midway job T agents p olds i l) :
    NoDowntime job T agents p l.placedOn := by
  refine ⟨?_, h.others⟩
  have htotal := h.total
  have hleft := h.left
  have heq : Counts.total l.placedOn agents job.name = l.totalPlaced job.name := by
    rw [Counts.total, totalPlaced, h.known]
  omega

omit [Transport N] in
theorem Midway.agent (h : Midway job T agents p (old :: olds) i l) :
    ∃ a, l.agent old.agentId = some a := by
  have hmem := h.registered old List.mem_cons_self
  rw [← h.known] at hmem
  obtain ⟨a, ha, hid⟩ := List.mem_map.mp hmem
  exact ⟨a, hid ▸ agent_of_mem ha⟩

omit [Transport N] in
/-- The old task is there to be stopped. -/
theorem Midway.pos (h : Midway job T agents p (old :: olds) i l) :
    0 < l.placedOn old.agentId job.name := by
  have hbooked := h.booked old.agentId
  rw [List.map_cons, List.count_cons_self] at hbooked
  omega

omit [Transport N] in
/-- A step that placed one beside the old and stopped the old. -/
theorem Midway.beside {agent : Agent} (h : Midway job T agents p (old :: olds) i l)
    (hT : T < u32Max) (hi : i < job.desired) (hagent : agent ∈ l.agents)
    (ha : l'.agents = l.agents)
    (hcounts : l'.placedOn = (l.trackPlacement agent.id job.name).placedOn) :
    NoDowntime job T agents p l'.placedOn ∧ ∀ l'', l''.agents = l'.agents →
      l''.placedOn = (l'.untrackOne old.agentId job.name).placedOn →
      Midway job T agents p olds (i + 1) l'' := by
  have htotal := h.total
  have hleft := h.left
  have hpos := h.pos
  rw [List.length_cons] at htotal hleft
  have hlt : l.placedOn agent.id job.name < u32Max := by
    have := placedOn_le_totalPlaced hagent job.name
    omega
  have htotal' : l'.totalPlaced job.name = l.totalPlaced job.name + 1 := by
    rw [← totalPlaced_trackPlacement hagent hlt]
    exact totalPlaced_congr (l := l.trackPlacement agent.id job.name) ha fun a => by rw [hcounts]
  have hothers' : ∀ a n, n ≠ job.name → l'.placedOn a n = p a n := by
    intro a n hn
    rw [hcounts, placedOn_trackPlacement, if_neg fun h => hn h.2.symm]
    exact h.others a n hn
  have hmem : old.agentId ∈ l'.agents.map Agent.id := by
    rw [ha, h.known]
    exact h.registered old List.mem_cons_self
  have hpos' : 0 < l'.placedOn old.agentId job.name := by
    rw [hcounts, placedOn_track_of_lt hlt]
    omega
  refine ⟨⟨?_, hothers'⟩, fun l'' ha'' hcounts'' => ?_⟩
  · rw [← h.known, total_congr job.name rfl ha, htotal']
    omega
  · have huntrack := totalPlaced_untrackOne hmem hpos'
    refine ⟨ha''.trans (ha.trans h.known), by omega, ?_, fun o ho => h.registered o
      (List.mem_cons_of_mem old ho), fun a => ?_, fun a n hn => ?_⟩
    · have : l''.totalPlaced job.name = (l'.untrackOne old.agentId job.name).totalPlaced job.name :=
        totalPlaced_congr ha'' fun a => by rw [hcounts'']
      omega
    · have hbooked := h.booked a
      rw [List.map_cons, List.count_cons] at hbooked
      rw [hcounts'', placedOn_untrack, hcounts, placedOn_track_of_lt hlt]
      simp only [beq_iff_eq] at hbooked
      split_ifs at hbooked ⊢ <;> omega
    · rw [hcounts'', placedOn_untrackOne, if_neg fun h => hn h.2.symm]
      exact hothers' a n hn

omit [Transport N] in
/-- A step that replaced the old one. -/
theorem Midway.inPlace (h : Midway job T agents p (old :: olds) i l) (hi : i < job.desired)
    (ha : l'.agents = l.agents) (hcounts : l'.placedOn = l.placedOn) :
    Midway job T agents p olds (i + 1) l' := by
  have htotal := h.total
  have hleft := h.left
  rw [List.length_cons] at htotal hleft
  refine ⟨ha.trans h.known, by omega, ?_, fun o ho => h.registered o
    (List.mem_cons_of_mem old ho), fun a => ?_, fun a n hn => ?_⟩
  · rw [totalPlaced_congr ha fun a => by rw [hcounts], htotal]
    omega
  · have hbooked := h.booked a
    rw [List.map_cons, List.count_cons] at hbooked
    rw [hcounts]
    omega
  · rw [hcounts]
    exact h.others a n hn

omit [Transport N] in
/-- A step that only stopped the old one. -/
theorem Midway.less (h : Midway job T agents p (old :: olds) i l) (hi : ¬ i < job.desired)
    (ha : l'.agents = l.agents)
    (hcounts : l'.placedOn = (l.untrackOne old.agentId job.name).placedOn) :
    Midway job T agents p olds (i + 1) l' := by
  have htotal := h.total
  have hleft := h.left
  rw [List.length_cons] at htotal hleft
  have hmem : old.agentId ∈ l.agents.map Agent.id := by
    rw [h.known]
    exact h.registered old List.mem_cons_self
  have huntrack := totalPlaced_untrackOne hmem h.pos
  refine ⟨ha.trans h.known, by omega, ?_, fun o ho => h.registered o
    (List.mem_cons_of_mem old ho), fun a => ?_, fun a n hn => ?_⟩
  · have : l'.totalPlaced job.name = (l.untrackOne old.agentId job.name).totalPlaced job.name :=
      totalPlaced_congr ha fun a => by rw [hcounts]
    omega
  · have hbooked := h.booked a
    rw [List.map_cons, List.count_cons] at hbooked
    rw [hcounts, placedOn_untrack]
    simp only [beq_iff_eq] at hbooked
    split_ifs at hbooked ⊢ <;> omega
  · rw [hcounts, placedOn_untrackOne, if_neg fun h => hn h.2.symm]
    exact h.others a n hn

omit [Transport N] in
theorem after_run_accepted (l : Leader) (agent : Agent) (job : Job) (name : String) :
    after name l.placedOn (.run agent job false .accepted) =
      (l.trackPlacement agent.id job.name).placedOn := by
  funext a n
  rw [placedOn_trackPlacement]
  rfl

omit [Transport N] in
/-- Some agents refuse, and then there is one more call. -/
theorem Tally.refusedThen (name : String) {k : Counts} {net net' : Logged N} {cs : List Call}
    {c : Call} (hlog : net'.log = net.log ++ (cs ++ [c])) (hcs : ∀ c ∈ cs, Refused job c) (hQ : Q k) :
    Tally name (fun k _ => Q k) k net (k.after name c) net' := by
  have hmid : Tally name (fun k _ => Q k) k net k (⟨net.net, net.log ++ cs⟩ : Logged N) :=
    Tally.refused name rfl hcs hQ
  exact hmid.trans (.one (by rw [hlog, List.append_assoc]) rfl hQ)

/-- **An ordinary job has no downtime**: at each call of the loop the total is at least the smaller
of what there was and what is wanted, and the other jobs keep their counts. If the loop gets to its
end, the total is that number. -/
theorem tally_rollLoop (hT : T < u32Max) (h : Midway job T agents p olds i l) (net : Logged N) :
    Tally job.name (fun k _ => NoDowntime job T agents p k) l.placedOn net
        (rollLoop job olds i l net).2.1.placedOn (rollLoop job olds i l net).2.2 ∧
      ((rollLoop job olds i l net).1 = .ok () →
        Midway job T agents p [] T (rollLoop job olds i l net).2.1) := by
  induction olds generalizing i l net with
  | nil =>
    have hi : i = T := by simpa using h.left
    exact ⟨.refl _ net, fun _ => hi ▸ h⟩
  | cons old rest ih =>
    obtain ⟨a, ha⟩ := h.agent
    rw [rollLoop]
    by_cases hi : i < job.desired
    · rw [if_pos hi]
      have hrolled := rolled_rollOne l net job old
      have hagents := (moves_rollOne l net job old).agents
      generalize l.rollOne net job old = r at hrolled hagents ⊢
      obtain ⟨res, l', net'⟩ := r
      rcases hrolled with ⟨cs, agent, hr, hcs, hagent, hlog, hcounts⟩ |
        ⟨cs, agent, hr, hcs, hagent, hlog, hcounts⟩ | ⟨cs, why, hr, hcs, hlog, hcounts⟩
      · obtain rfl : res = .ok false := hr
        dsimp only at hagents hcounts ⊢
        obtain ⟨hbeside, hnext⟩ := h.beside hT hi hagent hagents hcounts
        have hmoves := moves_rollAfter l' net' job i old false
        have ha' : l'.agent old.agentId = some a := (agent_congr hagents _).trans ha
        have hstop := hnext (l'.untrackOne old.agentId job.name) rfl rfl
        obtain ⟨heq, hafter⟩ := tally_rollAfter (Q := NoDowntime job T agents p) net' i ha' hbeside
          hstop.noDowntime
        have hplace := Tally.refusedThen job.name hlog hcs h.noDowntime
        rw [after_run_accepted, ← hcounts] at hplace
        rw [← heq] at hafter
        exact (ih (hnext _ hmoves.agents heq) _).imp_left (hplace.trans hafter).trans
      · obtain rfl : res = .ok true := hr
        dsimp only at hagents hcounts ⊢
        have hplace := Tally.refusedThen job.name hlog hcs h.noDowntime
        have hnext : Midway job T agents p rest (i + 1) (l'.emit (.job job.name)) :=
          h.inPlace hi hagents hcounts
        have hrest := ih hnext
          (if i + 1 < job.desired then Transport.pause net' rollingUpdateDelay else net')
        have hpause := tally_pause job.name net' (i + 1 < job.desired) h.noDowntime
        refine hrest.imp_left fun hrest => (Tally.trans hplace hpause).trans ?_
        rw [show l.placedOn = (l'.emit (.job job.name)).placedOn from hcounts.symm]
        exact hrest
      · obtain rfl : res = .error why := hr
        dsimp only at hcounts ⊢
        rw [hcounts]
        refine ⟨Tally.refused job.name hlog hcs h.noDowntime, fun hok => ?_⟩
        cases hok
    · rw [if_neg hi]
      have hmoves := moves_rollAfter l net job i old false
      have hstop := h.less hi (show (l.untrackOne old.agentId job.name).agents = l.agents from rfl) rfl
      obtain ⟨heq, hafter⟩ := tally_rollAfter (Q := NoDowntime job T agents p) net i ha
        h.noDowntime hstop.noDowntime
      rw [← heq] at hafter
      exact (ih (h.less hi hmoves.agents heq) _).imp_left hafter.trans

end Midway

/-! ### The whole update before its reconcile -/

/-- A rolling update up to its last reconcile. -/
def rollPart {M : Type} [Transport M] (l : Leader) (net : M) (job : Job) :
    Except Error Unit × Leader × M :=
  let (oldTasks, net) := l.snapshotJobTasks net job.name
  match l.storePut job with
  | .error e => (.error e, l, net)
  | .ok l => rollLoop job oldTasks 0 l net

theorem updateRolling_eq (l : Leader) (net : Logged N) (job : Job) :
    l.updateRolling net job = match l.rollPart net job with
      | (.error e, l, net) => (.error e, l, net)
      | (.ok (), l, net) => (.ok (), l.reconcileJobs net) := by
  rw [updateRolling, rollPart]
  rcases l.storePut job with e | l₁
  · rfl
  · dsimp only
    rcases rollLoop job (l.snapshotJobTasks net job.name).1 0 l₁
      (l.snapshotJobTasks net job.name).2 with ⟨e | _, l₂, net₂⟩
    · rfl
    · rfl

/-- The agents that have instances of the job, in their order. -/
def holders (l : Leader) (name : String) : List String :=
  (l.agents.filter fun a => 0 < l.placedOn a.id name).map Agent.id

theorem midway_start {l l₁ : Leader} {job : Job} {olds : List TaskRef}
    (hput : l.storePut job = .ok l₁)
    (hids : olds.map TaskRef.agentId =
      l.agents.flatMap fun a => List.replicate (l.placedOn a.id job.name) a.id) :
    Midway job (l.totalPlaced job.name) l.agents l.placedOn olds 0 l₁ := by
  obtain ⟨hplaced, hagents, -⟩ := storePut_frame hput
  have hcounts := placedOn_congr hplaced
  have hlen : olds.length = l.totalPlaced job.name := by
    rw [← length_agentIds, ← hids, List.length_map]
  refine ⟨hagents, by omega, ?_, fun old hold => ?_, fun a => ?_, fun a n _ => by rw [hcounts]⟩
  · rw [totalPlaced_congr hagents fun a => by rw [hcounts], hlen]
    omega
  · have hmem : old.agentId ∈ olds.map TaskRef.agentId := List.mem_map_of_mem hold
    rw [hids, List.mem_flatMap] at hmem
    obtain ⟨a, ha, hold⟩ := hmem
    exact List.eq_of_mem_replicate hold ▸ List.mem_map_of_mem ha
  · rw [hids, count_agentIds l.agents_id_nodup fun x => l.placedOn x job.name, hcounts]
    split_ifs
    · exact le_refl _
    · exact Nat.zero_le _

/-! ### Daemons -/

/-- How many of the agents that had an instance are without one. -/
def without (had : List String) (name : String) (k : Counts) : ℕ :=
  (had.filter fun a => k a name = 0).length

omit [Transport N] in
theorem desired_of_isDaemon {job : Job} (h : job.isDaemon = true) : job.desired = 1 := by
  have hcount : job.count = -1 := by simpa [Job.isDaemon] using h
  rw [Job.desired, hcount]
  rfl

/-- When the number of instances is reached, a step is one stop. -/
theorem rollLoop_stop {job : Job} {old : TaskRef} (rest : List TaskRef) {i : ℕ} {l : Leader}
    (net : Logged N) {a : Agent} (hi : job.desired ≤ i) (ha : l.agent old.agentId = some a) :
    ∃ l' net', rollLoop job (old :: rest) i l net = rollLoop job rest (i + 1) l' net' ∧
      l'.agents = l.agents ∧ l'.placedOn = (l.untrackOne old.agentId job.name).placedOn ∧
      net'.log = net.log ++ [.stopTask a old.taskId] := by
  have hpause : ¬ i + 1 < job.desired := by omega
  refine ⟨(l.untrackOne old.agentId job.name).emit (.job job.name),
    Transport.stopTask net a old.taskId, ?_, rfl, rfl, rfl⟩
  rw [rollLoop, if_neg (not_lt.mpr hi), rollAfter, stopOldTask, ha]
  simp only [Bool.false_eq_true, if_false, hpause]

/-- **The stops of the rest of a daemon's tasks.** The books hold the tasks that are left and the
one new instance, on the agent `x`; at the last stop every other agent is without one. -/
theorem atCalls_stops {job : Job} {had : List String} {x : String} {olds : List TaskRef} {i : ℕ}
    {l : Leader} (net : Logged N) (hi : job.desired ≤ i)
    (hreg : ∀ old ∈ olds, old.agentId ∈ l.agents.map Agent.id)
    (hcounts : ∀ a ∈ had, l.placedOn a job.name =
      (olds.map TaskRef.agentId).count a + if x = a then 1 else 0) :
    (∀ c ∈ (rollLoop job olds i l net).2.2.since net, c.isRun = false) ∧
      (AtCalls job.name (fun k _ => without had job.name k ≤ 1) l.placedOn
          ((rollLoop job olds i l net).2.2.since net) ↔
        ∀ last, (olds.map TaskRef.agentId).getLast? = some last →
          (had.filter fun a => a ≠ last ∧ a ≠ x).length ≤ 1) := by
  induction olds generalizing i l net with
  | nil =>
    rw [rollLoop, Logged.since_refl]
    refine ⟨fun c hc => absurd hc List.not_mem_nil, fun _ last hlast => ?_, fun _ => trivial⟩
    cases hlast
  | cons old rest ih =>
    obtain ⟨hold, hrest⟩ := List.forall_mem_cons.mp hreg
    obtain ⟨b, hb, hid⟩ := List.mem_map.mp hold
    have ha : l.agent old.agentId = some b := hid ▸ agent_of_mem hb
    obtain ⟨l', net', heq, hagents, hcounts', hlog⟩ :=
      rollLoop_stop rest net hi ha
    have hmoves := moves_rollLoop job rest (i + 1) l' net'
    have hsince : (rollLoop job (old :: rest) i l net).2.2.since net =
        .stopTask b old.taskId :: (rollLoop job rest (i + 1) l' net').2.2.since net' := by
      rw [heq, Logged.since_trans (hlog ▸ List.prefix_append _ _) hmoves.log, Logged.since_eq hlog]
      rfl
    have hleft : ∀ a ∈ had, l'.placedOn a job.name =
        (rest.map TaskRef.agentId).count a + if x = a then 1 else 0 := by
      intro a ha
      have := hcounts a ha
      rw [List.map_cons, List.count_cons] at this
      rw [hcounts', placedOn_untrack, this]
      simp only [beq_iff_eq]
      split_ifs <;> omega
    obtain ⟨hruns, hiff⟩ := ih (i := i + 1) net' (by omega) (hagents ▸ hrest) hleft
    have hafter : after job.name l.placedOn (.stopTask b old.taskId) = l'.placedOn := by
      rw [hcounts']
      funext a n
      rw [placedOn_untrackOne, ← hid]
      rfl
    rw [hsince]
    refine ⟨fun c hc => ?_, ?_⟩
    · rcases List.mem_cons.mp hc with rfl | hc
      · rfl
      · exact hruns c hc
    · rw [AtCalls, hafter, hiff]
      -- who is without an instance now has none of the tasks that are left
      have hzero : ∀ a ∈ had, l.placedOn a job.name = 0 ↔
          a ∉ (old :: rest).map TaskRef.agentId ∧ a ≠ x := by
        intro a ha
        rw [hcounts a ha, ← List.count_eq_zero]
        by_cases hx : x = a
        · simp [hx]
        · simp [hx, Ne.symm hx]
      rcases hrest' : (rest.map TaskRef.agentId).getLast? with _ | last
      · -- the last stop
        have hnil : rest.map TaskRef.agentId = [] := List.getLast?_eq_none_iff.mp hrest'
        rw [List.map_cons, hnil] at hzero ⊢
        have hsame : without had job.name l.placedOn =
            (had.filter fun a => a ≠ old.agentId ∧ a ≠ x).length := by
          rw [without]
          congr 1
          refine List.filter_congr fun a ha => ?_
          rw [decide_eq_decide, hzero a ha, List.mem_singleton]
        rw [hsame]
        refine ⟨fun h last hlast => ?_, fun h => ⟨h old.agentId rfl, fun last hlast => ?_⟩⟩
        · exact Option.some.inj hlast ▸ h.1
        · cases hlast
      · have hlast : ((old :: rest).map TaskRef.agentId).getLast? = some last := by
          rw [List.map_cons, List.getLast?_cons, hrest']
          rfl
        rw [hlast]
        refine ⟨fun h => h.2, fun h => ⟨?_, h⟩⟩
        refine le_trans ?_ (h last rfl)
        have hmem : last ∈ (old :: rest).map TaskRef.agentId := List.mem_of_getLast? hlast
        have hsame : had.filter (fun a => l.placedOn a job.name = 0) =
            had.filter fun a => a ∉ (old :: rest).map TaskRef.agentId ∧ a ≠ x :=
          List.filter_congr fun a ha => decide_eq_decide.mpr (hzero a ha)
        rw [without, hsame]
        refine (List.monotone_filter_right had fun a ha => ?_).length_le
        simp only [decide_eq_true_eq] at ha ⊢
        exact ⟨fun h => ha.1 (h ▸ hmem), ha.2⟩

omit [Transport N] in
/-- The last old task is on the last agent that has any. -/
theorem getLast?_agentIds (agents : List Agent) (f : String → ℕ) :
    (agents.flatMap fun a => List.replicate (f a.id) a.id).getLast? =
      ((agents.filter fun a => 0 < f a.id).map Agent.id).getLast? := by
  induction agents using List.reverseRecOn with
  | nil => rfl
  | append_singleton agents a ih =>
    rw [List.flatMap_append, List.filter_append, List.map_append, List.getLast?_append,
      List.getLast?_append, ih]
    rcases hzero : f a.id with _ | n
    · simp [hzero]
    · simp [hzero, List.getLast?_replicate]

omit [Transport N] in
theorem holders_nodup (l : Leader) (name : String) : (l.holders name).Nodup :=
  l.agents_id_nodup.sublist (List.filter_sublist.map _)

omit [Transport N] in
theorem mem_holders {l : Leader} {name a : String} :
    a ∈ l.holders name ↔ a ∈ l.agents.map Agent.id ∧ 0 < l.placedOn a name := by
  simp only [holders, List.mem_map, List.mem_filter, decide_eq_true_eq]
  constructor
  · rintro ⟨b, ⟨hb, hpos⟩, rfl⟩
    exact ⟨⟨b, hb, rfl⟩, hpos⟩
  · rintro ⟨⟨b, hb, rfl⟩, hpos⟩
    exact ⟨b, ⟨hb, hpos⟩, rfl⟩

omit [Transport N] in
/-- All but the last and `x`. -/
theorem filter_ne_last {had : List String} (hnodup : had.Nodup) {last : String}
    (hlast : had.getLast? = some last) (x : String) :
    (had.filter fun a => a ≠ last ∧ a ≠ x) = had.dropLast.filter fun a => a ≠ x := by
  obtain ⟨pre, rfl⟩ := List.getLast?_eq_some_iff.mp hlast
  have hpre : last ∉ pre := fun h =>
    List.disjoint_of_nodup_append hnodup h (List.mem_singleton_self last)
  rw [List.dropLast_concat, List.filter_append]
  have hend : [last].filter (fun a => decide (a ≠ last ∧ a ≠ x)) = [] := by simp
  rw [hend, List.append_nil]
  refine List.filter_congr fun a ha => decide_eq_decide.mpr ?_
  exact and_iff_right fun h => hpre (h ▸ ha)

/-- The rest of a daemon's rollout, once the agent `x` took the new instance. -/
theorem daemon_rest_iff {job : Job} {l l' : Leader} {net net' : Logged N} {k : Counts} {x : Agent}
    {old : TaskRef} {rest : List TaskRef} {ds : List Call} (hdesired : job.desired = 1)
    (hids : (old :: rest).map TaskRef.agentId =
      l.agents.flatMap fun a => List.replicate (l.placedOn a.id job.name) a.id)
    (hfirst : Tally job.name (fun k _ => without (l.holders job.name) job.name k ≤ 1) k net
      l'.placedOn net')
    (hlog : net'.log = net.log ++ ds) (hx : ∃ b, .run x job b .accepted ∈ ds)
    (hacc : ∀ agent b, .run agent job b .accepted ∈ ds → agent = x) (hagents : l'.agents = l.agents)
    (hcounts : ∀ a ∈ l.holders job.name, l'.placedOn a job.name =
      (rest.map TaskRef.agentId).count a + if x.id = a then 1 else 0) :
    AtCalls job.name (fun k _ => without (l.holders job.name) job.name k ≤ 1) k
        ((rollLoop job rest 1 l' net').2.2.since net) ↔
      ∀ agent b, .run agent job b .accepted ∈ (rollLoop job rest 1 l' net').2.2.since net →
        ((l.holders job.name).dropLast.filter fun a => a ≠ agent.id).length ≤ 1 := by
  have hmoves := moves_rollLoop job rest 1 l' net'
  have hreg : ∀ o ∈ rest, o.agentId ∈ l'.agents.map Agent.id := by
    intro o ho
    have hmem : o.agentId ∈ (old :: rest).map TaskRef.agentId :=
      List.mem_map_of_mem (List.mem_cons_of_mem old ho)
    rw [hids, List.mem_flatMap] at hmem
    obtain ⟨a, ha, ho⟩ := hmem
    exact hagents ▸ List.eq_of_mem_replicate ho ▸ List.mem_map_of_mem ha
  obtain ⟨hruns, hiff⟩ := atCalls_stops net' hdesired.le hreg hcounts
  rw [hfirst.atCalls_iff hmoves.log, hiff]
  -- only `x` accepted anything
  have honly : (∀ agent b, .run agent job b .accepted ∈ (rollLoop job rest 1 l' net').2.2.since net →
      ((l.holders job.name).dropLast.filter fun a => a ≠ agent.id).length ≤ 1) ↔
      ((l.holders job.name).dropLast.filter fun a => a ≠ x.id).length ≤ 1 := by
    rw [Logged.since_trans hfirst.log hmoves.log, Logged.since_eq hlog]
    obtain ⟨b, hb⟩ := hx
    refine ⟨fun h => h x b (List.mem_append_left _ hb), fun h agent b hmem => ?_⟩
    rcases List.mem_append.mp hmem with hmem | hmem
    · rw [hacc agent b hmem]
      exact h
    · cases hruns _ hmem
  rw [honly]
  have hlasts := getLast?_agentIds l.agents fun a => l.placedOn a job.name
  rw [← hids, List.map_cons, List.getLast?_cons] at hlasts
  have hlast : (l.holders job.name).getLast? =
      some ((rest.map TaskRef.agentId).getLast?.getD old.agentId) := hlasts.symm
  rw [← filter_ne_last (l.holders_nodup job.name) hlast x.id]
  rcases hrest : (rest.map TaskRef.agentId).getLast? with _ | last
  · -- one old task: one agent had an instance
    have hnil : rest.map TaskRef.agentId = [] := List.getLast?_eq_none_iff.mp hrest
    have hsub : l.holders job.name ⊆ [old.agentId] := by
      intro a ha
      obtain ⟨hmem, hpos⟩ := mem_holders.mp ha
      have hcount := count_agentIds l.agents_id_nodup (fun x => l.placedOn x job.name) a
      rw [← hids, List.map_cons, hnil, if_pos hmem] at hcount
      exact List.count_pos_iff.mp (hcount ▸ hpos)
    have hlen := ((l.holders_nodup job.name).subperm hsub).length_le
    refine ⟨fun _ => (List.length_filter_le _ _).trans hlen, fun _ last h => ?_⟩
    cases h
  · exact ⟨fun h => h last rfl, fun h last' heq => Option.some.inj heq ▸ h⟩

/-- The loop for a daemon: it leaves at most one agent without an instance exactly if, apart from
the last one and the one that takes the new instance, at most one agent had one. -/
theorem daemon_rollLoop_iff {job : Job} {l l₁ : Leader} (net : Logged N) {olds : List TaskRef}
    (hdaemon : job.isDaemon = true) (hmax : l.totalPlaced job.name < u32Max)
    (hput : l.storePut job = .ok l₁)
    (hids : olds.map TaskRef.agentId =
      l.agents.flatMap fun a => List.replicate (l.placedOn a.id job.name) a.id) :
    AtCalls job.name (fun k _ => without (l.holders job.name) job.name k ≤ 1) l₁.placedOn
        ((rollLoop job olds 0 l₁ net).2.2.since net) ↔
      ∀ agent b, .run agent job b .accepted ∈ (rollLoop job olds 0 l₁ net).2.2.since net →
        ((l.holders job.name).dropLast.filter fun a => a ≠ agent.id).length ≤ 1 := by
  have hdesired := desired_of_isDaemon hdaemon
  have hmid := midway_start hput hids
  have hbooks : l₁.placedOn = l.placedOn := placedOn_storePut hput
  -- nobody who had an instance is without one as long as the books only grow
  have hall : ∀ k : Counts, (∀ a, l.placedOn a job.name ≤ k a job.name) →
      without (l.holders job.name) job.name k ≤ 1 := by
    intro k hk
    have hnil : (l.holders job.name).filter (fun a => k a job.name = 0) = [] := by
      refine List.filter_eq_nil_iff.mpr fun a ha hzero => ?_
      have hpos := (mem_holders.mp ha).2
      have hle := hk a
      simp only [decide_eq_true_eq] at hzero
      omega
    rw [without, hnil]
    exact Nat.zero_le 1
  let Q : Counts → Prop := fun k => without (l.holders job.name) job.name k ≤ 1
  have hstart : Q l₁.placedOn :=
    hall _ fun a => (congrFun (congrFun hbooks a) job.name).ge
  rcases olds with _ | ⟨old, rest⟩
  · rw [rollLoop, Logged.since_refl]
    exact ⟨fun _ _ _ h => absurd h List.not_mem_nil, fun _ => trivial⟩
  · obtain ⟨a, ha⟩ := hmid.agent
    have hpos := hmid.pos
    have hcount : ∀ b ∈ l.holders job.name, l₁.placedOn b job.name =
        ((old :: rest).map TaskRef.agentId).count b := by
      intro b hb
      rw [hids, count_agentIds l.agents_id_nodup fun x => l.placedOn x job.name,
        if_pos (mem_holders.mp hb).1, hbooks]
    rw [rollLoop, if_pos (by omega)]
    have hrolled := rolled_rollOne l₁ net job old
    have hagents := (moves_rollOne l₁ net job old).agents
    generalize l₁.rollOne net job old = r at hrolled hagents ⊢
    obtain ⟨res, l', net'⟩ := r
    rcases hrolled with ⟨cs, x, hr, hcs, hx, hlog, hcounts⟩ |
      ⟨cs, x, hr, hcs, hx, hlog, hcounts⟩ | ⟨cs, why, hr, hcs, hlog, hcounts⟩
    · obtain rfl : res = .ok false := hr
      dsimp only at hagents hcounts hlog ⊢
      have hlt : l₁.placedOn x.id job.name < u32Max := by
        have hle := placedOn_le_totalPlaced hx job.name
        have heq : l₁.totalPlaced job.name = l.totalPlaced job.name :=
          totalPlaced_congr hmid.known fun a => by rw [hbooks]
        omega
      have hgrown : Q l'.placedOn := by
        refine hall _ fun b => ?_
        rw [hcounts, placedOn_track_of_lt hlt, hbooks]
        exact Nat.le_add_right _ _
      have ha' : l'.agent old.agentId = some a := (agent_congr hagents _).trans ha
      have hnet : (l'.rollAfter net' job 0 old false).2.log =
          net.log ++ ((cs ++ [.run x job false .accepted]) ++ [.stopTask a old.taskId]) := by
        rw [rollAfter, stopOldTask, ha']
        simp only [Bool.false_eq_true, if_false, hdesired, Nat.lt_irrefl, Nat.zero_add]
        exact (congrArg (· ++ [Call.stopTask a old.taskId]) hlog).trans (List.append_assoc _ _ _)
      have hafter : (l'.rollAfter net' job 0 old false).1.placedOn =
          (l'.untrackOne old.agentId job.name).placedOn := by
        rw [rollAfter, stopOldTask, ha']
        rfl
      have hplace := Tally.refusedThen job.name (Q := Q) hlog hcs hstart
      rw [after_run_accepted, ← hcounts] at hplace
      have hstop := tally_stopOldTask job.name (Q := Q) net' ha' hgrown
      have hnet' : (l'.rollAfter net' job 0 old false).2 = (l'.stopOldTask net' job.name old).2 := by
        rw [rollAfter]
        simp [hdesired]
      rw [← hafter, ← hnet'] at hstop
      refine daemon_rest_iff (x := x) hdesired hids (hplace.trans hstop) hnet ⟨false, by simp⟩ ?_
        ((moves_rollAfter l' net' job 0 old false).agents.trans (hagents.trans hmid.known)) ?_
      · intro agent b hmem
        simp only [List.append_assoc, List.cons_append, List.nil_append, List.mem_append,
          List.mem_cons, List.not_mem_nil, or_false, reduceCtorEq] at hmem
        rcases hmem with hmem | hmem
        · exact absurd rfl (hcs _ hmem).2
        · cases hmem
          rfl
      · intro b hb
        have hb' := hcount b hb
        rw [List.map_cons, List.count_cons] at hb'
        rw [hafter, placedOn_untrack, hcounts, placedOn_track_of_lt hlt, hb']
        simp only [beq_iff_eq]
        split_ifs <;> omega
    · obtain rfl : res = .ok true := hr
      dsimp only at hagents hcounts hlog ⊢
      have hnet : (l'.rollAfter net' job 0 old true).2 = net' := by
        rw [rollAfter]
        simp [hdesired]
      have hafter : (l'.rollAfter net' job 0 old true).1.placedOn = l₁.placedOn := by
        rw [← hcounts, rollAfter]
        rfl
      have hplace := Tally.refusedThen job.name (Q := Q) hlog hcs hstart
      rw [hnet]
      refine daemon_rest_iff (x := x) hdesired hids (hafter ▸ hplace) hlog ⟨true, by simp⟩ ?_
        ((moves_rollAfter l' net' job 0 old true).agents.trans (hagents.trans hmid.known)) ?_
      · intro agent b hmem
        simp only [List.mem_append, List.mem_singleton] at hmem
        rcases hmem with hmem | hmem
        · exact absurd rfl (hcs _ hmem).2
        · cases hmem
          rfl
      · intro b hb
        rw [hafter, hcount b hb, List.map_cons, List.count_cons, (mem_of_agent hx).2]
        simp only [beq_iff_eq]
    · obtain rfl : res = .error why := hr
      dsimp only at hcounts hlog ⊢
      rw [Logged.since_eq hlog]
      refine ⟨fun _ agent b hmem => absurd rfl (hcs _ hmem).2, fun _ => ?_⟩
      have hcalls := (Tally.refused job.name (Q := Q) hlog hcs hstart).calls
      rwa [Logged.since_eq hlog] at hcalls

/-! ### No downtime -/

/-- What a rolling update promises at a call with the counts `k`: an ordinary job keeps the smaller
of what it had and what is wanted, a daemon is missing on at most one agent that had it, and the
other jobs keep what they have. -/
def Available (l : Leader) (job : Job) (k : Counts) : Prop :=
  (job.isDaemon = false → min (l.totalPlaced job.name) job.desired ≤ k.total l.agents job.name) ∧
    (job.isDaemon = true → without (l.holders job.name) job.name k ≤ 1) ∧
    ∀ a n, n ≠ job.name → k a n = l.placedOn a n

theorem atCalls_and {name : String} {P Q : Counts → Call → Prop} {k : Counts} {cs : List Call} :
    AtCalls name (fun k c => P k c ∧ Q k c) k cs ↔ AtCalls name P k cs ∧ AtCalls name Q k cs := by
  induction cs generalizing k with
  | nil => exact ⟨fun _ => ⟨trivial, trivial⟩, fun _ => trivial⟩
  | cons c cs ih =>
    rw [AtCalls, AtCalls, AtCalls, ih]
    tauto

/-- **A rolling update has no downtime exactly if the job is no daemon, or next to the last agent
that had an instance and the agent that takes the new one at most one agent had one.** The agents
answer with task lists that equal the books, and to `run` whatever they like; the counts at a call
are those that the calls before it give. -/
theorem rolling_downtime_iff (l : Leader) (net : Logged N) (job old : Job)
    (hget : l.store.get job.name = some old) (hmax : l.totalPlaced job.name < u32Max)
    (hlists : ListsBooks l job.name ((l.rollPart net job).2.2.since net)) :
    (l.rollPart net job).2.1.placedOn =
        afterAll job.name l.placedOn ((l.rollPart net job).2.2.since net) ∧
    (AtCalls job.name (fun k _ => Available l job k) l.placedOn
        ((l.rollPart net job).2.2.since net) ↔
      (job.isDaemon = true → ∀ agent b,
        .run agent job b .accepted ∈ (l.rollPart net job).2.2.since net →
          ((l.holders job.name).dropLast.filter fun a => a ≠ agent.id).length ≤ 1)) := by
  obtain ⟨l₁, hput⟩ := storePut_of_get hget
  have hbooks := placedOn_storePut hput
  have hsnap := tally_snapshotJobTasks l net job.name job.name l.placedOn
  have hids := agentIds_snapshotJobTasks net hget
  rw [rollPart, hput] at hlists ⊢
  generalize l.snapshotJobTasks net job.name = snap at hsnap hids hlists ⊢
  obtain ⟨olds, net₁⟩ := snap
  dsimp only at hsnap hids hlists ⊢
  have hlog := (moves_rollLoop job olds 0 l₁ net₁).log
  have hids' := hids (hlists.mono hlog)
  have hmid := midway_start hput hids'
  have hloop := (tally_rollLoop hmax hmid net₁).1
  have hdaemon := fun hd => daemon_rollLoop_iff net₁ hd hmax hput hids'
  have hstart := hmid.noDowntime
  rw [hbooks] at hloop hstart hdaemon
  generalize (rollLoop job olds 0 l₁ net₁).2.1.placedOn = k' at hloop ⊢
  generalize (rollLoop job olds 0 l₁ net₁).2.2 = net' at hlog hlists hloop hdaemon ⊢
  -- the questions for the tasks, at the counts of the start, and then the loop
  have hasked : ∀ Q : Counts → Prop, Q l.placedOn →
      Tally job.name (fun k _ => Q k) l.placedOn net l.placedOn net₁ := fun Q hQ =>
    hsnap.mono fun k c _ h => h.2 ▸ hQ
  have hnone : without (l.holders job.name) job.name l.placedOn = 0 := by
    refine List.length_eq_zero_iff.mpr (List.filter_eq_nil_iff.mpr fun a ha hzero => ?_)
    have hpos := (mem_holders.mp ha).2
    simp only [decide_eq_true_eq] at hzero
    omega
  have havail : Available l job l.placedOn := ⟨fun _ => hstart.1, fun _ => by omega, hstart.2⟩
  refine ⟨((hasked _ hstart).trans hloop).counts, ?_⟩
  rw [(hasked _ havail).atCalls_iff hlog]
  by_cases hd : job.isDaemon = true
  · have hruns : ∀ agent b, .run agent job b .accepted ∈ net'.since net ↔
        .run agent job b .accepted ∈ net'.since net₁ := by
      intro agent b
      rw [Logged.since_trans hsnap.log hlog, List.mem_append]
      refine or_iff_right fun hmem => ?_
      have htasks := (hsnap.mono (Q := fun _ c => c.isTasks = true) fun _ _ _ h => h.1).forall_calls
      cases htasks _ hmem
    have hiff := hdaemon hd
    simp only [hruns]
    rw [forall_prop_of_true hd, ← hiff]
    refine ⟨fun h => h.mono fun k c _ hk => hk.2.1 hd, fun h => ?_⟩
    refine (atCalls_and.mpr ⟨hloop.calls, h⟩).mono fun k c _ hk => ?_
    exact ⟨fun hno => absurd (hd.symm.trans hno) (by simp), fun _ => hk.2, hk.1.2⟩
  · refine ⟨fun _ h => absurd h hd, fun _ => hloop.calls.mono fun k c _ hk => ?_⟩
    exact ⟨fun _ => hk.1, fun h => absurd h hd, hk.2⟩

/-- Agents that run one task of `log` each and take every job. -/
structure LogAgents where

instance : Transport LogAgents where
  run n _ _ _ := (.accepted, n)
  stopJob n _ _ := (true, n)
  stopTask n _ _ := n
  deleteJob n _ _ := n
  tasks n _ := (some [{ id := "log-1", jobName := "log" }], n)
  pause n _ := n

/-- The daemon `log` on each of some agents. -/
def logOn (ids : List String) (h : ids.Pairwise (· < ·)) : Leader :=
  { Leader.new "a" ⟨[{ name := "log", count := -1 }], 0, by decide, by decide⟩ with
    agents := ids.map fun id => { id := id }
    placed := ids.foldl (fun m id => m.insert id (SortedMap.empty.insert "log" 1)) .empty
    agentsSorted := List.pairwise_map.mpr h }

def twoLogs : Leader := logOn ["a", "b"] (by decide)

def fourLogs : Leader := logOn ["a", "b", "c", "d"] (by decide)

/-- A new definition of the daemon. -/
def newLog : Job := { name := "log", count := -1, command := "log2" }

def logNet : Logged LogAgents := ⟨⟨⟩, []⟩

theorem listsBooks_of_all {l : Leader} {name : String} {cs : List Call}
    (h : ∀ c ∈ cs, c.isTasks = true → ∃ a ∈ l.agents, l.placedOn a.id name = 1 ∧
      c = .tasks a (some [{ id := "log-1", jobName := name }])) : ListsBooks l name cs := by
  intro a reply hmem
  obtain ⟨b, -, hone, heq⟩ := h _ hmem rfl
  cases heq
  exact ⟨_, rfl, by simp [hone]⟩

/-- On two agents the daemon is at each call missing on at most one of them. -/
theorem rolling_no_downtime_two :
    AtCalls "log" (fun k _ => Available twoLogs newLog k) twoLogs.placedOn
      ((twoLogs.rollPart logNet newLog).2.2.since logNet) := by
  have hlists : ListsBooks twoLogs newLog.name ((twoLogs.rollPart logNet newLog).2.2.since logNet) :=
    listsBooks_of_all (by decide)
  have hiff := (rolling_downtime_iff twoLogs logNet newLog { name := "log", count := -1 }
    (by decide) (by decide) hlists).2
  refine hiff.mpr fun _ agent b _ => ?_
  have hholders : (twoLogs.holders newLog.name).dropLast = ["a"] := by decide
  rw [hholders]
  exact List.length_filter_le _ _

/-- On four agents, when the old task of the last one is stopped, two of them are without one. -/
theorem rolling_downtime_four :
    fourLogs.store.get "log" = some { name := "log", count := -1 } ∧
      newLog.policy = .rolling ∧
      ListsBooks fourLogs "log" ((fourLogs.rollPart logNet newLog).2.2.since logNet) ∧
      ¬ AtCalls "log" (fun k _ => Available fourLogs newLog k) fourLogs.placedOn
        ((fourLogs.rollPart logNet newLog).2.2.since logNet) := by
  refine ⟨by decide, by decide, listsBooks_of_all (by decide),
    fun h => ?_⟩
  obtain ⟨pre, hpre, hwithout⟩ : ∃ pre, (fourLogs.rollPart logNet newLog).2.2.since logNet =
      pre ++ .stopTask { id := "d" } "log-1" :: [] ∧
      without (fourLogs.holders "log") "log" (afterAll "log" fourLogs.placedOn pre) = 2 :=
    ⟨((fourLogs.rollPart logNet newLog).2.2.since logNet).dropLast, by decide,
      by decide⟩
  rw [hpre] at h
  have hle := h.split.2.1 rfl
  rw [show newLog.name = "log" from rfl, hwithout] at hle
  exact absurd hle (by decide)

end Leader

end Hop.Lead
