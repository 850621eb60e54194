import Hop.Lead.Quiet

/-!
# A reconcile converges and never over-places

Placing an instance of a job may displace other jobs, never the other way round: `Adds` says that
at most `k` instances of one job were added and that no other job got more. From it,
`within_reconcileLoop` bounds what a reconcile does to the books, whatever the agents reply. If
they accept everything, each job gets exactly what it misses (`FillsUp`), and the next reconcile
finds nothing to do.
-/

namespace Hop.Lead

open Hop.Types (Agent Job Map)

namespace Leader

variable {l : Leader} {job : Job} {name : String} {agent : Agent}

variable {N : Type}
variable {net : Logged N}

/-! ### The total over the agents -/

/-- Agents are told apart by their ids. -/
theorem agents_id_nodup (l : Leader) : (l.agents.map Agent.id).Nodup := by
  refine List.pairwise_map.mpr (l.agentsSorted.imp fun {a b} h => ?_)
  exact ne_of_lt h

theorem totalPlaced_congr {l' : Leader} (ha : l'.agents = l.agents)
    (h : ∀ a, l'.placedOn a name = l.placedOn a name) :
    l'.totalPlaced name = l.totalPlaced name := by
  rw [totalPlaced, totalPlaced, ha]
  simp only [h]

theorem totalPlaced_mono {l' : Leader} (ha : l'.agents = l.agents)
    (h : ∀ a, l'.placedOn a name ≤ l.placedOn a name) :
    l'.totalPlaced name ≤ l.totalPlaced name := by
  rw [totalPlaced, totalPlaced, ha]
  exact List.sum_le_sum fun a _ => h a.id

/-- One more on one agent is one more in total. -/
theorem sum_bump {ids : List String} (hnodup : ids.Nodup) (f : String → ℕ) {x : String}
    (hx : x ∈ ids) : (ids.map fun a => f a + if x = a then 1 else 0).sum = (ids.map f).sum + 1 := by
  rw [List.sum_map_add]
  congr 1
  induction ids with
  | nil => cases hx
  | cons a ids ih =>
    obtain ⟨ha, hids⟩ := List.nodup_cons.mp hnodup
    rw [List.map_cons, List.sum_cons]
    rcases List.mem_cons.mp hx with rfl | hx
    · have hzero : ids.map (fun a => if x = a then 1 else 0) = ids.map fun _ => 0 :=
        List.map_congr_left fun b hb => if_neg (ne_of_mem_of_not_mem hb ha).symm
      simp [hzero]
    · rw [if_neg (ne_of_mem_of_not_mem hx ha), ih hids hx, Nat.zero_add]

theorem totalPlaced_eq_ids (l : Leader) (name : String) :
    l.totalPlaced name = ((l.agents.map Agent.id).map fun a => l.placedOn a name).sum := by
  rw [totalPlaced, List.map_map]
  rfl

/-- Booking one instance on an agent adds one to the total, below the largest count. -/
theorem totalPlaced_trackPlacement (hagent : agent ∈ l.agents)
    (hlt : l.placedOn agent.id name < u32Max) :
    (l.trackPlacement agent.id name).totalPlaced name = l.totalPlaced name + 1 := by
  have hid : agent.id ∈ l.agents.map Agent.id := List.mem_map_of_mem hagent
  rw [totalPlaced_eq_ids, totalPlaced_eq_ids, ← sum_bump l.agents_id_nodup _ hid]
  refine congrArg List.sum (List.map_congr_left fun a _ => ?_)
  rw [placedOn_trackPlacement]
  by_cases h : agent.id = a
  · subst h
    simp [satAdd]
    omega
  · simp [h]

theorem placedOn_trackPlacement_le (l : Leader) (a n a' n' : String) :
    (l.trackPlacement a n).placedOn a' n' ≤
      l.placedOn a' n' + if a = a' ∧ n = n' then 1 else 0 := by
  rw [placedOn_trackPlacement]
  split_ifs with h
  · obtain ⟨rfl, rfl⟩ := h
    simp [satAdd]
  · exact le_refl _

theorem totalPlaced_trackPlacement_le (name : String) (hagent : agent ∈ l.agents) :
    (l.trackPlacement agent.id name).totalPlaced name ≤ l.totalPlaced name + 1 := by
  have hid : agent.id ∈ l.agents.map Agent.id := List.mem_map_of_mem hagent
  rw [totalPlaced_eq_ids, totalPlaced_eq_ids, ← sum_bump l.agents_id_nodup _ hid]
  refine List.sum_le_sum fun a _ => ?_
  simpa using l.placedOn_trackPlacement_le agent.id name a name

/-! ### What a daemon misses -/

theorem missing_id_nodup (l : Leader) (name : String) : ((l.missing name).map Agent.id).Nodup :=
  l.agents_id_nodup.sublist (List.filter_sublist.map _)

theorem mem_missing :
    agent ∈ l.missing name ↔ agent ∈ l.agents ∧ l.placedOn agent.id name = 0 := by
  simp [missing]

theorem placedOn_of_id_mem_missing {a : String} (h : a ∈ (l.missing name).map Agent.id) :
    l.placedOn a name = 0 := by
  obtain ⟨agent, hagent, rfl⟩ := List.mem_map.mp h
  exact (mem_missing.mp hagent).2

/-! ### What placing adds -/

/-- At most `k` instances of `name` were added, and no other job got more. -/
structure Adds (name : String) (k : ℕ) (l l' : Leader) : Prop where
  agents : l'.agents = l.agents
  total : l'.totalPlaced name ≤ l.totalPlaced name + k
  others : ∀ a n, n ≠ name → l'.placedOn a n ≤ l.placedOn a n

namespace Adds

variable {name : String} {k k' : ℕ} {l l' l'' : Leader}

theorem trans (h : Adds name k l l') (h' : Adds name k' l' l'') : Adds name (k + k') l l'' :=
  ⟨h'.agents.trans h.agents, h'.total.trans (by have := h.total; omega),
    fun a n hn => (h'.others a n hn).trans (h.others a n hn)⟩

theorem mono (h : Adds name k l l') (hk : k ≤ k') : Adds name k' l l' :=
  ⟨h.agents, h.total.trans (Nat.add_le_add_left hk _), h.others⟩

/-- Books that only shrink. -/
theorem of_le (ha : l'.agents = l.agents) (h : ∀ a n, l'.placedOn a n ≤ l.placedOn a n) :
    Adds name 0 l l' :=
  ⟨ha, totalPlaced_mono ha fun a => h a name, fun a n _ => h a n⟩

/-- The same books. -/
theorem of_placed (ha : l'.agents = l.agents) (hp : l'.placed = l.placed) : Adds name 0 l l' := by
  refine of_le ha fun a n => ?_
  rw [placedOn, placedOn, hp]

theorem emit (e : Event) : Adds name 0 l (l.emit e) := of_placed rfl rfl

theorem track (agent : Agent) (hagent : agent ∈ l.agents) :
    Adds name 1 l (l.trackPlacement agent.id name) := by
  refine ⟨rfl, totalPlaced_trackPlacement_le name hagent, fun a n hn => ?_⟩
  have := l.placedOn_trackPlacement_le agent.id name a n
  rwa [if_neg fun h => hn h.2.symm, Nat.add_zero] at this

theorem drop (name agentId victim : String) : Adds name 0 l (l.dropPlacement agentId victim) := by
  refine of_le rfl fun a n => ?_
  rw [placedOn_dropPlacement]
  split_ifs
  · exact Nat.zero_le _
  · exact le_refl _

end Adds

variable [Transport N]

/-- An instance more if an agent accepts, and none else. -/
theorem adds_seats (job : Job) (l : Leader) (j : ℕ) :
    Seats job (fun l' (_ : N) => Adds job.name j l l') fun l' _ => Adds job.name (j + 1) l l' where
  next {l' _} h := h.trans (.of_placed l'.nextAgent_books.2.2 l'.nextAgent_books.1)
  refused h _ _ _ := h
  accepted h ha _ := h.trans (.track _ ha)
  unconfirmed h _ _ _ := h
  displaced h ha _ _ _ := ((h.trans (.drop job.name _ _)).trans (.track _ ha)).trans (.emit _)
  vain h _ _ _ _ _ := h.trans (.drop job.name _ _)

theorem adds_dispatchLoop (job : Job) (count k i : ℕ) (l : Leader) (net : N) :
    Adds job.name k l (dispatchLoop job count k i l net).2.1 := by
  obtain ⟨m, hm, h, -⟩ := Seats.dispatchLoop (I := fun j l' (_ : N) => Adds job.name j l l')
    (adds_seats job l) count k i 0 (.of_placed rfl rfl)
  exact h.mono ((Nat.zero_add m).le.trans hm)

/-- A daemon gets at most one more on each agent it is sent to. -/
theorem placedOn_daemonLoop_le (job : Job) {agents : List Agent}
    (hnodup : (agents.map Agent.id).Nodup) (l : Leader) (net : N) (a n : String) :
    (daemonLoop job agents l net).2.1.placedOn a n ≤
      l.placedOn a n + if n = job.name ∧ a ∈ agents.map Agent.id then 1 else 0 := by
  induction agents generalizing l net with
  | nil => simp [daemonLoop]
  | cons agent rest ih =>
    obtain ⟨hagent, hrest⟩ := List.nodup_cons.mp (List.map_cons ▸ hnodup)
    unfold daemonLoop
    split
    · rename_i net' _
      refine (ih hrest (l.trackPlacement agent.id job.name) net').trans ?_
      have htrack := l.placedOn_trackPlacement_le agent.id job.name a n
      by_cases hn : n = job.name
      · subst hn
        by_cases ha : agent.id = a
        · subst ha
          simpa [hagent] using htrack
        · have ha' : a ≠ agent.id := Ne.symm ha
          simpa [ha, ha'] using htrack
      · simpa [hn, Ne.symm hn] using htrack
    · rename_i r net' _ _
      refine (ih hrest l net').trans ?_
      gcongr
      split_ifs with h h'
      · exact le_refl 1
      · exact absurd ⟨h.1, List.mem_cons_of_mem _ h.2⟩ h'
      · exact Nat.zero_le 1
      · exact le_refl 0

/-! ### The bound -/

/-- No job of the store got more than it should have: an ordinary job in total, a daemon on each
agent. -/
def Within (l l' : Leader) (job : Job) : Prop :=
  (job.isDaemon = false → l'.totalPlaced job.name ≤ max (l.totalPlaced job.name) job.desired) ∧
    (job.isDaemon = true → ∀ a, l'.placedOn a job.name ≤ max (l.placedOn a job.name) 1)

theorem Within.refl (l : Leader) (job : Job) : Within l l job :=
  ⟨fun _ => le_max_left _ _, fun _ _ => le_max_left _ _⟩

theorem Within.trans {l' l'' : Leader} (h : Within l l' job) (h' : Within l' l'' job) :
    Within l l'' job :=
  ⟨fun hd => (h'.1 hd).trans (max_le (h.1 hd) (le_max_right _ _)),
    fun hd a => (h'.2 hd a).trans (max_le (h.2 hd a) (le_max_right _ _))⟩

/-- Reconciling a job keeps the bound for it. -/
theorem within_reconcileJob (l : Leader) (net : N) (job : Job) :
    Within l (l.reconcileJob net job).2.1 job := by
  unfold reconcileJob
  cases hd : job.isDaemon
  · refine ⟨fun _ => ?_, fun h => absurd h (by simp [hd])⟩
    simp only [Bool.false_eq_true, if_false]
    split_ifs with hle
    · exact le_max_left _ _
    · have hadds := (adds_dispatchLoop job (max (job.desired - l.totalPlaced job.name) 1)
        (max (job.desired - l.totalPlaced job.name) 1) 0 l net).total
      refine le_max_of_le_right (hadds.trans ?_)
      omega
  · refine ⟨fun h => absurd h (by simp [hd]), fun _ a => ?_⟩
    have hloop := placedOn_daemonLoop_le job (l.missing_id_nodup job.name) l net a job.name
    have hle : (daemonLoop job (l.missing job.name) l net).2.1.placedOn a job.name ≤
        max (l.placedOn a job.name) 1 := by
      refine hloop.trans ?_
      split_ifs with h
      · rw [placedOn_of_id_mem_missing h.2]
        exact le_max_right _ _
      · exact le_max_left _ _
    simp only [if_true, reconcileDaemon]
    split_ifs <;> exact hle

/-- Reconciling a job gives no other job more. -/
theorem placedOn_reconcileJob_le (l : Leader) (net : N) (job : Job) {n : String}
    (hn : n ≠ job.name) (a : String) :
    (l.reconcileJob net job).2.1.placedOn a n ≤ l.placedOn a n := by
  unfold reconcileJob
  cases hd : job.isDaemon
  · simp only [Bool.false_eq_true, if_false]
    split_ifs
    · exact le_refl _
    · exact (adds_dispatchLoop job _ _ 0 l net).others a n hn
  · have hloop := placedOn_daemonLoop_le job (l.missing_id_nodup job.name) l net a n
    rw [if_neg fun h => hn h.1, Nat.add_zero] at hloop
    simp only [if_true, reconcileDaemon]
    split_ifs <;> exact hloop

/-- **The bound of a round**, whatever the agents reply. -/
theorem within_reconcileLoop (names : List String) (l : Leader) (net : Logged N) {j : Job}
    (hjob : j ∈ l.store.jobs) : Within l (reconcileLoop names l net).1 j := by
  induction names generalizing l net with
  | nil => exact .refl l j
  | cons name rest ih =>
    unfold reconcileLoop
    split
    · exact ih l net hjob
    · rename_i job' hget
      split_ifs
      · exact ih l net hjob
      · have hmoves := moves_reconcileJob l net job'
        refine Within.trans ?_ (ih _ _ (hmoves.store ▸ hjob))
        -- the job itself, or a job that gets no more by it
        by_cases hname : j.name = job'.name
        · obtain ⟨hjob', -⟩ := MemStore.get_eq_some_iff.mp hget
          obtain rfl := List.inj_on_of_nodup_map l.store.nodup hjob hjob' hname
          exact within_reconcileJob l net j
        · have hle := placedOn_reconcileJob_le l net job' hname
          exact ⟨fun _ => (totalPlaced_mono hmoves.agents hle).trans (le_max_left _ _),
            fun _ a => (hle a).trans (le_max_left _ _)⟩

/-! ### Agents that accept everything -/

/-- Every `run` between the two states was accepted. -/
def Accepted (net net' : Logged N) : Prop := ∀ c ∈ net'.since net, c.accepts = true

instance (net net' : Logged N) : Decidable (Accepted net net') :=
  inferInstanceAs (Decidable (∀ c ∈ _, _ = _))

omit [Transport N] in
theorem Accepted.of_initial {net' net'' : Logged N} (h : Accepted net net'')
    (hlog : net'.log <+: net''.log) : Accepted net net' :=
  fun c hc => h c (Logged.mem_since_of_initial hlog hc)

omit [Transport N] in
theorem Accepted.of_suffix {net' net'' : Logged N} (h : Accepted net net'')
    (hlog : net.log <+: net'.log) : Accepted net' net'' :=
  fun c hc => h c (Logged.mem_since_of_suffix hlog hc)

theorem Accepted.run {net' net'' : Logged N} {replace : Bool} {r : RunReply}
    (h : Accepted net net'') (hrun : Transport.run net agent job replace = (r, net'))
    (hlog : net'.log <+: net''.log) : r = .accepted := by
  have hmem : Call.run agent job replace r ∈ net'.since net := by
    rw [Logged.since_eq (Logged.log_run hrun)]
    exact List.mem_singleton_self _
  simpa [Call.accepts] using h _ (Logged.mem_since_of_initial hlog hmem)

/-- The first agent takes the job. -/
theorem firstRound_of_accepted (job : Job) (k : ℕ) (full : List Agent) (net : Logged N)
    (ha : l.agents ≠ []) (h : Accepted net (firstRound job (k + 1) full l net).2.2) :
    ∃ agent ∈ l.agents, ∃ net', (firstRound job (k + 1) full l net =
      ((true, full), l.nextAgent.2.trackPlacement agent.id job.name, net')) ∧
      l.nextAgent.1 = some agent ∧ net'.log = net.log ++ [.run agent job false .accepted] := by
  obtain ⟨agent, hagent, hnext⟩ := nextAgent_isSome ha
  have hnext' : l.nextAgent = (some agent, l.nextAgent.2) := by rw [← hnext]
  refine ⟨agent, hagent, ?_⟩
  unfold firstRound at h ⊢
  rw [hnext'] at h ⊢
  dsimp only at h ⊢
  cases hrun : Transport.run net agent job false with
  | mk r net' =>
    rw [hrun] at h
    cases r with
    | accepted => exact ⟨net', rfl, rfl, Logged.log_run hrun⟩
    | noCapacity => cases h.run hrun (moves_firstRound _ _ _ _ _).log
    | affinityMismatch => cases h.run hrun (moves_firstRound _ _ _ _ _).log
    | rejected status => cases h.run hrun (moves_firstRound _ _ _ _ _).log
    | unreachable => cases h.run hrun (moves_firstRound _ _ _ _ _).log

/-- Exactly `k` instances of `name` were added, and no other job changed. -/
structure Fills (name : String) (k : ℕ) (l l' : Leader) : Prop where
  agents : l'.agents = l.agents
  total : l'.totalPlaced name = l.totalPlaced name + k
  others : ∀ a n, n ≠ name → l'.placedOn a n = l.placedOn a n

omit [Transport N] in
theorem placedOn_le_totalPlaced (h : agent ∈ l.agents) (name : String) :
    l.placedOn agent.id name ≤ l.totalPlaced name :=
  List.le_sum_of_mem (List.mem_map_of_mem (f := fun a : Agent => l.placedOn a.id name) h)

omit [Transport N] in
theorem fills_track (h : agent ∈ l.agents) (hlt : l.totalPlaced name < u32Max) :
    Fills name 1 l (l.nextAgent.2.trackPlacement agent.id name) := by
  obtain ⟨hp, -, ha⟩ := l.nextAgent_books
  have hon : l.nextAgent.2.placedOn = l.placedOn := by
    funext a n
    rw [placedOn, placedOn, hp]
  have htotal : l.nextAgent.2.totalPlaced name = l.totalPlaced name := by
    rw [totalPlaced, totalPlaced, ha, hon]
  refine ⟨ha, ?_, fun a n hn => ?_⟩
  · rw [totalPlaced_trackPlacement (ha ▸ h), htotal]
    rw [hon]
    exact (placedOn_le_totalPlaced h name).trans_lt hlt
  · rw [placedOn_trackPlacement, if_neg fun h => hn h.2.symm, hon]

theorem place_eq_of_accepted (net : Logged N) (allowPreempt : Bool) (ha : l.agents ≠ [])
    (h : Accepted net (l.place net job allowPreempt).2.2) :
    ∃ agent ∈ l.agents, ∃ net', (l.place net job allowPreempt =
      (.ok (), l.nextAgent.2.trackPlacement agent.id job.name, net')) ∧
      l.nextAgent.1 = some agent ∧ net'.log = net.log ++ [.run agent job false .accepted] := by
  obtain ⟨k, hk⟩ : ∃ k, l.agents.length = k + 1 :=
    Nat.exists_eq_succ_of_ne_zero (List.length_pos_iff.mpr ha).ne'
  have hfirst := firstRound_of_accepted job k [] net ha
  have hfull := (firstRound_agents (l := l) job l.agents.length [] net (by simp)).2
  rw [← hk] at hfirst
  unfold place at h ⊢
  dsimp only at h ⊢
  rw [if_neg (by omega)] at h ⊢
  split at h
  · rename_i full l' net' heq
    rw [heq] at hfirst
    obtain ⟨agent, hagent, net'', heq', hlogged⟩ := hfirst h
    cases heq'
    exact ⟨agent, hagent, _, rfl, hlogged⟩
  · rename_i l' net' heq
    rw [heq] at hfirst
    obtain ⟨_, _, _, heq', -⟩ := hfirst h
    cases heq'
  · rename_i full l' net' _ heq
    rw [heq] at hfirst hfull
    have hpre := (moves_preemptRound job net' hfull).log
    have hacc : Accepted net net' := by
      split_ifs at h
      · exact h
      · split at h
        · rename_i l'' net'' heq'
          rw [heq'] at hpre
          exact h.of_initial hpre
        · rename_i l'' net'' heq'
          rw [heq'] at hpre
          exact h.of_initial hpre
    obtain ⟨_, _, _, heq', -⟩ := hfirst hacc
    cases heq'

theorem place_of_accepted (net : Logged N) (allowPreempt : Bool) (ha : l.agents ≠ [])
    (hlt : l.totalPlaced job.name < u32Max) (h : Accepted net (l.place net job allowPreempt).2.2) :
    (l.place net job allowPreempt).1 = .ok () ∧
      Fills job.name 1 l (l.place net job allowPreempt).2.1 := by
  obtain ⟨agent, hagent, net', heq, -⟩ := place_eq_of_accepted net allowPreempt ha h
  rw [heq]
  exact ⟨rfl, fills_track hagent hlt⟩

theorem fills_dispatchLoop {count k i : ℕ} (ha : l.agents ≠ [])
    (hle : l.totalPlaced job.name + k ≤ u32Max)
    (h : Accepted net (dispatchLoop job count k i l net).2.2) :
    Fills job.name k l (dispatchLoop job count k i l net).2.1 := by
  induction k generalizing i l net with
  | zero => exact ⟨rfl, rfl, fun _ _ _ => rfl⟩
  | succ k ih =>
    have hplace := place_of_accepted net true ha
      (show l.totalPlaced job.name < u32Max by omega)
    have hmoves := (moves_place l net job true).log
    unfold dispatchLoop at h ⊢
    split at h
    · rename_i why l' net' heq
      rw [heq] at hplace
      cases (hplace h).1
    · rename_i l' net' heq
      rw [heq] at hplace hmoves
      obtain ⟨-, hfills⟩ := hplace (h.of_initial (moves_dispatchLoop _ _ _ _ _ _).log)
      have hrest := ih (hfills.agents ▸ ha) (by rw [hfills.total]; omega) (h.of_suffix hmoves)
      refine ⟨hrest.agents.trans hfills.agents, ?_, fun a n hn =>
        (hrest.others a n hn).trans (hfills.others a n hn)⟩
      rw [hrest.total, hfills.total]
      omega

/-- Every agent that a daemon is sent to has one more. -/
theorem placedOn_daemonLoop_of_accepted {agents : List Agent} (hnodup : (agents.map Agent.id).Nodup)
    (hzero : ∀ agent ∈ agents, l.placedOn agent.id job.name = 0)
    (h : Accepted net (daemonLoop job agents l net).2.2) (a n : String) :
    (daemonLoop job agents l net).2.1.placedOn a n =
      l.placedOn a n + if n = job.name ∧ a ∈ agents.map Agent.id then 1 else 0 := by
  induction agents generalizing l net with
  | nil => simp [daemonLoop]
  | cons agent rest ih =>
    obtain ⟨hagent, hrest⟩ := List.nodup_cons.mp (List.map_cons ▸ hnodup)
    obtain ⟨hzero₀, hzero⟩ := List.forall_mem_cons.mp hzero
    unfold daemonLoop at h ⊢
    split at h
    · rename_i net' hrun
      have hzero' : ∀ b ∈ rest,
          (l.trackPlacement agent.id job.name).placedOn b.id job.name = 0 := by
        intro b hb
        have hne : agent.id ≠ b.id := fun heq => hagent (heq ▸ List.mem_map_of_mem hb)
        rw [placedOn_trackPlacement, if_neg fun h => hne h.1, hzero b hb]
      refine (ih hrest hzero' (h.of_suffix (moves_run l hrun).log)).trans ?_
      rw [placedOn_trackPlacement]
      by_cases hn : n = job.name
      · subst hn
        by_cases hid : agent.id = a
        · subst hid
          simp [hagent, hzero₀, satAdd, u32Max]
        · simp [hid, Ne.symm hid]
      · simp [hn, Ne.symm hn]
    · rename_i r net' hne hrun
      exact absurd (h.run hrun (moves_daemonLoop _ _ _ _).log) hne

/-- The job got exactly what it missed. -/
def FillsUp (l l' : Leader) (job : Job) : Prop :=
  (job.isDaemon = false → l'.totalPlaced job.name = max (l.totalPlaced job.name) job.desired) ∧
    (job.isDaemon = true → ∀ agent ∈ l.agents,
      l'.placedOn agent.id job.name = max (l.placedOn agent.id job.name) 1)

/-- If its agents accept, a job gets exactly what it misses, and no other job changes. -/
theorem fillsUp_reconcileJob (ha : l.agents ≠ []) (hcount : job.count < 2 ^ 32)
    (h : Accepted net (l.reconcileJob net job).2.2) :
    FillsUp l (l.reconcileJob net job).2.1 job ∧ ∀ a n, n ≠ job.name →
      (l.reconcileJob net job).2.1.placedOn a n = l.placedOn a n := by
  have hdesired : job.desired ≤ u32Max := by
    unfold Job.desired u32Max
    omega
  unfold reconcileJob at h ⊢
  cases hd : job.isDaemon
  · simp only [hd, Bool.false_eq_true, if_false] at h ⊢
    split_ifs at h ⊢ with hle
    · exact ⟨⟨fun _ => (max_eq_left hle).symm, fun h => absurd h (by simp [hd])⟩, fun _ _ _ => rfl⟩
    · have hmax : max (job.desired - l.totalPlaced job.name) 1 =
          job.desired - l.totalPlaced job.name := max_eq_left (by omega)
      have hfills : Fills job.name (job.desired - l.totalPlaced job.name) l
          (l.dispatchCount net job (job.desired - l.totalPlaced job.name)).2.1 := by
        unfold dispatchCount at h ⊢
        rw [hmax] at h ⊢
        exact fills_dispatchLoop ha (by omega) h
      refine ⟨⟨fun _ => ?_, fun h => absurd h (by simp [hd])⟩, hfills.others⟩
      refine hfills.total.trans ?_
      rw [max_eq_right (by omega)]
      omega
  · simp only [hd, if_true] at h ⊢
    have hacc : Accepted net (daemonLoop job (l.missing job.name) l net).2.2 := by
      unfold reconcileDaemon at h
      dsimp only at h
      split_ifs at h <;> exact h
    have hloop := placedOn_daemonLoop_of_accepted (l.missing_id_nodup job.name)
      (fun agent h => (mem_missing.mp h).2) hacc
    have hbooks : (l.reconcileDaemon net job).2.1.placedOn =
        (daemonLoop job (l.missing job.name) l net).2.1.placedOn := by
      unfold reconcileDaemon
      dsimp only
      split_ifs <;> rfl
    rw [hbooks]
    refine ⟨⟨fun h => absurd h (by simp [hd]), fun _ agent hagent => ?_⟩, fun a n hn => ?_⟩
    · rw [hbooks, hloop]
      by_cases hzero : l.placedOn agent.id job.name = 0
      · have hmem : agent.id ∈ (l.missing job.name).map Agent.id :=
          List.mem_map_of_mem (mem_missing.mpr ⟨hagent, hzero⟩)
        simp [hmem, hzero]
      · have hmem : agent.id ∉ (l.missing job.name).map Agent.id :=
          fun hmem => hzero (placedOn_of_id_mem_missing hmem)
        simp only [hmem, and_false, if_false, Nat.add_zero]
        omega
    · rw [hloop, if_neg fun h => hn h.1, Nat.add_zero]

/-- **Convergence of a round**: if the agents accept, each job of the list is filled up. -/
theorem fillsUp_reconcileLoop {names : List String} (ha : l.agents ≠ []) (hnodup : names.Nodup)
    (hjobs : ∀ job ∈ l.store.jobs, job.name ≠ "" ∧ job.count < 2 ^ 32)
    (h : Accepted net (reconcileLoop names l net).2) :
    (∀ job ∈ l.store.jobs, job.name ∈ names → FillsUp l (reconcileLoop names l net).1 job) ∧
      ∀ a n, n ∉ names → (reconcileLoop names l net).1.placedOn a n = l.placedOn a n := by
  induction names generalizing l net with
  | nil => exact ⟨by simp, fun _ _ _ => rfl⟩
  | cons name rest ih =>
    obtain ⟨hname, hrest⟩ := List.nodup_cons.mp hnodup
    unfold reconcileLoop at h ⊢
    split at h
    · rename_i hget
      obtain ⟨hfill, hothers⟩ := ih ha hrest hjobs h
      refine ⟨fun job hjob hmem => hfill job hjob ?_, fun a n hn =>
        hothers a n fun h => hn (List.mem_cons_of_mem _ h)⟩
      rcases List.mem_cons.mp hmem with rfl | hmem
      · exact absurd (List.mem_map_of_mem hjob) (MemStore.get_eq_none_iff.mp hget)
      · exact hmem
    · rename_i job hget
      obtain ⟨hjob, rfl⟩ := MemStore.get_eq_some_iff.mp hget
      rw [if_neg (hjobs job hjob).1] at h ⊢
      have hmoves := moves_reconcileJob l net job
      have hone := fillsUp_reconcileJob ha (hjobs job hjob).2
        (h.of_initial (moves_reconcileLoop _ _ _).log)
      generalize l.reconcileJob net job = res at h hmoves hone ⊢
      obtain ⟨r, l₁, net₁⟩ := res
      obtain ⟨hone, hothers₁⟩ := hone
      obtain ⟨hfill, hothers₂⟩ := ih (by rwa [hmoves.agents]) hrest (by rwa [hmoves.store])
        (h.of_suffix hmoves.log)
      have hagents := (moves_reconcileLoop rest l₁ net₁).agents
      refine ⟨fun job' hjob' hmem => ?_, fun a n hn => ?_⟩
      · by_cases heq : job'.name = job.name
        · -- filled up by its own turn, and left alone by the others
          obtain rfl := List.inj_on_of_nodup_map l.store.nodup hjob' hjob heq
          have hkeep := fun a => hothers₂ a job'.name hname
          exact ⟨fun hd => (totalPlaced_congr hagents hkeep).trans (hone.1 hd),
            fun hd agent hagent => (hkeep agent.id).trans (hone.2 hd agent hagent)⟩
        · have hfill' := hfill job' (by rwa [hmoves.store])
            ((List.mem_cons.mp hmem).resolve_left heq)
          have hkeep := fun a => hothers₁ a job'.name heq
          refine ⟨fun hd => ?_, fun hd agent hagent => ?_⟩
          · exact (hfill'.1 hd).trans (by rw [totalPlaced_congr hmoves.agents hkeep])
          · exact (hfill'.2 hd agent (by rwa [hmoves.agents])).trans (by rw [hkeep])
      · exact (hothers₂ a n fun h => hn (List.mem_cons_of_mem _ h)).trans
          (hothers₁ a n fun h => hn (h ▸ List.mem_cons_self))

/-! ### The reconcile -/

omit [Transport N] in
theorem ranked_counts (l : Leader) :
    l.ranked.placedOn = l.placedOn ∧ l.ranked.totalPlaced = l.totalPlaced := by
  obtain ⟨hp, ha⟩ := l.ranked_books
  have hon : l.ranked.placedOn = l.placedOn := by
    funext a n
    rw [placedOn, placedOn, hp]
  refine ⟨hon, ?_⟩
  funext n
  rw [totalPlaced, totalPlaced, ha, hon]

omit [Transport N] in
/-- A job that is filled up is satisfied. -/
theorem FillsUp.satisfied {l' : Leader} (h : FillsUp l l' job) (ha : l'.agents = l.agents) :
    l'.Satisfied job := by
  refine ⟨fun hd => List.filter_eq_nil_iff.mpr fun agent hagent => ?_, fun hd => ?_⟩
  · have := h.2 hd agent (ha ▸ hagent)
    simp only [decide_eq_true_eq]
    omega
  · rw [h.1 hd]
    exact le_max_right _ _

omit [Transport N] in
theorem ranked_jobs (h : ∀ job ∈ l.store.jobs, job.name ≠ "" ∧ job.count < 2 ^ 32) :
    ∀ job ∈ l.ranked.store.jobs, job.name ≠ "" ∧ job.count < 2 ^ 32 := by
  intro job hjob
  have hmem : unranked job ∈ l.store.jobs.map unranked :=
    (renumbers_normalizePriorities l).jobs ▸ List.mem_map_of_mem hjob
  obtain ⟨job', hjob', heq⟩ := List.mem_map.mp hmem
  obtain ⟨hname, hcount⟩ := unranked_eq heq
  rw [← hname, ← hcount]
  exact h job' hjob'

omit [Transport N] in
theorem ranked_priorityOrder_nodup (l : Leader) : l.ranked.priorityOrder.Nodup :=
  l.ranked.priorityOrder_perm.nodup_iff.mpr l.ranked.store.nodup

/-- The bound of a reconcile. -/
theorem within_reconcileJobs (l : Leader) (net : Logged N) (hjob : job ∈ l.store.jobs) :
    Within l (l.reconcileJobs net).1 job := by
  rw [reconcileJobs_eq]
  split_ifs
  · exact .refl l job
  · obtain ⟨job', hjob', heq⟩ := (renumbers_normalizePriorities l).mem hjob
    obtain ⟨hname, hcount⟩ := unranked_eq heq
    obtain ⟨hon, htotal⟩ := l.ranked_counts
    have h := within_reconcileLoop l.ranked.priorityOrder l.ranked net hjob'
    rw [Within, Job.isDaemon, Job.desired, hname, hcount, hon, htotal] at h
    exact h

/-- With an agent, and if every `run` is accepted, a reconcile fills every job up. -/
theorem fillsUp_reconcileJobs (ha : l.agents ≠ [])
    (hjobs : ∀ job ∈ l.store.jobs, job.name ≠ "" ∧ job.count < 2 ^ 32)
    (h : Accepted net (l.reconcileJobs net).2) :
    (∀ job ∈ l.store.jobs, FillsUp l (l.reconcileJobs net).1 job) ∧
      (l.reconcileJobs net).1.Quiet := by
  rw [reconcileJobs_eq] at h ⊢
  split_ifs at h ⊢ with hempty
  · have hnil := hempty.resolve_right ha
    rw [hnil]
    exact ⟨by simp, Or.inr (by simp [hnil])⟩
  · obtain ⟨hfill, -⟩ := fillsUp_reconcileLoop (by rwa [l.ranked_books.2])
      l.ranked_priorityOrder_nodup (ranked_jobs hjobs) h
    have hmem : ∀ job ∈ l.ranked.store.jobs, job.name ∈ l.ranked.priorityOrder := fun job hjob =>
      l.ranked.priorityOrder_perm.mem_iff.mpr (List.mem_map_of_mem hjob)
    have hmoves := moves_reconcileLoop l.ranked.priorityOrder l.ranked net
    refine ⟨fun job hjob => ?_, Or.inr fun job hjob _ => ?_⟩
    · obtain ⟨job', hjob', heq⟩ := (renumbers_normalizePriorities l).mem hjob
      obtain ⟨hname, hcount⟩ := unranked_eq heq
      obtain ⟨hon, htotal⟩ := l.ranked_counts
      have hfill' := hfill job' hjob' (hmem job' hjob')
      rw [FillsUp, Job.isDaemon, Job.desired, hname, hcount, hon, htotal, l.ranked_books.2]
        at hfill'
      exact hfill'
    · rw [hmoves.store] at hjob
      exact (hfill job hjob (hmem job hjob)).satisfied hmoves.agents

end Leader

open Leader

variable {N : Type} [Transport N]

/-- **A reconcile never over-places, and converges**: whatever the agents reply, an ordinary job
ends with at most its number of instances, or what it had, and a daemon with at most one on each
agent, or what it had. If every `run` is accepted, then a daemon has one on every agent, an
ordinary job has exactly its number, or what it had, provided there is an agent; and a second
reconcile makes no call and changes no count. -/
theorem reconcileJobs_converges (l : Leader) (net : Logged N)
    (hjobs : ∀ job ∈ l.store.jobs, job.name ≠ "" ∧ job.count < 2 ^ 32) :
    (∀ job ∈ l.store.jobs, Within l (l.reconcileJobs net).1 job) ∧
      (Accepted net (l.reconcileJobs net).2 →
        (l.agents ≠ [] → ∀ job ∈ l.store.jobs, job.isDaemon = false →
          (l.reconcileJobs net).1.totalPlaced job.name =
            max (l.totalPlaced job.name) job.desired) ∧
        (∀ job ∈ l.store.jobs, job.isDaemon = true → ∀ agent ∈ l.agents,
          1 ≤ (l.reconcileJobs net).1.placedOn agent.id job.name) ∧
        ((l.reconcileJobs net).1.reconcileJobs (l.reconcileJobs net).2).2 =
          (l.reconcileJobs net).2 ∧
        ∀ a n, ((l.reconcileJobs net).1.reconcileJobs (l.reconcileJobs net).2).1.placedOn a n =
          (l.reconcileJobs net).1.placedOn a n) := by
  refine ⟨fun job hjob => within_reconcileJobs l net hjob, fun h => ?_⟩
  have hquiet : (l.reconcileJobs net).1.Quiet := by
    by_cases ha : l.agents = []
    · exact Or.inl ((reconcileJobs_frame l net).2.1.trans ha)
    · exact (fillsUp_reconcileJobs ha hjobs h).2
  obtain ⟨hnet, hplaced⟩ := reconcileJobs_of_quiet (l.reconcileJobs net).2 hquiet
  refine ⟨fun ha job hjob hd => ?_, fun job hjob hd agent hagent => ?_, hnet, fun a n => ?_⟩
  · exact ((fillsUp_reconcileJobs ha hjobs h).1 job hjob).1 hd
  · have ha : l.agents ≠ [] := List.ne_nil_of_mem hagent
    rw [((fillsUp_reconcileJobs ha hjobs h).1 job hjob).2 hd agent hagent]
    exact le_max_right _ _
  · rw [placedOn, placedOn, hplaced]

/-- A leader with two agents, a daemon and a job of three instances, one of them placed. -/
def twoAgents : Leader :=
  { Leader.new "a"
      ⟨[{ name := "log", count := -1 }, { name := "web", count := 3 }], 0, by decide, by decide⟩ with
    agents := [{ id := "a" }, { id := "b" }]
    placed := SortedMap.empty.insert "a" (SortedMap.empty.insert "web" 1)
    agentsSorted := by decide }

def willingNet : Logged WillingAgents := ⟨⟨⟩, []⟩

/-- The daemon comes on both agents, and the job to its three instances. -/
theorem reconcileJobs_converges_twoAgents :
    (twoAgents.reconcileJobs willingNet).1.totalPlaced "web" = 3 ∧
      1 ≤ (twoAgents.reconcileJobs willingNet).1.placedOn "b" "log" ∧
      ((twoAgents.reconcileJobs willingNet).1.reconcileJobs
        (twoAgents.reconcileJobs willingNet).2).2 = (twoAgents.reconcileJobs willingNet).2 := by
  have hlog : { name := "log", count := -1 } ∈ twoAgents.store.jobs := List.mem_cons_self
  have hweb : { name := "web", count := 3 } ∈ twoAgents.store.jobs :=
    List.mem_cons_of_mem _ List.mem_cons_self
  obtain ⟨hexact, hdaemon, hsecond, -⟩ := (reconcileJobs_converges twoAgents willingNet
    (by decide)).2 (by decide)
  exact ⟨hexact (by decide) _ hweb rfl, hdaemon _ hlog rfl { id := "b" } (by simp [twoAgents]),
    hsecond⟩

/-- A leader with a job and no agents. -/
def noAgents : Leader := Leader.new "a" ⟨[{ name := "web" }], 0, by decide, by decide⟩

/-- Without agents nothing is placed, although nobody refuses. -/
theorem reconcileJobs_no_agents :
    (∀ job ∈ noAgents.store.jobs, job.name ≠ "" ∧ job.count < 2 ^ 32) ∧
      noAgents.placed.keys = noAgents.agents.map Types.Agent.id ∧
      Accepted willingNet (noAgents.reconcileJobs willingNet).2 ∧
      (noAgents.reconcileJobs willingNet).1.totalPlaced "web" = 0 ∧
      max (noAgents.totalPlaced "web") (Job.desired { name := "web" }) = 1 :=
  ⟨by decide, rfl, by decide, rfl, rfl⟩

end Hop.Lead
