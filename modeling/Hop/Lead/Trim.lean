import Hop.Lead.Booked
import Hop.Lead.Converge

/-!
# What a returning agent may lose

An agent that was away comes back with tasks that the leader has placed elsewhere since. A job that
the other agents run in full number is stopped on it (`redundant`). The number elsewhere is read off
the books as a whole: these have the pages of the registered agents and no others
(`Represented`), so it is the number on the other agents, and a count of 32 bits on each of them does
not leave 64 bits (`total_lt`). So no job falls below its number by this.
-/

namespace Hop.Lead

open Hop.Types (Agent Job Map)

namespace Leader

/-! ### Elsewhere -/

/-- The number of instances on the registered agents other than `id`. -/
def elsewhere (l : Leader) (id name : String) : ℕ :=
  ((l.agents.filter fun a => a.id ≠ id).map fun a => l.placedOn a.id name).sum

/-- A sum over agents, with one of them apart. -/
theorem sum_apart {as : List Agent} {id : String} (f : String → ℕ)
    (hnodup : (as.map Agent.id).Nodup) (hid : id ∈ as.map Agent.id) :
    (as.map fun a => f a.id).sum =
      f id + ((as.filter fun a => a.id ≠ id).map fun a => f a.id).sum := by
  induction as with
  | nil => exact absurd hid List.not_mem_nil
  | cons a rest ih =>
    rw [List.map_cons] at hnodup hid
    obtain ⟨hnot, hrest⟩ := List.nodup_cons.mp hnodup
    by_cases ha : a.id = id
    · -- nobody behind it has the id
      have hall : rest.filter (fun b => b.id ≠ id) = rest := by
        refine List.filter_eq_self.mpr fun b hb => decide_eq_true fun hb' => hnot ?_
        rw [ha, ← hb']
        exact List.mem_map_of_mem hb
      rw [List.map_cons, List.sum_cons, List.filter_cons_of_neg (by simpa using ha), hall, ha]
    · have hid' : id ∈ rest.map Agent.id := (List.mem_cons.mp hid).resolve_left (Ne.symm ha)
      rw [List.map_cons, List.sum_cons, ih hrest hid',
        List.filter_cons_of_pos (by simpa using ha), List.map_cons, List.sum_cons]
      omega

theorem totalPlaced_eq_elsewhere {l : Leader} {id : String} (hid : id ∈ l.agents.map Agent.id)
    (name : String) : l.totalPlaced name = l.placedOn id name + l.elsewhere id name :=
  sum_apart (fun a => l.placedOn a name) l.agents_id_nodup hid

/-- **A redundant job** is no daemon, and the other agents have it in full number. -/
theorem of_mem_redundant {l : Leader} (h : l.Represented) {id name : String}
    (hid : id ∈ l.agents.map Agent.id) (hname : name ∈ l.redundant id) :
    ∃ job, l.store.get name = some job ∧ job.isDaemon = false ∧
      job.desired ≤ l.elsewhere id name := by
  rw [redundant] at hname
  rcases hpage : l.placed.get? id with _ | jobs
  · rw [hpage] at hname
    exact absurd hname List.not_mem_nil
  · rw [hpage] at hname
    obtain ⟨e, he, rfl⟩ := List.mem_map.mp hname
    obtain ⟨hmem, hkeep⟩ := List.mem_filter.mp he
    have hcount : l.placedOn id e.1 = e.2 := by
      rw [placedOn, hpage, Option.bind_some, SortedMap.get?_eq_some_iff.mpr hmem, Option.getD_some]
    have hsum := h.sum_placed e.1
    rw [totalPlaced_eq_elsewhere hid, hcount] at hsum
    rcases hget : l.store.get e.1 with _ | job
    · rw [hget, Bool.and_false] at hkeep
      exact absurd hkeep Bool.false_ne_true
    · rw [hget] at hkeep
      dsimp only at hkeep
      rw [hsum, Nat.add_sub_cancel_left, Bool.and_eq_true, Bool.and_eq_true] at hkeep
      exact ⟨job, rfl, Bool.not_eq_true' _ ▸ hkeep.2.1, of_decide_eq_true hkeep.2.2⟩

/-! ### The books after the trim -/

theorem placed_dropEach (id : String) (names : List String) (l : Leader) :
    (names.foldl (fun l name => l.dropPlacement id name) l).agents = l.agents ∧
      (names.foldl (fun l name => l.dropPlacement id name) l).store = l.store ∧
      (∀ a, a ≠ id → (names.foldl (fun l name => l.dropPlacement id name) l).placed.get? a =
        l.placed.get? a) ∧
      ∀ n, n ∉ names →
        (names.foldl (fun l name => l.dropPlacement id name) l).placedOn id n = l.placedOn id n := by
  induction names generalizing l with
  | nil => exact ⟨rfl, rfl, fun _ _ => rfl, fun _ _ => rfl⟩
  | cons name rest ih =>
    obtain ⟨hagents, hstore, hpages, hcounts⟩ := ih (l.dropPlacement id name)
    refine ⟨hagents, hstore, fun a ha => ?_, fun n hn => ?_⟩
    · rw [List.foldl_cons, hpages a ha, dropPlacement, SortedMap.get?_modify, if_neg (Ne.symm ha)]
    · obtain ⟨hne, hrest⟩ := not_or.mp (mt List.mem_cons.mpr hn)
      rw [List.foldl_cons, hcounts n hrest, placedOn_dropPlacement, if_neg fun h => hne h.2.symm]

variable {N : Type} [Transport N]

/-- What is called while jobs are stopped on an agent. -/
theorem calls_stopEach (agent : Option Agent) (names : List String) (l : Leader) (net : Logged N) :
    (stopEach agent names l net).1.placed = l.placed ∧
      (stopEach agent names l net).1.agents = l.agents ∧
      (stopEach agent names l net).1.store = l.store ∧
      ∃ cs, (stopEach agent names l net).2.log = net.log ++ cs ∧
        ∀ c ∈ cs, ∃ a name b, agent = some a ∧ name ∈ names ∧ c = .stopJob a name b := by
  induction names generalizing l net with
  | nil =>
    exact ⟨rfl, rfl, rfl, [], (List.append_nil _).symm, fun c hc => absurd hc List.not_mem_nil⟩
  | cons name rest ih =>
    rcases agent with _ | a
    · obtain ⟨hplaced, hagents, hstore, cs, hlog, hcs⟩ := ih (l.emit (.job name)) net
      refine ⟨hplaced, hagents, hstore, cs, hlog, fun c hc => ?_⟩
      obtain ⟨a, n, b, ha, hn, heq⟩ := hcs c hc
      exact ⟨a, n, b, ha, List.mem_cons_of_mem name hn, heq⟩
    · obtain ⟨hplaced, hagents, hstore, cs, hlog, hcs⟩ :=
        ih (l.emit (.job name)) (Transport.stopJob net a name).2
      have hone : (Transport.stopJob net a name).2.log =
          net.log ++ [.stopJob a name (Transport.stopJob net a name).1] := Logged.log_stopJob rfl
      refine ⟨hplaced, hagents, hstore, .stopJob a name (Transport.stopJob net a name).1 :: cs, ?_,
        fun c hc => ?_⟩
      · refine hlog.trans ?_
        rw [hone, List.append_assoc, List.singleton_append]
      · rcases List.mem_cons.mp hc with rfl | hc
        · exact ⟨a, name, _, rfl, List.mem_cons_self, rfl⟩
        · obtain ⟨a, n, b, ha, hn, heq⟩ := hcs c hc
          exact ⟨a, n, b, ha, List.mem_cons_of_mem name hn, heq⟩

/-- **What a trim of the agent `id` does**: it stops, on this agent only, jobs that are no daemons and
that the other agents have in full number; the other books stay, and no job falls below its number
or below what it had. -/
structure Trims (l : Leader) (net : Logged N) (id : String) (l' : Leader) (net' : Logged N) :
    Prop where
  calls : ∀ c ∈ net'.since net, ∃ agent ∈ l.agents, ∃ name b job, agent.id = id ∧
    c = .stopJob agent name b ∧ l.store.get name = some job ∧ job.isDaemon = false ∧
    job.desired ≤ l.elsewhere id name
  others : ∀ a, a ≠ id → l'.placed.get? a = l.placed.get? a
  available : ∀ name job, l.store.get name = some job →
    min (l.totalPlaced name) job.desired ≤ l'.totalPlaced name
  agents : l'.agents = l.agents
  store : l'.store = l.store

theorem trims {l : Leader} (h : l.Represented) {id : String} (hid : id ∈ l.agents.map Agent.id)
    (net : Logged N) : Trims l net id (l.trimReturningAgentSurplus net id).1
      (l.trimReturningAgentSurplus net id).2 := by
  rw [trimReturningAgentSurplus]
  obtain ⟨hagents, hstore, hpages, hcounts⟩ := placed_dropEach id (l.redundant id) l
  generalize (l.redundant id).foldl (fun l name => l.dropPlacement id name) l = l₁ at *
  obtain ⟨hplaced', hagents', hstore', cs, hlog, hcs⟩ :=
    calls_stopEach (l₁.agent id) (l.redundant id) l₁ net
  refine ⟨fun c hc => ?_, fun a ha => ?_, fun name job hjob => ?_, hagents'.trans hagents,
    hstore'.trans hstore⟩
  · rw [Logged.since_eq hlog] at hc
    obtain ⟨a, name, b, ha, hname, rfl⟩ := hcs c hc
    obtain ⟨job, hget, hdaemon, hle⟩ := of_mem_redundant h hid hname
    have hmem : a ∈ l.agents := by
      rw [← hagents]
      exact List.mem_of_find?_eq_some ha
    exact ⟨a, hmem, name, b, job, by simpa using List.find?_some ha, rfl, hget, hdaemon, hle⟩
  · rw [hplaced', hpages a ha]
  · -- what the other agents have is not touched
    have hothers : ∀ a, a ≠ id → l₁.placedOn a name = l.placedOn a name := fun a ha => by
      rw [placedOn, placedOn, hpages a ha]
    have htotal : (stopEach (l₁.agent id) (l.redundant id) l₁ net).1.totalPlaced name =
        l₁.placedOn id name + l.elsewhere id name := by
      have hsum := totalPlaced_eq_elsewhere (l := l₁) (by rwa [hagents]) name
      rw [totalPlaced, hagents', placedOn_congr hplaced', ← totalPlaced, hsum, elsewhere, elsewhere,
        hagents]
      refine congrArg (l₁.placedOn id name + ·) (congrArg List.sum (List.map_congr_left ?_))
      exact fun a ha => hothers a.id (of_decide_eq_true (List.mem_filter.mp ha).2)
    rw [htotal]
    by_cases hname : name ∈ l.redundant id
    · obtain ⟨job', hget, -, hle⟩ := of_mem_redundant h hid hname
      obtain rfl : job = job' := Option.some.inj (hjob.symm.trans hget)
      exact (min_le_right _ _).trans (hle.trans (Nat.le_add_left _ _))
    · rw [hcounts name hname, ← totalPlaced_eq_elsewhere hid]
      exact min_le_left _ _

/-! ### Counts of 32 bits -/

/-- Every count in the books has 32 bits. -/
def Counted (l : Leader) : Prop := ∀ a n, l.placedOn a n ≤ u32Max

namespace Counted

variable {l : Leader}

theorem congr {l' : Leader} (h : l.Counted) (hplaced : l'.placed = l.placed) : l'.Counted := by
  intro a n
  rw [placedOn_congr hplaced]
  exact h a n

theorem trackPlacement (h : l.Counted) (id name : String) : (l.trackPlacement id name).Counted := by
  intro a n
  rw [placedOn_trackPlacement]
  split_ifs
  · exact min_le_right _ _
  · exact h a n

theorem untrackOne (h : l.Counted) (id name : String) : (l.untrackOne id name).Counted := by
  intro a n
  rw [placedOn_untrackOne]
  split_ifs
  · exact (Nat.sub_le _ _).trans (h id name)
  · exact h a n

theorem dropPlacement (h : l.Counted) (id name : String) : (l.dropPlacement id name).Counted := by
  intro a n
  rw [placedOn_dropPlacement]
  split_ifs
  · exact Nat.zero_le _
  · exact h a n

theorem takePlacement (h : l.Counted) (name : String) : (l.takePlacement name).2.Counted := by
  intro a n
  rw [placedOn_takePlacement]
  split_ifs
  · exact Nat.zero_le _
  · exact h a n

theorem removeAgent (h : l.Counted) (id : String) : (l.removeAgent id).Counted := by
  intro a n
  rw [placedOn_removeAgent]
  split_ifs
  · exact Nat.zero_le _
  · exact h a n

theorem insertAgent (h : l.Counted) (agent : Agent) {placed : Map ℕ}
    (hplaced : ∀ n, (placed.get? n).getD 0 ≤ u32Max) : (l.insertAgent agent placed).Counted := by
  intro a n
  rw [placedOn_insertAgent]
  split_ifs
  · exact hplaced n
  · exact h a n

theorem placing {s s' : Sys N} (hstep : Placing s s') (h : s.leader.Counted) :
    s'.leader.Counted := by
  rcases hstep with _ | _ | ⟨l, net, agent, job⟩ | ⟨l, net, id, name⟩ | ⟨l, net, id, name⟩ |
    ⟨l, l', net, hnote⟩ | ⟨l, net, name, i⟩
  · exact h
  · exact h
  · exact h.trackPlacement agent.id job.name
  · exact h.untrackOne id name
  · exact h.dropPlacement id name
  · exact h.congr hnote.placed
  · exact h.congr (renumbers_storeSetPriority l name i).books.1

theorem step {J : Job → Prop} {o : Logged N} {s s' : Sys N} (hstep : Step J o s s')
    (h : s.leader.Counted) : s'.leader.Counted := by
  rcases hstep with hplacing | _ | ⟨l, net, id, name⟩ | ⟨l, net, name⟩ | ⟨l, l', net, job, -, hput⟩ |
    ⟨l, net, name, d⟩ | ⟨l, net, name⟩ | ⟨l, net, id⟩ | ⟨l, net, id, version, now⟩
  · exact h.placing hplacing
  · exact h
  · exact h.untrackOne id name
  · exact h.takePlacement name
  · exact h.congr (storePut_frame hput).1
  · refine h.congr ?_
    rw [storeSetDeploying]
    split
    · rfl
    · rfl
  · exact (h.congr (l.storeRemove_frame name).2.1).takePlacement name
  · exact h.removeAgent id
  · exact h.congr (l.heartbeat_frame id version now).2.1

end Counted

/-- Over all agents, counts of 32 bits stay below 64 bits. -/
theorem total_lt {l : Leader} (h : l.Represented) (hcounted : l.Counted) (name : String) :
    (l.placed.entries.map fun p => (p.2.get? name).getD 0).sum < 2 ^ 64 := by
  rw [h.sum_placed, totalPlaced]
  have hle : (l.agents.map fun a => l.placedOn a.id name).sum ≤ l.agents.length * u32Max := by
    have hbound := List.sum_le_card_nsmul (l.agents.map fun a => l.placedOn a.id name) u32Max
      fun x hx => by
        obtain ⟨a, -, rfl⟩ := List.mem_map.mp hx
        exact hcounted a.id name
    rwa [List.length_map, nsmul_eq_mul, Nat.cast_id] at hbound
  have hagents : l.agents.length * u32Max ≤ maxAgents * u32Max := Nat.mul_le_mul_right _ h.bounded
  exact (hle.trans hagents).trans_lt (by decide)

end Leader

open Leader

/-- The counts that an agent reports have 32 bits. -/
def Request.Counts : Request → Prop
  | .op (.registerAgent _ placed _) => ∀ n, (placed.get? n).getD 0 ≤ u32Max
  | _ => True

variable {N : Type} [Transport N]

theorem counted_serve {s : Sys N} {r : Request} (hr : r.Counts) (h : s.leader.Counted) :
    (s.serve r).leader.Counted := by
  rcases serve_cases s r with ⟨op, rfl⟩ | ⟨snapshot, rfl⟩ | ⟨l', hserve, hnotes⟩
  · refine apply_invariant (P := fun s => s.leader.Counted) (op.stores_true s.leader)
      (fun _ _ _ hstep hs => hs.step hstep) (fun agent placed now hop _ => ?_) h
    subst hop
    exact h.insertAgent _ hr
  · exact h.congr (s.leader.loadCommittedState_frame snapshot).2.1
  · rw [hserve]
    exact h.congr hnotes.placed

/-- In every run, the books have the pages of the agents, with counts of 32 bits. -/
theorem counted_of_run {s₀ s : Sys N} {rs : List Request} (hinit : requests.Init s₀)
    (hrs : ∀ r ∈ rs, r.Counts) (hrun : requests.run s₀ rs = some s) :
    s.leader.Represented ∧ s.leader.Counted := by
  obtain ⟨id, hl, -⟩ := hinit
  have h₀ : s₀.leader.Represented ∧ s₀.leader.Counted := by
    rw [hl]
    exact ⟨represented_new id .new, fun _ _ => Nat.zero_le _⟩
  clear hl
  induction rs generalizing s₀ with
  | nil =>
    obtain rfl := Option.some.inj hrun
    exact h₀
  | cons r rest ih =>
    obtain ⟨hr, hrest⟩ := List.forall_mem_cons.mp hrs
    exact ih hrest hrun ⟨h₀.1.serve r, counted_serve hr h₀.2⟩

/-- **A returning agent costs nothing.** In every state that a leader reaches, settled, a
registration that is taken trims only what `Trims` allows, and then reconciles; the numbers that the
trim adds up stay below 64 bits. A registration that is not taken calls nobody. -/
theorem trim_available {s₀ s : Sys N} {rs : List Request} (hinit : requests.Init s₀)
    (hrs : ∀ r ∈ rs, r.Counts) (hrun : requests.run s₀ rs = some s)
    (hsettled : s.leader.settled = true) (agent : Agent) (placed : Map ℕ) (now : Nanos)
    (hplaced : ∀ n, (placed.get? n).getD 0 ≤ u32Max) :
    (s.leader.takes agent now = false ∧
      (s.leader.registerAgent s.net agent placed now).2.2 = s.net) ∨
    ∃ l₁ l₂ net₂, l₁ = s.leader.insertAgent { agent with lastSeen := now } placed ∧
      (l₂, net₂) = l₁.trimReturningAgentSurplus s.net agent.id ∧
      s.leader.registerAgent s.net agent placed now =
        (.ok true, (l₂.reconcileJobs net₂).1.emit (.agent agent.id), (l₂.reconcileJobs net₂).2) ∧
      Trims l₁ s.net agent.id l₂ net₂ ∧
      ∀ name, (l₁.placed.entries.map fun p => (p.2.get? name).getD 0).sum < 2 ^ 64 := by
  obtain ⟨hrep, hcounted⟩ := counted_of_run hinit hrs hrun
  rcases htakes : s.leader.takes agent now with _ | _
  · refine .inl ⟨rfl, ?_⟩
    rw [takes, Bool.and_eq_false_iff] at htakes
    rw [registerAgent]
    dsimp only
    split_ifs with hdup hroom hset
    · rfl
    · rfl
    all_goals
      rcases htakes with htakes | htakes
      · exact absurd (by simpa using htakes) hdup
      · exact absurd (Nat.not_le.mp hroom) (of_decide_eq_false htakes)
  · right
    let l₁ := s.leader.insertAgent { agent with lastSeen := now } placed
    have hrep₁ : l₁.Represented :=
      hrep.insertAgent placed (room_of_takes htakes)
    have hid : agent.id ∈ l₁.agents.map Agent.id :=
      (mem_ids_insertAgent s.leader { agent with lastSeen := now } placed agent.id).mpr (.inl rfl)
    refine ⟨l₁, _, _, rfl, rfl, ?_, trims hrep₁ hid s.net,
      total_lt hrep₁ (hcounted.insertAgent _ hplaced)⟩
    have hdup := (Bool.and_eq_true_iff.mp htakes).1
    rw [Bool.not_eq_true'] at hdup
    have hset : l₁.settled = true := hsettled
    rw [registerAgent]
    simp only [hdup, Bool.false_eq_true, if_false, Nat.not_le.mpr (room_of_takes htakes)]
    rw [if_pos hset]
    rfl

/-- The agent `a` has the job `web`. -/
def webElsewhere : List Request :=
  [.op (.dispatchJob { name := "web", count := 1 }),
    .op (.registerAgent { id := "a" } (SortedMap.empty.insert "web" 1) 0)]

/-- The leader after that. -/
def webLeader : Sys WillingAgents := webElsewhere.foldl Sys.serve emptyLeader

/-- The agent `b` comes with `web` too, and gives it up. -/
theorem trim_available_web : ∃ l₁ l₂ net₂,
    Trims l₁ webLeader.net "b" l₂ net₂ ∧ l₁.totalPlaced "web" = 2 ∧ l₂.totalPlaced "web" = 1 := by
  have hcounts : ∀ n, ((SortedMap.empty.insert "web" 1 : Map ℕ).get? n).getD 0 ≤ u32Max := by
    intro n
    rw [SortedMap.get?_insert]
    split_ifs
    · decide
    · exact Nat.zero_le _
  have hrs : ∀ r ∈ webElsewhere, r.Counts := by
    rw [webElsewhere]
    exact List.forall_mem_cons.mpr ⟨trivial, List.forall_mem_singleton.mpr hcounts⟩
  have hinit : requests.Init emptyLeader := ⟨"a", rfl, rfl⟩
  have hrun : requests.run emptyLeader webElsewhere = some webLeader := rfl
  rcases trim_available hinit hrs hrun (by decide) { id := "b" }
      (SortedMap.empty.insert "web" 1) 5 hcounts with ⟨hno, -⟩ | ⟨l₁, l₂, net₂, rfl, heq, -, htrims, -⟩
  · exact absurd hno (by decide)
  · obtain ⟨rfl, rfl⟩ := Prod.mk.inj heq
    exact ⟨_, _, _, htrims, by decide, by decide⟩

end Hop.Lead
