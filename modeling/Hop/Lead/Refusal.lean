import Hop.Lead.Frame

/-!
# What a refused placement costs

A placement that no agent takes should cost nobody. The second round of `place` stops a victim
on a full agent before it knows whether the job will be accepted there; if it is not, the victim
stays stopped and booked off. `place_refused_unchanged_iff` says when a refused placement leaves
the other jobs alone: without preemption, or if no agent that is full confirms the stop of the job
that is to make room on it (`Spared`).
-/

namespace Hop.Lead

open Hop.Types (Agent Job Map)

namespace Leader

variable {N : Type} [Transport N]

/-! ### The first round -/

/-- The agents whom the next turns of the round robin ask. -/
def turns : ℕ → Leader → List Agent
  | 0, _ => []
  | k + 1, l =>
    match l.nextAgent with
    | (none, _) => []
    | (some agent, l) => agent :: turns k l

/-- Which agents of a list reply that they are full when each in turn is asked to run the job, and
the transport after that. -/
def fullOf (job : Job) : List Agent → N → List Agent × N
  | [], net => ([], net)
  | agent :: rest, net =>
    let (r, net) := Transport.run net agent job false
    let (full, net) := fullOf job rest net
    (if r = .noCapacity then agent :: full else full, net)

/-- A first round in which nobody accepts finds the agents that are full, and books nothing. -/
theorem firstRound_refused {job : Job} {k : ℕ} {full : List Agent} {l : Leader} {net : N}
    (h : (firstRound job k full l net).1.1 = false) :
    (firstRound job k full l net).1.2 = full ++ (fullOf job (turns k l) net).1 ∧
      (firstRound job k full l net).2.2 = (fullOf job (turns k l) net).2 ∧
      (firstRound job k full l net).2.1.placed = l.placed ∧
      (firstRound job k full l net).2.1.store = l.store := by
  induction k generalizing full l net with
  | zero => exact ⟨(List.append_nil full).symm, rfl, rfl, rfl⟩
  | succ k ih =>
    have hbooks : l.nextAgent.2.placed = l.placed ∧ l.nextAgent.2.store = l.store := by
      rw [nextAgent]
      split_ifs
      · exact ⟨rfl, rfl⟩
      · exact ⟨rfl, rfl⟩
    rw [firstRound] at h ⊢
    rw [turns]
    rcases hnext : l.nextAgent with ⟨_ | agent, l'⟩
    · rw [hnext] at hbooks
      exact ⟨(List.append_nil full).symm, rfl, hbooks⟩
    · rw [hnext] at h hbooks
      dsimp only at h hbooks ⊢
      rw [fullOf]
      rcases hreply : Transport.run net agent job false with ⟨r, net'⟩
      rw [hreply] at h
      cases r with
      | accepted => cases h
      | noCapacity =>
        obtain ⟨hfull, hnet, hplaced, hstore⟩ := ih h
        refine ⟨?_, hnet, hplaced.trans hbooks.1, hstore.trans hbooks.2⟩
        rw [hfull, List.append_assoc]
        rfl
      | _ =>
        obtain ⟨hfull, hnet, hplaced, hstore⟩ := ih h
        exact ⟨hfull, hnet, hplaced.trans hbooks.1, hstore.trans hbooks.2⟩

/-! ### The second round -/

/-- A victim has instances on the agent. -/
theorem findVictim_placed {l : Leader} {agentId victim : String} {p : Option ℤ}
    (h : l.findVictim agentId p = some victim) : 0 < l.placedOn agentId victim := by
  unfold findVictim at h
  split at h
  · cases h
  · rename_i jobs hjobs
    -- the search only ever remembers names of entries that are not zero
    have key : ∀ (es : List (String × ℕ)) (acc : ℤ × Option String),
        (es.foldl l.worse acc).2 = some victim →
          acc.2 = some victim ∨ ∃ n, (victim, n) ∈ es ∧ n ≠ 0 := by
      intro es
      induction es with
      | nil => exact fun acc h => Or.inl h
      | cons e es ih =>
        intro acc h
        rcases ih _ h with hacc | ⟨n, hn, hne⟩
        · unfold worse at hacc
          split_ifs at hacc with he
          · exact Or.inl hacc
          · split at hacc
            · exact Or.inl hacc
            · split_ifs at hacc
              · obtain rfl : e.1 = victim := Option.some.inj hacc
                exact Or.inr ⟨e.2, List.mem_cons_self, he⟩
              · exact Or.inl hacc
        · exact Or.inr ⟨n, List.mem_cons_of_mem e hn, hne⟩
    rcases key _ _ h with h | ⟨n, hn, hne⟩
    · cases h
    · have : jobs.get? victim = some n := SortedMap.get?_eq_some_iff.mpr hn
      simp only [placedOn, hjobs, Option.bind_some, this, Option.getD_some]
      omega

/-- Of the full agents, each in turn told to stop the job that is to make room, none confirms it;
or that job is `job` itself, and the agent is asked to run it again. -/
def Spared (job : Job) : List Agent → Leader → N → Prop
  | [], _, _ => True
  | agent :: rest, l, net =>
    match l.findVictim agent.id job.priority with
    | none => Spared job rest l net
    | some victim =>
      match Transport.stopJob net agent victim with
      | (false, net) => Spared job rest l net
      | (true, net) => victim = job.name ∧
        Spared job rest (l.dropPlacement agent.id victim) (Transport.run net agent job false).2

theorem findVictim_congr {l l' : Leader} (hplaced : l'.placed = l.placed) (hstore : l'.store = l.store)
    (agentId : String) (p : Option ℤ) : l'.findVictim agentId p = l.findVictim agentId p := by
  have hworse : l'.worse = l.worse := by
    funext acc e
    rw [worse, worse, hstore]
  rw [findVictim, findVictim, hplaced, hworse]

/-- It depends on the books and the store only. -/
theorem spared_congr {job : Job} {full : List Agent} {l l' : Leader} {net : N}
    (hplaced : l'.placed = l.placed) (hstore : l'.store = l.store) :
    Spared job full l' net ↔ Spared job full l net := by
  induction full generalizing l l' net with
  | nil => exact Iff.rfl
  | cons agent rest ih =>
    rw [Spared, Spared, findVictim_congr hplaced hstore]
    rcases l.findVictim agent.id job.priority with _ | victim
    · exact ih hplaced hstore
    · dsimp only
      rcases Transport.stopJob net agent victim with ⟨_ | _, net'⟩
      · exact ih hplaced hstore
      · refine and_congr_right fun _ => ih ?_ hstore
        rw [dropPlacement, dropPlacement, hplaced]

/-- A second round in which nobody accepts books nothing on. -/
theorem preemptRound_le (job : Job) (full : List Agent) (l : Leader) (net : N) (a n : String) :
    (preemptRound job full l net).1 = true ∨
      (preemptRound job full l net).2.1.placedOn a n ≤ l.placedOn a n := by
  induction full generalizing l net with
  | nil => exact .inr le_rfl
  | cons agent rest ih =>
    rw [preemptRound]
    split
    · exact ih l net
    · rename_i victim _
      have hdrop : (l.dropPlacement agent.id victim).placedOn a n ≤ l.placedOn a n := by
        rw [placedOn_dropPlacement]
        split_ifs
        · exact Nat.zero_le _
        · exact le_rfl
      split
      · exact ih l _
      · split
        · exact .inl rfl
        · exact (ih _ _).imp_right (·.trans hdrop)

/-- A second round in which nobody accepts leaves the other jobs alone exactly if they are spared. -/
theorem preemptRound_unchanged_iff {job : Job} {full : List Agent} {l : Leader} {net : N}
    (h : (preemptRound job full l net).1 = false) :
    (∀ a n, n ≠ job.name → (preemptRound job full l net).2.1.placedOn a n = l.placedOn a n) ↔
      Spared job full l net := by
  induction full generalizing l net with
  | nil => exact ⟨fun _ => trivial, fun _ _ _ _ => rfl⟩
  | cons agent rest ih =>
    rw [preemptRound] at h ⊢
    rw [Spared]
    rcases hvictim : l.findVictim agent.id job.priority with _ | victim
    · rw [hvictim] at h
      exact ih h
    · rw [hvictim] at h
      dsimp only at h ⊢
      rcases hstop : Transport.stopJob net agent victim with ⟨_ | _, net'⟩
      · rw [hstop] at h
        exact ih h
      · rw [hstop] at h
        dsimp only at h ⊢
        rcases hrun : Transport.run net' agent job false with ⟨r, net''⟩
        rw [hrun] at h
        have hrest : ∀ {r' : Bool × Leader × N}, r' = preemptRound job rest
          (l.dropPlacement agent.id victim) net'' →
            r'.1 = false → ((∀ a n, n ≠ job.name → r'.2.1.placedOn a n = l.placedOn a n) ↔
              victim = job.name ∧ Spared job rest (l.dropPlacement agent.id victim) net'') := by
          rintro r' rfl h
          by_cases hown : victim = job.name
          · -- the job's own instances are not counted
            rw [← ih h, and_iff_right hown]
            refine forall₃_congr fun a n hne => ?_
            rw [placedOn_dropPlacement, if_neg fun hsame => hne (hsame.2.symm.trans hown)]
          · refine ⟨fun hall => ?_, fun hspared => absurd hspared.1 hown⟩
            have hle := (preemptRound_le _ _ _ _ agent.id victim).resolve_left (by rw [h]; decide)
            rw [placedOn_dropPlacement, if_pos ⟨rfl, rfl⟩, hall agent.id victim hown] at hle
            exact absurd hle (Nat.not_le.mpr (findVictim_placed hvictim))
        rcases r with _ | _ | _ | _ | _
        · cases h
        all_goals exact hrest rfl h

end Leader

open Leader

/-- **A refused placement costs nobody, exactly when**: whatever the leader's state, the job, the
permission to preempt and the agents, a placement that no agent takes leaves the counts of every
other job on every agent alone if and only if it may not preempt, or no agent that is full confirms
the stop of the job that is to make room on it. -/
theorem place_refused_unchanged_iff {N : Type} [Transport N] (l : Leader) (net : N)
    (job : Job) (allowPreempt : Bool) (why : Refusal)
    (h : (l.place net job allowPreempt).1 = .error why) :
    (∀ agentId name, name ≠ job.name →
        (l.place net job allowPreempt).2.1.placedOn agentId name = l.placedOn agentId name) ↔
      allowPreempt = false ∨ Spared job (fullOf job (turns l.agents.length l) net).1 l
        (fullOf job (turns l.agents.length l) net).2 := by
  rw [place] at h ⊢
  by_cases hn : l.agents.length = 0
  · rw [if_pos hn, hn]
    exact ⟨fun _ => .inr trivial, fun _ _ _ _ => rfl⟩
  rw [if_neg hn] at h ⊢
  rcases hround : firstRound job l.agents.length [] l net with ⟨⟨accepted, full⟩, l', net'⟩
  rw [hround] at h
  rcases accepted with _ | _
  · have hfirst := firstRound_refused (N := N) (congrArg (·.1.1) hround)
    rw [hround] at hfirst
    obtain ⟨hfull, hnet, hplaced, hstore⟩ := hfirst
    rw [List.nil_append] at hfull
    dsimp only at hfull hnet hplaced hstore
    rw [← hfull, ← hnet]
    have hsame : ∀ a n, l'.placedOn a n = l.placedOn a n := fun a n => by
      rw [placedOn, placedOn, hplaced]
    rcases full with _ | ⟨agent, full⟩
    · exact ⟨fun _ => .inr trivial, fun _ a n _ => hsame a n⟩
    · dsimp only at h ⊢
      rcases allowPreempt with _ | _
      · exact ⟨fun _ => .inl rfl, fun _ a n _ => hsame a n⟩
      · rw [Bool.not_true, if_neg Bool.false_ne_true] at h ⊢
        rcases hpre : preemptRound job (agent :: full) l' net' with ⟨placed, l'', net''⟩
        rw [hpre] at h
        rcases placed with _ | _
        · have hiff := preemptRound_unchanged_iff (congrArg (·.1) hpre)
          rw [hpre, spared_congr hplaced hstore] at hiff
          simp only [hsame] at hiff
          rw [← hiff]
          exact (or_iff_right (by decide)).symm
        · cases h
  · cases h

/-- Agents that are always full and confirm every stop. -/
structure FullAgents where

instance : Transport FullAgents where
  run n _ _ _ := (.noCapacity, n)
  stopJob n _ _ := (true, n)
  stopTask n _ _ := n
  deleteJob n _ _ := n
  tasks n _ := (none, n)
  pause n _ := n

/-- A leader with one agent that runs one instance of `low`. -/
def oneTenant : Leader :=
  { Leader.new "a" ⟨[{ name := "low", priority := some 9 }], 0, by decide, by decide⟩ with
    agents := [{ id := "a" }]
    placed := SortedMap.empty.insert "a" (SortedMap.empty.insert "low" 1)
    agentsSorted := by decide }

/-- A job that is more important than `low`. -/
def bigJob : Job := { name := "big", priority := some 1 }

def fullNet : Logged FullAgents := ⟨⟨⟩, []⟩

/-- Nobody is stopped for a job that is as important, even with preemption. -/
theorem place_refused_equal :
    (oneTenant.place fullNet { bigJob with priority := some 9 } true).1 = .error (.full 1) ∧
      ∀ agentId name, name ≠ "big" →
        (oneTenant.place fullNet { bigJob with priority := some 9 } true).2.1.placedOn agentId name =
          oneTenant.placedOn agentId name := by
  refine ⟨rfl, (place_refused_unchanged_iff oneTenant fullNet { bigJob with priority := some 9 } true
    _ rfl).mpr (.inr ?_)⟩
  exact trivial

/-- A job that fits nowhere stops its neighbour: one full agent, whose only job is less
important, refuses the new job also after the stop. -/
theorem place_refused_stops_neighbour :
    (oneTenant.place fullNet bigJob true).1 = .error (.full 1) ∧
      oneTenant.placedOn "a" "low" = 1 ∧
      (oneTenant.place fullNet bigJob true).2.1.placedOn "a" "low" = 0 :=
  ⟨rfl, rfl, rfl⟩

end Hop.Lead
