import Hop.Agent.ElectionRun
import Hop.Agent.Succession
import Hop.Node.Agent

/-!
# The isolation fail-safe

After `isolatedAfter` failed ticks a node stops all its tasks. The module documentation of
the source allows that only when the lock store still reports a live leader or cannot be
reached itself; a store that says "nobody leads" means that nobody would place the tasks
again, so they keep running.

The check that is to guard this (`store_says_no_leader`) never holds where it stands: by the
time the counter reaches `isolatedAfter`, the same call has already thrown the cached answer
away in `try_take_over`. So a failure at the threshold always stops everything
(`leaderFailed_stops`), whatever the last read said, and the fail-safe spares a leaderless
cluster exactly in the runs where no failure is counted at the threshold while the last read
said that nobody leads (`stopAll_spares_iff`).
-/

namespace Hop.Agent

variable {O A : Type} [LeaseOps O] [AgentPort A]

/-! ### When the loop calls `stop_all` -/

namespace Loop

@[simp] theorem publish_stops (el : Election) (a : Counted A) (addr : String) :
    (el.publish a addr).stops = a.stops := by
  unfold Election.publish
  split_ifs <;> rfl

omit [LeaseOps O] in
@[simp] theorem becomeLeader_stops (l : Loop (Elector O) (Counted A)) :
    l.becomeLeader.agent.stops = l.agent.stops := publish_stops _ _ _

/-- A failure that wins the lease starts the count again. -/
theorem claim_spec (l : Loop (Elector O) (Counted A)) :
    l.claim.agent.stops = l.agent.stops ∧ l.claim.disc.leaderAt = l.disc.leaderAt ∧
      l.claim.el.failCount = if l.disc.claimed then 0 else l.el.failCount := by
  unfold claim
  dsimp only [Discoverer.tryBecomeLeader]
  rw [Elector.tryBecomeLeader_fst]
  split_ifs
  · exact ⟨becomeLeader_stops _, l.disc.tryBecomeLeader_leaderAt, rfl⟩
  · exact ⟨rfl, l.disc.tryBecomeLeader_leaderAt, rfl⟩

/-- A failure at the take-over threshold throws the cached answer of the store away. -/
theorem tryTakeOver_spec (l : Loop (Elector O) (Counted A)) :
    l.tryTakeOver.agent.stops = l.agent.stops ∧ l.tryTakeOver.disc.leaderAt = none ∧
      l.tryTakeOver.el.failCount = if l.disc.claimed then 0 else l.el.failCount := by
  obtain ⟨hs, ha, hf⟩ := claim_spec (⟨{ l.el with lastLeader := "" }, l.disc.invalidate,
    { l.el with lastLeader := "" }.publish l.agent ""⟩ : Loop (Elector O) (Counted A))
  exact ⟨hs.trans (publish_stops _ _ _), ha, hf⟩

/-- Without a cached answer the store never says "nobody leads", so the node stops all. -/
theorem isolate_stops {l : Loop (Elector O) (Counted A)} (h : l.disc.leaderAt = none) :
    l.isolate.agent.stops = l.agent.stops + 1 := by
  have hreach : l.disc.getLeader.2.storeReachable = false := by
    rw [(Elector.getLeader_cache l.disc).2.1, Elector.storeReachable, h]
    rfl
  have hno : (storeSaysNoLeader l.disc).1 = false := by
    simp only [storeSaysNoLeader, Discoverer.getLeader, Discoverer.storeReachable, hreach,
      Bool.and_false]
  unfold isolate
  dsimp only
  rw [hno]
  rfl

/-- The counter reaches the threshold exactly at the seventh failure that does not win the
lease, and then there is no cached answer left. -/
theorem failOver_spec (l : Loop (Elector O) (Counted A)) :
    l.failOver.agent.stops = l.agent.stops ∧
      (isolatedAfter ≤ l.failOver.el.failCount ↔
        6 ≤ l.el.failCount ∧ l.disc.claimed = false) ∧
      (isolatedAfter ≤ l.failOver.el.failCount → l.failOver.disc.leaderAt = none) := by
  have hfail : l.el.fail.failCount = min (l.el.failCount + 1) u32Max := rfl
  obtain ⟨hs, ha, hf⟩ := tryTakeOver_spec (⟨l.el.fail, l.disc, l.agent⟩ : Loop _ (Counted A))
  unfold failOver
  dsimp only
  split_ifs with ht
  · refine ⟨hs, ?_, fun _ => ha⟩
    rw [hf, hfail]
    cases l.disc.claimed
    · simp only [isolatedAfter, u32Max, Bool.false_eq_true, if_false, and_true]
      omega
    · simp [isolatedAfter]
  · simp only [takeoverAfter, hfail, u32Max] at ht
    refine ⟨rfl, ?_, ?_⟩ <;> simp only [isolatedAfter, hfail, u32Max] <;> omega

/-- **A failure at the threshold stops everything**, whatever the last read said, unless it
wins the lease. -/
theorem leaderFailed_stops (l : Loop (Elector O) (Counted A)) :
    l.leaderFailed.agent.stops =
      l.agent.stops + if 6 ≤ l.el.failCount ∧ l.disc.claimed = false then 1 else 0 := by
  obtain ⟨hs, hiff, hnone⟩ := failOver_spec l
  unfold leaderFailed
  dsimp only
  split_ifs with hi hc hc
  · rw [isolate_stops (hnone hi), hs]
  · exact absurd (hiff.mp hi) hc
  · exact absurd (hiff.mpr hc) hi
  · exact hs

theorem noLeader_stops (l : Loop (Elector O) (Counted A)) :
    l.noLeader.agent.stops = l.agent.stops := by
  have hs := (tryTakeOver_spec (⟨l.el.fail, l.disc, l.agent⟩ : Loop _ (Counted A))).1
  unfold noLeader
  dsimp only
  split_ifs
  · exact hs
  · exact hs
  · rfl

theorem stepDownInner_stops (l : Loop (Elector O) (Counted A)) (release : Bool) :
    (l.stepDownInner release).agent.stops = l.agent.stops := by
  unfold stepDownInner
  dsimp only
  split_ifs <;> exact publish_stops _ _ _

theorem tickLeading_stops (l : Loop (Elector O) (Counted A)) (agents : ℕ) :
    (l.tickLeading agents).agent.stops = l.agent.stops := by
  have hshow : ∀ l : Loop (Elector O) (Counted A), l.showExpiry.agent.stops = l.agent.stops := by
    intro l
    unfold showExpiry
    split <;> rfl
  unfold tickLeading
  dsimp only
  split_ifs
  · exact (stepDownInner_stops _ false).trans (hshow _)
  · exact hshow _
  · exact (stepDownInner_stops _ false).trans (hshow _)
  · exact hshow _

/-- The state of the elector in which a tick counts a failure: no leader is cached or
answered, and the store is not known to have said that nobody leads. -/
def TickFails (l : Loop (Elector O) (Counted A)) : Prop :=
  l.el.leading = false ∧ l.el.lastLeader = "" ∧ l.disc.answer.getD "" = "" ∧
    ¬ (l.disc.answer = none ∧ l.disc.storeReachable = true)

instance (l : Loop (Elector O) (Counted A)) : Decidable l.TickFails :=
  inferInstanceAs (Decidable (_ ∧ _ ∧ _ ∧ ¬ (_ ∧ _)))

omit [AgentPort A] in
theorem knownLeader_fst (l : Loop (Elector O) (Counted A)) :
    l.knownLeader.1 = if l.el.lastLeader = "" then l.disc.answer.getD "" else l.el.lastLeader := by
  unfold knownLeader
  split_ifs
  · exact congrArg (·.getD "") l.disc.getLeader_fst
  · rfl

omit [AgentPort A] in
theorem knownLeader_cache (l : Loop (Elector O) (Counted A)) :
    l.knownLeader.2.el = l.el ∧ l.knownLeader.2.agent = l.agent ∧
      l.knownLeader.2.disc.answer = l.disc.answer ∧
      l.knownLeader.2.disc.storeReachable = l.disc.storeReachable ∧
      l.knownLeader.2.disc.claimed = l.disc.claimed := by
  obtain ⟨ha, hr, -⟩ := Elector.getLeader_cache l.disc
  unfold knownLeader
  split_ifs
  · exact ⟨rfl, rfl, ha, hr, Elector.getLeader_claimed l.disc⟩
  · exact ⟨rfl, rfl, rfl, rfl, rfl⟩

theorem tickLost_stops (l : Loop (Elector O) (Counted A)) :
    l.tickLost.agent.stops = l.agent.stops +
      if ¬ (l.disc.answer = none ∧ l.disc.storeReachable = true) ∧
          6 ≤ l.el.failCount ∧ l.disc.claimed = false then 1 else 0 := by
  have hno : (storeSaysNoLeader l.disc).1 = true ↔
      l.disc.answer = none ∧ l.disc.storeReachable = true := by
    simp only [storeSaysNoLeader, Discoverer.getLeader, Discoverer.storeReachable,
      Elector.getLeader_fst, (Elector.getLeader_cache l.disc).2.1, Bool.and_eq_true,
      Option.isNone_iff_eq_none]
  unfold tickLost
  dsimp only
  by_cases h : (storeSaysNoLeader l.disc).1 = true
  · rw [if_pos h, noLeader_stops, if_neg (fun hc => hc.1 (hno.mp h))]
    rfl
  · rw [if_neg h, leaderFailed_stops]
    have hc : (storeSaysNoLeader l.disc).2.claimed = l.disc.claimed :=
      Elector.getLeader_claimed l.disc
    simp only [hc, mt hno.mpr h, not_false_eq_true, true_and]

theorem tickInner_stops (l : Loop (Elector O) (Counted A)) (agents : ℕ) :
    (l.tickInner agents).agent.stops = l.agent.stops +
      if l.TickFails ∧ 6 ≤ l.el.failCount ∧ l.disc.claimed = false then 1 else 0 := by
  obtain ⟨hel, hag, hans, hre, hcl⟩ := knownLeader_cache l
  have hk := knownLeader_fst l
  unfold tickInner
  dsimp only
  rw [hk, hel]
  by_cases hl : l.el.leading = true
  · rw [if_pos hl, tickLeading_stops, hag]
    simp [TickFails, hl]
  · rw [if_neg hl]
    have hempty : (if l.el.lastLeader = "" then l.disc.answer.getD "" else l.el.lastLeader) = "" ↔
        l.el.lastLeader = "" ∧ l.disc.answer.getD "" = "" := by
      split_ifs with h <;> simp [h]
    by_cases h : (if l.el.lastLeader = "" then l.disc.answer.getD "" else l.el.lastLeader) = ""
    · rw [if_neg (not_not.mpr h), tickLost_stops, hel, hag, hans, hre, hcl]
      simp only [TickFails, Bool.not_eq_true _ ▸ hl, hempty.mp h, true_and]
    · have hnot : ¬ (l.TickFails ∧ 6 ≤ l.el.failCount ∧ l.disc.claimed = false) :=
        fun hc => h (hempty.mpr ⟨hc.1.2.1, hc.1.2.2.1⟩)
      rw [if_pos h, if_neg hnot, hag]
      rfl

theorem onReplyInner_stops (l : Loop (Elector O) (Counted A)) (req : Request)
    (result : Except LinkError Unit) :
    (l.onReplyInner req result).agent.stops = l.agent.stops +
      if replyFails req result = true ∧ 6 ≤ l.el.failCount ∧ l.disc.claimed = false
      then 1 else 0 := by
  unfold onReplyInner
  split <;>
    simp [replyFails, leaderFailed_stops, publish_stops]

theorem becomeLeaderNow_stops (l : Loop (Elector O) (Counted A)) :
    l.becomeLeaderNow.2.agent.stops = l.agent.stops := by
  unfold becomeLeaderNow takeOut
  dsimp only
  split_ifs
  · exact (claim_spec l).1
  · rfl

end Loop

/-! ### Runs -/

/-- The step counts a failure at the threshold that does not win the lease: the loop calls
`stop_all`. -/
def Isolates (s : Voter A) (e : ElectionEvent) : Prop :=
  match e with
  | .tick _ _ => s.loop.TickFails ∧ 6 ≤ s.loop.el.failCount ∧ s.elector.claimed = false
  | .reply req result _ => Loop.replyFails req result = true ∧
      6 ≤ s.loop.el.failCount ∧ s.elector.claimed = false
  | _ => False

instance (s : Voter A) : (e : ElectionEvent) → Decidable (Isolates s e)
  | .tick _ _ => inferInstanceAs (Decidable (_ ∧ _ ∧ _))
  | .reply _ _ _ => inferInstanceAs (Decidable (_ ∧ _ ∧ _))
  | .clock _ | .electorTick _ _ | .leaseReply _ | .leaseLost | .becomeLeaderNow _
  | .stepDown _ _ => inferInstanceAs (Decidable False)

/-- The step condition: no failure is counted at the threshold while the last completed read
said that nobody leads. -/
def SparesLeaderless (s : Voter A) (e : ElectionEvent) : Prop :=
  s.lastRead = some nobodyLeads → ¬ Isolates s e

instance (s : Voter A) (e : ElectionEvent) : Decidable (SparesLeaderless s e) :=
  inferInstanceAs (Decidable (_ → ¬ _))

/-- A step logs the last read once if it isolates the node, and else not. -/
theorem Voter.step_stopped {s s' : Voter A} {e : ElectionEvent} (hs : s.step e = some s') :
    s'.stopped = s.stopped ++ if Isolates s e then [s.lastRead] else [] := by
  have hcall : ∀ (room : ℕ) (f : Loop (Elector LeaseQueue) (Counted A) →
      List Request × Loop (Elector LeaseQueue) (Counted A)) (p : Prop) [Decidable p],
      (f (s.loopWithRoom room)).2.agent.stops = s.loop.agent.stops + (if p then 1 else 0) →
      (s.call room f).stopped = s.stopped ++ if p then [s.lastRead] else [] := by
    intro room f p _ hf
    simp only [call, hf, Nat.add_sub_cancel_left]
    split_ifs <;> rfl
  cases e with
  | clock t =>
    obtain ⟨-, rfl⟩ : _ ∧ _ = s' := by simpa [step] using hs
    simp [Isolates]
  | electorTick now room =>
    obtain rfl : _ = s' := by simpa [step] using hs
    simp [Isolates]
  | leaseReply r =>
    simp only [step] at hs
    split at hs
    · split_ifs at hs
      obtain rfl := Option.some.inj hs
      simp [Isolates]
    · cases hs
  | leaseLost =>
    simp only [step] at hs
    split at hs
    · obtain rfl := Option.some.inj hs
      simp [Isolates]
    · cases hs
  | tick agents room =>
    obtain rfl : _ = s' := by simpa [step] using hs
    exact hcall room _ (Isolates s (.tick agents room)) (Loop.tickInner_stops _ agents)
  | reply req result room =>
    simp only [step] at hs
    split_ifs at hs
    obtain rfl := Option.some.inj hs
    exact hcall room _ (Isolates s (.reply req result room)) (Loop.onReplyInner_stops _ req result)
  | becomeLeaderNow room =>
    obtain rfl : _ = s' := by simpa [step] using hs
    simpa [Isolates] using hcall room (fun l => l.becomeLeaderNow) False
      (Loop.becomeLeaderNow_stops (s.loopWithRoom room))
  | stepDown release room =>
    obtain rfl : _ = s' := by simpa [step] using hs
    simpa [Isolates] using hcall room (fun l => l.stepDown release) False
      (Loop.stepDownInner_stops (s.loopWithRoom room) release)

/-- **The fail-safe, exactly**: in a run of the election over the elector, no call of
`stop_all` has "the store answered and nobody leads" as its last processed read, if and only
if no step of the run counts a failure at the threshold in that situation. -/
theorem stopAll_spares_iff (s : Voter A) (es : List ElectionEvent)
    (hs : (electionMachine A).Init s) :
    (electionMachine A).Always (fun s => ∀ r ∈ s.stopped, r ≠ some nobodyLeads) s es ↔
      (electionMachine A).Along SparesLeaderless s es := by
  refine Machine.always_iff_along (fun _ h => h) ?_ ?_ ?_
  · intro s e s' h hstep hok r hr
    rw [Voter.step_stopped hstep] at hr
    rcases List.mem_append.mp hr with hr | hr
    · exact h r hr
    · split_ifs at hr with hiso
      · obtain rfl := List.mem_singleton.mp hr
        exact fun hread => hok hread hiso
      · simp at hr
  · intro s e s' _ hstep h' hread hiso
    refine h' s.lastRead ?_ hread
    rw [Voter.step_stopped hstep]
    simp [hiso]
  · obtain ⟨ip, port, now, ttlMs, holding, agent, -, rfl⟩ := hs
    simp [Voter.boot]

/-- A node that does not hold the lease. -/
def follower : Voter Node.Agent := .boot "10.0.0.1" 8080 0 30000 false (.new { id := "a" })

theorem follower_init : (electionMachine Node.Agent).Init follower :=
  ⟨"10.0.0.1", 8080, 0, 30000, false, .new { id := "a" }, by decide, rfl⟩

/-- Three ticks without a leader, and then the answer to the read of the first. -/
def lateRead (leader : Option String) : List ElectionEvent :=
  [.tick 0 2, .tick 0 2, .tick 0 2, .leaseReply (.read leader true)]

/-- A leader that is found is not stopped over. -/
theorem stopAll_spares_lateRead : (electionMachine Node.Agent).Always
    (fun s => ∀ r ∈ s.stopped, r ≠ some nobodyLeads) follower
    (lateRead (some "10.0.0.2:9080") ++ [.tick 0 2]) :=
  (stopAll_spares_iff follower _ follower_init).mpr (by decide)

/-- The store says that nobody leads. The next tick throws that answer away to claim the lease;
three more failed ticks, before the store has answered again, stop everything. -/
theorem stopAll_in_leaderless_cluster : (electionMachine Node.Agent).Init follower ∧
    ∃ s, (electionMachine Node.Agent).run follower
        (lateRead none ++ [.tick 0 2, .tick 0 2, .tick 0 2, .tick 0 2]) = some s ∧
      s.stopped = [some nobodyLeads] :=
  ⟨follower_init, _, rfl, by decide⟩

end Hop.Agent
