import Hop.Agent.ElectionRun
import Hop.Node.Agent

/-!
# Ghost leases

A *ghost lease* is a lease that the elector keeps renewing although its own election has
stepped down and can never lead on it again: `holding` is set, `leading` is not, and no won
claim waits to be reported. Nobody else can take the lease, and this node answers every claim
with "already holding", so the cluster stays without a leader.

A ghost is born exactly when the loop steps down **without giving the lease back** while the
elector holds one that has been reported: on a tick of a leader that sees no agents after the
lease timer ran out, on a tick that reports a displacement of an earlier tenure, or on
`step_down(release = false)`. `noGhost_always_iff` says that these are the only ways, over
every run of the election over the elector.
-/

namespace Hop.Agent

variable {O A : Type} [LeaseOps O] [AgentPort A]
variable {l : Loop (Elector O) A}

/-- If the elector holds the lease, the election leads or the won claim is not reported yet. -/
def Loop.NoGhost (l : Loop (Elector O) A) : Prop :=
  l.disc.holding = true → l.el.leading = true ∨ l.disc.claimed = true

/-- The elector holds a lease that the election has been told about, and the election leads:
stepping down without a release leaves a ghost. -/
def Loop.Reigns (l : Loop (Elector O) A) : Prop :=
  l.el.leading = true ∧ l.disc.holding = true ∧ l.disc.claimed = false

namespace Loop

/-! ### The step lemmas, one for each function of the loop -/

omit [LeaseOps O] [AgentPort A] in
/-- Only three flags matter for a ghost. -/
theorem NoGhost.congr {l' : Loop (Elector O) A} (h : l.NoGhost)
    (hh : l'.disc.holding = l.disc.holding) (hc : l'.disc.claimed = l.disc.claimed)
    (hl : l'.el.leading = l.el.leading) : l'.NoGhost := by
  simpa only [NoGhost, hh, hc, hl] using h

theorem stepDownInner_noGhost_iff (h : l.NoGhost) (release : Bool) :
    (l.stepDownInner release).NoGhost ↔ (l.Reigns → release = true) := by
  cases hl : l.el.leading
  · have hn : (l.stepDownInner release).NoGhost := by
      simpa [stepDownInner, hl, NoGhost] using h
    simp [hn, Reigns, hl]
  · cases release <;>
      simp [stepDownInner, NoGhost, Reigns, hl, Discoverer.releaseLeadership,
        Elector.releaseLeadership, Elector.send]

/-- Asking the elector for a claim takes the won claim only to lead on it. -/
theorem claim_noGhost (h : l.NoGhost) : l.claim.NoGhost := by
  have ht := l.disc.tryBecomeLeader_tenure
  simp only [Elector.tenure, Elector.Tenure.mk.injEq] at ht
  unfold claim
  dsimp only [Discoverer.tryBecomeLeader]
  rw [Elector.tryBecomeLeader_fst]
  split_ifs with hc
  · exact fun _ => Or.inl rfl
  · intro hh
    exact (h (ht.1 ▸ hh)).imp id fun h => absurd h hc

theorem tryTakeOver_noGhost (h : l.NoGhost) : l.tryTakeOver.NoGhost :=
  claim_noGhost h

theorem failOver_noGhost (h : l.NoGhost) : l.failOver.NoGhost := by
  unfold failOver
  dsimp only
  split_ifs
  · exact tryTakeOver_noGhost (h.congr rfl rfl rfl)
  · exact h

theorem isolate_noGhost (h : l.NoGhost) : l.isolate.NoGhost :=
  h.congr (Elector.getLeader_holding l.disc) (Elector.getLeader_claimed l.disc) rfl

theorem leaderFailed_noGhost (h : l.NoGhost) :
    l.leaderFailed.NoGhost := by
  unfold leaderFailed
  dsimp only
  split_ifs
  · exact isolate_noGhost (failOver_noGhost h)
  · exact failOver_noGhost h

theorem noLeader_noGhost (h : l.NoGhost) : l.noLeader.NoGhost := by
  have ht : ({ l with el := l.el.fail } : Loop (Elector O) A).tryTakeOver.NoGhost :=
    tryTakeOver_noGhost (h.congr rfl rfl rfl)
  unfold noLeader
  dsimp only
  split_ifs
  · exact ht.congr rfl rfl rfl
  · exact ht
  · exact h

/-- The leader branch of a tick leaves a ghost exactly when it steps down on a lease that
the elector still holds. -/
theorem tickLeading_noGhost_iff (agents : ℕ) (hl : l.el.leading = true) :
    (l.tickLeading agents).NoGhost ↔
      ¬ (l.Reigns ∧ (l.disc.displaced = true ∨ l.disc.expiresAt ≤ l.disc.clock ∧ agents = 0)) := by
  -- The loop after the renewal was asked for, with the same three flags.
  obtain ⟨l', hl', hh, hc, hdef⟩ : ∃ l' : Loop (Elector O) A, l'.el = l.el ∧
      l'.disc.holding = l.disc.holding ∧ l'.disc.claimed = l.disc.claimed ∧
      ({ l with disc := l.disc.renewLease.2 } : Loop (Elector O) A).showExpiry = l' := by
    refine ⟨_, ?_, ?_, ?_, rfl⟩ <;>
      (unfold showExpiry Elector.renewLease; split <;> split <;> rfl)
  have hlead : l'.el.leading = true := by rw [hl', hl]
  have hreigns : l'.Reigns ↔ l.Reigns := by simp only [Reigns, hl', hh, hc]
  have hstep := stepDownInner_noGhost_iff (l := l') (fun _ => Or.inl hlead) false
  have hkeep : ∀ el : Election, el.leading = true →
      ({ l' with el := el } : Loop (Elector O) A).NoGhost := fun el h _ => Or.inl h
  unfold tickLeading
  dsimp only [Discoverer.renewLease]
  rw [hdef]
  cases hd : l.disc.displaced
  · cases hr : l.disc.holding && decide (l.disc.clock < l.disc.expiresAt)
    · have hexp : l.Reigns → l.disc.expiresAt ≤ l.disc.clock := by
        rintro ⟨-, hh, -⟩
        simpa [hh] using hr
      by_cases ha : agents = 0
      · simp only [Elector.renewLease, hd, hr, ha, hstep, hreigns, if_true, if_false,
          Bool.false_eq_true, imp_false, false_or, and_true]
        exact ⟨fun h hc => h hc.1, fun h hr => h ⟨hr, hexp hr⟩⟩
      · simp only [Elector.renewLease, hd, hr, ha, if_false, Bool.false_eq_true, false_or,
          and_false, not_false_eq_true, iff_true]
        exact hkeep _ hlead
    · have hlt : l.disc.clock < l.disc.expiresAt := by
        simpa using (Bool.and_eq_true_iff.mp hr).2
      simp only [Elector.renewLease, hd, hr, hlt.not_ge, if_true, if_false, Bool.false_eq_true,
        false_or, false_and, and_false, not_false_eq_true, iff_true]
      exact hkeep _ hlead
  · simp [Elector.renewLease, hd, hstep, hreigns]

omit [AgentPort A] in
theorem knownLeader_noGhost (h : l.NoGhost) :
    l.knownLeader.2.NoGhost := by
  unfold knownLeader
  split_ifs
  · exact h.congr (Elector.getLeader_holding l.disc) (Elector.getLeader_claimed l.disc) rfl
  · exact h

theorem tickLost_noGhost (h : l.NoGhost) : l.tickLost.NoGhost := by
  have h' : ({ l with disc := l.disc.getLeader.2 } : Loop (Elector O) A).NoGhost :=
    h.congr (Elector.getLeader_holding l.disc) (Elector.getLeader_claimed l.disc) rfl
  unfold tickLost
  dsimp only
  split_ifs
  · exact noLeader_noGhost h'
  · exact leaderFailed_noGhost h'

omit [AgentPort A] in
/-- The leader is found without touching what a step-down goes by. -/
theorem knownLeader_spec (l : Loop (Elector O) A) :
    l.knownLeader.2.el = l.el ∧ l.knownLeader.2.disc.tenure = l.disc.tenure := by
  unfold knownLeader
  split_ifs
  · exact ⟨rfl, Elector.getLeader_tenure l.disc⟩
  · exact ⟨rfl, rfl⟩

theorem tickInner_noGhost_iff (h : l.NoGhost) (agents : ℕ) :
    (l.tickInner agents).NoGhost ↔
      ¬ (l.Reigns ∧ (l.disc.displaced = true ∨ l.disc.expiresAt ≤ l.disc.clock ∧ agents = 0)) := by
  have hk := knownLeader_noGhost h
  obtain ⟨hel, ht⟩ := knownLeader_spec l
  unfold tickInner
  dsimp only
  revert hk hel ht
  generalize l.knownLeader.2 = l', l.knownLeader.1 = leader
  intro hk hel ht
  simp only [Elector.tenure, Elector.Tenure.mk.injEq] at ht
  have hreigns : l'.Reigns ↔ l.Reigns := by simp only [Reigns, hel, ht.1, ht.2.1]
  by_cases hl : l'.el.leading = true
  · rw [if_pos hl, tickLeading_noGhost_iff agents hl, hreigns, ht.2.2.1, ht.2.2.2.1, ht.2.2.2.2]
  · rw [if_neg hl]
    have hnot : ¬ l.Reigns := fun hr => hl (hel ▸ hr.1)
    refine iff_of_true ?_ fun hr => hnot hr.1
    split_ifs
    · exact hk.congr rfl rfl rfl
    · exact hk.congr rfl rfl rfl
    · exact tickLost_noGhost hk

theorem onReplyInner_noGhost (h : l.NoGhost) (req : Request) (result : Except LinkError Unit) :
    (l.onReplyInner req result).NoGhost := by
  unfold onReplyInner
  split
  case h_2 => exact leaderFailed_noGhost h
  case h_5 => exact leaderFailed_noGhost h
  all_goals exact h.congr rfl rfl rfl

theorem becomeLeaderNow_noGhost (h : l.NoGhost) :
    l.becomeLeaderNow.2.NoGhost := by
  unfold becomeLeaderNow takeOut
  dsimp only
  split_ifs
  · exact (claim_noGhost h).congr rfl rfl rfl
  · exact h.congr rfl rfl rfl

end Loop

omit [AgentPort A] [LeaseOps O] in
/-- An answer of the lease store never makes a ghost: a claim that is won is reported. -/
theorem Elector.onReply_noGhost {e : Elector O} {leading : Bool} (r : LeaseReply)
    (h : e.holding = true → leading = true ∨ e.claimed = true) :
    (e.onReply r).holding = true → leading = true ∨ (e.onReply r).claimed = true := by
  cases r with
  | read leader ok => exact h
  | claimed got =>
    unfold onReply
    dsimp only
    split_ifs
    · exact fun _ => Or.inr rfl
    · exact h
  | renewed renewed displaced =>
    unfold onReply note
    dsimp only
    split_ifs with hh hr hd
    · exact h
    · exact h
    · simp
    · exact h

/-! ### Runs -/

/-- The step condition: the loop does not step down, without a release, on a lease that the
elector holds and that has been reported to it. -/
def KeepsLease (s : Voter A) : ElectionEvent → Prop
  | .tick agents _ => ¬ (s.loop.Reigns ∧
      (s.elector.displaced = true ∨ s.elector.expiresAt ≤ s.elector.clock ∧ agents = 0))
  | .stepDown release _ => s.loop.Reigns → release = true
  | _ => True

instance (s : Voter A) : (e : ElectionEvent) → Decidable (KeepsLease s e)
  | .tick _ _ => inferInstanceAs (Decidable (¬ ((_ ∧ _ ∧ _) ∧ (_ ∨ _ ∧ _))))
  | .stepDown _ _ => inferInstanceAs (Decidable (_ ∧ _ ∧ _ → _))
  | .clock _ | .electorTick _ _ | .leaseReply _ | .leaseLost | .reply _ _ _
  | .becomeLeaderNow _ => inferInstanceAs (Decidable True)

theorem Voter.step_noGhost_iff {s s' : Voter A} {e : ElectionEvent} (h : s.loop.NoGhost)
    (hs : s.step e = some s') : s'.loop.NoGhost ↔ KeepsLease s e := by
  have hroom : ∀ room, (s.loopWithRoom room).NoGhost := fun _ => h
  cases e with
  | clock t =>
    obtain ⟨-, rfl⟩ : _ ∧ _ = s' := by simpa [Voter.step] using hs
    exact iff_of_true h trivial
  | electorTick now room =>
    obtain rfl : _ = s' := by simpa [Voter.step] using hs
    have ht := (s.loopWithRoom room).disc.tick_tenure now
    simp only [Elector.tenure, Elector.Tenure.mk.injEq] at ht
    exact iff_of_true ((hroom room).congr ht.1 ht.2.1 rfl) trivial
  | leaseReply r =>
    simp only [Voter.step] at hs
    split at hs
    · split_ifs at hs
      obtain rfl := Option.some.inj hs
      exact iff_of_true (Elector.onReply_noGhost r h) trivial
    · cases hs
  | leaseLost =>
    simp only [Voter.step] at hs
    split at hs
    · obtain rfl := Option.some.inj hs
      exact iff_of_true h trivial
    · cases hs
  | tick agents room =>
    obtain rfl : _ = s' := by simpa [Voter.step] using hs
    exact Loop.tickInner_noGhost_iff (hroom room) agents
  | reply req result room =>
    simp only [Voter.step] at hs
    split_ifs at hs
    obtain rfl := Option.some.inj hs
    exact iff_of_true (Loop.onReplyInner_noGhost (hroom room) req result) trivial
  | becomeLeaderNow room =>
    obtain rfl : _ = s' := by simpa [Voter.step] using hs
    exact iff_of_true (Loop.becomeLeaderNow_noGhost (hroom room)) trivial
  | stepDown release room =>
    obtain rfl : _ = s' := by simpa [Voter.step] using hs
    exact Loop.stepDownInner_noGhost_iff (hroom room) release

/-- **No ghost lease, exactly**: along every run of the election over the elector, a held
lease is led on or not yet reported in every state, if and only if no step of the run steps
down without a release on a lease that is held and reported. -/
theorem noGhost_always_iff (s : Voter A) (es : List ElectionEvent)
    (hs : (electionMachine A).Init s) :
    (electionMachine A).Always
        (fun s => s.elector.holding = true →
          s.loop.el.leading = true ∨ s.elector.claimed = true) s es ↔
      (electionMachine A).Along KeepsLease s es := by
  refine Machine.always_iff_along (fun _ h => h)
    (fun s e s' h hstep => (Voter.step_noGhost_iff h hstep).mpr)
    (fun s e s' h hstep => (Voter.step_noGhost_iff h hstep).mp) ?_
  obtain ⟨ip, port, now, ttlMs, holding, agent, -, rfl⟩ := hs
  exact fun hh => Or.inr hh

/-- A node whose claim at boot hit, with a lease of 30 s. -/
def leaseHolder : Voter Node.Agent :=
  .boot "10.0.0.1" 8080 0 30000 true (.new { id := "a" })

theorem leaseHolder_init : (electionMachine Node.Agent).Init leaseHolder :=
  ⟨"10.0.0.1", 8080, 0, 30000, true, .new { id := "a" }, by decide, rfl⟩

/-- The node leads, and at `t` ms it ticks without a connected agent. -/
def aloneAt (t : ℕ) : List ElectionEvent := [.becomeLeaderNow 1, .clock t, .tick 0 1]

/-- As long as the lease runs, the node leads on it. -/
theorem noGhost_aloneAt_20s : (electionMachine Node.Agent).Always
    (fun s => s.elector.holding = true → s.loop.el.leading = true ∨ s.elector.claimed = true)
    leaseHolder (aloneAt 20000) :=
  (noGhost_always_iff leaseHolder (aloneAt 20000) leaseHolder_init).mpr (by decide)

/-- When its timer has run out, the node steps down and keeps the lease. -/
theorem ghost_aloneAt_30s : (electionMachine Node.Agent).Init leaseHolder ∧
    ∃ s, (electionMachine Node.Agent).run leaseHolder (aloneAt 30000) = some s ∧
      s.elector.holding = true ∧ s.loop.el.leading = false ∧ s.elector.claimed = false :=
  ⟨leaseHolder_init, _, rfl, rfl, rfl, rfl⟩

end Hop.Agent
