import Hop.Agent.Election

/-!
# What a call of the loop decides

The specification of the loop as its executor sees it: after each call, whether the election
leads, and which requests the call has put out. A claim that was won is turned into
`startLeader` at the first question, and questions are asked at boot and on counted failures;
`stopLeader` goes out exactly when a leader steps down.
-/

namespace Hop.Agent.Loop

variable {O A : Type} [LeaseOps O] [AgentPort A]

/-- After the call the election leads iff `leading`, and the call has put out `rs`. -/
def Decides (l l' : Loop (Elector O) A) (leading : Bool) (rs : List Request) : Prop :=
  l'.el.leading = leading ∧ l'.el.out = l.el.out ++ rs

/-- A failure that is counted now wins the lease: it reaches the take-over threshold, and a
won claim waits to be reported. -/
def failureWins (l : Loop (Elector O) A) : Bool :=
  decide (3 ≤ l.el.failCount) && l.disc.claimed

/-- The requests of a step that wins the lease or does not. -/
def startIf (won : Bool) : List Request := if won then [.startLeader] else []

theorem claim_decides (l : Loop (Elector O) A) :
    l.Decides l.claim (l.el.leading || l.disc.claimed) (startIf l.disc.claimed) := by
  unfold claim Decides
  dsimp only [Discoverer.tryBecomeLeader]
  rw [Elector.tryBecomeLeader_fst]
  cases l.disc.claimed
  · simp [startIf]
  · simp [startIf, becomeLeader, Election.emit]

theorem becomeLeaderNow_decides (l : Loop (Elector O) A) :
    (l.becomeLeaderNow.2.el.leading = (l.el.leading || l.disc.claimed)) ∧
      l.becomeLeaderNow.1 = l.el.out ++ startIf (!l.el.leading && l.disc.claimed) := by
  unfold becomeLeaderNow takeOut
  cases hl : l.el.leading
  · simpa [Decides, hl] using l.claim_decides
  · simp [startIf, hl]

theorem tryTakeOver_decides (l : Loop (Elector O) A) :
    l.Decides l.tryTakeOver (l.el.leading || l.disc.claimed) (startIf l.disc.claimed) := by
  have := claim_decides (⟨{ l.el with lastLeader := "" }, l.disc.invalidate,
    { l.el with lastLeader := "" }.publish l.agent ""⟩ : Loop (Elector O) A)
  exact this

omit [LeaseOps O] [AgentPort A] in
/-- One more failure reaches the take-over threshold at the fourth. -/
theorem takeover_iff (l : Loop (Elector O) A) :
    takeoverAfter ≤ l.el.fail.failCount ↔ 3 ≤ l.el.failCount := by
  simp only [takeoverAfter, Election.fail, satAdd, u32Max]
  omega

theorem failOver_decides (l : Loop (Elector O) A) :
    l.Decides l.failOver (l.el.leading || l.failureWins)
      (startIf l.failureWins) := by
  have ht := l.takeover_iff
  unfold failOver
  dsimp only
  split_ifs with h
  · have := tryTakeOver_decides (⟨l.el.fail, l.disc, l.agent⟩ : Loop (Elector O) A)
    simpa [Decides, failureWins, ht.mp h, Election.fail] using this
  · simp [Decides, failureWins, mt ht.mpr h, startIf, Election.fail]

theorem leaderFailed_decides (l : Loop (Elector O) A) :
    l.Decides l.leaderFailed (l.el.leading || l.failureWins)
      (startIf l.failureWins) := by
  have h := l.failOver_decides
  unfold leaderFailed
  dsimp only
  split_ifs
  · exact h
  · exact h

theorem noLeader_decides (l : Loop (Elector O) A) :
    l.Decides l.noLeader (l.el.leading || l.failureWins)
      (startIf l.failureWins) := by
  have ht := l.takeover_iff
  have htake := tryTakeOver_decides (⟨l.el.fail, l.disc, l.agent⟩ : Loop (Elector O) A)
  unfold noLeader
  dsimp only
  split_ifs with h
  · simpa [Decides, failureWins, ht.mp h, Election.fail] using htake
  · simpa [Decides, failureWins, ht.mp h, Election.fail] using htake
  · simp [Decides, failureWins, mt ht.mpr h, startIf, Election.fail]

theorem tickLost_decides (l : Loop (Elector O) A) :
    l.Decides l.tickLost (l.el.leading || l.failureWins)
      (startIf l.failureWins) := by
  have hc : (storeSaysNoLeader l.disc).2.claimed = l.disc.claimed :=
    Elector.getLeader_claimed l.disc
  have key : ∀ d : Elector O, d.claimed = l.disc.claimed →
      failureWins (⟨l.el, d, l.agent⟩ : Loop (Elector O) A) = l.failureWins := by
    intro d hd
    simp only [failureWins, hd]
  unfold tickLost
  dsimp only
  split_ifs
  · exact key _ hc ▸ noLeader_decides ⟨l.el, (storeSaysNoLeader l.disc).2, l.agent⟩
  · exact key _ hc ▸ leaderFailed_decides ⟨l.el, (storeSaysNoLeader l.disc).2, l.agent⟩

theorem stepDownInner_decides (l : Loop (Elector O) A) (release : Bool) :
    l.Decides (l.stepDownInner release) false (if l.el.leading then [.stopLeader] else []) := by
  unfold stepDownInner Decides
  dsimp only
  cases l.el.leading
  · simp
  · cases release <;> simp [Election.emit]

/-- The leader this tick goes by. -/
def tickLeader (l : Loop (Elector O) A) : String :=
  if l.el.lastLeader = "" then l.disc.answer.getD "" else l.el.lastLeader

omit [AgentPort A] in
theorem knownLeader_eq (l : Loop (Elector O) A) :
    l.knownLeader.1 = l.tickLeader ∧ l.knownLeader.2.el = l.el ∧
      l.knownLeader.2.disc.claimed = l.disc.claimed := by
  unfold knownLeader tickLeader
  split_ifs
  · exact ⟨congrArg (·.getD "") l.disc.getLeader_fst, rfl, Elector.getLeader_claimed l.disc⟩
  · exact ⟨rfl, rfl, rfl⟩

theorem tickLeading_decides (l : Loop (Elector O) A) (agents : ℕ) (hl : l.el.leading = true) :
    l.Decides (l.tickLeading agents) false [.stopLeader] ∨
      l.Decides (l.tickLeading agents) true [.selfHeartbeat l.el.ownLeader] := by
  have hshow : ∀ l : Loop (Elector O) A, l.showExpiry.el = l.el := by
    intro l
    unfold showExpiry
    split <;> rfl
  have hdown : ∀ d : Elector O,
      l.Decides ((⟨l.el, d, l.agent⟩ : Loop (Elector O) A).showExpiry.stepDownInner false) false
        [.stopLeader] := by
    intro d
    have := stepDownInner_decides (⟨l.el, d, l.agent⟩ : Loop (Elector O) A).showExpiry false
    simpa [Decides, hshow, hl] using this
  unfold tickLeading
  dsimp only
  split_ifs
  · exact Or.inl (hdown _)
  · exact Or.inr (by simp [Decides, hshow, hl, Election.emit])
  · exact Or.inl (hdown _)
  · exact Or.inr (by simp [Decides, hshow, hl, Election.emit])

/-- The call that a tick makes at a leader it knows. -/
def linkCall (l : Loop (Elector O) A) (leader : String) : Request :=
  if l.el.registered then .heartbeat leader else .register leader

theorem tickInner_leading (l : Loop (Elector O) A) (agents : ℕ) (hl : l.el.leading = true) :
    l.Decides (l.tickInner agents) false [.stopLeader] ∨
      l.Decides (l.tickInner agents) true [.selfHeartbeat l.el.ownLeader] := by
  obtain ⟨-, hel, -⟩ := l.knownLeader_eq
  have := l.knownLeader.2.tickLeading_decides agents (hel ▸ hl)
  unfold tickInner
  dsimp only
  rw [if_pos (hel ▸ hl)]
  simpa only [Decides, hel] using this

theorem tickInner_linked (l : Loop (Elector O) A) (agents : ℕ) (hl : l.el.leading = false)
    (hk : l.tickLeader ≠ "") :
    l.Decides (l.tickInner agents) false [l.linkCall l.tickLeader] ∧
      (l.tickInner agents).failureWins = l.failureWins := by
  obtain ⟨hlead, hel, hc⟩ := l.knownLeader_eq
  unfold tickInner
  dsimp only
  rw [hlead, hel, if_neg (by simp [hl]), if_pos hk]
  refine ⟨⟨hl, rfl⟩, ?_⟩
  simp only [failureWins, hc, Election.emit_failCount]
  rfl

theorem tickInner_lost (l : Loop (Elector O) A) (agents : ℕ) (hl : l.el.leading = false)
    (hk : l.tickLeader = "") :
    l.Decides (l.tickInner agents) l.failureWins (startIf l.failureWins) := by
  obtain ⟨hlead, hel, hc⟩ := l.knownLeader_eq
  have := l.knownLeader.2.tickLost_decides
  unfold tickInner
  dsimp only
  rw [hlead, hel, if_neg (by simp [hl]), if_neg (not_not.mpr hk)]
  simpa only [Decides, failureWins, hel, hc, hl, Bool.false_or] using this

/-- The replies that count as a failure of the leader. -/
def replyFails : Request → Except LinkError Unit → Bool
  | .register _, .error _ => true
  | .heartbeat _, .error .failed => true
  | _, _ => false

/-- The call that follows on a reply: our own leader API forgot us. -/
def followUp : Request → Except LinkError Unit → List Request
  | .selfHeartbeat leader, .error .notRegistered => [.selfRegister leader]
  | _, _ => []

theorem onReplyInner_decides (l : Loop (Elector O) A) (req : Request)
    (result : Except LinkError Unit) :
    l.Decides (l.onReplyInner req result)
      (l.el.leading || (replyFails req result && l.failureWins))
      (startIf (replyFails req result && l.failureWins) ++ followUp req result) := by
  have h := l.leaderFailed_decides
  unfold onReplyInner
  split <;>
    simp_all [Decides, replyFails, followUp, startIf, Election.emit]

end Hop.Agent.Loop
