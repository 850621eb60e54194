import Hop.Agent.FailSafe

/-!
# A node that leads points at itself

A node that wins the lease shows its own leader API as the leader. The loop learns what became of a
request only when the answer comes, which may be ticks later: a registration or a heartbeat that was
sent before the win can be answered after it. `onReply` does not look whether the node leads by then.
A late success makes it show the leader of that time, and late failures count up to an attempt to
take over from itself. `points_home_iff` says which answers do no harm.
-/

namespace Hop.Agent

namespace Loop

/-- The leader that the node shows. -/
def addr {D : Type} (l : Loop D (Counted Node.Agent)) : String := l.agent.agent.leaderAddr

/-- A node that leads shows its own leader API. -/
def PointsHome {D : Type} (l : Loop D (Counted Node.Agent)) : Prop :=
  l.el.leading = true → l.addr = l.el.ownLeader

theorem pointsHome_of_follower {D : Type} {l : Loop D (Counted Node.Agent)}
    (h : l.el.leading = false) : l.PointsHome := by
  intro hl
  rw [h] at hl
  cases hl

@[simp] theorem publish_leaderAddr (el : Election) (a : Counted Node.Agent) (addr : String) :
    (el.publish a addr).agent.leaderAddr = addr := by
  rw [Election.publish]
  split_ifs <;> rfl

theorem stopAll_leaderAddr (a : Node.Agent) : a.stopAll.2.leaderAddr = a.leaderAddr := by
  have hstop : ∀ (ids : List String) (a : Node.Agent), (a.stopEach ids).leaderAddr = a.leaderAddr := by
    intro ids
    induction ids with
    | nil => exact fun a => rfl
    | cons id rest ih =>
      intro a
      refine (ih (a.removeAndStop id).2).trans ?_
      rw [Node.Agent.removeAndStop]
      split <;> rfl
  exact hstop _ a

/-! ### What a call can do -/

section

variable {D : Type} [Discoverer D] (l : Loop D (Counted Node.Agent))

/-- After the call a node that leads points home, and its own leader API is the same. -/
structure Settles {D : Type} (l l' : Loop D (Counted Node.Agent)) : Prop where
  own : l'.el.ownLeader = l.el.ownLeader
  home : l'.PointsHome

/-- A claim that is won leads, shows the own address and asks for the leader half; one that is not
changes nothing but the lease side. -/
theorem claim_cases : (∃ disc, l.claim = ({ l with disc := disc } : Loop D _).becomeLeader) ∨
    ∃ disc, l.claim = { l with disc := disc } := by
  rw [claim]
  dsimp only
  split_ifs
  · exact .inl ⟨_, rfl⟩
  · exact .inr ⟨_, rfl⟩

theorem claim_settles (h : l.PointsHome) : Settles l l.claim := by
  rcases l.claim_cases with ⟨disc, heq⟩ | ⟨disc, heq⟩
  · rw [heq]
    exact ⟨rfl, fun _ => publish_leaderAddr _ _ _⟩
  · rw [heq]
    exact ⟨rfl, h⟩

variable {l}

theorem tryTakeOver_settles (h : l.el.leading = false) : Settles l l.tryTakeOver := by
  obtain ⟨hown, hhome⟩ := claim_settles (⟨{ l.el with lastLeader := "" }, Discoverer.invalidate l.disc,
    { l.el with lastLeader := "" }.publish l.agent ""⟩ : Loop D _) (pointsHome_of_follower h)
  exact ⟨hown, hhome⟩

theorem failOver_settles (h : l.el.leading = false) : Settles l l.failOver := by
  rw [failOver]
  dsimp only
  split_ifs
  · obtain ⟨hown, hhome⟩ := tryTakeOver_settles (l := { l with el := l.el.fail }) h
    exact ⟨hown, hhome⟩
  · exact ⟨rfl, pointsHome_of_follower h⟩

/-- Stopping everything leaves what the node shows. -/
theorem isolate_settles {l₀ : Loop D (Counted Node.Agent)} (h : Settles l₀ l) : Settles l₀ l.isolate := by
  refine ⟨h.own, fun hl => ?_⟩
  have haddr : l.isolate.addr = l.addr := by
    rw [isolate, addr]
    dsimp only
    split_ifs
    · exact stopAll_leaderAddr _
    · rfl
  rw [haddr]
  exact h.home hl

theorem leaderFailed_settles (h : l.el.leading = false) : Settles l l.leaderFailed := by
  rw [leaderFailed]
  split_ifs
  · exact isolate_settles (failOver_settles h)
  · exact failOver_settles h

theorem noLeader_settles (h : l.el.leading = false) : Settles l l.noLeader := by
  have htake := tryTakeOver_settles (l := { l with el := l.el.fail }) h
  rw [noLeader]
  dsimp only
  split_ifs
  · exact ⟨htake.own, htake.home⟩
  · exact ⟨htake.own, htake.home⟩
  · exact ⟨rfl, pointsHome_of_follower h⟩

theorem tickLost_settles (h : l.el.leading = false) : Settles l l.tickLost := by
  rw [tickLost]
  dsimp only
  generalize (storeSaysNoLeader l.disc).2 = disc
  split_ifs
  · obtain ⟨hown, hhome⟩ := noLeader_settles (l := { l with disc := disc }) h
    exact ⟨hown, hhome⟩
  · obtain ⟨hown, hhome⟩ := leaderFailed_settles (l := { l with disc := disc }) h
    exact ⟨hown, hhome⟩

theorem stepDownInner_settles (release : Bool) : Settles l (l.stepDownInner release) := by
  have hfollower : (l.stepDownInner release).el.leading = false := by
    rw [stepDownInner]
    dsimp only
    split_ifs <;> rfl
  refine ⟨?_, pointsHome_of_follower hfollower⟩
  rw [stepDownInner]
  dsimp only
  split_ifs <;> rfl

theorem tickLeading_settles (h : l.PointsHome) (agents : ℕ) : Settles l (l.tickLeading agents) := by
  -- the renewal changes the lease side, and when the lease that the agent shows runs out
  have hshow : ∀ disc, Settles l ({ l with disc := disc } : Loop D _).showExpiry := by
    intro disc
    rw [showExpiry]
    split
    · exact ⟨rfl, h⟩
    · exact ⟨rfl, h⟩
  rw [tickLeading]
  dsimp only
  generalize (Discoverer.renewLease l.disc).2 = disc
  obtain ⟨hown, hhome⟩ := hshow disc
  generalize ({ l with disc := disc } : Loop D _).showExpiry = l₁ at hown hhome
  have hdown : Settles l (l₁.stepDownInner false) := by
    obtain ⟨hown', hhome'⟩ := stepDownInner_settles (l := l₁) false
    exact ⟨hown'.trans hown, hhome'⟩
  split_ifs
  · exact hdown
  · exact ⟨hown, hhome⟩
  · exact hdown
  · exact ⟨hown, hhome⟩

theorem tickInner_settles (h : l.PointsHome) (agents : ℕ) : Settles l (l.tickInner agents) := by
  obtain ⟨disc, hknown⟩ : ∃ disc, l.knownLeader.2 = { l with disc := disc } := by
    rw [knownLeader]
    split_ifs
    · exact ⟨_, rfl⟩
    · exact ⟨l.disc, rfl⟩
  rw [tickInner]
  dsimp only
  rw [hknown]
  have hhome : ({ l with disc := disc } : Loop D (Counted Node.Agent)).PointsHome := h
  split_ifs with hleading
  · obtain ⟨hown, hhome'⟩ := tickLeading_settles hhome agents
    exact ⟨hown, hhome'⟩
  · exact ⟨rfl, h⟩
  · exact ⟨rfl, h⟩
  · obtain ⟨hown, hhome'⟩ := tickLost_settles (l := { l with disc := disc })
      (Bool.not_eq_true _ ▸ hleading)
    exact ⟨hown, hhome'⟩

/-- An answer to a node that does not lead. -/
theorem onReplyInner_settles (h : l.el.leading = false) (req : Request)
    (result : Except LinkError Unit) : Settles l (l.onReplyInner req result) := by
  have hhome := pointsHome_of_follower h
  unfold onReplyInner
  split
  · exact ⟨rfl, pointsHome_of_follower h⟩
  · exact leaderFailed_settles h
  · exact ⟨rfl, pointsHome_of_follower h⟩
  · exact ⟨rfl, hhome⟩
  · exact leaderFailed_settles h
  all_goals exact ⟨rfl, hhome⟩

/-! ### Answers to a node that leads -/

/-- One more failure is below the threshold of an attempt to take over. -/
def Tolerates (el : Election) : Prop := el.fail.failCount < takeoverAfter

/-- A failure below the threshold is only counted. -/
theorem leaderFailed_of_tolerates (h : Tolerates l.el) :
    l.leaderFailed = { l with el := l.el.fail } := by
  have hfailOver : l.failOver = { l with el := l.el.fail } := by
    rw [failOver]
    exact if_neg (not_le.mpr h)
  have hisolated : ¬ isolatedAfter ≤ l.el.fail.failCount := by
    rw [Tolerates] at h
    exact not_le.mpr (h.trans (by decide))
  rw [leaderFailed, hfailOver]
  exact if_neg hisolated

/-- A failure at the threshold hides the own address, or asks for the leader half again. -/
theorem leaderFailed_of_not_tolerates (h : ¬ Tolerates l.el) :
    .startLeader ∈ l.leaderFailed.el.out ∨ l.leaderFailed.addr = "" := by
  have htake : .startLeader ∈ l.failOver.el.out ∨ l.failOver.addr = "" := by
    rw [failOver]
    dsimp only
    rw [if_pos (not_lt.mp h), tryTakeOver]
    dsimp only
    generalize hl₁ : (⟨{ l.el.fail with lastLeader := "" }, Discoverer.invalidate l.disc,
      { l.el.fail with lastLeader := "" }.publish l.agent ""⟩ : Loop D (Counted Node.Agent)) = l₁
    rcases l₁.claim_cases with ⟨disc, heq⟩ | ⟨disc, heq⟩
    · rw [heq]
      exact .inl (List.mem_append_right _ (List.mem_singleton_self _))
    · rw [heq, ← hl₁]
      exact .inr (publish_leaderAddr _ _ _)
  rw [leaderFailed]
  split_ifs
  · refine htake.imp id fun haddr => ?_
    rw [isolate, addr]
    dsimp only
    split_ifs
    · exact (stopAll_leaderAddr _).trans haddr
    · exact haddr
  · exact htake

end

end Loop

/-! ### Requests and late answers -/

/-- The loop of a node, and its requests that were not answered yet. -/
structure Office (D : Type) where
  loop : Loop D (Counted Node.Agent)
  sent : List Request

/-- What can happen to a node: a call of its loop, the answer to one of its requests, or anything at
the lease side. -/
inductive OfficeEvent (D : Type)
  | tick (agentsConnected : ℕ)
  | becomeLeaderNow
  | stepDown (release : Bool)
  | reply (k : ℕ) (result : Except LinkError Unit)
  | lease (disc : D)

namespace Office

variable {D : Type} [Discoverer D]

/-- The node after a call that puts requests out. -/
def after {D : Type} (sent : List Request) (call : List Request × Loop D (Counted Node.Agent)) : Office D :=
  ⟨call.2, sent ++ call.1⟩

/-- The node after an event; a request is answered once. -/
def step (s : Office D) : OfficeEvent D → Option (Office D)
  | .tick agents => some (after s.sent (s.loop.tick agents))
  | .becomeLeaderNow => some (after s.sent s.loop.becomeLeaderNow)
  | .stepDown release => some (after s.sent (s.loop.stepDown release))
  | .reply k result =>
    s.sent[k]?.map fun r => after (s.sent.eraseIdx k) (s.loop.onReply r result)
  | .lease disc => some { s with loop := { s.loop with disc := disc } }

/-- A node that leads points home. -/
def PointsHome {D : Type} (s : Office D) : Prop := s.loop.PointsHome

/-- The request is one of a node that follows another. -/
def Outbound : Request → Prop
  | .register _ => True
  | .heartbeat _ => True
  | _ => False

/-- **A late answer leaves a leader alone**: what it shows stays, no leader half is started, and
nothing is stopped. -/
def LeavesAlone (s : Office D) : OfficeEvent D → Prop
  | .reply k result => ∀ r, s.sent[k]? = some r → Outbound r → s.loop.el.leading = true →
      (s.loop.onReply r result).2.addr = s.loop.addr ∧
      .startLeader ∉ (s.loop.onReply r result).1 ∧
      (s.loop.onReply r result).2.agent.stops = s.loop.agent.stops
  | _ => True

/-- **An answer that does no harm to a leader**: the success of a request to the own leader API, a
leader that does not know us, or a failure below the threshold of an attempt to take over. -/
def DoesNoHarm (el : Election) : Request → Except LinkError Unit → Prop
  | .register leader, .ok () => leader = el.ownLeader
  | .register _, .error _ => Loop.Tolerates el
  | .heartbeat leader, .ok () => leader = el.ownLeader
  | .heartbeat _, .error .notRegistered => True
  | .heartbeat _, .error .failed => Loop.Tolerates el
  | _, _ => True

/-- Every late answer that comes while the node leads does no harm. -/
def Harmless {D : Type} (s : Office D) : OfficeEvent D → Prop
  | .reply k result => ∀ r, s.sent[k]? = some r → s.loop.el.leading = true →
      DoesNoHarm s.loop.el r result
  | _ => True

end Office

/-- The runs of the election of a node, with any answers of the lease side and late answers to its
requests. -/
def officeMachine (D : Type) [Discoverer D] : Machine (Office D) (OfficeEvent D) where
  Init s := ∃ ip port disc agent, s = ⟨⟨.new ip port, disc, ⟨agent, 0⟩⟩, []⟩
  step := Office.step

namespace Office

variable {D : Type} [Discoverer D] {s s' : Office D}

/-- What every state of a run has besides: requests are handed over, and the node has an address. -/
structure Ready (s : Office D) : Prop where
  home : s.PointsHome
  out : s.loop.el.out = []
  own : s.loop.el.ownLeader ≠ ""

/-- To a node that leads and points home, an answer does no harm exactly if it leaves it alone. -/
theorem leavesAlone_iff (hs : s.Ready) (hl : s.loop.el.leading = true) (r : Request)
    (result : Except LinkError Unit) (hr : Outbound r) :
    ((s.loop.onReply r result).2.addr = s.loop.addr ∧ .startLeader ∉ (s.loop.onReply r result).1 ∧
      (s.loop.onReply r result).2.agent.stops = s.loop.agent.stops) ↔
      DoesNoHarm s.loop.el r result := by
  have haddr : s.loop.addr = s.loop.el.ownLeader := hs.home hl
  have hfailed : (s.loop.leaderFailed.addr = s.loop.addr ∧ .startLeader ∉ s.loop.leaderFailed.el.out ∧
      s.loop.leaderFailed.agent.stops = s.loop.agent.stops) ↔ Loop.Tolerates s.loop.el := by
    constructor
    · rintro ⟨hsame, hquiet, -⟩
      by_contra hnot
      rcases Loop.leaderFailed_of_not_tolerates hnot with hstart | hempty
      · exact hquiet hstart
      · exact hs.own (haddr.symm.trans (hsame.symm.trans hempty))
    · intro htolerates
      rw [Loop.leaderFailed_of_tolerates htolerates]
      refine ⟨rfl, ?_, rfl⟩
      rw [Election.fail, hs.out]
      exact List.not_mem_nil
  -- a success makes the node show the leader that answered
  have hshown : ∀ el : Election, el.out = s.loop.el.out → ∀ leader,
      ((el.publish s.loop.agent leader).agent.leaderAddr = s.loop.addr ∧ .startLeader ∉ el.out ∧
        (el.publish s.loop.agent leader).stops = s.loop.agent.stops) ↔
      leader = s.loop.el.ownLeader := by
    intro el hout leader
    rw [Loop.publish_leaderAddr, Loop.publish_stops, hout, hs.out, haddr]
    exact ⟨And.left, fun h => ⟨h, List.not_mem_nil, rfl⟩⟩
  cases r with
  | register leader =>
    rcases result with err | _
    · exact hfailed
    · exact hshown _ rfl leader
  | heartbeat leader =>
    rcases result with (_ | _) | _
    · refine ⟨fun _ => trivial, fun _ => ⟨rfl, ?_, rfl⟩⟩
      change .startLeader ∉ s.loop.el.out
      rw [hs.out]
      exact List.not_mem_nil
    · exact hfailed
    · exact hshown _ rfl leader
  | _ => exact absurd hr id

/-- After an answer that does no harm the node points home. -/
theorem onReplyInner_settles {l : Loop D (Counted Node.Agent)} (h : l.PointsHome) {r : Request}
    {result : Except LinkError Unit} (hharm : l.el.leading = true → DoesNoHarm l.el r result) :
    Loop.Settles l (l.onReplyInner r result) := by
  by_cases hl : l.el.leading = true
  swap
  · exact Loop.onReplyInner_settles (Bool.not_eq_true _ ▸ hl) r result
  have hnoHarm := hharm hl
  have hfailed : Loop.Tolerates l.el → Loop.Settles l l.leaderFailed := by
    intro htolerates
    rw [Loop.leaderFailed_of_tolerates htolerates]
    exact ⟨rfl, h⟩
  cases r with
  | register leader =>
    rcases result with err | _
    · exact hfailed hnoHarm
    · exact ⟨rfl, fun _ => (Loop.publish_leaderAddr _ _ _).trans hnoHarm⟩
  | heartbeat leader =>
    rcases result with (_ | _) | _
    · exact ⟨rfl, h⟩
    · exact hfailed hnoHarm
    · exact ⟨rfl, fun _ => (Loop.publish_leaderAddr _ _ _).trans hnoHarm⟩
  | selfHeartbeat leader => rcases result with (_ | _) | _ <;> exact ⟨rfl, h⟩
  | selfRegister leader => rcases result with (_ | _) | _ <;> exact ⟨rfl, h⟩
  | startLeader => exact ⟨rfl, h⟩
  | stopLeader => exact ⟨rfl, h⟩

omit [Discoverer D] in
/-- What a call leaves behind when its requests are handed over. -/
theorem ready_after {l l' : Loop D (Counted Node.Agent)} (h : Loop.Settles l l')
    (hown : l.el.ownLeader ≠ "") (sent : List Request) : (after sent l'.takeOut).Ready := by
  refine ⟨h.home, rfl, ?_⟩
  change l'.el.ownLeader ≠ ""
  rw [h.own]
  exact hown

/-- Every event keeps a node ready that is no harmful answer. -/
theorem Ready.step {e : OfficeEvent D} (hs : s.Ready) (hstep : s.step e = some s')
    (h : s.Harmless e) : s'.Ready := by
  cases e with
  | tick agents =>
    obtain rfl := Option.some.inj hstep
    exact ready_after (Loop.tickInner_settles hs.home agents) hs.own _
  | becomeLeaderNow =>
    obtain rfl := Option.some.inj hstep
    have hsettles : Loop.Settles s.loop (if !s.loop.el.leading then s.loop.claim else s.loop) := by
      split_ifs
      · exact s.loop.claim_settles hs.home
      · exact ⟨rfl, hs.home⟩
    exact ready_after hsettles hs.own _
  | stepDown release =>
    obtain rfl := Option.some.inj hstep
    exact ready_after (Loop.stepDownInner_settles release) hs.own _
  | reply k result =>
    obtain ⟨r, hr, rfl⟩ := Option.map_eq_some_iff.mp hstep
    exact ready_after (onReplyInner_settles hs.home (h r hr)) hs.own _
  | lease disc =>
    obtain rfl := Option.some.inj hstep
    exact ⟨hs.home, hs.out, hs.own⟩

theorem harmless_iff (hs : s.Ready) (e : OfficeEvent D) : s.LeavesAlone e ↔ s.Harmless e := by
  cases e with
  | reply k result =>
    constructor
    · intro h r hr hl
      by_cases hout : Outbound r
      · exact (leavesAlone_iff hs hl r result hout).mp (h r hr hout hl)
      · cases r with
        | register leader => exact absurd trivial hout
        | heartbeat leader => exact absurd trivial hout
        | _ => exact trivial
    · intro h r hr hout hl
      exact (leavesAlone_iff hs hl r result hout).mpr (h r hr hl)
  | _ => exact Iff.rfl

end Office

/-- **A leading node points at itself exactly as long as** every answer to a registration or a
heartbeat that comes while it leads is a success from its own leader API, is "not registered", or is a
failure below the threshold of an attempt to take over: then no such answer changes what it shows,
starts another leader half or stops its tasks. -/
theorem points_home_iff {D : Type} [Discoverer D] {s : Office D} (hinit : (officeMachine D).Init s)
    (es : List (OfficeEvent D)) :
    ((officeMachine D).Always Office.PointsHome s es ∧ (officeMachine D).Along Office.LeavesAlone s es) ↔
      (officeMachine D).Along Office.Harmless s es := by
  have hready : s.Ready := by
    obtain ⟨ip, port, disc, agent, rfl⟩ := hinit
    refine ⟨Loop.pointsHome_of_follower rfl, rfl, fun hempty => ?_⟩
    have hlength := congrArg String.length hempty
    simp [Election.new, String.length_append] at hlength
  have hkeep : ∀ (s : Office D) e s', s.Ready → (officeMachine D).step s e = some s' →
      s.Harmless e → s'.Ready := fun s e s' hs hstep h => hs.step hstep h
  constructor
  · rintro ⟨-, halone⟩
    refine halone.imp_of_invariant (K := Office.Ready) (fun s e s' hs hstep h => ?_)
      (fun s e hs h => (Office.harmless_iff hs e).mp h) hready
    exact hkeep s e s' hs hstep ((Office.harmless_iff hs e).mp h)
  · intro hharmless
    refine ⟨hharmless.always (fun s hs => hs.home) hkeep hready, ?_⟩
    exact hharmless.imp_of_invariant hkeep (fun s e hs h => (Office.harmless_iff hs e).mpr h) hready

/-! ### A late registration -/

/-- A lease side that always gives the same answers: another node leads, and the lease can be had. -/
structure FixedAnswers where
  leader : String

instance : Discoverer FixedAnswers where
  getLeader d := (some d.leader, d)
  tryBecomeLeader d := (true, d)
  renewLease d := ((true, false), d)
  releaseLeadership d := d
  storeReachable _ := true
  invalidate d := d
  leaseExpiresAt _ := none

/-- A node that has just booted beside another leader. -/
def besides : Office FixedAnswers :=
  ⟨⟨.new "10.0.0.1" 8080, ⟨"10.0.0.2:9080"⟩, ⟨.new { id := "a" }, 0⟩⟩, []⟩

/-- The node registers at the other leader, wins the lease, and then its registration is answered. -/
def lateRegistration (result : Except LinkError Unit) : List (OfficeEvent FixedAnswers) :=
  [.tick 0, .becomeLeaderNow, .reply 0 result]

theorem besides_init : (officeMachine FixedAnswers).Init besides :=
  ⟨"10.0.0.1", 8080, ⟨"10.0.0.2:9080"⟩, .new { id := "a" }, rfl⟩

/-- A late failure of the registration does no harm. -/
theorem points_home_lateFailure :
    (officeMachine FixedAnswers).Along Office.LeavesAlone besides (lateRegistration (.error .failed)) := by
  refine ((points_home_iff besides_init _).mpr ?_).2
  rintro _ ⟨⟩
  refine ⟨trivial, ?_⟩
  rintro _ ⟨⟩
  refine ⟨trivial, ?_⟩
  rintro _ ⟨⟩
  refine ⟨?_, trivial⟩
  rintro _ ⟨⟩ -
  change Election.failCount _ < takeoverAfter
  decide

/-- A late success makes the leader show the one before it. -/
theorem late_registration_overwrites : (officeMachine FixedAnswers).Init besides ∧
    ¬ (officeMachine FixedAnswers).Always Office.PointsHome besides (lateRegistration (.ok ())) := by
  refine ⟨besides_init, fun h => ?_⟩
  have hlast := ((h.2 _ rfl).2 _ rfl).2 _ rfl
  exact absurd (hlast rfl) (by decide)

end Hop.Agent
