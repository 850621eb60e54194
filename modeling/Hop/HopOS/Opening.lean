import Hop.Lib.Machine
import Hop.Agent.Succession
import Hop.HopOS.Cluster

/-!
# A node that leads opens its leader half

The election says "lead" once for each lease it wins; the node then queues a read of the
committed state, and the leader half is loading until it opens. If the queue of the state task is
full at that moment, nothing is queued and nothing asks again: the node leads, renews its lease,
and its leader API stays closed. `opening_always_iff` says that this is the only way, over every
run of the node.
-/

namespace Hop.HopOS

open Hop.Agent (AgentPort Elector LeaseReply LinkError Loop Request)
open Hop.Agent.Loop (Decides followUp replyFails startIf)

namespace Node

variable {H : Type}
variable {n : Node H}

/-- The leader half is open, or it is opening. -/
def opens (n : Node H) : Bool := n.live || n.loading

/-- If the election says "lead" now, the leader half is open or opening after it. -/
def canOpen (n : Node H) : Bool := n.opens || decide (n.state.length < stateQ)

@[simp] theorem setHalf_el (n : Node H) (half : H) : (n.setHalf half).loop.el = n.loop.el := rfl

/-- A node that leads has its leader half open, or is opening it. -/
def Opening (n : Node H) : Prop := n.loop.el.leading = true → n.opens = true

/-- What a step leaves: whether the election leads, whether the leader half is open or opening,
and that no request of the election waits. -/
structure Leaves (n : Node H) (leading opens : Bool) : Prop where
  leading : n.loop.el.leading = leading
  opens : n.opens = opens
  out : n.loop.el.out = []

namespace Leaves

variable {n : Node H} {leading opens : Bool}

theorem congr (h : n.Leaves leading opens) {leading' opens' : Bool} (hl : leading = leading')
    (ho : opens = opens') : n.Leaves leading' opens' :=
  ⟨h.leading.trans hl, h.opens.trans ho, h.out⟩

theorem setHalf (h : n.Leaves leading opens) (half : H) : (n.setHalf half).Leaves leading opens :=
  ⟨h.leading, h.opens, h.out⟩

variable [NodeHalf H]

theorem onRan (h : n.Leaves leading opens) (now : Nanos) (agent job : String)
    (reply : Lead.RunReply) : (n.onRan now agent job reply).Leaves leading opens := by
  unfold Node.onRan
  split_ifs
  · exact h
  · exact h.setHalf _

theorem afterCluster (h : n.Leaves leading opens) (now : Nanos) :
    (n.afterCluster now).Leaves leading opens := by
  have hfold : ∀ (unsent : List (String × String)) (n : Node H), n.Leaves leading opens →
      (unsent.foldl (fun n u => n.onRan now u.1 u.2 .unreachable) n).Leaves leading opens := by
    intro unsent
    induction unsent with
    | nil => exact fun n h => h
    | cons u unsent ih => exact fun n h => ih _ (h.onRan now u.1 u.2 .unreachable)
  unfold Node.afterCluster
  exact hfold _ _ ⟨h.leading, h.opens, h.out⟩

theorem persistSnapshot (h : n.Leaves leading opens) (now : Nanos) :
    (n.persistSnapshot now).Leaves leading opens := by
  unfold Node.persistSnapshot
  by_cases hlive : n.live = true
  · simp only [hlive, Bool.not_true, Bool.false_eq_true, if_false]
    split
    · split_ifs
      · exact ⟨h.leading, h.opens, h.out⟩
      · exact h.setHalf _
    · exact h.setHalf _
    · exact h.setHalf _
  · simpa only [hlive, Bool.not_false, if_true] using h

end Leaves

/-! ### The calls of the election -/

theorem startLeading_leaves (n : Node H) (h : n.loop.el.out = []) :
    n.startLeading.Leaves n.loop.el.leading n.canOpen := by
  unfold startLeading canOpen opens
  cases hl : n.live || n.loading
  · by_cases hroom : n.state.length < stateQ
    · simp only [Bool.false_eq_true, if_false, hroom, if_true]
      exact ⟨rfl, by simp [opens], h⟩
    · simp only [Bool.false_eq_true, if_false, hroom]
      exact ⟨rfl, by simp [opens, hl], h⟩
  · simp only [if_true]
    exact ⟨rfl, by simp [opens, hl], h⟩

variable [NodeHalf H]

theorem requests_nil (now : Nanos) (k : ℕ) (n : Node H) : requests now k [] n = n := by
  cases k <;> simp [requests]

/-- Carrying out a single call whose follow-ups are `next`. -/
theorem requests_single (now : Nanos) (k : ℕ) (r : Request) (n : Node H) :
    requests now (k + 1) [r] n = requests now k (n.request now r).1 (n.request now r).2 := by
  simp [requests, requestEach]

/-- A win that is carried out. -/
theorem requests_startIf (now : Nanos) (k : ℕ) (won : Bool) (h : n.loop.el.out = []) :
    (requests now (k + 1) (startIf won) n).Leaves n.loop.el.leading
      (if won then n.canOpen else n.opens) := by
  cases won
  · simp only [startIf, Bool.false_eq_true, if_false, requests_nil]
    exact ⟨rfl, rfl, h⟩
  · simp only [startIf, if_true, requests_single, request, requests_nil]
    exact n.startLeading_leaves h

theorem electionReply_decides (n : Node H) (h : n.loop.el.out = []) (r : Request)
    (result : Except LinkError Unit) :
    (n.electionReply r result).1 =
        startIf (replyFails r result && n.loop.failureWins) ++ followUp r result ∧
      (n.electionReply r result).2.Leaves
        (n.loop.el.leading || (replyFails r result && n.loop.failureWins)) n.opens ∧
      (n.electionReply r result).2.canOpen = n.canOpen := by
  obtain ⟨hlead, hout⟩ := n.loop.onReplyInner_decides r result
  rw [h, List.nil_append] at hout
  exact ⟨hout, ⟨hlead, rfl, rfl⟩, rfl⟩

/-- Our own leader API never counts as a leader that failed. -/
theorem electionReply_own (n : Node H) (h : n.loop.el.out = []) {r : Request}
    (result : Except LinkError Unit) (hr : replyFails r result = false) :
    (n.electionReply r result).1 = followUp r result ∧
      (n.electionReply r result).2.Leaves n.loop.el.leading n.opens := by
  obtain ⟨hreqs, hleaves, -⟩ := n.electionReply_decides h r result
  simp only [hr, Bool.false_and, startIf, Bool.false_eq_true, if_false, List.nil_append,
    Bool.or_false] at hreqs hleaves
  exact ⟨hreqs, hleaves⟩

theorem requests_selfRegister (now : Nanos) (k : ℕ) (leader : String) (h : n.loop.el.out = []) :
    (requests now (k + 1) [.selfRegister leader] n).Leaves n.loop.el.leading n.opens := by
  have hreply : ∀ (m : Node H) (result : Except LinkError Unit), m.loop.el.out = [] →
      (requests now k (m.electionReply (.selfRegister leader) result).1
        (m.electionReply (.selfRegister leader) result).2).Leaves m.loop.el.leading m.opens := by
    intro m result hm
    obtain ⟨hreqs, hleaves⟩ := m.electionReply_own hm (r := .selfRegister leader)
      result rfl
    rw [hreqs, followUp, requests_nil]
    · exact hleaves
    · simp
  rw [requests_single]
  unfold request
  dsimp only
  by_cases hlive : n.live = true
  · rw [if_pos hlive]
    exact hreply (n.setHalf _) _ h
  · rw [if_neg hlive]
    exact hreply n _ h

theorem requests_followUp (now : Nanos) (k : ℕ) (r : Request) (result : Except LinkError Unit)
    (h : n.loop.el.out = []) :
    (requests now (k + 1) (followUp r result) n).Leaves n.loop.el.leading n.opens := by
  unfold followUp
  split
  · exact requests_selfRegister now k _ h
  · rw [requests_nil]
    exact ⟨rfl, rfl, h⟩

theorem requests_selfHeartbeat (now : Nanos) (k : ℕ) (leader : String) (h : n.loop.el.out = []) :
    (requests now (k + 2) [.selfHeartbeat leader] n).Leaves n.loop.el.leading n.opens := by
  have hreply : ∀ (m : Node H) (result : Except LinkError Unit), m.loop.el.out = [] →
      (requests now (k + 1) (m.electionReply (.selfHeartbeat leader) result).1
        (m.electionReply (.selfHeartbeat leader) result).2).Leaves m.loop.el.leading m.opens := by
    intro m result hm
    obtain ⟨hreqs, hleaves⟩ := m.electionReply_own hm (r := .selfHeartbeat leader)
      result rfl
    have := requests_followUp now k (.selfHeartbeat leader) result hleaves.out
    rw [hreqs]
    rwa [hleaves.leading, hleaves.opens] at this
  rw [requests_single]
  unfold request
  dsimp only
  by_cases hlive : n.live = true
  · rw [if_pos hlive]
    exact hreply (n.setHalf _) _ h
  · rw [if_neg hlive]
    exact hreply n _ h

/-- A call at another leader waits in the queue, or fails at once if the queue is full. -/
theorem requests_linkCall (now : Nanos) (k : ℕ) {r : Request} {leader : String}
    (h : n.loop.el.out = []) (hr : r = .heartbeat leader ∨ r = .register leader) :
    let won := decide (linkQ ≤ n.link.length) && n.loop.failureWins
    (requests now (k + 2) [r] n).Leaves (n.loop.el.leading || won)
      (if won then n.canOpen else n.opens) := by
  intro won
  have hsend : ∀ url body, (requests now (k + 1) (n.sendLink (.election r url body)).1
      (n.sendLink (.election r url body)).2).Leaves (n.loop.el.leading || won)
        (if won then n.canOpen else n.opens) := by
    intro url body
    unfold sendLink
    by_cases hroom : n.link.length < linkQ
    · have hwon : won = false := by simp [won, hroom]
      rw [if_pos hroom, requests_nil, hwon]
      exact ⟨by simp, by simp [opens], h⟩
    · have hfails : replyFails r (.error .failed) = true := by
        rcases hr with rfl | rfl <;> rfl
      have hnext : followUp r (.error .failed) = [] := by
        rcases hr with rfl | rfl <;> rfl
      have hwon : won = n.loop.failureWins := by simp [won, not_lt.mp hroom]
      obtain ⟨hreqs, hleaves, hcan⟩ := n.electionReply_decides h r (.error .failed)
      rw [if_neg hroom, hwon]
      rw [hfails, hnext, Bool.true_and, List.append_nil] at hreqs
      rw [hfails, Bool.true_and] at hleaves
      have := requests_startIf now k n.loop.failureWins hleaves.out
      rw [hleaves.leading, hleaves.opens, hcan] at this
      simpa only [hreqs] using this
  rw [requests_single]
  rcases hr with rfl | rfl
  · exact hsend _ _
  · exact hsend _ _

/-! ### Runs of the node -/

/-- What can happen to a node. -/
inductive Event (H : Type)
  /-- The wall clock moves on to `t`. -/
  | wallClock (t : ℕ)
  | boot (now : Nanos)
  | tick (now : Nanos)
  | mail (mail : Mail) (now : Nanos)
  /-- A task takes the oldest order out of its queue. -/
  | leaseTaken
  | linkTaken
  | stateTaken
  /-- A task event goes to the leader on another node. -/
  | notify (job event : String)
  /-- Whatever else the node does to its agent and its leader half. -/
  | work (half : H)

def step (n : Node H) : Event H → Option (Node H)
  | .wallClock t =>
    if n.loop.disc.clock ≤ t ∧ t ≤ u64Max then
      some { n with loop := { n.loop with disc := { n.loop.disc with clock := t } } }
    else none
  | .boot now => some (n.clusterBoot now)
  | .tick now => some (n.clusterTick now)
  | .mail m now => some (n.onMail m now)
  | .leaseTaken =>
    match n.loop.disc.ops.sent with
    | [] => none
    | _ :: rest => some { n with loop := { n.loop with
        disc := { n.loop.disc with ops := ⟨rest, n.loop.disc.ops.room + 1⟩ } } }
  | .linkTaken => if n.link = [] then none else some { n with link := n.link.tail }
  | .stateTaken => if n.state = [] then none else some { n with state := n.state.tail }
  | .notify job event => some (n.notifyLeader job event)
  | .work half => some (n.setHalf half)

/-- The event asks for a claim that was won: a tick or an answer that counts as the failure of
the leader, or the boot claim that hit. -/
def claims (n : Node H) : Event H → Bool
  | .tick now => decide (n.nextElection ≤ now) && (n.loop.failureWins &&
      (decide (n.loop.tickLeader = "") || decide (linkQ ≤ n.link.length)))
  | .mail (.link req result) _ => replyFails req result && n.loop.failureWins
  | .mail (.lease (.claimed true)) _ => n.bootClaim
  | _ => false

/-- The event makes a node the leader that was none. -/
def wins (n : Node H) (e : Event H) : Bool := !n.loop.el.leading && n.claims e

/-- The invariant of a run: no request waits, and the property. -/
def Steady (n : Node H) : Prop := n.loop.el.out = [] ∧ n.Opening

/-- Only a node that leads has its leader half open or opening. -/
def Sober (n : Node H) : Prop := n.opens = true → n.loop.el.leading = true

/-- What a step does to the election and the leader half: only a claim that was won makes a node
the leader, and then the leader half is open or opening if it could be. -/
structure Goes (n n' : Node H) (claims : Bool) : Prop where
  out : n'.loop.el.out = []
  leads : n'.loop.el.leading = true → n.loop.el.leading = true ∨ claims = true
  win : n.loop.el.leading = false → claims = true →
    n'.loop.el.leading = true ∧ n'.opens = n.canOpen
  /-- A leader half that is open or opening stays so as long as the node leads. -/
  opens : n.opens = true → n'.loop.el.leading = true → n'.opens = true
  sober : n.Sober → n'.Sober

omit [NodeHalf H] in
/-- A step that claims, or else touches neither the election nor the leader half. -/
theorem Leaves.goes {n' : Node H} {claims : Bool}
    (hl : n'.Leaves (n.loop.el.leading || claims) (if claims then n.canOpen else n.opens)) :
    Goes n n' claims where
  out := hl.out
  leads h := by
    rw [hl.leading] at h
    simpa using h
  win _ hc := by
    subst hc
    exact ⟨by simpa using hl.leading, hl.opens⟩
  opens h _ := by
    rw [hl.opens]
    cases claims
    · exact h
    · simp [canOpen, h]
  sober h ho := by
    rw [hl.leading]
    cases claims
    · rw [hl.opens] at ho
      simpa using h ho
    · simp

omit [NodeHalf H] in
/-- A step that touches neither the election nor the leader half. -/
theorem Leaves.idle {n' : Node H} (hl : n'.Leaves n.loop.el.leading n.opens) : Goes n n' false :=
  Leaves.goes (by simpa using hl)

omit [NodeHalf H] in
/-- A leader that goes on, with its leader half open or opening as it was. -/
theorem Leaves.same {n' : Node H} (hn : n.loop.el.leading = true) (claims : Bool)
    (hl : n'.Leaves true n.opens) : Goes n n' claims where
  out := hl.out
  leads _ := .inl hn
  win h _ := by simp [hn] at h
  opens h _ := hl.opens.trans h
  sober _ _ := hl.leading

omit [NodeHalf H] in
/-- A leader that steps down. -/
theorem Leaves.down {n' : Node H} (hn : n.loop.el.leading = true) (claims : Bool)
    (hl : n'.Leaves false false) : Goes n n' claims where
  out := hl.out
  leads h := by simp [hl.leading] at h
  win h _ := by simp [hn] at h
  opens _ h := by simp [hl.leading] at h
  sober _ h := by simp [hl.opens] at h

/-- The requests of an answer: a win, or a follow-up. -/
theorem requests_answer (now : Nanos) (k : ℕ) {m : Node H} {won : Bool} {r : Request}
    {result : Except LinkError Unit} (hm : m.Leaves (n.loop.el.leading || won) n.opens)
    (hcan : m.canOpen = n.canOpen) (hnext : won = true → followUp r result = []) :
    (requests now (k + 1) (startIf won ++ followUp r result) m).Leaves
      (n.loop.el.leading || won) (if won then n.canOpen else n.opens) := by
  cases won
  · have := requests_followUp now k r result hm.out
    rwa [hm.leading, hm.opens] at this
  · have := requests_startIf now k true hm.out
    rw [hm.leading, hcan] at this
    rwa [hnext rfl, List.append_nil]

theorem goes_link (h : n.loop.el.out = []) (req : Request) (result : Except LinkError Unit)
    (now : Nanos) :
    Goes n (n.onMail (.link req result) now) (n.claims (.mail (.link req result) now)) := by
  obtain ⟨hreqs, hleaves, hcan⟩ := n.electionReply_decides h req result
  refine Leaves.goes (Leaves.afterCluster ?_ now)
  simp only [claims]
  rw [hreqs]
  refine requests_answer now 3 hleaves hcan fun hw => ?_
  have hfails : replyFails req result = true := (Bool.and_eq_true_iff.mp hw).1
  unfold replyFails at hfails
  split at hfails <;> simp_all [followUp]

theorem onReply_claimed {O : Type} (e : Elector O) : (e.onReply (.claimed true)).claimed = true :=
  rfl

/-- An answer of the lease task: only the boot claim that hit makes the node leader. -/
theorem goes_lease (h : n.loop.el.out = []) (r : LeaseReply) (now : Nanos) :
    Goes n (n.onMail (.lease r) now) (n.claims (.mail (.lease r) now)) := by
  have hidle : ∀ d b, ({ n with loop := { n.loop with disc := d }, bootClaim := b } :
      Node H).Leaves n.loop.el.leading n.opens := fun _ _ => ⟨rfl, rfl, h⟩
  by_cases hr : r = .claimed true
  · subst hr
    cases hb : n.bootClaim
    · have hclaims : n.claims (.mail (.lease (.claimed true)) now) = false := by simp [claims, hb]
      rw [hclaims]
      refine Leaves.idle (Leaves.afterCluster ?_ now)
      simpa [onLease, hb] using hidle _ _
    · have hclaims : n.claims (.mail (.lease (.claimed true)) now) = true := by simp [claims, hb]
      obtain ⟨hlead, hreqs⟩ := (⟨n.loop.el, n.loop.disc.onReply (.claimed true), n.loop.agent⟩ :
        Loop (Elector Agent.LeaseQueue) H).becomeLeaderNow_decides
      simp only [h, onReply_claimed, Bool.or_true, Bool.and_true, List.nil_append]
        at hlead hreqs
      have hleaves : (n.onLease now (.claimed true)).Leaves true
          (if !n.loop.el.leading then n.canOpen else n.opens) := by
        simp only [onLease, hb, Bool.and_true, if_true]
        rw [hreqs]
        exact (requests_startIf now 3 _ rfl).congr hlead rfl
      rw [hclaims]
      cases hl : n.loop.el.leading
      · refine Leaves.goes (Leaves.afterCluster ?_ now)
        simpa [hl] using hleaves
      · refine Leaves.same hl true (Leaves.afterCluster ?_ now)
        simpa [hl] using hleaves
  · have hclaims : n.claims (.mail (.lease r) now) = false := by
      unfold claims
      split <;> simp_all
    rw [hclaims]
    refine Leaves.idle (Leaves.afterCluster ?_ now)
    unfold onLease
    simp only [hr, if_false]
    split_ifs
    · exact hidle _ _
    · exact hidle _ _

/-- Stepping down closes the leader half. -/
theorem requests_stopLeader (now : Nanos) (k : ℕ) (h : n.loop.el.out = []) :
    (requests now (k + 1) [.stopLeader] n).Leaves n.loop.el.leading false := by
  rw [requests_single, request, requests_nil]
  exact ⟨rfl, rfl, h⟩

/-- The committed state comes: the leader half opens, or the node steps down. -/
theorem goes_loaded (h : n.loop.el.out = []) (got : Except String (Option Bytes)) (now : Nanos) :
    Goes n (n.onMail (.loaded got) now) (n.claims (.mail (.loaded got) now)) := by
  change Goes n ((n.finishLeading now got).afterCluster now) false
  unfold finishLeading
  by_cases hloading : n.loading = true
  · simp only [hloading, Bool.not_true, Bool.false_eq_true, if_false]
    cases hlead : n.loop.el.leading
    · simp only [Bool.not_false, if_true]
      have hl : ({ n with loading := false } : Node H).Leaves false n.live :=
        ⟨hlead, by simp [opens], h⟩
      have hl := hl.afterCluster now
      refine ⟨hl.out, fun hc => ?_, fun _ hc => by simp at hc, fun _ hc => ?_, fun hs _ => ?_⟩
      · simp [hl.leading] at hc
      · simp [hl.leading] at hc
      · have := hs (by simp [opens, hloading])
        simp [hlead] at this
    · simp only [Bool.not_true, Bool.false_eq_true, if_false]
      split
      · rename_i why half _
        obtain ⟨hdown, hout⟩ := Loop.stepDownInner_decides { n.loop with agent := half } true
        simp only [h, hlead, if_true, List.nil_append] at hout
        refine Leaves.down hlead false (Leaves.afterCluster ?_ now)
        have hreqs : (({ n with loading := false }.setHalf half).loop.stepDown true).1 =
          [.stopLeader] := hout
        simp only [hreqs]
        exact (requests_stopLeader now 3 rfl).congr hdown rfl
      · rename_i loaded half _
        have hopens : n.opens = true := by simp [opens, hloading]
        refine Leaves.same hlead false (Leaves.afterCluster ?_ now)
        rw [hopens]
        split
        · exact ⟨hlead, rfl, h⟩
        · exact ⟨hlead, rfl, h⟩
  · refine Leaves.idle (Leaves.afterCluster ?_ now)
    simpa only [hloading, Bool.not_false, if_true] using ⟨rfl, rfl, h⟩

/-! ### The tick -/

/-- The part of a tick that the election has, if it is due. -/
theorem leaves_election (h : n.loop.el.out = []) (now : Nanos) (connected : ℕ) :
    let claims := n.loop.failureWins &&
      (decide (n.loop.tickLeader = "") || decide (linkQ ≤ n.link.length))
    let n' := requests now linkRounds (n.loop.tick connected).1
      { n with loop := (n.loop.tick connected).2 }
    (n.loop.el.leading = true ∧ (n'.Leaves false false ∨ n'.Leaves true n.opens)) ∨
      (n.loop.el.leading = false ∧ n'.Leaves claims (if claims then n.canOpen else n.opens)) := by
  intro claims n'
  have htick : ∀ rs, (n.loop.tickInner connected).el.out = n.loop.el.out ++ rs →
      n' = requests now 4 rs { n with loop := (n.loop.tick connected).2 } := by
    intro rs hout
    have hreqs : (n.loop.tick connected).1 = rs := by
      rw [h, List.nil_append] at hout
      exact hout
    simp only [n', hreqs]
    rfl
  cases hl : n.loop.el.leading
  · refine Or.inr ⟨rfl, ?_⟩
    by_cases hk : n.loop.tickLeader = ""
    · obtain ⟨hlead, hout⟩ := n.loop.tickInner_lost connected hl hk
      have hclaims : claims = n.loop.failureWins := by simp [claims, hk]
      rw [htick _ hout, hclaims]
      exact (requests_startIf now 3 n.loop.failureWins rfl).congr hlead rfl
    · obtain ⟨⟨hlead, hout⟩, hwins⟩ := n.loop.tickInner_linked connected hl hk
      have hcall : n.loop.linkCall n.loop.tickLeader = .heartbeat n.loop.tickLeader ∨
          n.loop.linkCall n.loop.tickLeader = .register n.loop.tickLeader := by
        unfold Loop.linkCall
        split_ifs
        · exact Or.inl rfl
        · exact Or.inr rfl
      have hclaims : (decide (linkQ ≤ n.link.length) && (n.loop.tick connected).2.failureWins) =
          claims := by
        have : (n.loop.tick connected).2.failureWins = n.loop.failureWins := hwins
        simp [claims, hk, this, Bool.and_comm]
      have hrun := requests_linkCall now 2 (n := { n with loop := (n.loop.tick connected).2 })
        rfl hcall
      rw [htick _ hout]
      refine hrun.congr ?_ ?_
      · rw [hclaims]
        simp only [show (n.loop.tick connected).2.el.leading = false from hlead, Bool.false_or]
      · rw [hclaims]
        rfl
  · refine Or.inl ⟨rfl, ?_⟩
    rcases n.loop.tickInner_leading connected hl with ⟨hlead, hout⟩ | ⟨hlead, hout⟩
    · rw [htick _ hout]
      exact .inl ((requests_stopLeader now 3 rfl).congr hlead rfl)
    · rw [htick _ hout]
      exact .inr ((requests_selfHeartbeat now 2 _ rfl).congr hlead rfl)

/-- The cadence of the lease touches neither the won claim nor the cached leader. -/
theorem tick_answer (e : Elector Agent.LeaseQueue) (now : ℕ) :
    (e.tick now).answer = e.answer ∧ (e.tick now).claimed = e.claimed := by
  unfold Elector.tick
  split_ifs <;> exact ⟨rfl, rfl⟩

theorem goes_tick (h : n.loop.el.out = []) (now : Nanos) :
    Goes n (n.clusterTick now) (n.claims (.tick now)) := by
  obtain ⟨hanswer, hclaimed⟩ := tick_answer n.loop.disc n.loop.disc.clock
  set m : Node H := { n with
    loop := { n.loop with disc := n.loop.disc.tick n.loop.disc.clock }
    nextElection := satAdd u64Max now electionTick } with hm
  have hwins : m.loop.failureWins = n.loop.failureWins := by
    simp only [Loop.failureWins, hm, hclaimed]
  have hleader : m.loop.tickLeader = n.loop.tickLeader := by
    simp only [Loop.tickLeader, hm, hanswer]
  unfold clusterTick
  dsimp only
  by_cases hdue : n.nextElection ≤ now
  · rw [if_pos hdue]
    rcases leaves_election (n := m) h now (if m.live then NodeHalf.agents m.loop.agent else 0) with
      ⟨hl, hleaves | hleaves⟩ | ⟨hl, hleaves⟩
    · refine Leaves.down (show n.loop.el.leading = true from hl) _ ?_
      exact (hleaves.persistSnapshot now).afterCluster now
    · refine Leaves.same (show n.loop.el.leading = true from hl) _ ?_
      exact (hleaves.persistSnapshot now).afterCluster now
    · have hclaims : n.claims (.tick now) = (m.loop.failureWins &&
          (decide (m.loop.tickLeader = "") || decide (linkQ ≤ m.link.length))) := by
        rw [hwins, hleader]
        simp [claims, hdue, show m.link = n.link from rfl]
      refine Leaves.goes ?_
      rw [hclaims, show n.loop.el.leading = false from hl, Bool.false_or]
      exact (hleaves.persistSnapshot now).afterCluster now
  · rw [if_neg hdue]
    have hclaims : n.claims (.tick now) = false := by simp [claims, hdue]
    have hleaves : ({ n with loop := { n.loop with disc := n.loop.disc.tick n.loop.disc.clock } } :
      Node H).Leaves n.loop.el.leading n.opens := ⟨rfl, rfl, h⟩
    rw [hclaims]
    exact Leaves.idle ((hleaves.persistSnapshot now).afterCluster now)

theorem goes_step {n' : Node H} (h : n.loop.el.out = []) {e : Event H} (hstep : n.step e = some n')
    : Goes n n' (n.claims e) := by
  have hleaves : n.Leaves n.loop.el.leading n.opens := ⟨rfl, rfl, h⟩
  cases e with
  | wallClock t =>
    simp only [step] at hstep
    split_ifs at hstep
    cases hstep
    exact Leaves.idle ⟨rfl, rfl, h⟩
  | boot now =>
    cases hstep
    refine Leaves.idle ?_
    unfold clusterBoot
    dsimp only
    refine Leaves.afterCluster ?_ now
    exact ⟨rfl, rfl, h⟩
  | tick now =>
    cases hstep
    exact goes_tick h now
  | mail m now =>
    cases hstep
    cases m with
    | lease r => exact goes_lease h r now
    | note line => exact Leaves.idle (hleaves.afterCluster now)
    | link req result => exact goes_link h req result now
    | loaded got => exact goes_loaded h got now
    | saveFailed why =>
      refine Leaves.idle (Leaves.afterCluster ?_ now)
      unfold onSaveFailed
      split_ifs
      · exact hleaves.setHalf _
      · exact hleaves
    | ran agent job reply =>
      exact Leaves.idle ((hleaves.onRan now agent job reply).afterCluster now)
    | tasks agent tasks => exact Leaves.idle ((hleaves.setHalf _).afterCluster now)
  | leaseTaken =>
    simp only [step] at hstep
    split at hstep
    · cases hstep
    · cases hstep
      exact Leaves.idle ⟨rfl, rfl, h⟩
  | linkTaken =>
    simp only [step] at hstep
    split_ifs at hstep
    cases hstep
    exact Leaves.idle ⟨rfl, rfl, h⟩
  | stateTaken =>
    simp only [step] at hstep
    split_ifs at hstep
    cases hstep
    exact Leaves.idle ⟨rfl, rfl, h⟩
  | notify job event =>
    cases hstep
    refine Leaves.idle ?_
    unfold notifyLeader sendLink
    dsimp only
    split_ifs
    · exact hleaves
    · exact ⟨rfl, rfl, h⟩
    · exact hleaves
  | work half =>
    cases hstep
    exact Leaves.idle (hleaves.setHalf half)

end Node

/-- The clustered node, as a machine. -/
def clusterMachine (H : Type) [NodeHalf H] : Machine (Node H) (Node.Event H) where
  Init n := ∃ ip port wallMs ttlMs initJobs nodeDead now half,
    n = Node.newClustered ip port wallMs ttlMs initJobs nodeDead now half
  step := Node.step

/-- **A node that leads opens its leader half, exactly if the order to load fits**: in a run of a
clustered node, a node that leads is always open or opening if and only if at each win the leader
half is open or opening already, or the queue of the state task has room. -/
theorem opening_always_iff {H : Type} [NodeHalf H] (n : Node H) (es : List (Node.Event H))
    (h : (clusterMachine H).Init n) :
    (clusterMachine H).Always Node.Opening n es ↔
      (clusterMachine H).Along (fun n e => n.wins e = true → n.canOpen = true) n es := by
  obtain ⟨ip, port, wallMs, ttlMs, initJobs, nodeDead, now, half, rfl⟩ := h
  refine Machine.always_iff_along (K := Node.Steady) (fun n h => h.2) ?_ ?_ ⟨rfl, ?_⟩
  · intro n e n' hn hstep hok
    have hgoes := Node.goes_step hn.1 hstep
    refine ⟨hgoes.out, fun hlead => ?_⟩
    cases hl : n.loop.el.leading
    · have hclaims := (hgoes.leads hlead).resolve_left (by simp [hl])
      exact (hgoes.win hl hclaims).2.trans (hok (by simp [Node.wins, hl, hclaims]))
    · exact hgoes.opens (hn.2 hl) hlead
  · intro n e n' hn hstep hP hw
    obtain ⟨hl, hclaims⟩ : n.loop.el.leading = false ∧ n.claims e = true := by
      simpa [Node.wins] using hw
    obtain ⟨hlead, hopens⟩ := (Node.goes_step hn.1 hstep).win hl hclaims
    rw [← hopens]
    exact hP hlead
  · intro hlead
    cases hlead

/-- A node whose leader half only knows whether there is something to save. -/
structure BareHalf where
  addr : String
  dirty : Bool
deriving DecidableEq

instance : NodeHalf BareHalf where
  setLeaderAddr h addr := { h with addr := addr }
  setLeaseExpiresAt h _ := h
  stopAll h := h
  leaderAddr h := h.addr
  registerBody _ := ""
  heartbeatBody _ := ""
  notifyBody _ _ _ := ""
  agents _ := 1
  heartbeat h _ := (true, h)
  registerOwn h _ := (true, h)
  openLeader h _ _ got := (got.map Option.isSome, h)
  seedClusterJobs h _ _ := h
  closeLeader h := { h with dirty := false }
  pollSnapshot h _ := (.ok (if h.dirty then some [] else none), { h with dirty := false })
  snapshotFailed h := { h with dirty := true }
  refused h _ _ _ _ _ := h
  onTasks h _ _ := h
  flush h := ([], h)

/-- A node at boot with a lease of 30 s. -/
def bareNode : Node BareHalf :=
  .newClustered "10.0.0.1" 8080 0 30000 none (30 * second) 0 ⟨"", false⟩

/-- The boot claim hits, and the committed state is read: the leader half opens. -/
def bootRun : List (Node.Event BareHalf) :=
  [.boot 0, .leaseTaken, .mail (.lease (.claimed true)) second, .stateTaken,
    .mail (.loaded (.ok none)) second]

theorem bareNode_init : (clusterMachine BareHalf).Init bareNode :=
  ⟨_, _, _, _, _, _, _, _, rfl⟩

theorem opening_boot : (clusterMachine BareHalf).Always Node.Opening bareNode bootRun := by
  refine (opening_always_iff bareNode bootRun bareNode_init).mpr ?_
  intro n₁ h₁
  cases h₁
  refine ⟨by decide, fun n₂ h₂ => ?_⟩
  cases h₂
  refine ⟨by decide, fun n₃ h₃ => ?_⟩
  cases h₃
  refine ⟨by decide, fun n₄ h₄ => ?_⟩
  cases h₄
  refine ⟨by decide, fun n₅ h₅ => ?_⟩
  cases h₅
  exact ⟨by decide, trivial⟩

/-- A tick at `t` seconds. -/
def tickAt (t : ℕ) : List (Node.Event BareHalf) := [.wallClock (1000 * t), .tick (t * second)]

/-- The leader changes its state, and the snapshot is queued at `t` seconds. -/
def saveAt (t : ℕ) : List (Node.Event BareHalf) := .work ⟨"", true⟩ :: tickAt t

/-- The node leads, and four snapshots wait for the state task. Another node takes the lease and
lets it go, and this node wins it again: the order to load finds the queue full. -/
def closedRun : List (Node.Event BareHalf) :=
  bootRun ++ saveAt 2 ++ saveAt 3 ++ saveAt 4 ++ saveAt 5 ++
    tickAt 10 ++ [.leaseTaken, .mail (.lease (.renewed false true)) (11 * second)] ++
    tickAt 20 ++ tickAt 30 ++ [.leaseTaken, .mail (.lease (.read none true)) (31 * second)] ++
    tickAt 40 ++ tickAt 50 ++ tickAt 60 ++
    [.leaseTaken, .mail (.lease (.read none true)) (61 * second), .leaseTaken,
      .mail (.lease (.claimed true)) (61 * second)] ++ tickAt 70

/-- The node leads and renews its lease, and its leader half is closed and not opening. -/
theorem opening_queue_full :
    (clusterMachine BareHalf).Init bareNode ∧
      ((clusterMachine BareHalf).run bareNode closedRun).map (fun n =>
          (n.loop.el.leading, n.loop.disc.holding, n.live, n.loading)) =
        some (true, true, false, false) ∧
      ¬ (clusterMachine BareHalf).Always Node.Opening bareNode closedRun := by
  have hrun : ((clusterMachine BareHalf).run bareNode closedRun).map (fun n =>
      (n.loop.el.leading, n.loop.disc.holding, n.live, n.loading)) =
        some (true, true, false, false) := by decide
  refine ⟨bareNode_init, hrun, fun h => ?_⟩
  obtain ⟨n, hn, heq⟩ := Option.map_eq_some_iff.mp hrun
  obtain ⟨hlead, -, hlive, hloading⟩ : n.loop.el.leading = true ∧ n.loop.disc.holding = true ∧
      n.live = false ∧ n.loading = false := by simpa using heq
  have hopens := h.last hn hlead
  simp [Node.opens, hlive, hloading] at hopens

end Hop.HopOS
