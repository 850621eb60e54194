import Hop.Lib.Machine
import Hop.Lease.Discovery

/-!
# Mutual exclusion at the electors

Any number of nodes, each an elector with its own lease thread, on one lease store that is a
compare-and-swap register, and on one wall clock. An order waits in the queue of its node,
then runs call by call, and its reply waits until the elector processes it; all of that at any
pace. The store may also fail to answer a call, with or without having carried it out, and it
never hands out a handle twice.

The store's expiry is counted from the clock value at which the lease thread took the order,
the elector's own timer from the one at which the elector processes the reply. So the timer
may outlive the record, and then two nodes lead at the same clock value
(`two_leaders_after_late_reply`). Where every reply that grants the lease is processed while
the record still covers the timer it sets, no two nodes ever do (`exclusive_of_covered`).
-/

namespace Hop.Lease

open Machine (along_cons)
open Hop.Agent (Elector LeaseOp LeaseOps LeaseReply LeaseQueue)

variable {before : String}

variable {handle : String} {state : LeaseState} {renew : Bool}

/-- A node: its elector (with the queue of orders), its lease thread, and the replies that
wait for the elector. -/
structure LeaseNode where
  elector : Elector LeaseQueue
  disc : Discovery
  /-- The backend call of the order in progress. -/
  phase : Option Phase
  replies : List LeaseReply
deriving DecidableEq

/-- What the nodes share: the clock and the store. -/
structure Shared where
  clock : ℕ
  record : Option (LeaseState × String)
  /-- The handles that the store has handed out. -/
  issued : List String
deriving DecidableEq

/-- The nodes on one store and one clock. -/
structure Nodes (ι : Type) where
  shared : Shared
  node : ι → LeaseNode

/-- A question to the elector, or its own tick. -/
inductive Question
  | tick (now : ℕ)
  | getLeader
  | tryBecomeLeader
  | renewLease
  | releaseLeadership
  | invalidate
deriving DecidableEq

/-- What becomes of a backend call. -/
inductive Outcome
  /-- It is carried out and answered; `fresh` is the handle of a new record. -/
  | answered (fresh : String)
  /-- It is carried out, but the answer is lost. -/
  | unanswered (fresh : String)
  /-- It is neither carried out nor answered. -/
  | lost
deriving DecidableEq

inductive Event (ι : Type)
  /-- The wall clock moves on to `t`. -/
  | clock (t : ℕ)
  | ask (i : ι) (q : Question) (room : ℕ)
  /-- The lease thread takes the oldest order. -/
  | recv (i : ι)
  /-- The backend call of the order in progress. -/
  | call (i : ι) (o : Outcome)
  /-- The elector processes the oldest reply. -/
  | reply (i : ι)

namespace LeaseNode

/-- The elector carries out a question, with room for `room` more orders. -/
def ask (n : LeaseNode) (q : Question) (room : ℕ) : LeaseNode :=
  let e := { n.elector with ops := { n.elector.ops with room := room } }
  { n with
    elector := match q with
      | .tick now => e.tick now
      | .getLeader => e.getLeader.2
      | .tryBecomeLeader => e.tryBecomeLeader.2
      | .renewLease => e.renewLease.2
      | .releaseLeadership => e.releaseLeadership
      | .invalidate => e.invalidate }

/-- The lease thread takes the oldest order, if it has none in progress. -/
def recv (n : LeaseNode) : Option LeaseNode :=
  match n.phase, n.elector.ops.sent with
  | none, op :: rest =>
    let (phase, disc) := Phase.start n.disc n.elector.clock op
    some { n with
      elector := { n.elector with ops := { n.elector.ops with sent := rest } }
      disc := disc
      phase := phase }
  | _, _ => none

/-- The order in progress is done. -/
def done (n : LeaseNode) (disc : Discovery) (r : LeaseReply) : LeaseNode :=
  { n with disc := disc, phase := none, replies := n.replies ++ [r] }

/-- The elector processes the oldest reply. -/
def reply (n : LeaseNode) : Option LeaseNode :=
  match n.replies with
  | r :: rest => some { n with elector := n.elector.onReply r, replies := rest }
  | [] => none

/-- The node answers its election that the lease is renewed. -/
def Renewed (n : LeaseNode) : Prop := n.elector.renewLease.1.1 = true

/-- The reply grants the lease, so the elector sets its timer. -/
def Grants (n : LeaseNode) (r : LeaseReply) : Prop :=
  r = .claimed true ∨ ∃ d, r = .renewed true d ∧ n.elector.holding = true

end LeaseNode

namespace Shared

/-- What a read brings. -/
def readResult (w : Shared) : Outcome → ReadResult
  | .answered _ => match w.record with
    | some r => .ok r
    | none => .error .noLease
  | _ => .error .unreachable

/-- The present handle is `before`; an empty one means that there is no record. -/
def fits (w : Shared) (before : String) : Bool :=
  match w.record with
  | none => before = ""
  | some (_, h) => h = before

/-- A handle that a write may get. -/
def fresh (w : Shared) (h : String) : Bool := h ≠ "" ∧ h ∉ w.issued

/-- The record becomes `state` with handle `h`. -/
def store (w : Shared) (state : LeaseState) (h : String) : Shared :=
  { w with record := some (state, h), issued := h :: w.issued }

/-- The answer to a conditional write. -/
def writeAnswer (w : Shared) (before : String) : Outcome → Except Error String
  | .answered h => if w.fits before then .ok h else .error .leaseHeld
  | _ => .error .unreachable

/-- A delete on the condition `handle`. -/
def delete (w : Shared) (handle : String) : Outcome → Shared
  | .lost => w
  | _ => if w.record.any (fun r => r.2 = handle) then { w with record := none } else w

end Shared

namespace Nodes

variable {ι : Type} [DecidableEq ι]

def put (s : Nodes ι) (i : ι) (n : LeaseNode) : Nodes ι :=
  { s with node := Function.update s.node i n }

/-- A conditional write of node `i`: the report to its elector, and the new record if the
store carries the write out. -/
def write (s : Nodes ι) (i : ι) (renew : Bool) (before : String) (state : LeaseState)
    (o : Outcome) : Option (Nodes ι) :=
  let (r, disc) := (s.node i).disc.onWrite state (s.shared.writeAnswer before o)
  let s' := s.put i ((s.node i).done disc (Phase.report renew r))
  match o with
  | .lost => some s'
  | .answered h | .unanswered h =>
    if s.shared.fits before then
      if s.shared.fresh h then some { s' with shared := s.shared.store state h } else none
    else some s'

/-- The backend call of the order in progress at node `i`. -/
def call (s : Nodes ι) (i : ι) (o : Outcome) : Option (Nodes ι) :=
  let n := s.node i
  match n.phase with
  | none => none
  | some (.reading now) =>
    let (leader, ok) := leaderOf (s.shared.readResult o) now
    some (s.put i (n.done n.disc (.read leader ok)))
  | some (.claiming renew now) =>
    match n.disc.planClaim (s.shared.readResult o) now with
    | .write before state => some (s.put i { n with phase := some (.writing renew before state) })
    | .fail e => some (s.put i (n.done n.disc (Phase.report renew (.error e))))
  | some (.writing renew before state) => s.write i renew before state o
  | some (.deleting handle) =>
    some { s.put i { n with phase := none } with shared := s.shared.delete handle o }

def step (s : Nodes ι) : Event ι → Option (Nodes ι)
  | .clock t =>
    if s.shared.clock ≤ t ∧ t ≤ u64Max then
      some {
        shared := { s.shared with clock := t }
        node := fun i => { s.node i with elector := { (s.node i).elector with clock := t } } }
    else none
  | .ask i q room => some (s.put i ((s.node i).ask q room))
  | .recv i => (s.node i).recv.map (s.put i)
  | .call i o => s.call i o
  | .reply i => (s.node i).reply.map (s.put i)

/-- Nodes at `owner i` that hold nothing yet, on an empty store. -/
def start (owner : ι → String) (now ttlMs : ℕ) : Nodes ι where
  shared := ⟨now, none, []⟩
  node i :=
    { elector := Elector.new ⟨[], 0⟩ now ttlMs false
      disc := Discovery.new (owner i) ttlMs
      phase := none
      replies := [] }

end Nodes

/-- The nodes on one store, as a machine. -/
def leaseMachine (ι : Type) [DecidableEq ι] : Machine (Nodes ι) (Event ι) where
  Init s := ∃ owner now ttlMs, Function.Injective owner ∧ now ≤ u64Max ∧
    s = Nodes.start owner now ttlMs
  step := Nodes.step

/-! ### The invariant -/

/-- The record is that of `owner` and runs until `t` at least. -/
def Shared.Covers (w : Shared) (owner : String) (t : ℕ) : Prop :=
  ∃ st h, w.record = some (st, h) ∧ st.owner = owner ∧ t ≤ st.expiresAt

/-- What an order in progress may count on: as long as the record has the handle it saw, the
record is its own and not younger than the order, or it has expired. -/
def PhaseInv (w : Shared) (ttl : ℕ) (owner : String) : Option Phase → Prop
  | none | some (.reading _) => True
  | some (.claiming _ now) => now ≤ w.clock ∧
      ∀ st h, w.record = some (st, h) → st.owner = owner → st.expiresAt ≤ satAdd u64Max now ttl
  | some (.writing _ before state) =>
      state.owner = owner ∧ state.expiresAt ≤ satAdd u64Max w.clock ttl ∧
      (before = "" ∨ before ∈ w.issued) ∧
      ∀ st h, w.record = some (st, h) → h = before →
        (st.owner = owner ∧ st.expiresAt ≤ state.expiresAt) ∨ st.expiresAt < w.clock
  | some (.deleting handle) => handle ∈ w.issued ∧
      ∀ st h, w.record = some (st, h) → h = handle → st.owner = owner

/-- A release waits in the queue of the node, or runs. -/
def LeaseNode.Releasing (n : LeaseNode) : Prop :=
  LeaseOp.release ∈ n.elector.ops.sent ∨ ∃ h, n.phase = some (.deleting h)

/-- The invariant of one node at `owner`. -/
structure NodeInv (w : Shared) (ttl : ℕ) (owner : String) (n : LeaseNode) : Prop where
  ttlElector : n.elector.ttlMs = ttl
  ttlDisc : n.disc.ttlMs = ttl
  ownerDisc : n.disc.owner = owner
  clock : n.elector.clock = w.clock
  handle : n.disc.handle = "" ∨ n.disc.handle ∈ w.issued
  own : ∀ st h, w.record = some (st, h) → n.disc.handle = h → st.owner = owner
  phase : PhaseInv w ttl owner n.phase
  keeps : n.elector.holding = true → ¬ n.Releasing
  /-- The timer of the elector does not outlive the record. -/
  timer : n.elector.holding = true → w.clock < n.elector.expiresAt →
    w.Covers owner n.elector.expiresAt

/-- What holds of the record. -/
def RecordInv (w : Shared) (ttl : ℕ) : Prop :=
  ∀ st h, w.record = some (st, h) →
    h ∈ w.issued ∧ h ≠ "" ∧ st.expiresAt ≤ satAdd u64Max w.clock ttl

/-- The invariant of the whole. -/
structure Nodes.Inv {ι : Type} (ttl : ℕ) (owner : ι → String) (s : Nodes ι) : Prop where
  record : RecordInv s.shared ttl
  nodes : ∀ i, NodeInv s.shared ttl (owner i) (s.node i)

/-- The step condition: a reply that grants the lease is processed while the record still
covers the timer that it sets, and while no release of the node waits. -/
def Nodes.Covered {ι : Type} (s : Nodes ι) : Event ι → Prop
  | .reply i => ∀ r rest, (s.node i).replies = r :: rest → (s.node i).Grants r →
      s.shared.Covers (s.node i).disc.owner
        (satAdd u64Max s.shared.clock (s.node i).elector.ttlMs) ∧ ¬ (s.node i).Releasing
  | _ => True

/-- At most one node answers that it leads. -/
def Nodes.Exclusive {ι : Type} (s : Nodes ι) : Prop :=
  ∀ i j, (s.node i).Renewed → (s.node j).Renewed → i = j

theorem Nodes.Inv.exclusive {ι : Type} {ttl : ℕ} {owner : ι → String} {s : Nodes ι}
    (ho : Function.Injective owner) (h : s.Inv ttl owner) : s.Exclusive := by
  have key : ∀ i, (s.node i).Renewed → ∃ t, s.shared.Covers (owner i) t := by
    intro i hi
    have hi' : (s.node i).elector.holding = true ∧
        (s.node i).elector.clock < (s.node i).elector.expiresAt := by
      unfold LeaseNode.Renewed Elector.renewLease at hi
      split_ifs at hi with hd
      simpa using hi
    exact ⟨_, (h.nodes i).timer hi'.1 ((h.nodes i).clock ▸ hi'.2)⟩
  intro i j hi hj
  obtain ⟨t, st, hd, hr, hoi, -⟩ := key i hi
  obtain ⟨t', st', hd', hr', hoj, -⟩ := key j hj
  rw [hr] at hr'
  obtain ⟨rfl, -⟩ := Prod.mk.inj (Option.some.inj hr')
  exact ho (hoi.symm.trans hoj)

/-! ### What the steps of one node keep -/

section NodeSteps

variable {w : Shared} {ttl : ℕ} {owner : String} {n : LeaseNode}

theorem satAdd_mono {m a a' b : ℕ} (h : a ≤ a') : satAdd m a b ≤ satAdd m a' b := by
  unfold satAdd
  omega

/-- The elector changes in nothing that matters, as far as it still holds the lease. -/
theorem NodeInv.elector (h : NodeInv w ttl owner n) {e : Elector LeaseQueue}
    (hc : e.clock = n.elector.clock) (ht : e.ttlMs = n.elector.ttlMs)
    (he : e.holding = true → n.elector.holding = true ∧ e.expiresAt = n.elector.expiresAt ∧
      (LeaseOp.release ∈ e.ops.sent → LeaseOp.release ∈ n.elector.ops.sent)) :
    NodeInv w ttl owner { n with elector := e } where
  ttlElector := ht.trans h.ttlElector
  ttlDisc := h.ttlDisc
  ownerDisc := h.ownerDisc
  clock := hc.trans h.clock
  handle := h.handle
  own := h.own
  phase := h.phase
  keeps := by
    rintro hh (hr | hr)
    · exact h.keeps (he hh).1 (Or.inl ((he hh).2.2 hr))
    · exact h.keeps (he hh).1 (Or.inr hr)
  timer := by
    intro hh
    simpa only [(he hh).2.1] using h.timer (he hh).1

/-- Sending an order other than a release adds no release to the queue. -/
theorem release_mem_send {q : LeaseQueue} {op : LeaseOp} (hop : op ≠ .release)
    (h : LeaseOp.release ∈ (LeaseOps.send q op).2.sent) : LeaseOp.release ∈ q.sent := by
  simp only [LeaseOps.send] at h
  split_ifs at h
  · simpa [hop.symm] using h
  · exact h

/-- A question leaves the timer alone, and only giving the lease back adds a release. -/
theorem NodeInv.ask (h : NodeInv w ttl owner n) (q : Question) (room : ℕ) :
    NodeInv w ttl owner (n.ask q room) := by
  cases q with
  | tick now =>
    refine h.elector ?_ ?_ fun hh => ?_ <;> simp only [Elector.tick] at * <;> split_ifs at *
    all_goals first
      | rfl
      | exact ⟨hh, rfl, release_mem_send (by decide)⟩
      | exact ⟨hh, rfl, id⟩
  | getLeader =>
    refine h.elector ?_ ?_ fun hh => ?_ <;> simp only [Elector.getLeader] at * <;> split_ifs at *
    all_goals first
      | rfl
      | exact ⟨hh, rfl, release_mem_send (by decide)⟩
      | exact ⟨hh, rfl, id⟩
  | tryBecomeLeader =>
    refine h.elector ?_ ?_ fun hh => ?_ <;> simp only [Elector.tryBecomeLeader] at * <;>
      split_ifs at *
    all_goals first
      | rfl
      | exact ⟨hh, rfl, release_mem_send (by decide)⟩
      | exact ⟨hh, rfl, id⟩
  | renewLease =>
    refine h.elector ?_ ?_ fun hh => ?_ <;> simp only [Elector.renewLease] at * <;> split_ifs at *
    all_goals first
      | rfl
      | exact ⟨hh, rfl, id⟩
  | releaseLeadership =>
    exact h.elector rfl rfl fun hh => absurd hh (by simp [Elector.releaseLeadership, Elector.send])
  | invalidate => exact h.elector rfl rfl fun hh => ⟨hh, rfl, id⟩

/-- The lease thread goes on with its order, on the handle it had or on none. -/
theorem NodeInv.order (h : NodeInv w ttl owner n) (hw : RecordInv w ttl) {d : Discovery}
    {p : Option Phase} (rs : List LeaseReply) (ho : d.owner = n.disc.owner)
    (ht : d.ttlMs = n.disc.ttlMs) (hd : d.handle = "" ∨ d.handle = n.disc.handle)
    (hph : PhaseInv w ttl owner p)
    (hk : n.elector.holding = true → ∀ hd, p ≠ some (.deleting hd)) :
    NodeInv w ttl owner { n with disc := d, phase := p, replies := rs } where
  ttlElector := h.ttlElector
  ttlDisc := ht.trans h.ttlDisc
  ownerDisc := ho.trans h.ownerDisc
  clock := h.clock
  handle := hd.elim Or.inl fun hd => by simpa only [hd] using h.handle
  own := by
    intro st hd' hst heq
    rcases hd with hd | hd
    · exact absurd (heq.symm.trans hd) (hw st hd' hst).2.1
    · exact h.own st hd' hst (hd.symm.trans heq)
  phase := hph
  keeps := by
    rintro hh (hr | ⟨hd, hr⟩)
    · exact h.keeps hh (Or.inl hr)
    · exact hk hh hd hr
  timer := h.timer

/-- An order ends without a change of the record. -/
theorem NodeInv.done (h : NodeInv w ttl owner n) (hw : RecordInv w ttl) (r : LeaseReply) :
    NodeInv w ttl owner (n.done n.disc r) :=
  h.order hw _ rfl rfl (Or.inr rfl) trivial fun _ _ => by simp

/-- Taking an order. -/
theorem NodeInv.recv {n' : LeaseNode} (h : NodeInv w ttl owner n) (hw : RecordInv w ttl)
    (hn : n.recv = some n') : NodeInv w ttl owner n' := by
  unfold LeaseNode.recv at hn
  split at hn
  case h_2 => cases hn
  case h_1 op rest hph hsent =>
  obtain rfl := Option.some.inj hn
  have hsub : LeaseOp.release ∈ rest → LeaseOp.release ∈ n.elector.ops.sent := by
    intro hr
    rw [hsent]
    exact List.mem_cons_of_mem _ hr
  have hbase := h.elector (e := { n.elector with ops := { n.elector.ops with sent := rest } })
    rfl rfl fun hh => ⟨hh, rfl, hsub⟩
  have hlease : ∀ g, (n.disc.lease g n.elector.clock).owner = owner ∧
      (n.disc.lease g n.elector.clock).expiresAt = satAdd u64Max w.clock ttl := by
    intro g
    simp [Discovery.lease, h.ownerDisc, h.ttlDisc, h.clock]
  have hclaim : ∀ renew, PhaseInv w ttl owner (some (.claiming renew n.elector.clock)) := by
    refine fun renew => ⟨h.clock.le, fun st hd hst _ => ?_⟩
    rw [h.clock]
    exact (hw st hd hst).2.2
  cases op with
  | read => exact hbase.order hw _ rfl rfl (Or.inr rfl) trivial fun _ _ => by simp
  | claim => exact hbase.order hw _ rfl rfl (Or.inr rfl) (hclaim false) fun _ _ => by simp
  | renew =>
    simp only [Discovery.renewOp]
    by_cases hd : n.disc.handle = ""
    · rw [if_pos hd]
      exact hbase.order hw _ rfl rfl (Or.inr rfl) (hclaim true) fun _ _ => by simp
    · rw [if_neg hd]
      refine hbase.order hw _ rfl rfl (Or.inr rfl) ⟨(hlease _).1, (hlease _).2.le, h.handle, ?_⟩
        fun _ _ => by simp
      -- the record on our handle is our own, and no record is younger than the clock
      intro st hd' hst heq
      rw [(hlease _).2]
      exact Or.inl ⟨h.own st hd' hst heq.symm, (hw st hd' hst).2.2⟩
  | release =>
    have hnot : n.elector.holding ≠ true := fun hh => h.keeps hh (Or.inl (by simp [hsent]))
    refine hbase.order hw _ rfl rfl (Or.inl rfl) ?_ fun hh => absurd hh hnot
    change PhaseInv w ttl owner
      (if n.disc.handle ≠ "" then some (.deleting n.disc.handle) else none)
    by_cases hd : n.disc.handle = ""
    · rw [if_neg (not_not.mpr hd)]
      trivial
    · rw [if_pos hd]
      exact ⟨h.handle.resolve_left hd, fun st hd' hst heq => h.own st hd' hst heq.symm⟩

/-- Processing a reply: one that grants the lease has to find the record there. -/
theorem NodeInv.reply {n' : LeaseNode} (h : NodeInv w ttl owner n) (hn : n.reply = some n')
    (hok : ∀ r rest, n.replies = r :: rest → n.Grants r →
      w.Covers n.disc.owner (satAdd u64Max w.clock n.elector.ttlMs) ∧ ¬ n.Releasing) :
    NodeInv w ttl owner n' := by
  unfold LeaseNode.reply at hn
  split at hn
  case h_2 => cases hn
  case h_1 r rest hrs =>
  obtain rfl := Option.some.inj hn
  have hok := hok r rest hrs
  suffices NodeInv w ttl owner { n with elector := n.elector.onReply r } from
    { this with phase := h.phase, keeps := this.keeps }
  -- a granted lease: the record covers the timer
  have hgrant : n.Grants r → ∀ e : Elector LeaseQueue, e.clock = n.elector.clock →
      e.ttlMs = n.elector.ttlMs → e.ops = n.elector.ops →
      e.expiresAt = satAdd u64Max n.elector.clock n.elector.ttlMs →
      NodeInv w ttl owner { n with elector := e } := by
    intro hg e hc ht hops hexp
    obtain ⟨hcov, hrel⟩ := hok hg
    refine { h with
      ttlElector := ht.trans h.ttlElector, clock := hc.trans h.clock, keeps := ?_, timer := ?_ }
    · rintro - hr
      exact hrel (by simpa [LeaseNode.Releasing, hops] using hr)
    · rintro - -
      rw [hexp, h.clock]
      exact h.ownerDisc ▸ hcov
  cases r with
  | read leader ok => exact h.elector rfl rfl fun hh => ⟨hh, rfl, id⟩
  | claimed got =>
    cases got
    · exact h.elector rfl rfl fun hh => ⟨hh, rfl, id⟩
    · exact hgrant (Or.inl rfl) _ rfl rfl rfl rfl
  | renewed renewed displaced =>
    cases hh : n.elector.holding
    · exact h.elector (by simp [Elector.onReply, hh]) (by simp [Elector.onReply, hh])
        (by simp [Elector.onReply, hh])
    · cases renewed
      · cases displaced
        · exact h.elector (by simp [Elector.onReply, hh, Elector.note])
            (by simp [Elector.onReply, hh, Elector.note])
            (by simp [Elector.onReply, hh, Elector.note])
        · exact h.elector (by simp [Elector.onReply, hh, Elector.note])
            (by simp [Elector.onReply, hh, Elector.note])
            (by simp [Elector.onReply, hh, Elector.note])
      · exact hgrant (Or.inr ⟨displaced, rfl, hh⟩) _ (by simp [Elector.onReply, hh])
          (by simp [Elector.onReply, hh]) (by simp [Elector.onReply, hh])
          (by simp [Elector.onReply, hh])

/-- The clock moves on. -/
theorem NodeInv.clockTo (h : NodeInv w ttl owner n) {t : ℕ} (ht : w.clock ≤ t) :
    NodeInv { w with clock := t } ttl owner
      { n with elector := { n.elector with clock := t } } where
  ttlElector := h.ttlElector
  ttlDisc := h.ttlDisc
  ownerDisc := h.ownerDisc
  clock := rfl
  handle := h.handle
  own := h.own
  phase := by
    have hph := h.phase
    dsimp only
    generalize n.phase = ph at hph
    match ph with
    | none | some (.reading _) => trivial
    | some (.claiming _ now) => exact ⟨hph.1.trans ht, hph.2⟩
    | some (.writing _ before state) =>
      refine ⟨hph.1, hph.2.1.trans (satAdd_mono ht), hph.2.2.1, fun st hd hst heq => ?_⟩
      exact (hph.2.2.2 st hd hst heq).imp_right fun hlt => hlt.trans_le ht
    | some (.deleting _) => exact hph
  keeps := h.keeps
  timer hh hlt := h.timer hh (ht.trans_lt hlt)

theorem Shared.not_mem_issued {w : Shared} (h : w.fresh handle = true) :
    handle ≠ "" ∧ handle ∉ w.issued := by
  simpa [Shared.fresh] using h

/-- Another node writes the record: the old one was not this node's, or it has expired. -/
theorem NodeInv.stored (h : NodeInv w ttl owner n) (hfresh : w.fresh handle = true)
    (hne : state.owner ≠ owner)
    (hold : ∀ st hd, w.record = some (st, hd) → st.owner = owner → st.expiresAt < w.clock) :
    NodeInv (w.store state handle) ttl owner n := by
  obtain ⟨hne0, hnot⟩ := Shared.not_mem_issued hfresh
  have hother : ∀ hd, hd = "" ∨ hd ∈ w.issued → ∀ st hd', (w.store state handle).record =
      some (st, hd') → hd' ≠ hd := by
    rintro hd hhd st hd' hst rfl
    cases hst
    exact hhd.elim hne0 hnot
  refine { h with handle := ?_, own := ?_, phase := ?_, timer := ?_ }
  · exact h.handle.imp_right (List.mem_cons_of_mem _)
  · intro st hd hst heq
    exact absurd heq.symm (hother _ h.handle st hd hst)
  · have hph := h.phase
    generalize n.phase = ph at hph
    match ph with
    | none | some (.reading _) => trivial
    | some (.claiming _ now) =>
      refine ⟨hph.1, fun st hd hst ho => ?_⟩
      cases hst
      exact absurd ho hne
    | some (.writing _ before state') =>
      refine ⟨hph.1, hph.2.1, hph.2.2.1.imp_right (List.mem_cons_of_mem _), ?_⟩
      intro st hd hst heq
      exact absurd heq (hother _ hph.2.2.1 st hd hst)
    | some (.deleting hd) =>
      refine ⟨List.mem_cons_of_mem _ hph.1, fun st hd' hst heq => ?_⟩
      exact absurd heq (hother _ (Or.inr hph.1) st hd' hst)
  · intro hh hlt
    obtain ⟨st, hd, hst, ho, hle⟩ := h.timer hh hlt
    have hlt' : w.clock < n.elector.expiresAt := hlt
    have := hold st hd hst ho
    omega

/-- The record is deleted: it was not this node's, or the node has let it go. -/
theorem NodeInv.deleted (h : NodeInv w ttl owner n)
    (hold : n.elector.holding = true → ∀ st hd, w.record = some (st, hd) → st.owner ≠ owner) :
    NodeInv { w with record := none } ttl owner n := by
  refine { h with own := ?_, phase := ?_, timer := ?_ }
  · rintro _ _ ⟨⟩
  · have hph := h.phase
    generalize n.phase = ph at hph
    match ph with
    | none | some (.reading _) => trivial
    | some (.claiming _ now) => exact ⟨hph.1, fun _ _ hst => by cases hst⟩
    | some (.writing _ before state') =>
      exact ⟨hph.1, hph.2.1, hph.2.2.1, fun _ _ hst => by cases hst⟩
    | some (.deleting hd) => exact ⟨hph.1, fun _ _ hst => by cases hst⟩
  · intro hh hlt
    obtain ⟨st, hd, hst, ho, -⟩ := h.timer hh hlt
    exact absurd ho (hold hh st hd hst)

/-- The read of a claim: what it plans to write fits what it saw. -/
theorem NodeInv.plan (h : NodeInv w ttl owner n) (hw : RecordInv w ttl) {now : ℕ}
    (hph : n.phase = some (.claiming renew now)) {o : Outcome}
    (hplan : n.disc.planClaim (w.readResult o) now = .write before state) :
    PhaseInv w ttl owner (some (.writing renew before state)) := by
  have hnow := h.phase
  rw [hph] at hnow
  obtain ⟨hle, hown⟩ := hnow
  have hlease : ∀ g, (n.disc.lease g now).owner = owner ∧
      (n.disc.lease g now).expiresAt = satAdd u64Max now ttl := by
    intro g
    simp [Discovery.lease, h.ownerDisc, h.ttlDisc]
  have hexp : ∀ g, (n.disc.lease g now).expiresAt ≤ satAdd u64Max w.clock ttl :=
    fun g => (hlease g).2.le.trans (satAdd_mono hle)
  rcases hrec : w.record with - | ⟨st, hd⟩
  · -- nothing there: the write creates the record
    cases o <;> simp only [Shared.readResult, hrec, Discovery.planClaim] at hplan <;> cases hplan
    refine ⟨(hlease 1).1, hexp 1, Or.inl rfl, fun st hd hst _ => ?_⟩
    simp [hrec] at hst
  · cases o <;> simp only [Shared.readResult, hrec, Discovery.planClaim] at hplan
    · split_ifs at hplan with ho he
      · cases hplan
        refine ⟨(hlease _).1, hexp _, Or.inr (hw st _ hrec).1, fun st' hd' hst' _ => ?_⟩
        obtain ⟨rfl, -⟩ := Prod.mk.inj (Option.some.inj (hrec.symm.trans hst'))
        have ho' := ho.trans h.ownerDisc
        exact Or.inl ⟨ho', (hown st _ hrec ho').trans (hlease _).2.ge⟩
      · cases hplan
        refine ⟨(hlease _).1, hexp _, Or.inr (hw st _ hrec).1, fun st' hd' hst' _ => ?_⟩
        obtain ⟨rfl, -⟩ := Prod.mk.inj (Option.some.inj (hrec.symm.trans hst'))
        exact Or.inr (he.trans_le hle)
    · cases hplan
    · cases hplan

/-- This node writes the record, and the order ends. -/
theorem NodeInv.wrote (h : NodeInv w ttl owner n)
    (hph : n.phase = some (.writing renew before state)) (hfits : w.fits before = true)
    (hfresh : w.fresh handle = true) {d : Discovery} (ho : d.owner = n.disc.owner)
    (ht : d.ttlMs = n.disc.ttlMs) (hd : d.handle = handle ∨ d.handle = n.disc.handle)
    (r : LeaseReply) :
    NodeInv (w.store state handle) ttl owner (n.done d r) := by
  obtain ⟨hne0, hnot⟩ := Shared.not_mem_issued hfresh
  have hnow := h.phase
  rw [hph] at hnow
  obtain ⟨hown, -, -, hfit⟩ := hnow
  refine { h with
    ttlDisc := ht.trans h.ttlDisc, ownerDisc := ho.trans h.ownerDisc, handle := ?_, own := ?_
    phase := trivial, keeps := ?_, timer := ?_ }
  · rcases hd with hd | hd
    · exact Or.inr (by simp [LeaseNode.done, hd, Shared.store])
    · simp only [LeaseNode.done, hd]
      exact h.handle.imp_right (List.mem_cons_of_mem _)
  · rintro st hd' ⟨⟩ -
    exact hown
  · rintro hh (hr | ⟨hd', hr⟩)
    · exact h.keeps hh (Or.inl hr)
    · cases hr
  · intro hh hlt
    have hlt : w.clock < n.elector.expiresAt := hlt
    obtain ⟨st, hd', hst, ho', hle⟩ := h.timer hh hlt
    have hb : hd' = before := by simpa [Shared.fits, hst] using hfits
    rcases hfit st hd' hst hb with ⟨-, hge⟩ | hexp
    · exact ⟨state, handle, rfl, hown, hle.trans hge⟩
    · omega

end NodeSteps

/-! ### Runs -/

namespace Nodes

variable {ι : Type} [DecidableEq ι] {ttl : ℕ} {owner : ι → String} {s s' : Nodes ι}

theorem Inv.put (h : s.Inv ttl owner) (i : ι) {n : LeaseNode}
    (hn : NodeInv s.shared ttl (owner i) n) : (s.put i n).Inv ttl owner where
  record := h.record
  nodes j := by
    rcases eq_or_ne j i with rfl | hj
    · simpa [Nodes.put] using hn
    · simpa [Nodes.put, hj] using h.nodes j

/-- A write that is carried out: the record that it replaces is the writer's own, or nobody's
timer counts on it any more. -/
theorem Inv.stored (ho : Function.Injective owner) (h : s.Inv ttl owner) (i : ι)
    (hph : (s.node i).phase = some (.writing renew before state))
    (hfits : s.shared.fits before = true) (hfresh : s.shared.fresh handle = true) {d : Discovery}
    (hdo : d.owner = (s.node i).disc.owner) (hdt : d.ttlMs = (s.node i).disc.ttlMs)
    (hd : d.handle = handle ∨ d.handle = (s.node i).disc.handle) (r : LeaseReply) :
    Inv ttl owner
      { s.put i ((s.node i).done d r) with shared := s.shared.store state handle } := by
  have hnow := (h.nodes i).phase
  rw [hph] at hnow
  obtain ⟨hown, hexp, -, hfit⟩ := hnow
  constructor
  · rintro st hd' ⟨⟩
    exact ⟨List.mem_cons_self, (Shared.not_mem_issued hfresh).1, hexp⟩
  · intro j
    rcases eq_or_ne j i with rfl | hj
    · simpa [Nodes.put] using (h.nodes j).wrote hph hfits hfresh hdo hdt hd r
    · have hne : state.owner ≠ owner j := fun he => hj (ho (he.symm.trans hown))
      have hupd : Function.update s.node i ((s.node i).done d r) j = s.node j :=
        Function.update_of_ne hj _ _
      dsimp only [Nodes.put]
      rw [hupd]
      refine (h.nodes j).stored hfresh hne fun st hd' hst hsto => ?_
      have hb : hd' = before := by simpa [Shared.fits, hst] using hfits
      rcases hfit st hd' hst hb with ⟨hi, -⟩ | hlt
      · exact absurd (ho (hsto.symm.trans hi)) hj
      · exact hlt

theorem Inv.write (ho : Function.Injective owner) (h : s.Inv ttl owner) (i : ι)
    (hph : (s.node i).phase = some (.writing renew before state)) (o : Outcome)
    (hs : s.write i renew before state o = some s') : s'.Inv ttl owner := by
  have hfail : ∀ e, (s.put i ((s.node i).done ((s.node i).disc.onWrite state (.error e)).2
      (Phase.report renew ((s.node i).disc.onWrite state (.error e)).1))).Inv ttl owner :=
    fun e => h.put i ((h.nodes i).done h.record _)
  unfold Nodes.write at hs
  cases o with
  | lost =>
    obtain rfl := Option.some.inj hs
    exact hfail .unreachable
  | answered handle =>
    by_cases hfits : s.shared.fits before = true
    · simp only [Shared.writeAnswer, if_pos hfits] at hs
      split_ifs at hs with hfresh
      obtain rfl := Option.some.inj hs
      exact h.stored ho i hph hfits hfresh
        (d := ((s.node i).disc.onWrite state (.ok handle)).2) rfl rfl (Or.inl rfl) _
    · simp only [Shared.writeAnswer, if_neg hfits] at hs
      obtain rfl := Option.some.inj hs
      exact hfail .leaseHeld
  | unanswered handle =>
    dsimp only [Shared.writeAnswer] at hs
    split_ifs at hs with hfits hfresh
    · obtain rfl := Option.some.inj hs
      exact h.stored ho i hph hfits hfresh rfl rfl (Or.inr rfl) _
    · obtain rfl := Option.some.inj hs
      exact hfail .unreachable

/-- A release that is carried out deletes only the node's own record, and the node no longer
holds it. -/
theorem Inv.delete (ho : Function.Injective owner) (h : s.Inv ttl owner) (i : ι)
    (hph : (s.node i).phase = some (.deleting handle)) (o : Outcome) :
    Inv ttl owner
      { s.put i { s.node i with phase := none } with shared := s.shared.delete handle o } := by
  have hdone := h.put i ((h.nodes i).order h.record (p := none) (s.node i).replies rfl rfl
    (Or.inr rfl) trivial fun _ _ => by simp)
  have hnow := (h.nodes i).phase
  rw [hph] at hnow
  have hgone : ∀ st, s.shared.record = some (st, handle) →
      Inv ttl owner { s.put i { s.node i with phase := none } with
        shared := { s.shared with record := none } } := by
    intro st hst
    refine ⟨?_, fun j => (hdone.nodes j).deleted fun hh st' hd hst' => ?_⟩
    · rintro _ _ ⟨⟩
    obtain ⟨rfl, -⟩ := Prod.mk.inj (Option.some.inj (hst.symm.trans hst'))
    have hsti := hnow.2 st handle hst rfl
    rintro hstj
    obtain rfl := ho (hstj.symm.trans hsti)
    refine (h.nodes j).keeps ?_ (Or.inr ⟨handle, hph⟩)
    simpa [Nodes.put] using hh
  unfold Shared.delete
  cases o with
  | lost => exact hdone
  | answered _ | unanswered _ =>
    dsimp only
    split_ifs with hr
    · obtain ⟨⟨st, hd⟩, hst, hd'⟩ : ∃ r, s.shared.record = some r ∧ r.2 = handle := by
        simpa [Option.any_eq_true] using hr
      exact hgone st (by simpa [← hd'] using hst)
    · exact hdone

theorem Inv.call (ho : Function.Injective owner) (h : s.Inv ttl owner) (i : ι) (o : Outcome)
    (hs : s.call i o = some s') : s'.Inv ttl owner := by
  unfold Nodes.call at hs
  dsimp only at hs
  split at hs
  case h_1 => cases hs
  case h_2 now hph =>
    obtain rfl := Option.some.inj hs
    exact h.put i ((h.nodes i).done h.record _)
  case h_3 renew now hph =>
    split at hs
    case h_1 before state hplan =>
      obtain rfl := Option.some.inj hs
      exact h.put i ((h.nodes i).order h.record _ rfl rfl (Or.inr rfl)
        ((h.nodes i).plan h.record hph hplan) fun _ _ => by simp)
    case h_2 e hplan =>
      obtain rfl := Option.some.inj hs
      exact h.put i ((h.nodes i).done h.record _)
  case h_4 renew before state hph => exact h.write ho i hph o hs
  case h_5 handle hph =>
    obtain rfl := Option.some.inj hs
    exact h.delete ho i hph o

/-- One step that meets the condition keeps the invariant. -/
theorem Inv.step (ho : Function.Injective owner) (h : s.Inv ttl owner) {e : Event ι}
    (hs : s.step e = some s') (hok : s.Covered e) : s'.Inv ttl owner := by
  cases e with
  | clock t =>
    simp only [Nodes.step] at hs
    split_ifs at hs with ht
    obtain rfl := Option.some.inj hs
    refine ⟨fun st hd hst => ?_, fun i => (h.nodes i).clockTo ht.1⟩
    obtain ⟨hi, hne, hle⟩ := h.record st hd hst
    exact ⟨hi, hne, hle.trans (satAdd_mono ht.1)⟩
  | ask i q room =>
    obtain rfl := Option.some.inj hs
    exact h.put i ((h.nodes i).ask q room)
  | recv i =>
    obtain ⟨n, hn, rfl⟩ := Option.map_eq_some_iff.mp hs
    exact h.put i ((h.nodes i).recv h.record hn)
  | call i o => exact h.call ho i o hs
  | reply i =>
    obtain ⟨n, hn, rfl⟩ := Option.map_eq_some_iff.mp hs
    exact h.put i ((h.nodes i).reply hn hok)

omit [DecidableEq ι] in
theorem inv_start (owner : ι → String) (now ttlMs : ℕ) :
    (start owner now ttlMs).Inv ttlMs owner where
  record := by rintro _ _ ⟨⟩
  nodes i :=
    { ttlElector := rfl
      ttlDisc := rfl
      ownerDisc := rfl
      clock := rfl
      handle := Or.inl rfl
      own := by rintro _ _ ⟨⟩
      phase := trivial
      keeps := by rintro ⟨⟩
      timer := by rintro ⟨⟩ }

end Nodes

/-- **Mutual exclusion at the electors**: in every run in which each reply that grants the
lease is processed while the record covers the timer that it sets, no two nodes answer at the
same clock value that they lead. -/
theorem exclusive_of_covered {ι : Type} [DecidableEq ι] (s : Nodes ι) (es : List (Event ι))
    (hs : (leaseMachine ι).Init s) (hok : (leaseMachine ι).Along Nodes.Covered s es) :
    (leaseMachine ι).Always Nodes.Exclusive s es := by
  obtain ⟨owner, now, ttl, ho, -, rfl⟩ := hs
  exact hok.always (K := Nodes.Inv ttl owner) (fun _ h => h.exclusive ho)
    (fun _ _ _ h hstep hcov => h.step ho hstep hcov) (Nodes.inv_start owner now ttl)

/-- Two nodes with leases of 30 seconds. -/
def twoNodes : Nodes Bool :=
  Nodes.start (fun i => if i then "10.0.0.1:8080" else "10.0.0.2:8080") 0 30000

theorem init_twoNodes : (leaseMachine Bool).Init twoNodes :=
  ⟨_, 0, 30000, by unfold Function.Injective; decide, by decide, rfl⟩

/-- The first node asks for the lease, and its thread carries the claim out at once. -/
def firstClaims : List (Event Bool) :=
  [.ask true .tryBecomeLeader 1, .recv true, .call true (.answered ""),
    .call true (.answered "mem-1")]

/-- The second node claims the lease while the first one has it, and again when it has run out. -/
def bothClaim : List (Event Bool) :=
  firstClaims ++ [.reply true, .clock 20000,
    .ask false .tryBecomeLeader 1, .recv false, .call false (.answered ""), .reply false,
    .clock 30001, .ask false .tryBecomeLeader 2, .recv false, .call false (.answered ""),
    .call false (.answered "mem-2"), .reply false]

/-- Each reply is processed at the clock value at which the claim ran: the second node fails while
the first one leads, and leads in its turn. -/
theorem exclusive_prompt_reply :
    (leaseMachine Bool).Init twoNodes ∧
      (leaseMachine Bool).Always Nodes.Exclusive twoNodes bothClaim := by
  refine ⟨init_twoNodes, exclusive_of_covered _ _ init_twoNodes ?_⟩
  iterate 4 refine along_cons rfl trivial ?_
  refine along_cons rfl ?_ ?_
  · rintro r rest ⟨⟩ -
    refine ⟨⟨_, _, rfl, rfl, le_rfl⟩, ?_⟩
    rintro (hr | ⟨h, hr⟩)
    · cases hr
    · cases hr
  iterate 4 refine along_cons rfl trivial ?_
  refine along_cons rfl ?_ ?_
  · -- the record is the first node's
    rintro r rest ⟨⟩ (hr | ⟨d, hr, -⟩)
    · cases hr
    · cases hr
  iterate 5 refine along_cons rfl trivial ?_
  refine along_cons rfl ?_ trivial
  rintro r rest ⟨⟩ -
  refine ⟨⟨_, _, rfl, rfl, le_rfl⟩, ?_⟩
  rintro (hr | ⟨h, hr⟩)
  · cases hr
  · cases hr

/-- The reply to a claim that ran at 0 is processed at 20 000, so the timer of the first node
runs until 50 000; its record has expired at 30 000, and the second node takes it over at
30 001: both answer that they lead. -/
theorem two_leaders_after_late_reply :
    (leaseMachine Bool).Init twoNodes ∧
      ¬ (leaseMachine Bool).Always Nodes.Exclusive twoNodes
        (firstClaims ++ [.clock 20000, .reply true, .clock 30001,
          .ask false .tryBecomeLeader 1, .recv false, .call false (.answered ""),
          .call false (.answered "mem-2"), .reply false]) := by
  refine ⟨init_twoNodes, fun h => ?_⟩
  have hlast := h.last rfl
  exact Bool.noConfusion (hlast true false rfl rfl)

end Hop.Lease
