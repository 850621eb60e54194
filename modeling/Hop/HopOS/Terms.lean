import Hop.HopOS.Post

/-!
# The terms of a leader

An answer to a load, a `run` or a request for tasks carries no term. A node that steps down and
wins again while such an order of its earlier term is under way takes the answer for one of the
new term: the leader half opens with a state that was read before the win, books are changed and
task lists replaced. `terms_apart` says that this is the only way: if at each win nothing of an
earlier term is under way, the terms do not mix.
-/

namespace Hop.HopOS

open Hop.Agent (LeaseReply)

namespace Post

/-- The terms of the orders whose answer has not been processed. -/
def outstanding (p : Post) : List ℕ :=
  (p.orders.filter fun o => o.1 = .load).map Prod.snd ++ p.task.reading ++
    ((p.half.dispatch ++ p.calling.toList).filter fun q => !q.call.isStop).map Queued.term ++
    (p.answers.filter fun a => a.1.isReply).map Prod.snd

theorem mem_outstanding {p : Post} {t : ℕ} : t ∈ p.outstanding ↔
    (StateOp.load, t) ∈ p.orders ∨ t ∈ p.task.reading ∨
    (∃ q, (q ∈ p.half.dispatch ∨ q ∈ p.calling) ∧ q.call.isStop = false ∧ q.term = t) ∨
    ∃ mail, (mail, t) ∈ p.answers ∧ mail.isReply = true := by
  simp only [outstanding, List.mem_append, List.mem_map, List.mem_filter, decide_eq_true_eq,
    Bool.not_eq_true', Option.mem_toList, Prod.exists, or_assoc]
  refine or_congr ⟨?_, ?_⟩ (or_congr Iff.rfl (or_congr ⟨?_, ?_⟩ ⟨?_, ?_⟩))
  · rintro ⟨op, s, ⟨hmem, rfl⟩, rfl⟩
    exact hmem
  · exact fun hmem => ⟨.load, t, ⟨hmem, rfl⟩, rfl⟩
  · rintro ⟨q, ⟨hmem, hstop⟩, rfl⟩
    exact ⟨q, hmem, hstop, rfl⟩
  · rintro ⟨q, hmem, hstop, rfl⟩
    exact ⟨q, ⟨hmem, hstop⟩, rfl⟩
  · rintro ⟨mail, s, ⟨hmem, hreply⟩, rfl⟩
    exact ⟨mail, hmem, hreply⟩
  · rintro ⟨mail, hmem, hreply⟩
    exact ⟨mail, t, ⟨hmem, hreply⟩, rfl⟩

variable {p p' : Post} {t : ℕ}

/-- The tasks only pass on what is under way. -/
theorem Passes.outstanding (hp : p.Passes p') (ht : t ∈ p'.outstanding) : t ∈ p.outstanding := by
  refine mem_outstanding.mpr ?_
  rcases mem_outstanding.mp ht with ht | ht | ⟨q, hmem, hstop, rfl⟩ | ⟨mail, hmem, hreply⟩
  · exact .inl (hp.orders _ ht)
  · exact (hp.reading t ht).elim (.inr ∘ .inl) .inl
  · exact .inr (.inr (.inl ⟨q, hp.calls q hmem, hstop, rfl⟩))
  · rcases hp.answers _ hmem with hmem | ⟨-, hfrom⟩
    · exact .inr (.inr (.inr ⟨mail, hmem, hreply⟩))
    · rcases hfrom hreply with ht | ⟨q, hcalling, hstop, hterm⟩
      · exact .inr (.inl ht)
      · exact .inr (.inr (.inl ⟨q, .inr hcalling, hstop, hterm⟩))

/-- The orders that are under way after a step were under way before it, or are of the term. -/
theorem outstanding_step (h : p.Sound) {next : ℕ} {e : Event} (hstep : p.step next e = some p')
    (ht : t ∈ p'.outstanding) : t ∈ p.outstanding ∨ t = p'.term := by
  cases htask : e.isTask
  · have hadds := adds_step h htask hstep
    rcases mem_outstanding.mp ht with ht | ht | ⟨q, hmem, hstop, rfl⟩ | ⟨mail, hmem, hreply⟩
    · exact (hadds.orders _ ht).imp (fun hmem => mem_outstanding.mpr (.inl hmem)) And.left
    · exact .inl (mem_outstanding.mpr (.inr (.inl (hadds.task ▸ ht))))
    · exact (hadds.calls q hmem).imp_left fun hmem =>
        mem_outstanding.mpr (.inr (.inr (.inl ⟨q, hmem, hstop, rfl⟩)))
    · exact .inl (mem_outstanding.mpr (.inr (.inr (.inr ⟨mail, hadds.answers hmem, hreply⟩))))
  · exact .inl ((passes_step htask hstep).outstanding ht)

/-- The store, the books and the task lists of the leader are the same. -/
structure SameBooks (h h' : Half) : Prop where
  store : h'.leader.store = h.leader.store
  placed : h'.leader.placed = h.leader.placed
  tasks : h'.relay.tasks = h.relay.tasks

/-- **The terms do not mix**: the store of a live leader was read by a load of its own term, and an
answer of an earlier term changes nothing for a node that leads. -/
structure Apart (p : Post) : Prop where
  opened : p.node.live = true → p.opened = p.term
  stale : p.node.loop.el.leading = true → ∀ mail t, (mail, t) ∈ p.answers → mail.isReply = true →
    t < p.term → ∀ now, SameBooks p.half (p.node.onMail mail now).loop.agent

/-- At a win, nothing of an earlier term is under way. -/
def Clear (p : Post) (e : Event) : Prop := p.wins e = true → p.outstanding = []

instance (p : Post) (e : Event) : Decidable (p.Clear e) :=
  inferInstanceAs (Decidable (_ → _))

/-- The invariant of runs that are clear at each win: while the node leads, all that is under way
is of the term. -/
structure OneTerm (p : Post) : Prop where
  sound : p.Sound
  outstanding : p.node.loop.el.leading = true → ∀ t ∈ p.outstanding, t = p.term
  opened : p.node.live = true → p.opened = p.term

theorem OneTerm.apart (h : p.OneTerm) : p.Apart := by
  refine ⟨h.opened, fun hlead mail t hmem hreply hlt => ?_⟩
  have := h.outstanding hlead t
    (mem_outstanding.mpr (.inr (.inr (.inr ⟨mail, hmem, hreply⟩))))
  omega

theorem OneTerm.step (h : p.OneTerm) {next : ℕ} {e : Event} (hstep : p.step next e = some p')
    (hclear : p.Clear e) : p'.OneTerm := by
  have hturns := turns_step h.sound hstep
  have hbefore : p'.node.loop.el.leading = true → ∀ t ∈ p.outstanding, t = p'.term := by
    intro hlead t ht
    cases hw : p.wins e
    · have hsame := hturns.term
      rw [hw] at hsame
      have hled := (hturns.leads hlead).resolve_right (by simp [hw])
      exact (h.outstanding hled t ht).trans hsame.symm
    · rw [hclear hw] at ht
      cases ht
  refine ⟨hturns.sound, fun hlead t ht => ?_, fun hlive => ?_⟩
  · rcases outstanding_step h.sound hstep ht with ht | ht
    · exact hbefore hlead t ht
    · exact ht
  · have hlead' := hturns.sound.sober (by simp [Node.opens, hlive])
    rcases hturns.live hlive with ⟨hlive, hopened⟩ | ⟨got, hmem, -⟩
    · have hlead : p.node.loop.el.leading = true := h.sound.sober (by simp [Node.opens, hlive])
      have hw : p.wins e = false := by
        by_contra hw
        have := hturns.win (by simpa using hw)
        simp [hlead] at this
      have hsame := hturns.term
      rw [hw] at hsame
      rw [hopened, h.opened hlive, hsame]
      rfl
    · exact hbefore hlead' _ (mem_outstanding.mpr (.inr (.inr (.inr ⟨.loaded got, hmem, rfl⟩))))

end Post

/-- A clustered node with its tasks, as a machine; the wins are numbered. -/
def nodePost : Machine Post Post.Event where
  Init := Post.Fresh
  step p e := p.step (p.term + 1) e

/-- **The terms of a leader do not mix** in a run of the node in which at each win no load, `run`
or question for tasks of an earlier term is queued, under way or unprocessed. -/
theorem terms_apart {p : Post} {es : List Post.Event} (hinit : nodePost.Init p)
    (hclear : nodePost.Along Post.Clear p es) : nodePost.Always Post.Apart p es := by
  have hstart : p.OneTerm := by
    obtain ⟨ip, port, wallMs, ttlMs, initJobs, nodeDead, now, half, -, -, hnode⟩ := hinit.node
    refine ⟨hinit.sound, fun hlead => ?_, fun hlive => ?_⟩
    · rw [hnode] at hlead
      cases hlead
    · rw [hnode] at hlive
      cases hlive
  exact hclear.always (fun _ h => h.apart) (fun _ _ _ h hstep hok => h.step hstep hok) hstart

/-- A node at its start, with a lease of 30 s. -/
def postNode : Post where
  node := .newClustered "10.0.0.1" 8080 0 30000 none (30 * second) 0 twoNodes
  term := 0
  stateTerms := []
  task := .idle
  coalesces := true
  calling := none
  answers := []
  opened := 0

theorem postNode_init : nodePost.Init postNode :=
  ⟨⟨_, _, _, _, _, _, _, _, rfl, rfl, rfl⟩, rfl, rfl, rfl, rfl, rfl⟩

namespace Post

/-- The lease task takes an order, and its answer comes at `t` seconds. -/
def leaseAt (t : ℕ) (r : LeaseReply) : List Event :=
  [.node .leaseTaken, .node (.mail (.lease r) (t * second))]

/-- A tick at `t` seconds. -/
def tickAt (t : ℕ) : List Event := [.node (.wallClock (1000 * t)), .node (.tick (t * second))]

/-- The boot claim hits, and the state task begins to read the committed state. -/
def claimAtBoot : List Event := .node (.boot 0) :: leaseAt 1 (.claimed true) ++ [.takeOrder]

/-- The read is done, and its answer is processed at `t` seconds. -/
def loadedAt (t : ℕ) : List Event := [.read (.ok none), .deliver 0 (t * second)]

/-- Another node takes the lease and lets it go, and this node wins it again. -/
def loseAndWin : List Event :=
  tickAt 10 ++ leaseAt 11 (.renewed false true) ++ tickAt 20 ++ tickAt 30 ++
    leaseAt 31 (.read none true) ++ tickAt 40 ++ tickAt 50 ++ tickAt 60 ++
    leaseAt 61 (.read none true) ++ leaseAt 61 (.claimed true) ++ tickAt 70

end Post

theorem terms_apart_two_wins : nodePost.Init postNode ∧
    nodePost.Always Post.Apart postNode
      (Post.claimAtBoot ++ Post.loadedAt 2 ++ Post.loseAndWin ++ .takeOrder :: Post.loadedAt 71) :=
  ⟨postNode_init, terms_apart postNode_init (by decide)⟩

/-- The body of the first read comes slowly. The node steps down and wins again before it is
there, and then opens its leader half with it, while the load of its new term still waits. -/
theorem stale_load_opens :
    nodePost.Init postNode ∧
      ((nodePost.run postNode (Post.claimAtBoot ++ Post.loseAndWin ++ Post.loadedAt 71)).map
        fun p => (p.node.loop.el.leading, p.node.live, p.term, p.opened, p.stateTerms)) =
        some (true, true, 2, 1, [2]) ∧
      ¬ nodePost.Always Post.Apart postNode
        (Post.claimAtBoot ++ Post.loseAndWin ++ Post.loadedAt 71) := by
  have hrun : (nodePost.run postNode (Post.claimAtBoot ++ Post.loseAndWin ++
      Post.loadedAt 71)).map (fun p =>
        (p.node.loop.el.leading, p.node.live, p.term, p.opened, p.stateTerms)) =
        some (true, true, 2, 1, [2]) := by decide
  refine ⟨postNode_init, hrun, fun h => ?_⟩
  obtain ⟨p, hp, heq⟩ := Option.map_eq_some_iff.mp hrun
  obtain ⟨-, hlive, hterm, hopened, -⟩ : p.node.loop.el.leading = true ∧ p.node.live = true ∧
      p.term = 2 ∧ p.opened = 1 ∧ p.stateTerms = [2] := by simpa using heq
  have hsame := (h.last hp).opened hlive
  omega

end Hop.HopOS
