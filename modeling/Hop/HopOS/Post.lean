import Hop.HopOS.Opening
import Hop.HopOS.Stops

/-!
# The node with its tasks

The owner of the node never waits: it puts an order into the queue of the state task or of the
dispatch task, and the answer comes back as mail. `Post` is a clustered node with these two tasks
(`state_task` of `agentd-hopos/src/lease.rs`, or the thread of `agentd/src/persist.rs`, and
`dispatch_task` of `agentd-hopos/src/relay.rs`) and the answers that are under way, which may come
in any order.

Orders and answers carry no term. `Post` writes down beside each of them the number of the win of
the term it belongs to; no function reads that.
-/

namespace Hop.HopOS

open Hop.Agent (LeaseReply LinkError Loop PortKeeps Request)
open Hop.Types (Task)

/-! ### What a step of the node does to its queues -/

namespace Half

/-- The calls in the queue are those that were there, and new ones of this term. -/
structure Moves (h h' : Half) : Prop where
  term : h'.term = h.term
  dispatch : ∀ q ∈ h'.dispatch, q ∈ h.dispatch ∨ q.term = h.term

variable {h h' h'' : Half}

theorem Moves.refl (h : Half) : h.Moves h := ⟨rfl, fun _ hq => .inl hq⟩

theorem Moves.trans (hm : h.Moves h') (hm' : h'.Moves h'') : h.Moves h'' := by
  refine ⟨hm'.term.trans hm.term, fun q hq => ?_⟩
  rcases hm'.dispatch q hq with hq | hq
  · exact hm.dispatch q hq
  · exact .inr (hq.trans hm.term)

theorem Moves.congr (hterm : h'.term = h.term) (hdispatch : h'.dispatch = h.dispatch) :
    h.Moves h' := ⟨hterm, fun _ hq => .inl (hdispatch ▸ hq)⟩

theorem moves_send (calls : List Remote) (h : Half) : h.Moves (send calls h).2 := by
  induction calls generalizing h with
  | nil => exact .refl h
  | cons call rest ih =>
    unfold send
    split_ifs
    · refine Moves.trans ?_ (ih _)
      refine ⟨rfl, fun q hq => ?_⟩
      rcases List.mem_append.mp hq with hq | hq
      · exact .inl hq
      · exact .inr (List.mem_singleton.mp hq ▸ rfl)
    · cases call with
      | run agent endpoint job body replace => exact ih h
      | tasks agent endpoint =>
        refine Moves.trans ?_ (ih _)
        exact .congr rfl rfl
      | stopJob endpoint job => exact ih h
      | stopTask endpoint task => exact ih h
      | deleteJob endpoint job => exact ih h

theorem moves_flush (h : Half) : h.Moves h.flush.2 := by
  refine Moves.trans ?_ (moves_send _ _)
  exact .congr rfl rfl

theorem moves_refused (h : Half) (now : Nanos) (agent job : String) (reply : Lead.RunReply)
    (live : Bool) : h.Moves (h.refused now agent job reply live) := by
  unfold refused
  dsimp only
  split_ifs <;> exact .congr rfl rfl

theorem moves_openLeader (h : Half) (nodeDead now : Nanos) (got : Except String (Option Bytes)) :
    h.Moves (h.openLeader nodeDead now got).2 := by
  unfold openLeader
  split
  · exact .refl h
  · dsimp only
    split
    · exact .refl h
    · exact .congr rfl rfl

theorem moves_seedClusterJobs (h : Half) (now : Nanos) (jobs : List Types.Job) :
    h.Moves (h.seedClusterJobs now jobs) := by
  unfold seedClusterJobs
  split_ifs <;> exact .congr rfl rfl

/-- The election touches only the agent of the half. -/
theorem portKeeps_queue : PortKeeps fun h : Half => (h.term, h.dispatch) :=
  ⟨fun _ _ => rfl, fun _ _ => rfl, fun _ => rfl⟩

theorem Moves.of_port (he : (h'.term, h'.dispatch) = (h.term, h.dispatch)) : h.Moves h' :=
  .congr (Prod.ext_iff.mp he).1 (Prod.ext_iff.mp he).2

end Half

namespace Node

/-- What a part of a step does to the queues: it may queue loads, and it does not open the leader
half unless it may. -/
structure Moves (mayOpen : Bool) (n n' : Node Half) : Prop where
  half : n.loop.agent.Moves n'.loop.agent
  state : ∃ k, n'.state = n.state ++ List.replicate k .load
  live : mayOpen = false → n'.live = true → n.live = true

variable {b : Bool} {n n' n'' : Node Half}

theorem Moves.refl (n : Node Half) : n.Moves b n := ⟨.refl _, ⟨0, by simp⟩, fun _ h => h⟩

theorem Moves.trans (hm : n.Moves b n') (hm' : n'.Moves b n'') : n.Moves b n'' := by
  obtain ⟨k, hk⟩ := hm.state
  obtain ⟨k', hk'⟩ := hm'.state
  refine ⟨hm.half.trans hm'.half, ⟨k + k', ?_⟩, fun hb h => hm.live hb (hm'.live hb h)⟩
  rw [hk', hk, List.append_assoc, List.replicate_add]

/-- A step that touches neither the queue of the state task nor the leader half. -/
theorem Moves.of_half (hh : n.loop.agent.Moves n'.loop.agent) (hs : n'.state = n.state)
    (hl : n'.live = n.live) : n.Moves b n' := ⟨hh, ⟨0, by simp [hs]⟩, fun _ h => hl ▸ h⟩

theorem moves_electionReply (n : Node Half) (r : Request) (result : Except LinkError Unit) :
    n.Moves b (n.electionReply r result).2 :=
  .of_half (.of_port (Half.portKeeps_queue.onReply n.loop r result)) rfl rfl

theorem moves_sendLink (n : Node Half) (job : LinkJob) : n.Moves b (n.sendLink job).2 := by
  unfold sendLink
  split_ifs
  · exact .of_half (.refl _) rfl rfl
  · cases job with
    | election req url body => exact n.moves_electionReply _ _
    | notify url body => exact .refl n

theorem moves_startLeading (n : Node Half) : n.Moves b n.startLeading := by
  unfold startLeading
  split_ifs
  · exact .refl n
  · exact ⟨.refl _, ⟨1, rfl⟩, fun _ h => h⟩
  · exact .refl n

theorem moves_stopLeading (n : Node Half) : n.Moves b n.stopLeading :=
  ⟨⟨rfl, fun _ hq => by cases hq⟩, ⟨0, by simp [stopLeading, setHalf]⟩, fun _ h => by cases h⟩

theorem moves_request (n : Node Half) (now : Nanos) (r : Request) :
    n.Moves b (n.request now r).2 := by
  cases r with
  | register leader => exact n.moves_sendLink _
  | heartbeat leader => exact n.moves_sendLink _
  | selfHeartbeat leader =>
    unfold request
    by_cases hlive : n.live = true
    · simp only [hlive, if_true]
      refine Moves.trans ?_ (moves_electionReply _ _ _)
      exact .of_half (.congr rfl rfl) rfl rfl
    · simp only [hlive]
      exact moves_electionReply _ _ _
  | selfRegister leader =>
    unfold request
    by_cases hlive : n.live = true
    · simp only [hlive, if_true]
      refine Moves.trans ?_ (moves_electionReply _ _ _)
      exact .of_half (.congr rfl rfl) rfl rfl
    · simp only [hlive]
      exact moves_electionReply _ _ _
  | startLeader => exact n.moves_startLeading
  | stopLeader => exact n.moves_stopLeading

theorem moves_requestEach (now : Nanos) (reqs : List Request) (n : Node Half) :
    n.Moves b (requestEach now reqs n).2 := by
  induction reqs generalizing n with
  | nil => exact .refl n
  | cons r rest ih => exact (n.moves_request now r).trans (ih _)

theorem moves_requests (now : Nanos) (rounds : ℕ) (reqs : List Request) (n : Node Half) :
    n.Moves b (requests now rounds reqs n) := by
  induction rounds generalizing reqs n with
  | zero => exact .refl n
  | succ rounds ih =>
    unfold requests
    split_ifs
    · exact .refl n
    · exact (moves_requestEach now reqs n).trans (ih _ _)

/-! ### The inputs of the node -/

/-- A step that only works on the half. -/
structure Works (n n' : Node Half) : Prop where
  half : n.loop.agent.Moves n'.loop.agent
  state : n'.state = n.state
  live : n'.live = n.live

theorem Works.trans (hw : n.Works n') (hw' : n'.Works n'') : n.Works n'' :=
  ⟨hw.half.trans hw'.half, hw'.state.trans hw.state, hw'.live.trans hw.live⟩

theorem works_onRan (n : Node Half) (now : Nanos) (agent job : String) (reply : Lead.RunReply) :
    n.Works (n.onRan now agent job reply) := by
  unfold onRan
  split_ifs
  · exact ⟨.refl _, rfl, rfl⟩
  · exact ⟨Half.moves_refused _ _ _ _ _ _, rfl, rfl⟩

theorem works_afterCluster (n : Node Half) (now : Nanos) : n.Works (n.afterCluster now) := by
  have hfold : ∀ (unsent : List (String × String)) (m : Node Half), m.Works
      (unsent.foldl (fun n u => n.onRan now u.1 u.2 .unreachable) m) := by
    intro unsent
    induction unsent with
    | nil => exact fun m => ⟨.refl _, rfl, rfl⟩
    | cons u rest ih => exact fun m => (m.works_onRan now _ _ _).trans (ih _)
  unfold afterCluster
  dsimp only
  refine Works.trans ?_ (hfold _ _)
  exact ⟨Half.moves_flush _, rfl, rfl⟩

/-- What a step does to the queues: it may queue loads and, if the leader half is open after it,
snapshots. -/
structure Queues (mayOpen : Bool) (n n' : Node Half) : Prop where
  half : n.loop.agent.Moves n'.loop.agent
  state : ∃ k saves, n'.state = n.state ++ (List.replicate k .load ++ List.map .save saves) ∧
    (saves ≠ [] → n'.live = true)
  live : mayOpen = false → n'.live = true → n.live = true

theorem Moves.queues (hm : n.Moves b n') : n.Queues b n' := by
  obtain ⟨k, hk⟩ := hm.state
  exact ⟨hm.half, ⟨k, [], by simpa using hk, by simp⟩, hm.live⟩

theorem Works.queues (hw : n.Works n') : n.Queues b n' :=
  (Moves.of_half hw.half hw.state hw.live).queues

theorem Queues.works (hq : n.Queues b n') (hw : n'.Works n'') : n.Queues b n'' := by
  obtain ⟨k, saves, hstate, hlive⟩ := hq.state
  exact ⟨hq.half.trans hw.half, ⟨k, saves, hw.state.trans hstate, fun hs => hw.live.trans (hlive hs)⟩,
    fun hb h => hq.live hb (hw.live ▸ h)⟩

theorem Moves.persistSnapshot (hm : n.Moves b n') (now : Nanos) :
    n.Queues b (n'.persistSnapshot now) := by
  obtain ⟨k, hk⟩ := hm.state
  unfold Node.persistSnapshot
  by_cases hlive : n'.live = true
  · simp only [hlive, Bool.not_true, Bool.false_eq_true, if_false]
    have hpoll : n'.loop.agent.Moves (NodeHalf.pollSnapshot n'.loop.agent now).2 := .congr rfl rfl
    generalize NodeHalf.pollSnapshot n'.loop.agent now = r at hpoll ⊢
    obtain ⟨result, half⟩ := r
    have hwork : n.Queues b (n'.setHalf half) :=
      hm.queues.works ⟨hpoll, rfl, rfl⟩
    split
    · rename_i s h' heq
      cases heq
      split_ifs
      · refine ⟨hm.half.trans hpoll, ⟨k, [s], ?_, fun _ => hlive⟩, hm.live⟩
        simp [hk]
      · exact hwork.works ⟨.congr rfl rfl, rfl, rfl⟩
    · rename_i heq
      cases heq
      exact hwork
    · rename_i heq
      cases heq
      exact hwork
  · simpa only [hlive, Bool.not_false, if_true] using hm.queues

theorem queues_clusterTick (n : Node Half) (now : Nanos) : n.Queues b (n.clusterTick now) := by
  unfold clusterTick
  dsimp only
  refine Queues.works (Moves.persistSnapshot ?_ now) (works_afterCluster _ now)
  split_ifs
  all_goals first
    | exact .of_half (.refl _) rfl rfl
    | refine Moves.trans ?_ (moves_requests now _ _ _)
      exact .of_half (.of_port (Half.portKeeps_queue.tick _ _)) rfl rfl

theorem moves_onLease (n : Node Half) (now : Nanos) (r : LeaseReply) :
    n.Moves b (n.onLease now r) := by
  unfold onLease
  dsimp only
  split_ifs
  · refine Moves.trans ?_ (moves_requests now _ _ _)
    exact .of_half (.of_port (Half.portKeeps_queue.becomeLeaderNow _)) rfl rfl
  all_goals exact .of_half (.refl _) rfl rfl

/-- The committed state comes: only this may open the leader half, if it is opening. -/
theorem moves_finishLeading (n : Node Half) (now : Nanos) (got : Except String (Option Bytes)) :
    n.Moves (n.loading && n.loop.el.leading) (n.finishLeading now got) := by
  unfold finishLeading
  by_cases hloading : n.loading = true
  · simp only [hloading, Bool.not_true, Bool.false_eq_true, if_false, Bool.true_and]
    cases hlead : n.loop.el.leading
    · simp only [Bool.not_false, if_true]
      exact .of_half (.refl _) rfl rfl
    · simp only [Bool.not_true, Bool.false_eq_true, if_false]
      have hopen := n.loop.agent.moves_openLeader n.nodeDead now got
      change n.loop.agent.Moves (NodeHalf.openLeader n.loop.agent n.nodeDead now got).2 at hopen
      generalize NodeHalf.openLeader n.loop.agent n.nodeDead now got = r at hopen ⊢
      obtain ⟨_ | loaded, half⟩ := r
      · refine Moves.trans ?_ (moves_requests now _ _ _)
        refine .of_half (hopen.trans ?_) rfl rfl
        exact .of_port (Half.portKeeps_queue.stepDown _ true)
      · dsimp only
        split
        · refine ⟨hopen.trans ?_, ⟨0, by simp [setHalf]⟩, by simp⟩
          refine Half.Moves.trans ?_ (Half.moves_seedClusterJobs _ _ _)
          exact .congr rfl rfl
        · exact ⟨hopen.trans (.congr rfl rfl), ⟨0, by simp [setHalf]⟩, by simp⟩
  · simpa [hloading] using Moves.refl n

/-- Whether a mail opens the leader half. -/
def mayOpen (n : Node Half) : Mail → Bool
  | .loaded _ => n.loading && n.loop.el.leading
  | _ => false

theorem queues_onMail (n : Node Half) (mail : Mail) (now : Nanos) :
    n.Queues (n.mayOpen mail) (n.onMail mail now) := by
  unfold onMail
  refine Queues.works ?_ (works_afterCluster _ now)
  cases mail with
  | lease r => exact (n.moves_onLease now r).queues
  | note line => exact (Moves.refl n).queues
  | link req result =>
    exact ((n.moves_electionReply req result).trans (moves_requests now _ _ _)).queues
  | loaded got => exact (n.moves_finishLeading now got).queues
  | saveFailed why =>
    dsimp only
    unfold onSaveFailed
    split_ifs
    · exact Works.queues ⟨.congr rfl rfl, rfl, rfl⟩
    · exact (Moves.refl n).queues
  | ran agent job reply => exact (n.works_onRan now agent job reply).queues
  | tasks agent tasks => exact Works.queues ⟨.congr rfl rfl, rfl, rfl⟩

theorem queues_notifyLeader (n : Node Half) (job event : String) :
    n.Queues b (n.notifyLeader job event) := by
  unfold notifyLeader
  dsimp only
  split_ifs
  · exact (Moves.refl n).queues
  · exact (n.moves_sendLink _).queues

/-- What happens to the node by itself: the clocks, the election, and the queues of its lease and
link tasks. -/
def Event.isFree : Event Half → Bool
  | .wallClock _ | .boot _ | .tick _ | .leaseTaken | .linkTaken | .notify _ _ => true
  | .mail (.lease _) _ | .mail (.note _) _ | .mail (.link _ _) _ => true
  | .mail _ _ | .stateTaken | .work _ => false

theorem queues_step {e : Event Half} (he : e.isFree = true) (hstep : n.step e = some n') :
    n.Queues false n' := by
  cases e with
  | wallClock t =>
    simp only [step] at hstep
    split_ifs at hstep
    cases hstep
    exact Works.queues ⟨.refl _, rfl, rfl⟩
  | boot now =>
    cases hstep
    unfold clusterBoot
    refine Works.queues (Works.trans ?_ (works_afterCluster _ now))
    exact ⟨.refl _, rfl, rfl⟩
  | tick now =>
    cases hstep
    exact n.queues_clusterTick now
  | mail m now =>
    cases hstep
    cases m with
    | lease r => exact n.queues_onMail (.lease r) now
    | note line => exact n.queues_onMail (.note line) now
    | link req result => exact n.queues_onMail (.link req result) now
    | loaded got => cases he
    | saveFailed why => cases he
    | ran agent job reply => cases he
    | tasks agent tasks => cases he
  | leaseTaken =>
    simp only [step] at hstep
    split at hstep
    · cases hstep
    · cases hstep
      exact Works.queues ⟨.refl _, rfl, rfl⟩
  | linkTaken =>
    simp only [step] at hstep
    split_ifs at hstep
    cases hstep
    exact Works.queues ⟨.refl _, rfl, rfl⟩
  | stateTaken => cases he
  | notify job event =>
    cases hstep
    exact n.queues_notifyLeader job event
  | work half => cases he

end Node

/-! ### The tasks -/

/-- What the state task does. -/
inductive StateTask
  | idle
  /-- It took a snapshot, and looks whether there is more in its queue. -/
  | holds (snapshot : Bytes) (term : ℕ)
  /-- It reads the committed state; it may hold a snapshot meanwhile. -/
  | reads (term : ℕ) (held : Option (Bytes × ℕ))
  /-- It overwrites the committed state. -/
  | writes (snapshot : Bytes) (term : ℕ)

/-- The task takes an order. With `coalesces` only the last of the snapshots that wait counts, and
a read goes first. -/
def StateTask.take (coalesces : Bool) : StateTask → StateOp → ℕ → Option StateTask
  | .idle, .load, t => some (.reads t none)
  | .idle, .save s, t => some (.holds s t)
  | .holds s t', .load, t => if coalesces then some (.reads t (some (s, t'))) else none
  | .holds _ _, .save s, t => if coalesces then some (.holds s t) else none
  | .reads _ _, _, _ => none
  | .writes _ _, _, _ => none

/-- What the task goes on with after a read. -/
def StateTask.resume : Option (Bytes × ℕ) → StateTask
  | none => .idle
  | some (s, t) => .holds s t

/-- The answer of an agent to a call: none to a stop. -/
def Remote.answer (reply : Lead.RunReply) (tasks : Option (List Task)) : Remote → Option Mail
  | .run agent _ job _ _ => some (.ran agent job reply)
  | .tasks agent _ => some (.tasks agent tasks)
  | .stopJob _ _ | .stopTask _ _ | .deleteJob _ _ => none

/-- Whether the state task or the dispatch task sends the mail. -/
def Mail.isAnswer : Mail → Bool
  | .loaded _ | .saveFailed _ | .ran _ _ _ | .tasks _ _ => true
  | .lease _ | .note _ | .link _ _ => false

/-- Whether the mail answers an order of the leader: its load, its `run` or its question for
tasks. -/
def Mail.isReply : Mail → Bool
  | .loaded _ | .ran _ _ _ | .tasks _ _ => true
  | .lease _ | .note _ | .link _ _ | .saveFailed _ => false

/-- The term of a read that is under way. -/
def StateTask.reading : StateTask → List ℕ
  | .reads t _ => [t]
  | _ => []

/-- The terms of the snapshots that the state task has. -/
def StateTask.saving : StateTask → List ℕ
  | .idle => []
  | .holds _ t => [t]
  | .reads _ held => (held.map Prod.snd).toList
  | .writes _ t => [t]

/-- A clustered node with its state task and its dispatch task. -/
structure Post where
  node : Node Half
  /-- The number of the last win. -/
  term : ℕ
  /-- The terms of the orders in the queue of the state task. -/
  stateTerms : List ℕ
  task : StateTask
  /-- The state task of HopOS coalesces the snapshots that wait, the thread of the daemon does
  not. -/
  coalesces : Bool
  /-- The call that the dispatch task carries out. -/
  calling : Option Queued
  /-- The answers that are under way, with the term of the order they answer. -/
  answers : List (Mail × ℕ)
  /-- The term of the load whose answer opened the leader half. -/
  opened : ℕ

namespace Post

/-- The agent and the leader half. -/
def half (p : Post) : Half := p.node.loop.agent

/-- The orders to the state task with their terms. -/
def orders (p : Post) : List (StateOp × ℕ) := p.node.state.zip p.stateTerms

/-- The node made a step in this term. -/
def moved (p : Post) (term : ℕ) (n : Node Half) : Post :=
  { p with
    node := n
    term := term
    stateTerms := p.stateTerms ++ List.replicate (n.state.length - p.node.state.length) term }

/-- The node as it writes the term down. -/
def inTerm (p : Post) (term : ℕ) : Node Half := p.node.setHalf { p.half with term := term }

/-- What can happen to a node with its tasks. -/
inductive Event
  | node (e : Node.Event Half)
  /-- An operation on the live leader. -/
  | lead (op : Lead.Op) (now : Nanos)
  /-- The tick of the live leader asks the other agents for their tasks. -/
  | refresh (now : Nanos)
  /-- Whatever the agent of this node does by itself. -/
  | own (agent : Node.Agent)
  /-- The state task takes the oldest order, it begins to write, it has read, it has written. -/
  | takeOrder
  | write
  | read (got : Except String (Option Bytes))
  | wrote (result : Except String Unit)
  /-- The dispatch task takes the oldest call, and the agent answers it. -/
  | takeCall
  | answer (reply : Lead.RunReply) (tasks : Option (List Task))
  /-- The owner processes the `i`th of the answers. -/
  | deliver (i : ℕ) (now : Nanos)

/-- The node with its tasks after an event; `next` is the number of a win, if the event is one. -/
def step (p : Post) (next : ℕ) : Event → Option Post
  | .node e =>
    let term := if p.node.wins e then next else p.term
    if e.isFree then ((p.inTerm term).step e).map (p.moved term) else none
  | .lead op now =>
    if p.node.live then
      some (p.moved p.term ((p.node.setHalf (p.half.lead now op)).afterCluster now))
    else none
  | .refresh now =>
    if p.node.live then
      some (p.moved p.term ((p.node.setHalf p.half.refreshRemoteTasks).afterCluster now))
    else none
  | .own agent => some { p with node := p.node.setHalf { p.half with agent := agent } }
  | .takeOrder =>
    match p.node.state, p.stateTerms with
    | op :: ops, t :: ts =>
      (p.task.take p.coalesces op t).map fun task =>
        { p with node := { p.node with state := ops }, stateTerms := ts, task := task }
    | _, _ => none
  | .write =>
    match p.task with
    | .holds s t =>
      if p.coalesces = true ∧ p.node.state ≠ [] then none
      else some { p with task := .writes s t }
    | _ => none
  | .read got =>
    match p.task with
    | .reads t held =>
      some { p with task := .resume held, answers := p.answers ++ [(.loaded got, t)] }
    | _ => none
  | .wrote result =>
    match p.task, result with
    | .writes _ _, .ok () => some { p with task := .idle }
    | .writes _ t, .error why =>
      some { p with task := .idle, answers := p.answers ++ [(.saveFailed why, t)] }
    | _, _ => none
  | .takeCall =>
    match p.calling, p.half.dispatch with
    | none, q :: rest =>
      some { p with node := p.node.setHalf { p.half with dispatch := rest }, calling := some q }
    | _, _ => none
  | .answer reply tasks =>
    match p.calling with
    | some q =>
      some { p with
        calling := none
        answers := p.answers ++ ((q.call.answer reply tasks).map fun mail => (mail, q.term)).toList }
    | none => none
  | .deliver i now =>
    match p.answers[i]? with
    | some (mail, t) =>
      let n := p.node.onMail mail now
      some { p.moved p.term n with
        answers := p.answers.eraseIdx i
        opened := if n.live && !p.node.live then t else p.opened }
    | none => none

/-- A node at its start: nothing is queued and nothing is under way. -/
structure Fresh (p : Post) : Prop where
  node : ∃ ip port wallMs ttlMs initJobs nodeDead now half, half.dispatch = [] ∧ half.term = 0 ∧
    p.node = .newClustered ip port wallMs ttlMs initJobs nodeDead now half
  term : p.term = 0
  stateTerms : p.stateTerms = []
  task : p.task = .idle
  calling : p.calling = none
  answers : p.answers = []

/-! ### What a step leaves -/

/-- The terms of the orders go with the orders, and only the state task and the dispatch task
answer this way. -/
structure Sound (p : Post) : Prop where
  out : p.node.loop.el.out = []
  sober : p.node.Sober
  half : p.half.term = p.term
  length : p.stateTerms.length = p.node.state.length
  answers : ∀ a ∈ p.answers, a.1.isAnswer = true

theorem Fresh.sound {p : Post} (h : p.Fresh) : p.Sound := by
  obtain ⟨ip, port, wallMs, ttlMs, initJobs, nodeDead, now, half, -, hterm, hnode⟩ := h.node
  refine ⟨by rw [hnode]; rfl, fun ho => ?_, ?_, ?_, fun a ha => ?_⟩
  · rw [hnode] at ho
    cases ho
  · rw [Post.half, hnode, h.term]
    exact hterm
  · rw [h.stateTerms, hnode]
    rfl
  · rw [h.answers] at ha
    cases ha

variable {p p' : Post} {b : Bool} {n : Node Half}

/-- Orders that are added get the term beside them. -/
theorem zip_append_replicate {α : Type} {xs : List α} {ts : List ℕ} (h : ts.length = xs.length)
    (ys : List α) (t : ℕ) :
    (xs ++ ys).zip (ts ++ List.replicate ys.length t) = xs.zip ts ++ ys.map fun y => (y, t) := by
  rw [List.zip_append h.symm]
  congr 1
  induction ys with
  | nil => rfl
  | cons y ys ih => rw [List.length_cons, List.replicate_succ, List.zip_cons_cons, ih, List.map_cons]

/-- What the node queues is of the term; it queues snapshots only if the leader half is open after
the step. -/
theorem orders_moved (h : p.Sound) (term : ℕ) {m : Node Half} (hstate : m.state = p.node.state)
    (hq : m.Queues b n) : ∃ added : List StateOp,
      (p.moved term n).orders = p.orders ++ added.map (fun op => (op, term)) ∧
      (p.moved term n).stateTerms.length = n.state.length ∧
      ∀ s, StateOp.save s ∈ added → n.live = true := by
  obtain ⟨k, saves, hs, hlive⟩ := hq.state
  rw [hstate] at hs
  generalize hadded : List.replicate k StateOp.load ++ List.map StateOp.save saves = added at hs
  have hlen : n.state.length - p.node.state.length = added.length := by
    rw [hs, List.length_append]
    omega
  refine ⟨added, ?_, ?_, fun s hmem => hlive ?_⟩
  · simp only [orders, moved, hlen]
    rw [hs]
    exact zip_append_replicate h.length _ _
  · simp only [moved, hlen]
    rw [hs]
    simp [h.length]
  · rintro rfl
    simp [← hadded] at hmem

/-- What a step does to the election, the term and the leader half. -/
structure Turns (p p' : Post) (won : Bool) (next : ℕ) : Prop where
  sound : p'.Sound
  term : p'.term = if won then next else p.term
  leads : p'.node.loop.el.leading = true → p.node.loop.el.leading = true ∨ won = true
  win : won = true → p.node.loop.el.leading = false
  /-- The leader half was open, or the answer to a load opens it. -/
  live : p'.node.live = true → (p.node.live = true ∧ p'.opened = p.opened) ∨
    ∃ got, (Mail.loaded got, p'.opened) ∈ p.answers ∧ p.node.loop.el.leading = true

/-- What the state task takes was in its queue. -/
theorem taken {task task' : StateTask} {coalesces : Bool} {op : StateOp} {s : ℕ}
    (htask : task.take coalesces op s = some task') :
    (∀ t ∈ task'.reading, op = .load ∧ t = s) ∧
      ∀ t ∈ task'.saving, t ∈ task.saving ∨ t = s ∧ op ≠ .load := by
  cases task <;> cases op <;> simp only [StateTask.take] at htask
  all_goals try split_ifs at htask
  all_goals cases htask
  all_goals simp_all [StateTask.saving, StateTask.reading]

/-- **The state task and the dispatch task pass on what they have**: orders, calls and answers. -/
structure Passes (p p' : Post) : Prop where
  fixed : (p'.node.loop.el, p'.node.live, p'.node.loading, p'.half.term, p'.term, p'.opened) =
    (p.node.loop.el, p.node.live, p.node.loading, p.half.term, p.term, p.opened)
  length : p.stateTerms.length = p.node.state.length → p'.stateTerms.length = p'.node.state.length
  orders : ∀ o ∈ p'.orders, o ∈ p.orders
  reading : ∀ t ∈ p'.task.reading, t ∈ p.task.reading ∨ (StateOp.load, t) ∈ p.orders
  saving : ∀ t ∈ p'.task.saving, t ∈ p.task.saving ∨ ∃ s, (StateOp.save s, t) ∈ p.orders
  calls : ∀ q, q ∈ p'.half.dispatch ∨ q ∈ p'.calling → q ∈ p.half.dispatch ∨ q ∈ p.calling
  answers : ∀ a ∈ p'.answers, a ∈ p.answers ∨ a.1.isAnswer = true ∧ (a.1.isReply = true →
    a.2 ∈ p.task.reading ∨ ∃ q ∈ p.calling, q.call.isStop = false ∧ q.term = a.2)

/-- The events of the two tasks, and of the agent by itself. -/
def Event.isTask : Event → Bool
  | .node _ | .lead _ _ | .refresh _ | .deliver _ _ => false
  | _ => true

theorem passes_step {next : ℕ} {e : Event} (htask : e.isTask = true)
    (hstep : p.step next e = some p') : p.Passes p' := by
  cases e with
  | node e => cases htask
  | lead op now => cases htask
  | refresh now => cases htask
  | deliver i now => cases htask
  | own agent =>
    cases hstep
    exact ⟨rfl, id, fun _ => id, fun _ => .inl, fun _ => .inl, fun _ => id, fun _ => .inl⟩
  | takeOrder =>
    simp only [step] at hstep
    split at hstep
    · rename_i op ops s ts hstate hterms
      obtain ⟨task, htake, rfl⟩ := Option.map_eq_some_iff.mp hstep
      have horders : p.orders = (op, s) :: ops.zip ts := by
        rw [orders, hstate, hterms, List.zip_cons_cons]
      obtain ⟨hreading, hsaving⟩ := taken htake
      refine ⟨rfl, fun hlen => ?_, fun o ho => horders ▸ List.mem_cons_of_mem _ ho, fun t ht => .inr ?_,
        fun t ht => ?_, fun _ => id, fun _ => .inl⟩
      · rw [hstate, hterms] at hlen
        exact Nat.succ.inj hlen
      · obtain ⟨rfl, rfl⟩ := hreading t ht
        exact horders ▸ List.mem_cons_self
      · refine (hsaving t ht).imp_right ?_
        rintro ⟨rfl, hop⟩
        cases op with
        | load => exact absurd rfl hop
        | save snapshot => exact ⟨snapshot, horders ▸ List.mem_cons_self⟩
    · cases hstep
  | write =>
    simp only [step] at hstep
    split at hstep
    · rename_i s t' htask'
      split_ifs at hstep
      cases hstep
      exact ⟨rfl, id, fun _ => id, fun _ ht => absurd ht List.not_mem_nil,
        fun _ ht => .inl (htask' ▸ ht), fun _ => id, fun _ => .inl⟩
    · cases hstep
  | read got =>
    simp only [step] at hstep
    split at hstep
    · rename_i s held hreads
      cases hstep
      refine ⟨rfl, id, fun _ => id, fun t ht => ?_, fun t ht => .inl ?_, fun _ => id, fun a ha => ?_⟩
      · cases held <;> cases ht
      · rw [hreads]
        cases held
        · cases ht
        · exact ht
      · refine (List.mem_append.mp ha).imp_right fun ha => ?_
        obtain rfl := List.mem_singleton.mp ha
        exact ⟨rfl, fun _ => .inl (hreads ▸ List.mem_singleton_self s)⟩
    · cases hstep
  | wrote result =>
    simp only [step] at hstep
    split at hstep
    · cases hstep
      exact ⟨rfl, id, fun _ => id, fun _ ht => absurd ht List.not_mem_nil,
        fun _ ht => absurd ht List.not_mem_nil, fun _ => id, fun _ => .inl⟩
    · cases hstep
      refine ⟨rfl, id, fun _ => id, fun _ ht => absurd ht List.not_mem_nil,
        fun _ ht => absurd ht List.not_mem_nil, fun _ => id, fun a ha => ?_⟩
      refine (List.mem_append.mp ha).imp_right fun ha => ?_
      obtain rfl := List.mem_singleton.mp ha
      exact ⟨rfl, fun hreply => by cases hreply⟩
    · cases hstep
  | takeCall =>
    simp only [step] at hstep
    split at hstep
    · rename_i q rest hcalling hdispatch
      cases hstep
      refine ⟨rfl, id, fun _ => id, fun _ => .inl, fun _ => .inl, fun q' hmem => .inl ?_, fun _ => .inl⟩
      rw [hdispatch]
      rcases hmem with hmem | hmem
      · exact List.mem_cons_of_mem _ hmem
      · exact Option.some.inj hmem ▸ List.mem_cons_self
    · cases hstep
  | answer reply tasks =>
    simp only [step] at hstep
    split at hstep
    · rename_i q hcalling
      cases hstep
      refine ⟨rfl, id, fun _ => id, fun _ => .inl, fun _ => .inl,
        fun q' hmem => .inl (hmem.resolve_right (by simp)), fun a ha => ?_⟩
      refine (List.mem_append.mp ha).imp_right fun ha => ?_
      obtain ⟨mail, hmail, rfl⟩ : ∃ mail, q.call.answer reply tasks = some mail ∧
          (mail, q.term) = a := by
        simpa using ha
      have hkind : mail.isAnswer = true ∧ q.call.isStop = false := by
        cases hq : q.call <;> simp [hq, Remote.answer] at hmail <;> exact hmail ▸ ⟨rfl, rfl⟩
      exact ⟨hkind.1, fun _ => .inr ⟨q, hcalling, hkind.2, rfl⟩⟩
    · cases hstep

/-- The tasks leave the election alone. -/
theorem Passes.turns (hp : p.Passes p') (h : p.Sound) (next : ℕ) : p.Turns p' false next := by
  obtain ⟨hel, hlive, hloading, hhalf, hterm, hopened⟩ :
      p'.node.loop.el = p.node.loop.el ∧ p'.node.live = p.node.live ∧
      p'.node.loading = p.node.loading ∧ p'.half.term = p.half.term ∧ p'.term = p.term ∧
      p'.opened = p.opened := by
    simpa only [Prod.mk.injEq] using hp.fixed
  refine ⟨⟨hel ▸ h.out, fun ho => ?_, by rw [hhalf, hterm, h.half], hp.length h.length,
    fun a ha => ?_⟩, hterm, fun hl => .inl (hel ▸ hl), (fun hw => by cases hw),
    fun hl => .inl ⟨hlive ▸ hl, hopened⟩⟩
  · rw [hel]
    refine h.sober ?_
    rwa [Node.opens, hlive, hloading] at ho
  · exact (hp.answers a ha).elim (h.answers a) And.left

/-- **The node queues orders and calls of its term**, snapshots only if the leader half is open
after the step. -/
structure Adds (p p' : Post) : Prop where
  orders : ∀ o ∈ p'.orders, o ∈ p.orders ∨
    o.2 = p'.term ∧ ∀ s, o.1 = .save s → p'.node.live = true
  task : p'.task = p.task
  calls : ∀ q, q ∈ p'.half.dispatch ∨ q ∈ p'.calling →
    (q ∈ p.half.dispatch ∨ q ∈ p.calling) ∨ q.term = p'.term
  answers : p'.answers ⊆ p.answers

theorem adds_moved (h : p.Sound) {m : Node Half} {term : ℕ} (hstate : m.state = p.node.state)
    (hdispatch : m.loop.agent.dispatch = p.half.dispatch) (hterm : m.loop.agent.term = term)
    (hq : m.Queues b n) : p.Adds (p.moved term n) := by
  obtain ⟨added, horders, -, hlive⟩ := orders_moved h term hstate hq
  refine ⟨fun o ho => ?_, rfl, fun q hmem => ?_, fun _ => id⟩
  · rw [horders] at ho
    refine (List.mem_append.mp ho).imp_right fun ho => ?_
    obtain ⟨op, hop, rfl⟩ := List.mem_map.mp ho
    exact ⟨rfl, fun s hs => hlive s (hs ▸ hop)⟩
  · rcases hmem with hmem | hmem
    · exact (hq.half.dispatch q hmem).imp (fun hmem => .inl (hdispatch ▸ hmem)) (·.trans hterm)
    · exact .inl (.inr hmem)

theorem adds_step (h : p.Sound) {next : ℕ} {e : Event} (htask : e.isTask = false)
    (hstep : p.step next e = some p') : p.Adds p' := by
  cases e with
  | node e =>
    unfold step at hstep
    dsimp only at hstep
    generalize (if p.node.wins e = true then next else p.term) = term at hstep
    by_cases hfree : e.isFree = true
    · rw [if_pos hfree] at hstep
      obtain ⟨n, hn, rfl⟩ := Option.map_eq_some_iff.mp hstep
      exact adds_moved (m := p.inTerm term) h rfl rfl rfl (Node.queues_step hfree hn)
    · rw [if_neg hfree] at hstep
      cases hstep
  | lead op now =>
    simp only [step] at hstep
    split_ifs at hstep
    cases hstep
    exact adds_moved (m := p.node.setHalf (p.half.lead now op)) h rfl rfl h.half
      ((Node.works_afterCluster _ now).queues (b := false))
  | refresh now =>
    simp only [step] at hstep
    split_ifs at hstep
    cases hstep
    exact adds_moved (m := p.node.setHalf p.half.refreshRemoteTasks) h rfl rfl h.half
      ((Node.works_afterCluster _ now).queues (b := false))
  | deliver i now =>
    simp only [step] at hstep
    split at hstep
    · rename_i mail t hget
      cases hstep
      have hadds := adds_moved h rfl rfl h.half (p.node.queues_onMail mail now)
      exact ⟨hadds.orders, rfl, hadds.calls, fun _ => List.mem_of_mem_eraseIdx⟩
    · cases hstep
  | own | takeOrder | write | read | wrote | takeCall | answer => cases htask

/-- The live leader works, and its calls are handed over. -/
theorem turns_work (h : p.Sound) (next : ℕ) (now : Nanos) {half : Half}
    (hterm : half.term = p.half.term) (hdispatch : half.dispatch = p.half.dispatch) :
    p.Turns (p.moved p.term ((p.node.setHalf half).afterCluster now)) false next := by
  have hwork : p.node.Works ((p.node.setHalf half).afterCluster now) := by
    refine Node.Works.trans ?_ (Node.works_afterCluster _ now)
    exact ⟨.congr hterm hdispatch, rfl, rfl⟩
  have hleaves : ((p.node.setHalf half).afterCluster now).Leaves p.node.loop.el.leading
      p.node.opens := by
    refine Node.Leaves.afterCluster ?_ now
    exact ⟨rfl, rfl, h.out⟩
  obtain ⟨added, -, hlength, -⟩ :=
    orders_moved h p.term rfl (hwork.queues (b := false))
  refine ⟨⟨hleaves.out, fun ho => ?_, hwork.half.term.trans h.half, hlength, h.answers⟩, rfl,
    fun hl => .inl (hleaves.leading ▸ hl), (fun hw => by cases hw), fun hl => .inl ⟨?_, rfl⟩⟩
  · exact hleaves.leading.trans (h.sober (hleaves.opens ▸ ho))
  · exact hwork.live ▸ hl

theorem turns_node (h : p.Sound) {next : ℕ} {e : Node.Event Half}
    (hstep : p.step next (.node e) = some p') : p.Turns p' (p.node.wins e) next := by
  unfold step at hstep
  dsimp only at hstep
  generalize hterm : (if p.node.wins e = true then next else p.term) = term at hstep
  by_cases hfree : e.isFree = true
  · rw [if_pos hfree] at hstep
    obtain ⟨n, hn, rfl⟩ := Option.map_eq_some_iff.mp hstep
    have hgoes := Node.goes_step (n := p.inTerm term) h.out hn
    have hqueues := Node.queues_step hfree hn
    obtain ⟨added, -, hlength, -⟩ := orders_moved h term
      (show (p.inTerm term).state = p.node.state from rfl) hqueues
    have hclaims : (p.inTerm term).claims e = p.node.claims e := rfl
    refine ⟨⟨hgoes.out, hgoes.sober h.sober, hqueues.half.term, hlength, h.answers⟩, hterm.symm,
      fun hl => ?_, fun hw => ?_, fun hl => .inl ⟨hqueues.live rfl hl, rfl⟩⟩
    · cases hlead : p.node.loop.el.leading
      · have := (hgoes.leads hl).resolve_left (by simp [inTerm, hlead])
        exact .inr (by simp [Node.wins, hlead, ← hclaims, this])
      · exact .inl rfl
    · simp only [Node.wins, Bool.and_eq_true, Bool.not_eq_true'] at hw
      exact hw.1
  · rw [if_neg hfree] at hstep
    cases hstep

theorem turns_deliver (h : p.Sound) {next i : ℕ} {now : Nanos}
    (hstep : p.step next (.deliver i now) = some p') : p.Turns p' false next := by
  simp only [step] at hstep
  split at hstep
  · rename_i mail t hget
    cases hstep
    have hmem := List.mem_of_getElem? hget
    have hanswer := h.answers _ hmem
    have hgoes := Node.goes_step (e := .mail mail now) h.out rfl
    have hclaims : p.node.claims (.mail mail now) = false := by
      cases mail <;> first | rfl | cases hanswer
    have hqueues := p.node.queues_onMail mail now
    obtain ⟨added, -, hlength, -⟩ := orders_moved h p.term rfl hqueues
    refine ⟨⟨hgoes.out, hgoes.sober h.sober, hqueues.half.term.trans h.half, hlength,
      fun a ha => h.answers a (List.mem_of_mem_eraseIdx ha)⟩, rfl, fun hl => ?_,
      (fun hw => by cases hw), fun hl => ?_⟩
    · rw [hclaims] at hgoes
      exact .inl ((hgoes.leads hl).resolve_right (by simp))
    · have hnew : (p.node.onMail mail now).live = true := hl
      cases hlive : p.node.live
      · refine .inr ?_
        cases hmay : p.node.mayOpen mail
        · rw [hqueues.live hmay hnew] at hlive
          cases hlive
        · cases mail with
          | loaded got =>
            simp only [Node.mayOpen, Bool.and_eq_true] at hmay
            exact ⟨got, by simpa [hnew, hlive] using hmem, hmay.2⟩
          | _ => cases hmay
      · exact .inl ⟨rfl, by simp⟩
  · cases hstep

/-- The event makes the node the leader. -/
def wins (p : Post) : Event → Bool
  | .node e => p.node.wins e
  | _ => false

/-- **What every step does** to the election, the term and the leader half. -/
theorem turns_step (h : p.Sound) {next : ℕ} {e : Event} (hstep : p.step next e = some p') :
    p.Turns p' (p.wins e) next := by
  cases e with
  | node e => exact turns_node h hstep
  | lead op now =>
    simp only [step] at hstep
    split_ifs at hstep
    cases hstep
    exact turns_work h next now rfl rfl
  | refresh now =>
    simp only [step] at hstep
    split_ifs at hstep
    cases hstep
    exact turns_work h next now rfl rfl
  | deliver i now => exact turns_deliver h hstep
  | own | takeOrder | write | read | wrote | takeCall | answer =>
    exact (passes_step rfl hstep).turns h next

end Post

end Hop.HopOS
