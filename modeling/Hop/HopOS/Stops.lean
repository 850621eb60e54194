import Hop.HopOS.Relay
import Hop.Lead.Ledger

/-!
# The stops of a leader reach the dispatch queue

A stop of a job or a task on another node is "done" for the leader as soon as the relay has it. The
relay hands its calls over after each input, and the queue of the dispatch task has a fixed size. A
`run` that does not fit comes back to the leader as a refusal; a stop that does not fit is counted
and forgotten. `stops_kept_iff` says that this is the only way a stop is lost, over every run of a
live leader.
-/

namespace Hop.HopOS

open Hop.Types (Agent Job Map Task)
open Hop.Lead (Ledger Leader Logged Off RunReply StopsTasks Transport)

/-! ### What the calls of the leader do to the relay -/

namespace Relay

/-- The relay wrote down more calls, and they all wait to be handed over. -/
def Grew (r r' : Relay) : Prop :=
  ∃ new, r'.issued = r.issued ++ new ∧ r'.out = r.out ++ new.map Prod.fst

variable {r r' r'' : Relay}

theorem Grew.refl (r : Relay) : r.Grew r := ⟨[], by simp, by simp⟩

theorem Grew.trans (h : r.Grew r') (h' : r'.Grew r'') : r.Grew r'' := by
  obtain ⟨new, hissued, hout⟩ := h
  obtain ⟨new', hissued', hout'⟩ := h'
  exact ⟨new ++ new', by rw [hissued', hissued, List.append_assoc],
    by rw [hout', hout, List.map_append, List.append_assoc]⟩

theorem Grew.congr (hissued : r'.issued = r.issued) (hout : r'.out = r.out) : r.Grew r' :=
  ⟨[], by simp [hissued], by simp [hout]⟩

theorem grew_push (r : Relay) (call : Remote) : r.Grew (r.push call) :=
  ⟨[(call, r.about)], rfl, rfl⟩

theorem grew_run (r : Relay) (now : Nanos) (agent : Agent) (job : Job) (replace : Bool) :
    r.Grew (r.run now agent job replace).2 := by
  unfold run
  dsimp only
  split
  · split_ifs
    · exact .refl r
    · exact (Grew.congr rfl rfl).trans (grew_push _ _)
  · exact grew_push _ _

theorem grew_ask (r : Relay) (agent : Agent) : r.Grew (r.ask agent) := by
  unfold ask
  split_ifs
  · exact .refl r
  · exact (Grew.congr rfl rfl).trans (grew_push _ _)

theorem grew_refresh (r : Relay) (agents : List Agent) : r.Grew (r.refresh agents) := by
  have hasks : ∀ (agents : List Agent) (r : Relay), r.Grew (agents.foldl ask r) := by
    intro agents
    induction agents with
    | nil => exact fun r => .refl r
    | cons a rest ih => exact fun r => (r.grew_ask a).trans (ih _)
  exact (hasks agents r).trans (.congr rfl rfl)

end Relay

namespace Local

variable (n : Local)

theorem grew_run (agent : Agent) (job : Job) (replace : Bool) :
    n.relay.Grew (n.run agent job replace).2.relay := by
  unfold run
  split_ifs
  · exact n.relay.grew_run n.now agent job replace
  · exact .refl _

theorem grew_stopJob (agent : Agent) (job : String) :
    n.relay.Grew (n.stopJob agent job).2.relay := by
  unfold stopJob
  split_ifs
  · exact n.relay.grew_push _
  · exact .refl _

theorem grew_stopTask (agent : Agent) (taskId : String) :
    n.relay.Grew (n.stopTask agent taskId).relay := by
  unfold stopTask
  split_ifs
  · exact .refl _
  · exact n.relay.grew_push _

theorem grew_deleteJob (agent : Agent) (job : String) :
    n.relay.Grew (n.deleteJob agent job).relay := by
  unfold deleteJob
  split_ifs
  · exact .refl _
  · exact (Relay.Grew.congr rfl rfl).trans (Relay.grew_push _ _)

end Local

/-- Every call of the leader lets the relay grow. -/
theorem ledger_grew (r : Relay) :
    Ledger (fun _ => True) fun (_ : Off) (_ : Leader) (net : Local) => r.Grew net.relay where
  good _ _ := trivial
  named _ _ _ := trivial
  congr h _ _ _ := h
  reorder h _ := h
  refused {_ _ net _ a job replace _} h _ _ hrun _ := by
    have hgrew := net.grew_run a job replace
    rw [show net.run a job replace = _ from hrun] at hgrew
    exact h.trans hgrew
  accepted {_ net _ a job} h _ _ hrun := by
    have hgrew := net.grew_run a job false
    rw [show net.run a job false = _ from hrun] at hgrew
    exact h.trans hgrew
  dropPlacement h _ _ := h
  takePlacement h _ := h
  stopJob {_ _ net a name} h _ := h.trans (net.grew_stopJob a name)
  stopFailed {_ _ net _ a name} h hfalse := by
    have hgrew := net.grew_stopJob a name
    rw [show net.stopJob a name = _ from hfalse] at hgrew
    exact h.trans hgrew
  deleteJob {_ _ net a name} h _ := h.trans (net.grew_deleteJob a name)
  removeAgent h _ := h
  heartbeat h _ _ _ := h

theorem stopsTasks_grew (r : Relay) (name : String) :
    StopsTasks (fun _ => True) (fun (_ : Off) (_ : Leader) (net : Local) => r.Grew net.relay)
      name where
  replaced {_ net _ a job} h _ _ _ hrun := by
    have hgrew := net.grew_run a job true
    rw [show net.run a job true = _ from hrun] at hgrew
    exact h.trans hgrew
  stopTask {_ net a} h _ taskId := h.trans (net.grew_stopTask a taskId)
  tasks h _ := h
  pause h _ := h

namespace Half

/-- An operation of the leader only adds calls. -/
theorem grew_lead (h : Half) (now : Nanos) (op : Lead.Op) :
    h.relay.Grew (h.lead now op).relay ∧ (h.lead now op).dispatch = h.dispatch ∧
      (h.lead now op).sent = h.sent := by
  refine ⟨?_, rfl, rfl⟩
  have hgrew := (ledger_grew { h.relay with about := aboutOf op }).apply
    (s := ⟨h.leader, ⟨{ h with relay := { h.relay with about := aboutOf op } }.net now, []⟩⟩) op
    (.refl _) (fun _ _ => stopsTasks_grew _ _) (fun _ _ _ _ => .refl _) fun _ _ _ => .refl _
  exact (Relay.Grew.congr rfl rfl).trans hgrew

theorem grew_refused (h : Half) (now : Nanos) (agent job : String) (reply : RunReply)
    (live : Bool) :
    h.relay.Grew (h.refused now agent job reply live).relay ∧
      (h.refused now agent job reply live).dispatch = h.dispatch ∧
      (h.refused now agent job reply live).sent = h.sent := by
  have hkept : h.relay.Grew (h.relay.refuse now agent job reply) := .congr rfl rfl
  unfold refused
  dsimp only
  split_ifs
  · refine ⟨hkept.trans ?_, rfl, rfl⟩
    exact (ledger_grew _).reconcileJobs (.refl _)
  · exact ⟨hkept, rfl, rfl⟩

/-! ### The queue of the dispatch task -/

/-- How many calls still fit. -/
def room (h : Half) : ℕ := dispatchQ - h.dispatch.length

/-- The calls that fit go into the queue, in their order; the others do not. -/
theorem send_spec (calls : List Remote) (h : Half) :
    (send calls h).2.sent = h.sent ++ calls.take h.room ∧
      (send calls h).2.relay.issued = h.relay.issued ∧
      (send calls h).2.relay.out = h.relay.out := by
  induction calls generalizing h with
  | nil => simp [send]
  | cons call rest ih =>
    unfold send
    by_cases hfits : h.dispatch.length < dispatchQ
    · rw [if_pos hfits]
      obtain ⟨hsent, hissued, hout⟩ := ih { h with
        dispatch := h.dispatch ++ [⟨call, h.term⟩], sent := h.sent ++ [call] }
      refine ⟨hsent.trans ?_, hissued, hout⟩
      have hroom : h.room = room { h with
          dispatch := h.dispatch ++ [⟨call, h.term⟩], sent := h.sent ++ [call] } + 1 := by
        simp only [room, List.length_append, List.length_singleton]
        omega
      simp [hroom]
    · have hroom : h.room = 0 := by
        simp only [room]
        omega
      rw [if_neg hfits]
      have hfull : ∀ h' : Half, h'.dispatch = h.dispatch → h'.sent = h.sent →
          h'.relay.issued = h.relay.issued → h'.relay.out = h.relay.out →
          (send rest h').2.sent = h.sent ++ (call :: rest).take h.room ∧
            (send rest h').2.relay.issued = h.relay.issued ∧
            (send rest h').2.relay.out = h.relay.out := by
        intro h' hdispatch hsent hissued hout
        obtain ⟨hs, hi, ho⟩ := ih h'
        have hroom' : h'.room = 0 := by rw [room, hdispatch, ← hroom, room]
        rw [hroom', List.take_zero, List.append_nil] at hs
        rw [hroom, List.take_zero, List.append_nil]
        exact ⟨hs.trans hsent, hi.trans hissued, ho.trans hout⟩
      cases call with
      | run agent endpoint job body replace => exact hfull h rfl rfl rfl rfl
      | tasks agent endpoint => exact hfull _ rfl rfl rfl rfl
      | stopJob endpoint job => exact hfull h rfl rfl rfl rfl
      | stopTask endpoint task => exact hfull h rfl rfl rfl rfl
      | deleteJob endpoint job => exact hfull h rfl rfl rfl rfl

/-- After each input the calls go to the dispatch task; a `run` that did not fit is an agent that
did not answer. -/
def afterCluster (h : Half) (now : Nanos) : Half :=
  let (unsent, h) := h.flush
  unsent.foldl (fun h u => h.refused now u.1 u.2 .unreachable true) h

/-- What is handed over: the calls that fit are in the queue, and only what the leader asks for
after that waits. -/
theorem afterCluster_spec (h : Half) (now : Nanos) :
    (h.afterCluster now).sent = h.sent ++ h.relay.out.take h.room ∧
      ∃ new, (h.afterCluster now).relay.issued = h.relay.issued ++ new ∧
        (h.afterCluster now).relay.out = new.map Prod.fst := by
  have hfold : ∀ (unsent : List (String × String)) (m : Half),
      m.relay.Grew (unsent.foldl (fun h u => h.refused now u.1 u.2 .unreachable true) m).relay ∧
        (unsent.foldl (fun h u => h.refused now u.1 u.2 .unreachable true) m).sent = m.sent := by
    intro unsent
    induction unsent with
    | nil => exact fun m => ⟨.refl _, rfl⟩
    | cons u rest ih =>
      intro m
      obtain ⟨hgrew, -, hsent⟩ := m.grew_refused now u.1 u.2 .unreachable true
      obtain ⟨hgrew', hsent'⟩ := ih (m.refused now u.1 u.2 .unreachable true)
      exact ⟨hgrew.trans hgrew', hsent'.trans hsent⟩
  obtain ⟨hsent, hissued, hout⟩ := send_spec h.relay.out { h with relay := { h.relay with out := [] } }
  obtain ⟨⟨new, hnew, hwait⟩, hkept⟩ := hfold h.flush.1 h.flush.2
  refine ⟨hkept.trans hsent, new, hnew.trans (by rw [← hissued]; rfl), hwait.trans ?_⟩
  rw [show h.flush.2.relay.out = [] from hout, List.nil_append]

end Half

/-! ### Runs of a live leader -/

/-- What can happen to a live leader. -/
inductive LeadEvent
  /-- An operation on the leader: a request, a tick, a report of its own agent. -/
  | op (op : Lead.Op) (now : Nanos)
  | refresh
  /-- The end of an input. -/
  | flush (now : Nanos)
  /-- An agent on another node answered a `run`. -/
  | ran (agent job : String) (reply : RunReply) (now : Nanos)
  | tasks (agent : String) (tasks : Option (List Task))
  /-- The dispatch task takes the oldest call. -/
  | taken
  /-- Whatever the agent of this node does by itself. -/
  | own (agent : Node.Agent)

namespace Half

def leadStep (h : Half) : LeadEvent → Option Half
  | .op op now => some (h.lead now op)
  | .refresh => some h.refreshRemoteTasks
  | .flush now => some (h.afterCluster now)
  | .ran agent job reply now =>
    some (if reply = .accepted then h else h.refused now agent job reply true)
  | .tasks agent tasks => some { h with relay := h.relay.onTasks agent tasks }
  | .taken => if h.dispatch = [] then none else some { h with dispatch := h.dispatch.tail }
  | .own agent => some { h with agent := agent }

/-- The calls that the leader made. -/
def issued (h : Half) : List Remote := h.relay.issued.map Prod.fst

/-- **No stop is lost**: the stops that the leader made are those that got into the queue of the
dispatch task, and those that wait for the end of the input. -/
def StopsKept (h : Half) : Prop :=
  h.issued.filter Remote.isStop = (h.sent ++ h.relay.out).filter Remote.isStop

instance : DecidablePred StopsKept := fun h =>
  inferInstanceAs (Decidable (h.issued.filter _ = _))

/-- Every stop that waits fits into the queue, in its place. -/
def StopsFit (h : Half) : LeadEvent → Prop
  | .flush _ => ∀ call ∈ h.relay.out.drop h.room, call.isStop = false
  | _ => True

instance (h : Half) (e : LeadEvent) : Decidable (h.StopsFit e) := by
  unfold StopsFit
  split <;> infer_instance

/-- More calls that wait change nothing. -/
theorem StopsKept.grew {h h' : Half} (hk : h.StopsKept) (hgrew : h.relay.Grew h'.relay)
    (hsent : h'.sent = h.sent) : h'.StopsKept := by
  obtain ⟨new, hissued, hout⟩ := hgrew
  unfold StopsKept issued at hk ⊢
  rw [hissued, hout, hsent, List.map_append, ← List.append_assoc]
  simp only [List.filter_append] at hk ⊢
  rw [hk]

/-- At the end of an input the stops are kept exactly if they fit. -/
theorem stopsKept_afterCluster {h : Half} (hk : h.StopsKept) (now : Nanos) :
    (h.afterCluster now).StopsKept ↔ h.StopsFit (.flush now) := by
  obtain ⟨hsent, new, hissued, hout⟩ := h.afterCluster_spec now
  have hsplit := congrArg (List.filter Remote.isStop) (List.take_append_drop h.room h.relay.out)
  unfold StopsKept issued at hk ⊢
  rw [hissued, hout, hsent, List.map_append]
  simp only [List.filter_append] at hk hsplit ⊢
  rw [hk, ← hsplit, List.append_left_inj, ← List.append_assoc]
  refine List.append_right_eq_self.trans ?_
  simp only [StopsFit, List.filter_eq_nil_iff, Bool.not_eq_true]

theorem stopsKept_step {h h' : Half} {e : LeadEvent} (hk : h.StopsKept)
    (hstep : h.leadStep e = some h') : h'.StopsKept ↔ h.StopsFit e := by
  have hgrew : h.relay.Grew h'.relay → h'.sent = h.sent → (h'.StopsKept ↔ True) :=
    fun hgrew hsent => iff_true_intro (hk.grew hgrew hsent)
  cases e with
  | op op now =>
    cases hstep
    exact hgrew (h.grew_lead now op).1 rfl
  | refresh =>
    cases hstep
    exact hgrew (h.relay.grew_refresh _) rfl
  | flush now =>
    cases hstep
    exact stopsKept_afterCluster hk now
  | ran agent job reply now =>
    cases hstep
    by_cases hreply : reply = .accepted
    · rw [if_pos hreply]
      exact iff_true_intro hk
    · rw [if_neg hreply]
      obtain ⟨hrelay, -, hsent⟩ := h.grew_refused now agent job reply true
      exact iff_true_intro (hk.grew hrelay hsent)
  | tasks agent tasks =>
    cases hstep
    exact hgrew (.congr rfl rfl) rfl
  | taken =>
    simp only [leadStep] at hstep
    split_ifs at hstep
    cases hstep
    exact hgrew (.refl _) rfl
  | own agent =>
    cases hstep
    exact hgrew (.refl _) rfl

end Half

/-- A live leader, as a machine. It begins when the leader half has just been opened. -/
def liveLeader : Machine Half LeadEvent where
  Init h := h.relay = .new ∧ h.sent = []
  step := Half.leadStep

/-- **The stops of a leader reach the dispatch queue, exactly if they fit**: in a run of a live
leader no stop is lost if and only if at the end of each input every stop that waits fits into the
queue. And nothing waits longer than to the end of the input. -/
theorem stops_kept_iff (h : Half) (es : List LeadEvent) (hinit : liveLeader.Init h) :
    (liveLeader.Always Half.StopsKept h es ↔ liveLeader.Along Half.StopsFit h es) ∧
      ∀ (m : Half) (now : Nanos), ∃ new,
        (m.afterCluster now).relay.issued = m.relay.issued ++ new ∧
        (m.afterCluster now).relay.out = new.map Prod.fst := by
  refine ⟨?_, fun m now => (m.afterCluster_spec now).2⟩
  refine Machine.always_iff_along (K := Half.StopsKept) (fun _ hk => hk) ?_ ?_ ?_
  · exact fun m e m' hk hstep hok => (Half.stopsKept_step hk hstep).mpr hok
  · exact fun m e m' hk hstep hP => (Half.stopsKept_step hk hstep).mp hP
  · obtain ⟨hrelay, hsent⟩ := hinit
    unfold Half.StopsKept Half.issued
    rw [hrelay, hsent]
    rfl

/-- The leader of node `a`, with an agent on node `b`. -/
def twoNodes : Half where
  agent := .new { id := "a" }
  leader := (Leader.new "a" .new).insertAgent { id := "b", endpoint := "http://b" } .empty
  relay := .new
  dispatch := []
  poolLargest := none
  term := 0
  sent := []

/-- A job is dispatched and deleted again. -/
def dispatchAndDelete : List LeadEvent :=
  [.op (.dispatchJob { name := "web", command := "serve" }) 0, .flush 0, .op (.deleteJob "web") 0,
    .flush 0]

theorem stops_kept_once :
    liveLeader.Init twoNodes ∧ liveLeader.Always Half.StopsKept twoNodes dispatchAndDelete :=
  ⟨⟨rfl, rfl⟩, (stops_kept_iff twoNodes dispatchAndDelete ⟨rfl, rfl⟩).1.mpr (by decide)⟩

/-- The dispatch task takes nothing out of its queue, and meanwhile a job comes and goes 32 times. -/
def comeAndGo : List LeadEvent :=
  [.refresh, .flush 0] ++ (List.replicate 32 dispatchAndDelete).flatten

set_option maxRecDepth 8000 in
/-- The last `run` is in the queue, and the stop that follows it is lost: the leader has nothing
booked, and the agent will run the job. -/
theorem stop_lost_queue_full :
    liveLeader.Init twoNodes ∧
      ((liveLeader.run twoNodes comeAndGo).map fun h =>
        (h.dispatch.getLast?.map Queued.call, h.relay.issued.getLast?.map Prod.fst,
          h.leader.placedOn "b" "web", h.relay.out)) =
        some (some (.run "b" "http://b" "web" { name := "web", command := "serve" } false),
          some (.deleteJob "http://b" "web"), 0, []) ∧
      ¬ liveLeader.Always Half.StopsKept twoNodes comeAndGo := by
  refine ⟨⟨rfl, rfl⟩, by decide, fun h => ?_⟩
  have hlast : (liveLeader.run twoNodes comeAndGo).map (fun h => decide h.StopsKept) =
      some false := by decide
  obtain ⟨m, hm, hkept⟩ := Option.map_eq_some_iff.mp hlast
  exact of_decide_eq_false hkept (h.last hm)

end Hop.HopOS
