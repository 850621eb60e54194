import Hop.Lead.Absence

/-!
# No resurrection

Placing works on copies: of the job, of the list of agents, of the order of priority, of the old
tasks. No stale copy is ever sent: each `run` names a job whose definition is stored at that
moment and goes to an agent that is registered at that moment (`Move`, `moment_of_reaches`). The
moments are those of the request itself: nobody enters on the way but the agent that the request
registers (`registered_of_reaches`), and what a request sends is still stored and registered when
the request is done. A tick, which may remove agents between two reconciles, has two such ends, that
of its settle period and its own (`Sys.stages`, `stage_of_run`). And as long as a name is not
stored, nothing with that name is sent (`absent_run`).
-/

namespace Hop.Lead

open Hop.Types (Agent Job Map)

open Leader

variable {name : String} {l : Leader}

variable {N : Type} [Transport N]
variable {o : Logged N}

/-! ### Moments -/

/-- What a request puts into the store. -/
def Request.Puts (r : Request) (l : Leader) (job : Job) : Prop :=
  ∀ J : Job → Prop, r.Stores J l → J job

theorem Request.stores_puts (r : Request) (l : Leader) : r.Stores (r.Puts l) l := by
  cases r with
  | op op =>
    cases op with
    | dispatchJob job => exact fun J h => h
    | updateJob job => exact fun old hold J h => h old hold
    | seedInitJobs jobs => exact fun job hjob i hi J h => h job hjob i hi
    | _ => trivial
  | loadCommittedState snapshot =>
    exact fun data updated jobs hdata hread j hj J h => h data updated jobs hdata hread j hj
  | _ => trivial

/-- A small step of the request `r`, which began in `s`: a step of an operation that began with the
log of `s`, or, in a tick, with the log at the end of its settle period. A registration begins with
the entry of its own agent, and a load is the load of its own snapshot. -/
inductive Move (s : Sys N) (r : Request) : Sys N → Sys N → Prop
  | step {m m' : Sys N} (h : Step (r.Puts s.leader) s.net m m') : Move s r m m'
  | late {m m' : Sys N} (now : Nanos) (hr : r = .op (.tick now))
      (h : Step (r.Puts s.leader) (s.endSettle now).net m m') : Move s r m m'
  | enter (agent : Agent) (placed : Map ℕ) (now : Nanos)
      (hr : r = .op (.registerAgent agent placed now)) :
      Move s r s ⟨s.leader.insertAgent { agent with lastSeen := now } placed, s.net⟩
  | load (snapshot : Option Bytes) (hr : r = .loadCommittedState snapshot) :
      Move s r s ⟨(s.leader.loadCommittedState snapshot).2, s.net⟩

/-- Small steps of the request `r`, which began in `s`, one after the other. -/
def Reaches (s : Sys N) (r : Request) : Sys N → Sys N → Prop :=
  Relation.ReflTransGen (Move s r)

variable {s : Sys N} {r : Request}

theorem Walk.reaches {m m' : Sys N} (h : Walk (r.Puts s.leader) s.net m m') : Reaches s r m m' :=
  h.steps.lift id fun _ _ => .step

theorem Places.reaches {m m' : Sys N} (h : Places m m') : Reaches s r m m' :=
  (h.walk (o := s.net)).reaches

theorem reaches_serve (s : Sys N) (r : Request) : Reaches s r s (s.serve r) := by
  rcases serve_cases s r with ⟨op, rfl⟩ | ⟨snapshot, rfl⟩ | ⟨l', hserve, hnotes⟩
  · rcases walk_apply s (Request.stores_puts (.op op) s.leader) with hwalk |
      ⟨now, rfl, hplaces, hwalk⟩ | ⟨agent, placed, now, rfl, -, hplaces⟩
    · exact hwalk.reaches
    · exact Relation.ReflTransGen.trans hplaces.reaches
        (hwalk.steps.lift id fun _ _ => .late now rfl)
    · exact Relation.ReflTransGen.head (.enter agent placed now rfl) hplaces.reaches
  · exact Relation.ReflTransGen.single (.load snapshot rfl)
  · rw [hserve]
    exact Relation.ReflTransGen.single (.step (.placing (.note _ _ _ hnotes)))

/-- What a small step adds to the log: nothing, one call that is no `run`, or one `run` of a
stored job to a registered agent. -/
inductive Adds (s s' : Sys N) : Prop
  | nothing (h : s'.net.log = s.net.log)
  | call (c : Call) (hc : c.isRun = false) (h : s'.net.log = s.net.log ++ [c])
  | run (agent : Agent) (job : Job) (replace : Bool) (reply : RunReply)
      (ha : agent ∈ s.leader.agents) (hj : s.leader.Holds job)
      (h : s'.net.log = s.net.log ++ [.run agent job replace reply])

theorem Placing.adds {s s' : Sys N} (h : Placing s s') : Adds s s' := by
  cases h with
  | run l net agent job replace ha hj => exact .run agent job replace _ ha hj rfl
  | call l net net' c hlog hc ht => exact .call c hc hlog
  | untrack => exact .nothing rfl
  | track => exact .nothing rfl
  | drop => exact .nothing rfl
  | note => exact .nothing rfl
  | rank => exact .nothing rfl

theorem Step.adds {J : Job → Prop} {s s' : Sys N} (h : Step J o s s') :
    Adds s s' := by
  cases h with
  | placing hplacing => exact hplacing.adds
  | ask l net agent => exact .call (.tasks agent _) rfl rfl
  | untrack => exact .nothing rfl
  | take => exact .nothing rfl
  | put => exact .nothing rfl
  | deploy => exact .nothing rfl
  | delete => exact .nothing rfl
  | leave => exact .nothing rfl
  | beat => exact .nothing rfl

theorem Move.adds {m m' : Sys N} (h : Move s r m m') : Adds m m' := by
  cases h with
  | step hstep => exact hstep.adds
  | late now hr hstep => exact hstep.adds
  | enter => exact .nothing rfl
  | load => exact .nothing rfl

/-- A list that got one item more, cut at an item. -/
theorem append_singleton_eq {α : Type} {as bs post : List α} {a b : α}
    (h : as ++ [a] = bs ++ b :: post) :
    (as = bs ∧ a = b) ∨ ∃ post', as = bs ++ b :: post' := by
  rcases List.eq_nil_or_concat post with rfl | ⟨post', c, rfl⟩
  · obtain ⟨h₁, h₂⟩ := List.append_inj' h rfl
    exact .inl ⟨h₁, List.singleton_inj.mp h₂⟩
  · rw [List.concat_eq_append, ← List.cons_append, ← List.append_assoc] at h
    exact .inr ⟨post', (List.append_inj' h rfl).1⟩

/-- **The moment of a `run`**: among the states that the small steps of a request pass there is the
one in which the call was made, and there the agent is registered and the definition of the job is
stored. -/
theorem moment_of_reaches {m m' : Sys N} (h : Reaches s r m m') {pre post : List Call}
    {agent : Agent} {job : Job} {replace : Bool} {reply : RunReply}
    (hlog : m'.net.log = m.net.log ++ pre ++ .run agent job replace reply :: post) :
    ∃ t, Reaches s r m t ∧ Reaches s r t m' ∧ t.net.log = m.net.log ++ pre ∧
      agent ∈ t.leader.agents ∧ t.leader.Holds job := by
  induction h generalizing post with
  | refl =>
    have hlen := congrArg List.length hlog
    simp only [List.length_append, List.length_cons] at hlen
    omega
  | @tail p m' hp hmove ih =>
    have hrest : ∀ post', p.net.log = m.net.log ++ pre ++ .run agent job replace reply :: post' →
        ∃ t, Reaches s r m t ∧ Reaches s r t m' ∧ t.net.log = m.net.log ++ pre ∧
          agent ∈ t.leader.agents ∧ t.leader.Holds job := by
      intro post' hpost'
      obtain ⟨t, hmt, htp, ht⟩ := ih hpost'
      exact ⟨t, hmt, Relation.ReflTransGen.tail htp hmove, ht⟩
    cases hmove.adds with
    | nothing hsame => exact hrest post (hsame ▸ hlog)
    | call c hc happend =>
      rcases append_singleton_eq (happend.symm.trans hlog) with ⟨-, rfl⟩ | ⟨post', hpost'⟩
      · cases hc
      · exact hrest post' hpost'
    | run agent' job' replace' reply' ha hj happend =>
      rcases append_singleton_eq (happend.symm.trans hlog) with ⟨hpre, hcall⟩ | ⟨post', hpost'⟩
      · cases hcall
        exact ⟨p, hp, Relation.ReflTransGen.single hmove, hpre, ha, hj⟩
      · exact hrest post' hpost'

/-! ### Who is registered on the way -/

theorem Placing.agents {m m' : Sys N} (h : Placing m m') : m'.leader.agents = m.leader.agents := by
  cases h with
  | note l l' net hnote => exact hnote.agents
  | rank l net name i hi => exact (renumbers_storeSetPriority l name i).books.2
  | _ => rfl

/-- A step registers nobody. -/
theorem Step.ids {J : Job → Prop} {m m' : Sys N} (h : Step J o m m') {id : String}
    (hid : id ∈ m'.leader.agents.map Agent.id) : id ∈ m.leader.agents.map Agent.id := by
  cases h with
  | placing hplacing => rwa [← hplacing.agents]
  | ask => exact hid
  | untrack => exact hid
  | take => exact hid
  | put l l' net job hj hput => rwa [← (storePut_frame hput).2.1]
  | deploy l net name d =>
    change id ∈ (l.storeSetDeploying name d).agents.map Agent.id at hid
    unfold storeSetDeploying at hid
    split at hid
    · exact hid
    · exact hid
  | delete l net name =>
    change id ∈ (l.storeRemove name).2.agents.map Agent.id at hid
    rwa [(l.storeRemove_frame name).1] at hid
  | leave l net id' => exact ((mem_ids_removeAgent l id' id).mp hid).1
  | beat l net id' version now => rwa [(l.heartbeat_frame id' version now).1] at hid

/-- Whether the request registers an agent with this id. -/
def Request.Registers (id : String) : Request → Prop
  | .op (.registerAgent agent _ _) => agent.id = id
  | _ => False

/-- **Who is registered while a request is served** was so when it began, or is the agent that the
request registers. -/
theorem registered_of_reaches {t : Sys N} (h : Reaches s r s t) {id : String}
    (hid : id ∈ t.leader.agents.map Agent.id) :
    id ∈ s.leader.agents.map Agent.id ∨ r.Registers id := by
  induction h with
  | refl => exact .inl hid
  | tail _ hmove ih =>
    cases hmove with
    | step hstep => exact ih (hstep.ids hid)
    | late now hr hstep => exact ih (hstep.ids hid)
    | enter agent placed now hr =>
      subst hr
      rcases (mem_ids_insertAgent _ _ placed id).mp hid with hnew | hold
      · exact .inr hnew.symm
      · exact .inl hold
    | load snapshot =>
      exact .inl ((s.leader.loadCommittedState_frame snapshot).1 ▸ hid)

/-! ### What a request sent is there when it is done -/

/-- What was sent since `o` goes to registered agents and names stored definitions. -/
structure Sent (o : Logged N) (s : Sys N) : Prop where
  log : o.log <+: s.net.log
  valid : ∀ agent job replace reply, .run agent job replace reply ∈ s.net.since o →
    agent ∈ s.leader.agents ∧ s.leader.Holds job

omit [Transport N] in
theorem Leader.Silent.sent {s : Sys N} (h : Silent o s.net) : Sent o s :=
  ⟨h.log, fun _ _ _ _ hc => absurd ⟨_, hc, rfl⟩ h.none⟩

omit [Transport N] in
/-- The agents and the stored definitions stay, and nothing is sent. -/
theorem Sent.congr {l' : Leader} {net : Logged N} (h : Sent o ⟨l, net⟩)
    (hagents : l'.agents = l.agents) (hholds : ∀ job, l.Holds job → l'.Holds job) :
    Sent o ⟨l', net⟩ := by
  refine ⟨h.log, fun agent job replace reply hc => ?_⟩
  obtain ⟨ha, hj⟩ := h.valid agent job replace reply hc
  exact ⟨hagents ▸ ha, hholds job hj⟩

omit [Transport N] in
theorem Sent.append {net net' : Logged N} {c : Call} (h : Sent o ⟨l, net⟩)
    (hlog : net'.log = net.log ++ [c])
    (hc : ∀ agent job replace reply, c = .run agent job replace reply → agent ∈ l.agents ∧ l.Holds job)
    : Sent o ⟨l, net'⟩ := by
  obtain ⟨cs, hcs⟩ := h.log
  have hsince : net'.since o = cs ++ [c] :=
    Logged.since_eq (by rw [hlog, ← List.append_assoc, hcs])
  refine ⟨⟨cs ++ [c], by rw [hlog, ← List.append_assoc, hcs]⟩, ?_⟩
  intro agent job replace reply hmem
  change _ ∈ net'.since o at hmem
  rw [hsince, List.mem_append, List.mem_singleton] at hmem
  rcases hmem with hmem | hmem
  · refine h.valid agent job replace reply ?_
    change _ ∈ net.since o
    rwa [Logged.since_eq hcs.symm]
  · exact hc agent job replace reply hmem.symm

theorem map_definition_update (s : MemStore) (name : String) (f : Job → Job)
    (hf : ∀ j, (f j).name = j.name) (hdef : ∀ j, definition (f j) = definition j) :
    (s.update name f hf).jobs.map definition = s.jobs.map definition := by
  unfold MemStore.update
  rw [List.map_map]
  refine List.map_congr_left fun j _ => ?_
  dsimp only [Function.comp]
  split_ifs
  · exact hdef j
  · rfl

theorem Leader.holds_storeSetPriority {job : Job} (name : String) (p : ℤ) (h : l.Holds job) :
    (l.storeSetPriority name p).Holds job := by
  unfold storeSetPriority
  split
  · unfold Holds
    refine (map_definition_update l.store name _ ?_ ?_).symm ▸ h
    · exact fun _ => rfl
    · exact fun _ => rfl
  · exact h

theorem Leader.holds_storeSetDeploying {job : Job} (name : String) (d : Bool) (h : l.Holds job) :
    (l.storeSetDeploying name d).Holds job := by
  unfold storeSetDeploying
  split
  · unfold Holds
    refine (map_definition_update l.store name _ ?_ ?_).symm ▸ h
    · exact fun _ => rfl
    · exact fun _ => rfl
  · exact h

/-- A job with a new name leaves the stored definitions. -/
theorem Leader.holds_storePut {l' : Leader} {new job : Job} (hput : l.storePut new = .ok l')
    (hname : new.name ∉ l.store.jobs.map Job.name) (h : l.Holds job) : l'.Holds job := by
  unfold storePut MemStore.put at hput
  rw [dif_neg hname] at hput
  split_ifs at hput
  cases hput
  unfold Holds
  rw [List.map_append]
  exact List.mem_append_left _ h

theorem Sent.placing {s s' : Sys N} (hstep : Placing s s') (h : Sent o s) :
    Sent o s' := by
  cases hstep with
  | run l net agent job replace ha hj =>
    refine h.append rfl fun agent' job' replace' reply' hc => ?_
    cases hc
    exact ⟨ha, hj⟩
  | call l net net' c hlog hc ht =>
    refine h.append hlog fun agent job replace reply hrun => ?_
    rw [hrun] at hc
    cases hc
  | track => exact h.congr rfl fun _ hj => hj
  | untrack => exact h.congr rfl fun _ hj => hj
  | drop => exact h.congr rfl fun _ hj => hj
  | note l l' net hnote => exact h.congr hnote.agents fun _ hj => holds_congr hnote.store hj
  | rank l net name i hi =>
    exact h.congr (renumbers_storeSetPriority l name i).books.2 fun _ hj =>
      holds_storeSetPriority name i hj

theorem Sent.step {J : Job → Prop} {s s' : Sys N} (hstep : Step J o s s') (h : Sent o s) :
    Sent o s' := by
  cases hstep with
  | placing hplacing => exact h.placing hplacing
  | ask l net agent => exact h.append rfl fun _ _ _ _ hc => by cases hc
  | untrack => exact h.congr rfl fun _ hj => hj
  | take => exact h.congr rfl fun _ hj => hj
  | put l l' net job hj hput ho =>
    rcases ho with ho | hname
    · exact Silent.sent ho
    · exact h.congr (storePut_frame hput).2.1 fun _ => holds_storePut hput hname
  | deploy l net name d =>
    refine h.congr ?_ fun _ hj => holds_storeSetDeploying name d hj
    unfold storeSetDeploying
    split
    · rfl
    · rfl
  | delete l net name ho => exact Silent.sent ho
  | leave l net id ho => exact Silent.sent ho
  | beat l net id version now ho => exact Silent.sent ho

theorem Sent.places {s s' : Sys N} (h : Sent o s) (hplaces : Places s s') : Sent o s' :=
  hplaces.invariant (fun _ _ hstep hs => hs.placing hstep) h

theorem Sent.walk {J : Job → Prop} {s s' : Sys N} (h : Sent o s) (hwalk : Walk J o s s') :
    Sent o s' :=
  hwalk.invariant (fun _ _ hstep hs => hs.step hstep) h

omit [Transport N] in
theorem sent_refl (s : Sys N) (l : Leader) : Sent s.net ⟨l, s.net⟩ :=
  Silent.sent (Silent.refl s.net)

/-- **What a request sent is stored and registered when it is done**, except in a tick. -/
theorem sent_serve (s : Sys N) {r : Request} (hr : ∀ now, r ≠ .op (.tick now)) :
    Sent s.net (s.serve r) := by
  rcases serve_cases s r with ⟨op, rfl⟩ | ⟨snapshot, rfl⟩ | ⟨l', hserve, -⟩
  · rcases walk_apply s (op.stores_true s.leader) with hwalk | ⟨now, rfl, -⟩ |
      ⟨agent, placed, now, -, -, hplaces⟩
    · exact (sent_refl s s.leader).walk hwalk
    · exact absurd rfl (hr now)
    · exact (sent_refl s _).places hplaces
  · exact sent_refl s _
  · rw [hserve]
    exact sent_refl s l'

/-- What the settle period of a tick sent is stored and registered when that period ends, and what
the tick sent after it is so when the tick is done. -/
theorem sent_tick (s : Sys N) (now : Nanos) :
    Sent s.net (s.endSettle now) ∧ Sent (s.endSettle now).net (s.serve (.op (.tick now))) := by
  obtain ⟨hplaces, hwalk⟩ := walk_tick (J := fun _ => True) s.leader s.net now
  exact ⟨(sent_refl s s.leader).places hplaces, (sent_refl (s.endSettle now) _).walk hwalk⟩

/-- The ends of the parts of a request: of a tick the end of the settle period and its own, of any
other request its own. -/
def Sys.stages (s : Sys N) : Request → List (Sys N)
  | .op (.tick now) => [s.endSettle now, s.serve (.op (.tick now))]
  | r => [s.serve r]

theorem stages_of_ne_tick (s : Sys N) (hr : ∀ now, r ≠ .op (.tick now)) :
    s.stages r = [s.serve r] := by
  cases r with
  | op op =>
    cases op with
    | tick now => exact absurd rfl (hr now)
    | _ => rfl
  | _ => rfl

/-- **What a request sent is stored and registered at the end of the part that sent it.** -/
theorem stage_of_run {pre post : List Call} {agent : Agent} {job : Job} {replace : Bool}
    {reply : RunReply}
    (hlog : (s.serve r).net.log = s.net.log ++ pre ++ .run agent job replace reply :: post) :
    ∃ m ∈ s.stages r, s.net.log ++ pre ++ [.run agent job replace reply] <+: m.net.log ∧
      agent ∈ m.leader.agents ∧ m.leader.Holds job := by
  set c : Call := .run agent job replace reply with hc
  have hpre : s.net.log ++ pre ++ [c] <+: (s.serve r).net.log :=
    ⟨post, by rw [hlog, List.append_assoc _ [c], List.singleton_append]⟩
  by_cases htick : ∃ now, r = .op (.tick now)
  · obtain ⟨now, rfl⟩ := htick
    obtain ⟨hfirst, hlast⟩ := sent_tick s now
    by_cases hend : s.net.log ++ pre ++ [c] <+: (s.endSettle now).net.log
    · -- the settle period sent it
      refine ⟨s.endSettle now, List.mem_cons_self, hend, hfirst.valid agent job replace reply ?_⟩
      obtain ⟨cs, hcs⟩ := hend
      have hsince : (s.endSettle now).net.log = s.net.log ++ (pre ++ c :: cs) := by
        rw [← hcs]
        simp
      rw [Logged.since_eq hsince]
      exact List.mem_append_right _ List.mem_cons_self
    · -- the rest of the tick sent it: the log at the end of the period is shorter
      have hshort : (s.endSettle now).net.log.length ≤ (s.net.log ++ pre).length := by
        by_contra hlen
        refine hend (List.prefix_of_prefix_length_le hpre hlast.log ?_)
        rw [List.length_append, List.length_singleton]
        omega
      obtain ⟨cs, hcs⟩ := List.prefix_of_prefix_length_le hlast.log
        (List.IsPrefix.trans (List.prefix_append _ [c]) hpre) hshort
      refine ⟨_, List.mem_cons_of_mem _ (List.mem_singleton_self _), hpre,
        hlast.valid agent job replace reply ?_⟩
      have hsince : (s.serve (.op (.tick now))).net.log
          = (s.endSettle now).net.log ++ (cs ++ c :: post) := by
        rw [hlog, ← hcs, List.append_assoc]
      rw [Logged.since_eq hsince]
      exact List.mem_append_right _ List.mem_cons_self
  · have hne : ∀ now, r ≠ .op (.tick now) := fun now h => htick ⟨now, h⟩
    rw [stages_of_ne_tick s hne]
    refine ⟨_, List.mem_singleton_self _, hpre, (sent_serve s hne).valid agent job replace reply ?_⟩
    rw [Logged.since_eq (hlog.trans (List.append_assoc _ _ _))]
    exact List.mem_append_right _ List.mem_cons_self

/-! ### What is not stored is not sent -/

/-- Whether the call asks an agent to run a job with this name. -/
def Call.Runs (name : String) : Call → Prop
  | .run _ job _ _ => job.name = name
  | _ => False

/-- The name is not stored, and nothing with it was sent since `o`. -/
structure Absent (o : Logged N) (name : String) (s : Sys N) : Prop where
  log : o.log <+: s.net.log
  unknown : s.leader.StoreAll fun j => j.name ≠ name
  unsent : ∀ c ∈ s.net.since o, ¬ c.Runs name

theorem steady_name_ne (name : String) : Steady fun j => j.name ≠ name where
  rank _ _ _ h := h
  deploy _ _ h := h

theorem Absent.step {o' : Logged N} {s s' : Sys N} (hstep : Step (fun j => j.name ≠ name) o' s s')
    (h : Absent o name s) : Absent o name s' := by
  have hall := h.unknown.step (steady_name_ne name) hstep
  obtain ⟨cs, hcs⟩ := h.log
  have happend : ∀ c, s'.net.log = s.net.log ++ [c] → ¬ c.Runs name → Absent o name s' := by
    intro c hlog hc
    have hlog' : s'.net.log = o.log ++ (cs ++ [c]) := by rw [hlog, ← List.append_assoc, hcs]
    refine ⟨⟨_, hlog'.symm⟩, hall, fun c' hc' => ?_⟩
    rw [Logged.since_eq hlog', List.mem_append, List.mem_singleton] at hc'
    rcases hc' with hc' | rfl
    · exact h.unsent c' (by rwa [Logged.since_eq hcs.symm])
    · exact hc
  cases hstep.adds with
  | nothing hsame =>
    refine ⟨hsame ▸ h.log, hall, fun c hc => h.unsent c ?_⟩
    unfold Logged.since at hc ⊢
    rwa [← hsame]
  | call c hc hlog =>
    refine happend c hlog fun hruns => ?_
    cases c with
    | run => cases hc
    | _ => exact hruns
  | run agent job replace reply ha hj hlog =>
    refine happend _ hlog fun hruns => ?_
    obtain ⟨j, hj, hname⟩ := List.mem_map.mp hj.name_mem
    exact h.unknown j hj (hname.trans hruns)

/-- Whether the request stores a job with this name. -/
def Request.Revives (name : String) : Request → Prop
  | .op (.dispatchJob job) => job.name = name
  | .op (.seedInitJobs jobs) => ∃ job ∈ jobs, job.name = name
  | .loadCommittedState snapshot => ∃ data updated jobs, snapshot = some data ∧
      readState data = .ok (updated, jobs) ∧ ∃ job ∈ jobs, job.name = name
  | _ => False

/-- An update never stores a name that is not stored. -/
theorem Request.stores_of_not_revives {r : Request} (hr : ¬ r.Revives name)
    (h : l.StoreAll fun j => j.name ≠ name) :
    r.Stores (fun j => j.name ≠ name) l := by
  cases r with
  | op op =>
    cases op with
    | dispatchJob job => exact hr
    | updateJob job =>
      intro old hold
      obtain ⟨hmem, hname⟩ := MemStore.get_eq_some_iff.mp hold
      exact fun heq => h old hmem (hname.trans heq)
    | seedInitJobs jobs => exact fun job hjob _ _ heq => hr ⟨job, hjob, heq⟩
    | _ => trivial
  | loadCommittedState snapshot =>
    exact fun data updated jobs hdata hread j hj heq =>
      hr ⟨data, updated, jobs, hdata, hread, j, hj, heq⟩
  | _ => trivial

theorem Absent.serve {s : Sys N} (h : Absent o name s) {r : Request} (hr : ¬ r.Revives name) :
    Absent o name (s.serve r) := by
  have hstores := Request.stores_of_not_revives hr h.unknown
  have hall := storeAll_serve (steady_name_ne name) hstores h.unknown
  rcases serve_cases s r with ⟨op, rfl⟩ | ⟨snapshot, rfl⟩ | ⟨l', hserve, -⟩
  · exact apply_invariant hstores (fun _ _ _ hstep hs => hs.step hstep)
      (fun _ _ _ _ _ => ⟨h.log, h.unknown, h.unsent⟩) h
  · exact ⟨h.log, hall, h.unsent⟩
  · rw [hserve] at hall ⊢
    exact ⟨h.log, hall, h.unsent⟩

/-- A name that is not stored stays unsent until a request stores it. -/
theorem absent_run {s s' : Sys N} {rs : List Request} (h : Absent o name s)
    (hrs : ∀ r ∈ rs, ¬ r.Revives name) (hrun : requests.run s rs = some s') :
    Absent o name s' := by
  induction rs generalizing s with
  | nil =>
    cases hrun
    exact h
  | cons r rs ih =>
    exact ih (h.serve (hrs r List.mem_cons_self)) (fun r' hr' => hrs r' (List.mem_cons_of_mem r hr'))
      hrun

omit [Transport N] in
theorem absent_refl (net : Logged N) (h : l.StoreAll fun j => j.name ≠ name) :
    Absent net name ⟨l, net⟩ := by
  refine ⟨List.prefix_rfl, h, fun c hc => ?_⟩
  change c ∈ net.since net at hc
  rw [Logged.since_eq (List.append_nil net.log).symm] at hc
  exact absurd hc List.not_mem_nil

/-- A deletion sends nothing with its name either. -/
theorem absent_deleteJob (s : Sys N) (name : String) :
    Absent s.net name (s.serve (.op (.deleteJob name))) := by
  change Absent s.net name ⟨(s.leader.deleteJob s.net name).1, (s.leader.deleteJob s.net name).2⟩
  unfold deleteJob storeRemove
  cases hget : s.leader.store.get name with
  | none =>
    refine absent_refl s.net fun j hj heq => ?_
    exact MemStore.get_eq_none_iff.mp hget (List.mem_map.mpr ⟨j, hj, heq⟩)
  | some old =>
    dsimp only
    set l := ({ s.leader with store := s.leader.store.remove name, dirty := true }.takePlacement name).2
    have hl : l.StoreAll fun j => j.name ≠ name := fun j hj => by
      simpa using (List.mem_filter.mp hj).2
    have hplaces := ((places_deleteEach l name
      ({ s.leader with store := s.leader.store.remove name, dirty := true }.takePlacement name).1
      s.net).trans (places_emit l _ (.job name))).trans (places_reconcileJobs _ _)
    exact hplaces.invariant (fun _ _ hstep hs => hs.step (.placing (o := s.net) hstep))
      (absent_refl s.net hl)

/-- **No resurrection**: every `run` that a request sends is made at a moment, among the states that
the small steps of this request pass, at which the agent is registered and the definition of the
job is stored; the agent was registered when the request began, or the request registers it; and
both still hold at the end of the part of the request that sent it. After a deletion nothing with
the deleted name is sent, the deletion itself included, until a request stores that name again. -/
theorem run_stored_registered :
    (∀ (s : Sys N) (r : Request) (pre post : List Call) (agent : Agent) (job : Job)
      (replace : Bool) (reply : RunReply),
      (s.serve r).net.log = s.net.log ++ pre ++ .run agent job replace reply :: post →
      (∃ t, Reaches s r s t ∧ Reaches s r t (s.serve r) ∧ t.net.log = s.net.log ++ pre ∧
        agent ∈ t.leader.agents ∧ t.leader.Holds job) ∧
      (agent.id ∈ s.leader.agents.map Agent.id ∨ r.Registers agent.id) ∧
      ∃ m ∈ s.stages r, s.net.log ++ pre ++ [.run agent job replace reply] <+: m.net.log ∧
        agent ∈ m.leader.agents ∧ m.leader.Holds job) ∧
    ∀ (s s' : Sys N) (name : String) (rs : List Request), (∀ r ∈ rs, ¬ r.Revives name) →
      requests.run (s.serve (.op (.deleteJob name))) rs = some s' →
      ∀ c ∈ s'.net.since s.net, ¬ c.Runs name := by
  refine ⟨fun s r pre post agent job replace reply hlog => ?_, ?_⟩
  · obtain ⟨t, hst, hts, hpre, ha, hj⟩ := moment_of_reaches (reaches_serve s r) hlog
    have hid : agent.id ∈ t.leader.agents.map Agent.id := List.mem_map_of_mem ha
    exact ⟨⟨t, hst, hts, hpre, ha, hj⟩, registered_of_reaches hst hid, stage_of_run hlog⟩
  · intro s s' name rs hrs hrun
    exact (absent_run (absent_deleteJob s name) hrs hrun).unsent

/-- A job is submitted and deleted, and the agent registers again: the job is not sent a second
time, while another one is. -/
theorem run_stored_registered_deleted :
    let s := (emptyLeader.serve (.op (.registerAgent { id := "b" } .empty 5))).serve
      (.op (.dispatchJob { name := "web" }))
    let rs := [Request.op (.registerAgent { id := "b" } .empty 6), .op (.dispatchJob { name := "db" })]
    ∃ s', requests.run (s.serve (.op (.deleteJob "web"))) rs = some s' ∧
      s'.net.log.length = s.net.log.length + 2 ∧ ∀ c ∈ s'.net.since s.net, ¬ c.Runs "web" := by
  intro s rs
  refine ⟨_, rfl, by decide, run_stored_registered.2 _ _ "web" rs ?_ rfl⟩
  intro r hr
  rcases List.mem_cons.mp hr with rfl | hr
  · exact id
  · rw [List.mem_singleton.mp hr]
    exact fun (h : "db" = "web") => absurd h (by decide)

end Hop.Lead
