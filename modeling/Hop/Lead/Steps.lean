import Hop.Lead.Persist

/-!
# The steps an operation is made of

Every operation of the leader is a walk of small steps: a call to an agent, a change of the books,
of the store or of the agents. `Step` lists them, each with what holds at the moment it is taken:
a `run` goes to an agent that is registered then and names a job that is stored then, up to its
priority and its rollout flag. What every step keeps, every operation keeps (`Walk.invariant`).

The walks are built along the functions of `Place.lean` and `Ops.lean`, one lemma for each. Two
changes are no steps: the entry of a new incarnation of an agent and the load of a snapshot, which
are the beginning of their operations and are looked at by themselves.
-/

namespace Hop.Lead

open Hop.Types (Agent Job Map Task)

variable {l' : Leader}

variable {job : Job} {l : Leader} {agent : Agent}

/-- The job up to its priority and its rollout flag. -/
def definition (j : Job) : Job := { j with priority := none, deploying := false }

theorem name_of_definition {j j' : Job} (h : definition j' = definition j) : j'.name = j.name := by
  have hname : (definition j').name = (definition j).name := congrArg Job.name h
  exact hname

namespace Leader

/-- The definition of the job is stored. -/
def Holds (l : Leader) (job : Job) : Prop :=
  definition job ∈ l.store.jobs.map definition

theorem holds_of_mem (h : job ∈ l.store.jobs) : l.Holds job :=
  List.mem_map_of_mem h

theorem holds_congr (h : l'.store = l.store) (hj : l.Holds job) :
    l'.Holds job := by
  unfold Holds
  rwa [h]

theorem Holds.name_mem (h : l.Holds job) :
    job.name ∈ l.store.jobs.map Job.name := by
  obtain ⟨j, hj, hdef⟩ := List.mem_map.mp h
  exact List.mem_map.mpr ⟨j, hj, name_of_definition hdef⟩

/-- The leader changed in nothing but its settings, its clocks, its round robin, its events and
its marks for the snapshot. -/
structure Notes (l l' : Leader) : Prop where
  store : l'.store = l.store
  agents : l'.agents = l.agents
  placed : l'.placed = l.placed

end Leader

/-- A change of the store sets the mark, and the window stays as it is. -/
structure Marks (l l' : Leader) : Prop where
  seen : l'.dirtySeen = l.dirtySeen
  kept : l'.dirty = true ∨ l'.dirty = l.dirty ∧ l'.store = l.store

namespace Marks

variable {l l' l'' : Leader}

theorem refl (l : Leader) : Marks l l := ⟨rfl, .inr ⟨rfl, rfl⟩⟩

theorem trans (h : Marks l l') (h' : Marks l' l'') : Marks l l'' := by
  refine ⟨h'.seen.trans h.seen, ?_⟩
  rcases h'.kept with hdirty | ⟨hdirty, hstore⟩
  · exact .inl hdirty
  · rcases h.kept with hdirty' | ⟨hdirty', hstore'⟩
    · exact .inl (hdirty.trans hdirty')
    · exact .inr ⟨hdirty.trans hdirty', hstore.trans hstore'⟩

/-- What is marked stays marked. -/
theorem dirty (h : Marks l l') (hd : l.dirty = true) : l'.dirty = true := by
  rcases h.kept with hdirty | ⟨hdirty, -⟩
  · exact hdirty
  · exact hdirty.trans hd

end Marks

namespace Leader

theorem marks_storePut (h : l.storePut job = .ok l') : Marks l l' := by
  rw [storePut] at h
  split at h
  · obtain rfl := Except.ok.inj h
    exact ⟨rfl, .inl rfl⟩
  · exact nomatch h

theorem marks_storeRemove (l : Leader) (name : String) : Marks l (l.storeRemove name).2 := by
  rw [storeRemove]
  split
  · exact ⟨rfl, .inl rfl⟩
  · exact .refl l

theorem marks_storeSetPriority (l : Leader) (name : String) (p : ℤ) :
    Marks l (l.storeSetPriority name p) := by
  rw [storeSetPriority]
  split
  · exact ⟨rfl, .inl rfl⟩
  · exact .refl l

theorem marks_storeSetDeploying (l : Leader) (name : String) (d : Bool) :
    Marks l (l.storeSetDeploying name d) := by
  rw [storeSetDeploying]
  split
  · exact ⟨rfl, .inl rfl⟩
  · exact .refl l

theorem marks_heartbeat (l : Leader) (id version : String) (now : Nanos) :
    Marks l (l.heartbeat id version now).2 := by
  rw [heartbeat]
  split
  · exact .refl l
  · exact ⟨rfl, .inr ⟨rfl, rfl⟩⟩

end Leader

open Leader

variable {N : Type} [Transport N]
variable {s : Sys N}

/-- Whether the call asks an agent for its tasks. -/
def Call.isTasks : Call → Bool
  | .tasks _ _ => true
  | _ => false

/-- A step of placing: it tells agents what to run and what to stop, and books it. -/
inductive Placing : Sys N → Sys N → Prop
  /-- An agent is asked to run a job. -/
  | run (l : Leader) (net : Logged N) (agent : Agent) (job : Job) (replace : Bool)
      (ha : agent ∈ l.agents) (hj : l.Holds job) :
      Placing ⟨l, net⟩ ⟨l, (Transport.run net agent job replace).2⟩
  /-- An agent is told something else. -/
  | call (l : Leader) (net net' : Logged N) (c : Call) (hlog : net'.log = net.log ++ [c])
      (hc : c.isRun = false) (ht : c.isTasks = false) : Placing ⟨l, net⟩ ⟨l, net'⟩
  | track (l : Leader) (net : Logged N) (agent : Agent) (job : Job) (ha : agent ∈ l.agents)
      (hj : l.Holds job) : Placing ⟨l, net⟩ ⟨l.trackPlacement agent.id job.name, net⟩
  | untrack (l : Leader) (net : Logged N) (id name : String)
      (hname : name ∈ l.store.jobs.map Job.name) : Placing ⟨l, net⟩ ⟨l.untrackOne id name, net⟩
  | drop (l : Leader) (net : Logged N) (id name : String)
      (hname : name ∈ l.store.jobs.map Job.name) : Placing ⟨l, net⟩ ⟨l.dropPlacement id name, net⟩
  | note (l l' : Leader) (net : Logged N) (h : Notes l l') : Placing ⟨l, net⟩ ⟨l', net⟩
  | rank (l : Leader) (net : Logged N) (name : String) (i : ℕ) (hi : i < maxJobs) :
      Placing ⟨l, net⟩ ⟨l.storeSetPriority name i, net⟩

/-- A step of an operation that began with the log of `o` and stores only jobs with `J`. A
definition is replaced, a job is deleted and an agent leaves only as long as the operation has
asked nobody to run anything. -/
inductive Step (J : Job → Prop) (o : Logged N) : Sys N → Sys N → Prop
  | placing {s s' : Sys N} (h : Placing s s') : Step J o s s'
  | ask (l : Leader) (net : Logged N) (agent : Agent) :
      Step J o ⟨l, net⟩ ⟨l, (Transport.tasks net agent).2⟩
  | untrack (l : Leader) (net : Logged N) (id name : String) :
      Step J o ⟨l, net⟩ ⟨l.untrackOne id name, net⟩
  | take (l : Leader) (net : Logged N) (name : String) :
      Step J o ⟨l, net⟩ ⟨(l.takePlacement name).2, net⟩
  | put (l l' : Leader) (net : Logged N) (job : Job) (hj : J job) (h : l.storePut job = .ok l')
      (ho : Silent o net ∨ job.name ∉ l.store.jobs.map Job.name) : Step J o ⟨l, net⟩ ⟨l', net⟩
  | deploy (l : Leader) (net : Logged N) (name : String) (d : Bool) :
      Step J o ⟨l, net⟩ ⟨l.storeSetDeploying name d, net⟩
  /-- A job goes, from the store and from the books. -/
  | delete (l : Leader) (net : Logged N) (name : String) (ho : Silent o net) :
      Step J o ⟨l, net⟩ ⟨((l.storeRemove name).2.takePlacement name).2, net⟩
  | leave (l : Leader) (net : Logged N) (id : String) (ho : Silent o net) :
      Step J o ⟨l, net⟩ ⟨l.removeAgent id, net⟩
  /-- A sign of life. -/
  | beat (l : Leader) (net : Logged N) (id version : String) (now : Nanos) (ho : Silent o net) :
      Step J o ⟨l, net⟩ ⟨(l.heartbeat id version now).2, net⟩

/-- Steps of placing one after the other, with what they mark. -/
structure Places (s s' : Sys N) : Prop where
  steps : Relation.ReflTransGen Placing s s'
  marks : Marks s.leader s'.leader

/-- Steps one after the other, with what they mark. -/
structure Walk (J : Job → Prop) (o : Logged N) (s s' : Sys N) : Prop where
  steps : Relation.ReflTransGen (Step J o) s s'
  marks : Marks s.leader s'.leader

namespace Places

variable {s s' s'' : Sys N}

theorem refl (s : Sys N) : Places s s := ⟨.refl, .refl _⟩

theorem trans (h : Places s s') (h' : Places s' s'') : Places s s'' :=
  ⟨h.steps.trans h'.steps, h.marks.trans h'.marks⟩

theorem one (h : Placing s s')
    (hmarks : Marks s.leader s'.leader) : Places s s' :=
  ⟨.single h, hmarks⟩

/-- What every step of placing keeps, placing keeps. -/
theorem invariant {P : Sys N → Prop} (h : Places s s') (hP : ∀ s s', Placing s s' → P s → P s')
    (hs : P s) : P s' := by
  obtain ⟨hsteps, -⟩ := h
  induction hsteps with
  | refl => exact hs
  | tail _ hstep ih => exact hP _ _ hstep ih

/-- Placing is a walk. -/
theorem walk {J : Job → Prop} {o : Logged N} (h : Places s s') : Walk J o s s' :=
  ⟨h.steps.lift id fun _ _ => .placing, h.marks⟩

end Places

namespace Walk

variable {J : Job → Prop} {o : Logged N} {s s' s'' : Sys N}

theorem refl (s : Sys N) : Walk J o s s := ⟨.refl, .refl _⟩

theorem trans (h : Walk J o s s') (h' : Walk J o s' s'') : Walk J o s s'' :=
  ⟨h.steps.trans h'.steps, h.marks.trans h'.marks⟩

theorem one (h : Step J o s s')
    (hmarks : Marks s.leader s'.leader) : Walk J o s s' :=
  ⟨.single h, hmarks⟩

/-- Placing at the end of a walk. -/
theorem place (h : Walk J o s s') (h' : Places s' s'') : Walk J o s s'' := h.trans h'.walk

/-- **What every step keeps, a walk keeps.** -/
theorem invariant {P : Sys N → Prop} (h : Walk J o s s') (hP : ∀ s s', Step J o s s' → P s → P s')
    (hs : P s) : P s' := by
  obtain ⟨hsteps, -⟩ := h
  induction hsteps with
  | refl => exact hs
  | tail _ hstep ih => exact hP _ _ hstep ih

end Walk

namespace Leader

variable {J : Job → Prop} {o : Logged N}

/-! ### Single steps -/

theorem places_emit (l : Leader) (net : Logged N) (e : Event) : Places ⟨l, net⟩ ⟨l.emit e, net⟩ :=
  .one (.note l _ net ⟨rfl, rfl, rfl⟩) ⟨rfl, .inr ⟨rfl, rfl⟩⟩

theorem places_nextAgent (l : Leader) (net : Logged N) : Places ⟨l, net⟩ ⟨l.nextAgent.2, net⟩ := by
  unfold nextAgent
  split_ifs
  · exact .refl _
  · exact .one (.note l _ net ⟨rfl, rfl, rfl⟩) ⟨rfl, .inr ⟨rfl, rfl⟩⟩

theorem places_run {net net' : Logged N} {replace : Bool} {r : RunReply}
    (h : Transport.run net agent job replace = (r, net')) (ha : agent ∈ l.agents) (hj : l.Holds job)
    : Places ⟨l, net⟩ ⟨l, net'⟩ := by
  have hstep := Placing.run l net agent job replace ha hj
  rw [h] at hstep
  exact .one hstep ⟨rfl, .inr ⟨rfl, rfl⟩⟩

theorem places_stopJob {net net' : Logged N} {job : String} {b : Bool}
    (h : Transport.stopJob net agent job = (b, net')) : Places ⟨l, net⟩ ⟨l, net'⟩ :=
  .one (.call l net net' _ (Logged.log_stopJob h) rfl rfl) ⟨rfl, .inr ⟨rfl, rfl⟩⟩

/-! ### Placing -/

/-- A victim is a stored job. -/
theorem mem_of_findVictim {id : String} {p : Option ℤ} {victim : String}
    (h : l.findVictim id p = some victim) : victim ∈ l.store.jobs.map Job.name := by
  have hfold : ∀ (es : List (String × ℕ)) (acc : ℤ × Option String),
      (∀ v, acc.2 = some v → v ∈ l.store.jobs.map Job.name) →
      ∀ v, (es.foldl l.worse acc).2 = some v → v ∈ l.store.jobs.map Job.name := by
    intro es
    induction es with
    | nil => exact fun _ hacc => hacc
    | cons e es ih =>
      intro acc hacc
      refine ih _ fun v hv => ?_
      unfold worse at hv
      split_ifs at hv
      · exact hacc v hv
      · split at hv
        · exact hacc v hv
        · rename_i j hget
          split_ifs at hv
          · obtain ⟨hmem, hname⟩ := MemStore.get_eq_some_iff.mp hget
            obtain rfl : e.1 = v := Option.some.inj hv
            exact List.mem_map.mpr ⟨j, hmem, hname⟩
          · exact hacc v hv
  unfold findVictim at h
  split at h
  · cases h
  · exact hfold _ _ (fun _ hv => by cases hv) victim h

/-- Placing, with the store as it is. -/
def Seated (s : Sys N) (l : Leader) (net : Logged N) : Prop :=
  Places s ⟨l, net⟩ ∧ l.store = s.leader.store

theorem Seated.andThen {net net' : Logged N} (h : Seated s l net) (h' : Places ⟨l, net⟩ ⟨l', net'⟩)
    (hstore : l'.store = l.store) : Seated s l' net' :=
  ⟨h.1.trans h', hstore.trans h.2⟩

theorem places_tries (hj : s.leader.Holds job) :
    Tries job (Seated s) (Seated s) where
  next {l net} h := h.andThen (places_nextAgent l net) l.nextAgent_books.2.1
  refused h ha hrun _ := h.andThen (places_run hrun ha (holds_congr h.2 hj)) rfl
  accepted {l _ net' agent} h ha hrun :=
    have hj' : l.Holds job := holds_congr h.2 hj
    h.andThen ((places_run hrun ha hj').trans
      (.one (.track l net' agent job ha hj') ⟨rfl, .inr ⟨rfl, rfl⟩⟩)) rfl

theorem places_serves (hj : s.leader.Holds job) : Serves job (Seated s) where
  toTries := places_tries hj
  unconfirmed h _ _ hstop := h.andThen (places_stopJob hstop) rfl
  confirmed {_ _ net' _ victim} h _ hv hstop := h.andThen
    ((places_stopJob hstop).trans (.one (.drop _ net' _ victim (mem_of_findVictim hv))
      ⟨rfl, .inr ⟨rfl, rfl⟩⟩)) rfl
  emit h e := h.andThen (places_emit _ _ e) rfl

theorem places_dispatchLoop (count k i : ℕ) (net : Logged N) (hj : l.Holds job) :
    Places ⟨l, net⟩ ⟨(dispatchLoop job count k i l net).2.1,
      (dispatchLoop job count k i l net).2.2⟩ :=
  ((places_serves (s := ⟨l, net⟩) hj).dispatchLoop count k i ⟨.refl _, rfl⟩).1

/-! ### Reconciling -/

theorem places_reconcileJob (net : Logged N) (hj : l.Holds job) :
    Places ⟨l, net⟩ ⟨(l.reconcileJob net job).2.1, (l.reconcileJob net job).2.2⟩ :=
  ((places_serves (s := ⟨l, net⟩) hj).reconcileJob ⟨.refl _, rfl⟩).1

theorem places_reconcileLoop (names : List String) (l : Leader) (net : Logged N) :
    Places ⟨l, net⟩ ⟨(reconcileLoop names l net).1, (reconcileLoop names l net).2⟩ :=
  (reconcileLoop_keeps (I := Seated ⟨l, net⟩)
    (fun h _ hj _ => places_serves (holds_of_mem (h.2 ▸ hj))) names ⟨.refl _, rfl⟩).1

theorem places_normalizeLoop {names : List String} {i : ℕ} (l : Leader) (net : Logged N)
    (h : i + names.length ≤ maxJobs) : Places ⟨l, net⟩ ⟨normalizeLoop names i l, net⟩ := by
  induction names generalizing i l with
  | nil => exact .refl _
  | cons name rest ih =>
    rw [List.length_cons] at h
    unfold normalizeLoop
    dsimp only
    split_ifs
    · exact ih _ (by omega)
    · exact (Places.one (.rank l net name i (by omega)) (marks_storeSetPriority l name i)).trans
        (ih _ (by omega))

theorem length_priorityOrder (l : Leader) : l.priorityOrder.length ≤ maxJobs := by
  rw [l.priorityOrder_perm.length_eq, List.length_map]
  exact l.store.bounded

theorem places_normalizePriorities (l : Leader) (net : Logged N) :
    Places ⟨l, net⟩ ⟨l.normalizePriorities, net⟩ :=
  places_normalizeLoop l net (by simpa using l.length_priorityOrder)

theorem places_reconcileJobs (l : Leader) (net : Logged N) :
    Places ⟨l, net⟩ ⟨(l.reconcileJobs net).1, (l.reconcileJobs net).2⟩ := by
  rw [reconcileJobs_eq]
  split_ifs
  · exact .refl _
  · have hrank : Places ⟨l, net⟩ ⟨l.ranked, net⟩ :=
      (places_normalizePriorities l net).trans (.one (.note _ _ net ⟨rfl, rfl, rfl⟩) ⟨rfl, .inr ⟨rfl, rfl⟩⟩)
    exact hrank.trans (places_reconcileLoop _ _ _)

/-! ### Jobs -/

/-- What was stored is there. -/
theorem mem_of_storePut (h : l.storePut job = .ok l') :
    job ∈ l'.store.jobs := by
  unfold storePut MemStore.put at h
  split_ifs at h with hmem hlen
  · cases h
    obtain ⟨j, hj, hname⟩ := List.mem_map.mp hmem
    exact List.mem_map.mpr ⟨j, hj, if_pos hname⟩
  · cases h
    exact List.mem_append_right _ (List.mem_singleton_self job)

/-- A submission is refused, or the job is stored and the rest is placing. -/
theorem places_dispatchJob (l : Leader) (net : Logged N) (job : Job) :
    (∃ e, l.dispatchJob net job = (.error e, l, net)) ∨ ∃ l', l.storePut job = .ok l' ∧
      Places ⟨l', net⟩ ⟨(l.dispatchJob net job).2.1, (l.dispatchJob net job).2.2⟩ := by
  unfold dispatchJob
  by_cases hname : job.name = ""
  · rw [if_pos hname]
    exact .inl ⟨_, rfl⟩
  rw [if_neg hname]
  split
  · exact .inl ⟨_, rfl⟩
  · rename_i l' hput
    refine .inr ⟨l', hput, ?_⟩
    have hj : l'.Holds job := holds_of_mem (mem_of_storePut hput)
    by_cases hset : (!l'.settled) = true
    · rw [if_pos hset]
      exact .refl _
    rw [if_neg hset]
    have hplaced : Places ⟨l', net⟩
        ⟨(if job.isDaemon then l'.reconcileJob net job else l'.dispatchCount net job job.desired).2.1,
          (if job.isDaemon then l'.reconcileJob net job
            else l'.dispatchCount net job job.desired).2.2⟩ := by
      split_ifs
      · exact places_reconcileJob net hj
      · exact places_dispatchLoop _ _ 0 net hj
    dsimp only
    generalize (if job.isDaemon then l'.reconcileJob net job
      else l'.dispatchCount net job job.desired) = r at hplaced
    obtain ⟨res, l'', net''⟩ := r
    cases res with
    | error e => exact hplaced
    | ok u => exact hplaced.trans (places_emit _ _ _)

theorem walk_dispatchJob (l : Leader) (net : Logged N) (hJ : J job)
    (ho : Silent o net ∨ job.name ∉ l.store.jobs.map Job.name) :
    Walk J o ⟨l, net⟩ ⟨(l.dispatchJob net job).2.1, (l.dispatchJob net job).2.2⟩ := by
  rcases places_dispatchJob l net job with ⟨e, hrefused⟩ | ⟨l', hput, hplaces⟩
  · rw [hrefused]
    exact .refl _
  · exact (Walk.one (.put l l' net job hJ hput ho) (marks_storePut hput)).place hplaces

theorem walk_seedInitJobs {jobs : List Job} (l : Leader) (net : Logged N)
    (hJ : ∀ job ∈ jobs, ∀ i : ℕ, i ≤ maxJobs → J { job with priority := some (job.priority.getD i) }) :
    Walk J o ⟨l, net⟩ ⟨(seedInitJobs jobs l net).1, (seedInitJobs jobs l net).2⟩ := by
  induction jobs generalizing l net with
  | nil => exact .refl _
  | cons job rest ih =>
    have hrest := fun j hj => hJ j (List.mem_cons_of_mem job hj)
    unfold seedInitJobs
    split
    · exact ih l net hrest
    · rename_i hget
      have hdispatch := walk_dispatchJob (o := o) l net
        (hJ job List.mem_cons_self l.store.jobs.length l.store.bounded)
        (.inr (MemStore.get_eq_none_iff.mp hget))
      exact hdispatch.trans (ih _ _ hrest)

theorem places_foldl {α : Type} {f : Logged N → α → Logged N} (l : Leader)
    (hf : ∀ net a, Places ⟨l, net⟩ ⟨l, f net a⟩) (as : List α) (net : Logged N) :
    Places ⟨l, net⟩ ⟨l, as.foldl f net⟩ := by
  induction as generalizing net with
  | nil => exact .refl _
  | cons a as ih => exact (hf net a).trans (ih _)

theorem places_deleteEach (l : Leader) (name : String) (agents : List Agent) (net : Logged N) :
    Places ⟨l, net⟩ ⟨l, deleteEach name agents net⟩ :=
  places_foldl l (fun net a => .one (.call l net _ (.deleteJob a name) rfl rfl rfl)
    (by exact ⟨rfl, .inr ⟨rfl, rfl⟩⟩)) agents net

theorem walk_deleteJob (l : Leader) (net : Logged N) (name : String) :
    Walk J net ⟨l, net⟩ ⟨(l.deleteJob net name).1, (l.deleteJob net name).2⟩ := by
  have hdelete := Walk.one (Step.delete (J := J) l net name (.refl net))
    ((marks_storeRemove l name).trans ⟨rfl, .inr ⟨rfl, rfl⟩⟩)
  unfold deleteJob
  split
  · rename_i l' h
    unfold storeRemove at h
    split at h
    · cases h
    · cases h
      exact .refl _
  · rename_i j l' h
    rw [h] at hdelete
    exact ((hdelete.place (places_deleteEach _ name _ net)).place (places_emit _ _ _)).place
      (places_reconcileJobs _ _)

theorem places_renumber {names : List String} {i : ℕ} (l : Leader) (net : Logged N)
    (h : i + names.length ≤ maxJobs) : Places ⟨l, net⟩ ⟨renumber names i l, net⟩ := by
  induction names generalizing i l with
  | nil => exact .refl _
  | cons name rest ih =>
    rw [List.length_cons] at h
    exact (Places.one (.rank l net name i (by omega)) (marks_storeSetPriority l name i)).trans
      (ih _ (by omega))

theorem walk_patchJobPriority (l : Leader) (net : Logged N) (name : String) (target : ℤ) :
    Walk J o ⟨l, net⟩
      ⟨(l.patchJobPriority net name target).2.1, (l.patchJobPriority net name target).2.2⟩ := by
  unfold patchJobPriority
  split
  · exact .refl _
  · rename_i old hget
    obtain ⟨hmem, hname⟩ := MemStore.get_eq_some_iff.mp hget
    -- the job leaves its place and takes another one, so the order is not longer than before
    have hlt : (l.priorityOrder.filter fun n => n ≠ name).length < l.priorityOrder.length := by
      refine List.length_filter_lt_length_iff_exists.mpr ⟨name, ?_, by simp⟩
      rw [l.priorityOrder_perm.mem_iff]
      exact List.mem_map.mpr ⟨old, hmem, hname⟩
    have hins := List.length_insertIdx_of_le_length (a := name)
      (min_le_right target.toNat (l.priorityOrder.filter fun n => n ≠ name).length)
    have hall := l.length_priorityOrder
    dsimp only
    exact (((places_renumber l net (by omega)).trans (places_emit _ _ _)).trans
      (places_reconcileJobs _ _)).walk

/-! ### Agents -/

theorem places_stopEach (agent : Option Agent) (names : List String) (l : Leader) (net : Logged N) :
    Places ⟨l, net⟩ ⟨(stopEach agent names l net).1, (stopEach agent names l net).2⟩ := by
  induction names generalizing l net with
  | nil => exact .refl _
  | cons name rest ih =>
    unfold stopEach
    cases agent with
    | none => exact (places_emit _ _ _).trans (ih _ _)
    | some a => exact ((places_stopJob rfl).trans (places_emit _ _ _)).trans (ih _ _)

/-- Only stored jobs are redundant. -/
theorem mem_of_redundant {id name : String} (h : name ∈ l.redundant id) :
    name ∈ l.store.jobs.map Job.name := by
  unfold redundant at h
  split at h
  · exact absurd h List.not_mem_nil
  · obtain ⟨e, he, rfl⟩ := List.mem_map.mp h
    have hkeep := (List.mem_filter.mp he).2
    by_contra hname
    rw [MemStore.get_eq_none_iff.mpr hname, Bool.and_false] at hkeep
    cases hkeep

theorem places_trimReturningAgentSurplus (l : Leader) (net : Logged N) (id : String) :
    Places ⟨l, net⟩
      ⟨(l.trimReturningAgentSurplus net id).1, (l.trimReturningAgentSurplus net id).2⟩ := by
  have hdrop : ∀ (names : List String) (l : Leader),
      (∀ name ∈ names, name ∈ l.store.jobs.map Job.name) →
      Places ⟨l, net⟩ ⟨names.foldl (fun l name => l.dropPlacement id name) l, net⟩ := by
    intro names
    induction names with
    | nil => exact fun _ _ => .refl _
    | cons name rest ih =>
      intro l hnames
      have hone := Places.one (.drop l net id name (hnames name List.mem_cons_self)) ⟨rfl, .inr ⟨rfl, rfl⟩⟩
      exact hone.trans (ih _ fun n hn => hnames n (List.mem_cons_of_mem name hn))
  exact (hdrop _ l fun _ hname => mem_of_redundant hname).trans (places_stopEach _ _ _ _)

/-- What follows the entry of an agent. -/
theorem places_registered (l : Leader) (net : Logged N) (id : String) :
    Places ⟨l, net⟩
      ⟨(if l.settled then
          (l.trimReturningAgentSurplus net id).1.reconcileJobs (l.trimReturningAgentSurplus net id).2
        else (l, net)).1.emit (.agent id),
        (if l.settled then
          (l.trimReturningAgentSurplus net id).1.reconcileJobs (l.trimReturningAgentSurplus net id).2
        else (l, net)).2⟩ := by
  split_ifs
  · exact ((places_trimReturningAgentSurplus l net id).trans (places_reconcileJobs _ _)).trans
      (places_emit _ _ _)
  · exact places_emit _ _ _

/-- Whether a registration is taken: no live agent has the id at another address, and there is
room. -/
def takes (l : Leader) (agent : Agent) (now : Nanos) : Bool :=
  !((l.agent agent.id).any fun existing => decide (existing.endpoint ≠ agent.endpoint) &&
    decide (now - existing.lastSeen < l.agentTimeout)) &&
    decide ((l.removeAgent agent.id).agents.length < maxAgents)

theorem room_of_takes {now : Nanos} (h : l.takes agent now = true) :
    (l.removeAgent agent.id).agents.length < maxAgents :=
  of_decide_eq_true (Bool.and_eq_true_iff.mp h).2

/-- A registration that is taken: the agent enters, and the rest is placing. -/
theorem places_registerAgent (net : Logged N) (placed : Map ℕ) {now : Nanos}
    (h : l.takes agent now = true) :
    Places ⟨l.insertAgent { agent with lastSeen := now } placed, net⟩
      ⟨(l.registerAgent net agent placed now).2.1, (l.registerAgent net agent placed now).2.2⟩ := by
  have hplaces := places_registered (l.insertAgent { agent with lastSeen := now } placed) net agent.id
  have hdup := (Bool.and_eq_true_iff.mp h).1
  rw [Bool.not_eq_true'] at hdup
  unfold registerAgent
  simp only [hdup, Bool.false_eq_true, if_false, Nat.not_le.mpr (room_of_takes h)]
  split_ifs at hplaces ⊢ with hset
  · exact hplaces
  · exact hplaces

/-- A registration that is not taken: at most the old incarnation leaves. -/
theorem walk_registerAgent (net : Logged N) (placed : Map ℕ) {now : Nanos}
    (h : l.takes agent now = false) :
    Walk J net ⟨l, net⟩
      ⟨(l.registerAgent net agent placed now).2.1, (l.registerAgent net agent placed now).2.2⟩ := by
  unfold registerAgent
  dsimp only
  split_ifs with hdup hroom hset
  · exact .refl _
  · exact .one (.leave _ _ agent.id (.refl net)) ⟨rfl, .inr ⟨rfl, rfl⟩⟩
  all_goals
    rw [takes, Bool.eq_false_iff.mpr hdup, decide_eq_true (Nat.not_le.mp hroom)] at h
    cases h

theorem walk_unregisterAgent (l : Leader) (net : Logged N) (id : String) :
    Walk J net ⟨l, net⟩ ⟨(l.unregisterAgent net id).1, (l.unregisterAgent net id).2⟩ :=
  (Walk.one (.leave l net id (.refl net)) ⟨rfl, .inr ⟨rfl, rfl⟩⟩).place (places_reconcileJobs _ _)

theorem walk_markUnplaced (l : Leader) (net : Logged N) (id name : String) :
    Walk J o ⟨l, net⟩ ⟨(l.markUnplaced net id name).1, (l.markUnplaced net id name).2⟩ :=
  (Walk.one (.untrack l net id name) ⟨rfl, .inr ⟨rfl, rfl⟩⟩).place (places_reconcileJobs _ _)

theorem walk_checkDeadAgents (l : Leader) (net : Logged N) (now : Nanos) :
    Walk J net ⟨l, net⟩ ⟨(l.checkDeadAgents net now).1, (l.checkDeadAgents net now).2⟩ := by
  have hleave : ∀ (ids : List String) (l : Leader),
      Walk J net ⟨l, net⟩ ⟨ids.foldl (fun l id => (l.removeAgent id).emit (.agent id)) l, net⟩ := by
    intro ids
    induction ids with
    | nil => exact fun _ => .refl _
    | cons id rest ih =>
      exact fun l => ((Walk.one (.leave l net id (.refl net)) ⟨rfl, .inr ⟨rfl, rfl⟩⟩).place
        (places_emit _ _ _)).trans (ih _)
  unfold checkDeadAgents
  dsimp only
  split_ifs
  · exact .refl _
  · exact .refl _
  · exact (hleave _ l).place (places_reconcileJobs _ _)

/-- The first part of a tick: the end of the settle period. -/
def endSettle (l : Leader) (net : Logged N) (now : Nanos) : Leader × Logged N :=
  if !l.settled ∧ l.settleAt.any (fun t => decide (t ≤ now)) = true then
    ({ l with settled := true, settleAt := none }.emit .status).reconcileJobs net
  else (l, net)

/-- The end of a tick: it is counted, and every so often the jobs are reconciled. -/
theorem places_count (l : Leader) (net : Logged N) :
    let l' : Leader := { l with ticks := (l.ticks + 1) % 2 ^ 64 }
    let r := if l'.settled ∧ l'.ticks % reconcileEveryTicks = 0 then l'.reconcileJobs net else (l', net)
    Places ⟨l, net⟩ ⟨r.1, r.2⟩ := by
  intro l' r
  have hcount : Places ⟨l, net⟩ ⟨l', net⟩ := .one (.note l _ net ⟨rfl, rfl, rfl⟩) ⟨rfl, .inr ⟨rfl, rfl⟩⟩
  by_cases h : l'.settled ∧ l'.ticks % reconcileEveryTicks = 0
  · rw [show r = l'.reconcileJobs net from if_pos h]
    exact hcount.trans (places_reconcileJobs _ _)
  · rw [show r = (l', net) from if_neg h]
    exact hcount

/-- The end of the settle period is placing; then dead agents leave, and the rest is placing. -/
theorem walk_tick (l : Leader) (net : Logged N) (now : Nanos) :
    Places ⟨l, net⟩ ⟨(l.endSettle net now).1, (l.endSettle net now).2⟩ ∧
      Walk J (l.endSettle net now).2 ⟨(l.endSettle net now).1, (l.endSettle net now).2⟩
        ⟨(l.tick net now).1, (l.tick net now).2⟩ := by
  have hend : Places ⟨l, net⟩ ⟨(l.endSettle net now).1, (l.endSettle net now).2⟩ := by
    rw [endSettle]
    split_ifs
    · have hsettled : Places ⟨l, net⟩
          ⟨({ l with settled := true, settleAt := none } : Leader).emit .status, net⟩ :=
        .one (.note l _ net ⟨rfl, rfl, rfl⟩) ⟨rfl, .inr ⟨rfl, rfl⟩⟩
      exact hsettled.trans (places_reconcileJobs _ _)
    · exact .refl _
  have hdead := walk_checkDeadAgents (J := J) (l.endSettle net now).1 (l.endSettle net now).2 now
  exact ⟨hend, hdead.place (places_count _ _)⟩

/-! ### Updates -/

theorem walk_jobStatusLoop (l : Leader) (name : String) (agents : List Agent) (net : Logged N) :
    Walk J o ⟨l, net⟩ ⟨l, (l.jobStatusLoop name agents net).2⟩ := by
  induction agents generalizing net with
  | nil => exact .refl _
  | cons a rest ih =>
    unfold jobStatusLoop
    split_ifs
    · exact ih net
    · have htasks : Walk J o ⟨l, net⟩ ⟨l, (Transport.tasks net a).2⟩ := .one (.ask l net a)
        ⟨rfl, .inr ⟨rfl, rfl⟩⟩
      split
      · rename_i net' heq
        rw [heq] at htasks
        exact htasks.trans (ih net')
      · rename_i tasks net' heq
        rw [heq] at htasks
        exact htasks.trans (ih net')

theorem walk_snapshotJobTasks (l : Leader) (net : Logged N) (name : String) :
    Walk J o ⟨l, net⟩ ⟨l, (l.snapshotJobTasks net name).2⟩ := by
  have hstatus : Walk J o ⟨l, net⟩ ⟨l, (l.jobStatus net name).2⟩ := by
    unfold jobStatus
    split
    · exact .refl _
    · exact walk_jobStatusLoop l name l.agents net
  exact hstatus

theorem places_advances (hj : s.leader.Holds job) : Advances job (Seated s) where
  toTries := places_tries hj
  emit h e := h.andThen (places_emit _ _ e) rfl
  replaced h ha hrun := h.andThen (places_run hrun ha (holds_congr h.2 hj)) rfl
  stopTask {l net agent} h _ taskId := h.andThen
    ((Places.one (.untrack l net agent.id job.name (h.2 ▸ hj.name_mem)) ⟨rfl, .inr ⟨rfl, rfl⟩⟩).trans
      (.one (.call _ net _ (.stopTask agent taskId) rfl rfl rfl) ⟨rfl, .inr ⟨rfl, rfl⟩⟩)) rfl
  pause {l net} h d := h.andThen (.one (.call l net _ (.pause d) rfl rfl rfl) ⟨rfl, .inr ⟨rfl, rfl⟩⟩) rfl

theorem places_rollLoop (olds : List TaskRef) (i : ℕ) (net : Logged N) (hj : l.Holds job) :
    Places ⟨l, net⟩ ⟨(rollLoop job olds i l net).2.1, (rollLoop job olds i l net).2.2⟩ :=
  ((places_advances (s := ⟨l, net⟩) hj).rollLoop olds i ⟨.refl _, rfl⟩).1

theorem places_blueGreenLoop (count k i : ℕ) (net : Logged N) (hj : l.Holds job) :
    Places ⟨l, net⟩ ⟨(blueGreenLoop job count k i l net).2.1,
      (blueGreenLoop job count k i l net).2.2⟩ :=
  ((places_advances (s := ⟨l, net⟩) hj).blueGreenLoop count k i ⟨.refl _, rfl⟩).1

theorem places_stopOldTasks (olds : List TaskRef) (net : Logged N) (hj : l.Holds job) :
    Places ⟨l, net⟩ ⟨(stopOldTasks job.name olds l net).1, (stopOldTasks job.name olds l net).2⟩ :=
  ((places_advances (s := ⟨l, net⟩) hj).stopOldTasks olds ⟨.refl _, rfl⟩).1

theorem walk_updateRolling (l : Leader) (net : Logged N) (hJ : J job) :
    Walk J net ⟨l, net⟩ ⟨(l.updateRolling net job).2.1, (l.updateRolling net job).2.2⟩ := by
  have hsnap := walk_snapshotJobTasks (J := J) (o := net) l net job.name
  have hsilent := silent_snapshotJobTasks l net job.name
  unfold updateRolling
  generalize l.snapshotJobTasks net job.name = snap at hsnap hsilent ⊢
  obtain ⟨olds, net₁⟩ := snap
  dsimp only
  split
  · exact hsnap
  · rename_i l' hput
    have hloop := places_rollLoop olds 0 net₁ (holds_of_mem (mem_of_storePut hput))
    have hstored := (hsnap.trans (.one (.put l l' net₁ job hJ hput (.inl hsilent))
      (marks_storePut hput))).place hloop
    split
    · rename_i e l'' net'' heq
      rwa [heq] at hstored
    · rename_i l'' net'' heq
      rw [heq] at hstored
      exact hstored.place (places_reconcileJobs _ _)

theorem walk_updateRecreate (l : Leader) (net : Logged N) (hJ : J job) :
    Walk J net ⟨l, net⟩ ⟨(l.updateRecreate net job).2.1, (l.updateRecreate net job).2.2⟩ := by
  have hstops : Silent net ((l.takePlacement job.name).1.foldl
      (fun net a => (Transport.stopJob net a job.name).2) net) :=
    silent_foldl _ (fun net a =>
      .of_append (c := .stopJob a job.name (Transport.stopJob net a job.name).1) rfl rfl) _ net
  exact ((Walk.one (.take l net job.name) ⟨rfl, .inr ⟨rfl, rfl⟩⟩).place
    (places_foldl _ (fun _ _ => places_stopJob rfl) _
    net)).trans (walk_dispatchJob _ _ hJ (.inl hstops))

theorem walk_updateBlueGreen (l : Leader) (net : Logged N) (hJ : J job) :
    Walk J net ⟨l, net⟩ ⟨(l.updateBlueGreen net job).2.1, (l.updateBlueGreen net job).2.2⟩ := by
  have hsnap := walk_snapshotJobTasks (J := J) (o := net) l net job.name
  have hsilent := silent_snapshotJobTasks l net job.name
  unfold updateBlueGreen
  generalize l.snapshotJobTasks net job.name = snap at hsnap hsilent ⊢
  obtain ⟨olds, net₁⟩ := snap
  dsimp only
  split
  · exact hsnap
  · rename_i l' hput
    have hj : l'.Holds job := holds_of_mem (mem_of_storePut hput)
    have hloop := places_blueGreenLoop job.desired job.desired 0 net₁ hj
    have hmoves := moves_blueGreenLoop job job.desired job.desired 0 l' net₁
    have hstored := (hsnap.trans (.one (.put l l' net₁ job hJ hput (.inl hsilent))
      (marks_storePut hput))).place hloop
    split
    · rename_i e l'' net'' heq
      rwa [heq] at hstored
    · rename_i l'' net'' heq
      rw [heq] at hstored hmoves
      have hj' := holds_congr hmoves.store hj
      exact (hstored.place (places_stopOldTasks olds net'' hj')).place (places_emit _ _ _)

/-- A rollout by the policy of the job. -/
theorem walk_rollout (l : Leader) (net : Logged N) {old : Job} (hJ : J (updated old job))
    (p : Types.UpdatePolicy) :
    Walk J net ⟨l, net⟩
      ⟨(match p with
        | .rolling => l.updateRolling net (updated old job)
        | .recreate => l.updateRecreate net (updated old job)
        | .blueGreen => l.updateBlueGreen net (updated old job)).2.1,
        (match p with
        | .rolling => l.updateRolling net (updated old job)
        | .recreate => l.updateRecreate net (updated old job)
        | .blueGreen => l.updateBlueGreen net (updated old job)).2.2⟩ := by
  cases p with
  | rolling => exact walk_updateRolling l net hJ
  | recreate => exact walk_updateRecreate l net hJ
  | blueGreen => exact walk_updateBlueGreen l net hJ

theorem walk_updateJob (l : Leader) (net : Logged N)
    (hJ : ∀ old, l.store.get job.name = some old → J (updated old job)) :
    Walk J net ⟨l, net⟩ ⟨(l.updateJob net job).2.1, (l.updateJob net job).2.2⟩ := by
  unfold updateJob
  split
  · exact .refl _
  · rename_i old hget
    split
    · exact .refl _
    · have hroll := walk_rollout (J := J) l net (hJ old hget)
      refine Walk.place ?_ (places_normalizePriorities _ _)
      dsimp only
      split
      · exact (hroll _).trans (.one (.deploy _ _ _ _) (marks_storeSetDeploying _ _ _))
      · exact hroll _

/-! ### Requests -/

/-- The load of a snapshot changes the store only, and puts nothing into it but the jobs that it
read. -/
theorem loadCommittedState_frame (l : Leader) (snapshot : Option Bytes) :
    (l.loadCommittedState snapshot).2.agents = l.agents ∧
      (l.loadCommittedState snapshot).2.placed = l.placed ∧
      ∀ j ∈ (l.loadCommittedState snapshot).2.store.jobs, j ∈ l.store.jobs ∨
        ∃ data updated jobs, snapshot = some data ∧ readState data = .ok (updated, jobs) ∧
          j ∈ jobs := by
  have hremove : ∀ (names : List String) (l : Leader),
      (names.foldl (fun l name => (l.storeRemove name).2) l).agents = l.agents ∧
      (names.foldl (fun l name => (l.storeRemove name).2) l).placed = l.placed ∧
      ∀ j ∈ (names.foldl (fun l name => (l.storeRemove name).2) l).store.jobs, j ∈ l.store.jobs := by
    intro names
    induction names with
    | nil => exact fun l => ⟨rfl, rfl, fun _ hj => hj⟩
    | cons name rest ih =>
      intro l
      obtain ⟨hagents, hplaced, hjobs⟩ := ih (l.storeRemove name).2
      have hone := l.storeRemove_frame name
      exact ⟨hagents.trans hone.1, hplaced.trans hone.2.1, fun j hj => hone.2.2 j (hjobs j hj)⟩
  have hput : ∀ (jobs : List Job) (l : Leader),
      (putLoaded jobs l).2.agents = l.agents ∧ (putLoaded jobs l).2.placed = l.placed ∧
      ∀ j ∈ (putLoaded jobs l).2.store.jobs, j ∈ l.store.jobs ∨ j ∈ jobs := by
    intro jobs
    induction jobs with
    | nil => exact fun l => ⟨rfl, rfl, fun _ hj => .inl hj⟩
    | cons job rest ih =>
      intro l
      unfold putLoaded
      split
      · exact ⟨rfl, rfl, fun _ hj => .inl hj⟩
      · rename_i store hstore
        obtain ⟨hagents, hplaced, hjobs⟩ := ih { l with store := store }
        refine ⟨hagents, hplaced, fun j hj => ?_⟩
        rcases hjobs j hj with hj | hj
        · rcases MemStore.mem_of_put hstore hj with hj | rfl
          · exact .inl hj
          · exact .inr List.mem_cons_self
        · exact .inr (List.mem_cons_of_mem job hj)
  unfold loadCommittedState
  split
  · exact ⟨rfl, rfl, fun _ hj => .inl hj⟩
  · rename_i data
    split
    · exact ⟨rfl, rfl, fun _ hj => .inl hj⟩
    · rename_i updated jobs hread
      obtain ⟨hagents, hplaced, hjobs⟩ := hremove (l.stale jobs) l
      obtain ⟨hagents', hplaced', hjobs'⟩ := hput jobs
        ((l.stale jobs).foldl (fun l name => (l.storeRemove name).2) l)
      have hmem : ∀ j, j ∈ (putLoaded jobs
          ((l.stale jobs).foldl (fun l name => (l.storeRemove name).2) l)).2.store.jobs →
          j ∈ l.store.jobs ∨ ∃ data' updated' jobs', some data = some data' ∧
            readState data' = .ok (updated', jobs') ∧ j ∈ jobs' := by
        intro j hj
        rcases hjobs' j hj with hj | hj
        · exact .inl (hjobs j hj)
        · exact .inr ⟨data, updated, jobs, rfl, hread, hj⟩
      generalize putLoaded jobs
        ((l.stale jobs).foldl (fun l name => (l.storeRemove name).2) l) = put at hagents' hplaced' hmem
      obtain ⟨r, l'⟩ := put
      cases r with
      | error e => exact ⟨hagents'.trans hagents, hplaced'.trans hplaced, hmem⟩
      | ok u => exact ⟨hagents'.trans hagents, hplaced'.trans hplaced, hmem⟩

end Leader

/-- What an operation may store: every job that it would put into the store has `J`. -/
def Op.Stores (J : Job → Prop) (l : Leader) : Op → Prop
  | .dispatchJob job => J job
  | .updateJob job => ∀ old, l.store.get job.name = some old → J (updated old job)
  | .seedInitJobs jobs => ∀ job ∈ jobs, ∀ i : ℕ, i ≤ maxJobs →
      J { job with priority := some (job.priority.getD i) }
  | _ => True

/-- The state after the first part of a tick. -/
def Sys.endSettle (s : Sys N) (now : Nanos) : Sys N :=
  ⟨(s.leader.endSettle s.net now).1, (s.leader.endSettle s.net now).2⟩

/-- **An operation is a walk**; the end of a settle period and the entry of a new incarnation of
an agent come before it. -/
theorem walk_apply {J : Job → Prop} (s : Sys N) {op : Op} (hJ : op.Stores J s.leader) :
    Walk J s.net s (s.apply op) ∨
      (∃ now, op = .tick now ∧ Places s (s.endSettle now) ∧
        Walk J (s.endSettle now).net (s.endSettle now) (s.apply op)) ∨
      ∃ agent placed now, op = .registerAgent agent placed now ∧
        s.leader.takes agent now = true ∧
        Places ⟨s.leader.insertAgent { agent with lastSeen := now } placed, s.net⟩ (s.apply op) := by
  cases op with
  | dispatchJob job => exact .inl (walk_dispatchJob _ _ hJ (.inl (.refl _)))
  | updateJob job => exact .inl (walk_updateJob _ _ hJ)
  | deleteJob name => exact .inl (walk_deleteJob _ _ name)
  | patchJobPriority name target => exact .inl (walk_patchJobPriority _ _ name target)
  | seedInitJobs jobs => exact .inl (walk_seedInitJobs _ _ hJ)
  | registerAgent agent placed now =>
    by_cases htakes : s.leader.takes agent now = true
    · exact .inr (.inr ⟨agent, placed, now, rfl, htakes, places_registerAgent s.net placed htakes⟩)
    · exact .inl (walk_registerAgent s.net placed (Bool.eq_false_iff.mpr htakes))
  | unregisterAgent id => exact .inl (walk_unregisterAgent _ _ id)
  | markUnplaced id name => exact .inl (walk_markUnplaced _ _ id name)
  | heartbeat id version now =>
    exact .inl (.one (.beat _ _ id version now (.refl _)) (marks_heartbeat _ id version now))
  | checkDeadAgents now => exact .inl (walk_checkDeadAgents _ _ now)
  | tick now =>
    obtain ⟨hplaces, hwalk⟩ := walk_tick (J := J) s.leader s.net now
    exact .inr (.inl ⟨now, rfl, hplaces, hwalk⟩)

/-- **What every step keeps, an operation keeps**, if the entry of an agent keeps it. -/
theorem apply_invariant {J : Job → Prop} {P : Sys N → Prop} {op : Op} (hJ : op.Stores J s.leader)
    (hP : ∀ o s s', Step J o s s' → P s → P s')
    (henter : ∀ agent placed now, op = .registerAgent agent placed now →
      s.leader.takes agent now = true →
      P ⟨s.leader.insertAgent { agent with lastSeen := now } placed, s.net⟩)
    (hs : P s) :
    P (s.apply op) := by
  have hplacing : ∀ s s', Placing s s' → P s → P s' := fun s s' h => hP s.net s s' (.placing h)
  rcases walk_apply s hJ with hwalk | ⟨now, -, hplaces, hwalk⟩ |
    ⟨agent, placed, now, hop, htakes, hplaces⟩
  · exact hwalk.invariant (hP _) hs
  · exact hwalk.invariant (hP _) (hplaces.invariant hplacing hs)
  · exact hplaces.invariant hplacing (henter agent placed now hop htakes)

theorem Leader.notes_pollSnapshot (l : Leader) (now : Nanos) : Notes l (l.pollSnapshot now).2 := by
  unfold pollSnapshot
  dsimp only
  split_ifs
  · exact ⟨rfl, rfl, rfl⟩
  · exact ⟨rfl, rfl, rfl⟩
  · exact ⟨rfl, rfl, rfl⟩

theorem Leader.notes_settle (l : Leader) (delay now : Nanos) : Notes l (l.settle delay now) := by
  unfold settle
  split_ifs
  · exact ⟨rfl, rfl, rfl⟩
  · exact ⟨rfl, rfl, rfl⟩

/-- A request other than an operation and a load changes nothing that placing reads. -/
theorem serve_cases (s : Sys N) (r : Request) :
    (∃ op, r = .op op) ∨ (∃ snapshot, r = .loadCommittedState snapshot) ∨
      ∃ l', s.serve r = ⟨l', s.net⟩ ∧ Notes s.leader l' := by
  cases r with
  | op op => exact .inl ⟨op, rfl⟩
  | loadCommittedState snapshot => exact .inr (.inl ⟨snapshot, rfl⟩)
  | pollSnapshot now => exact .inr (.inr ⟨_, rfl, s.leader.notes_pollSnapshot now⟩)
  | snapshotFailed => exact .inr (.inr ⟨_, rfl, rfl, rfl, rfl⟩)
  | settle delay now => exact .inr (.inr ⟨_, rfl, s.leader.notes_settle delay now⟩)
  | setAgentTimeout d => exact .inr (.inr ⟨_, rfl, rfl, rfl, rfl⟩)
  | drainEvents => exact .inr (.inr ⟨_, rfl, rfl, rfl, rfl⟩)

theorem Op.stores_true (l : Leader) (op : Op) : op.Stores (fun _ => True) l := by
  cases op <;> simp [Op.Stores]

/-! ### The jobs in the store -/

/-- Every stored job has `P`. -/
def Leader.StoreAll (P : Job → Prop) (l : Leader) : Prop := ∀ j ∈ l.store.jobs, P j

/-- A property that neither a new priority nor the rollout flag takes away. -/
structure Steady (P : Job → Prop) : Prop where
  rank : ∀ j, ∀ i : ℕ, i < maxJobs → P j → P { j with priority := some (i : ℤ) }
  deploy : ∀ j d, P j → P { j with deploying := d }

theorem mem_map_ite {jobs : List Job} {name : String} {f : Job → Job} {j : Job}
    (hj : j ∈ jobs.map fun j => if j.name = name then f j else j) :
    j ∈ jobs ∨ ∃ k ∈ jobs, j = f k := by
  obtain ⟨k, hk, rfl⟩ := List.mem_map.mp hj
  split_ifs
  · exact .inr ⟨k, hk, rfl⟩
  · exact .inl hk

namespace Leader.StoreAll

variable {P : Job → Prop}

theorem storePut (h : l.StoreAll P) (hput : l.storePut job = .ok l') (hjob : P job) :
    l'.StoreAll P := by
  intro j hj
  unfold Leader.storePut at hput
  split at hput
  · rename_i store hstore
    cases hput
    rcases MemStore.mem_of_put hstore hj with hj | rfl
    · exact h j hj
    · exact hjob
  · cases hput

theorem storeSetPriority (h : l.StoreAll P) (hP : Steady P) (name : String) {i : ℕ}
    (hi : i < maxJobs) : (l.storeSetPriority name i).StoreAll P := by
  intro j hj
  unfold Leader.storeSetPriority at hj
  split at hj
  · rcases mem_map_ite hj with hj | ⟨k, hk, rfl⟩
    · exact h j hj
    · exact hP.rank k i hi (h k hk)
  · exact h j hj

theorem storeSetDeploying (h : l.StoreAll P) (hP : Steady P) (name : String) (d : Bool) :
    (l.storeSetDeploying name d).StoreAll P := by
  intro j hj
  unfold Leader.storeSetDeploying at hj
  split at hj
  · rcases mem_map_ite hj with hj | ⟨k, hk, rfl⟩
    · exact h j hj
    · exact hP.deploy k d (h k hk)
  · exact h j hj

theorem placing {s' : Sys N} (hP : Steady P) (hstep : Placing s s') (h : s.leader.StoreAll P) :
    s'.leader.StoreAll P := by
  cases hstep with
  | run => exact h
  | call => exact h
  | track => exact h
  | untrack => exact h
  | drop => exact h
  | note l l' net hnote =>
    intro j hj
    rw [hnote.store] at hj
    exact h j hj
  | rank l net name i hi => exact h.storeSetPriority hP name hi

/-- A step keeps what is steady and holds of every job that it stores. -/
theorem step {o : Logged N} {s' : Sys N} (hP : Steady P) (hstep : Step P o s s')
    (h : s.leader.StoreAll P) :
    s'.leader.StoreAll P := by
  cases hstep with
  | placing hplacing => exact h.placing hP hplacing
  | ask => exact h
  | untrack => exact h
  | take => exact h
  | put l l' net job hjob hput => exact h.storePut hput hjob
  | deploy l net name d => exact h.storeSetDeploying hP name d
  | delete l net name => exact fun j hj => h j ((l.storeRemove_frame name).2.2 j hj)
  | leave => exact h
  | beat l net id version now =>
    intro j hj
    unfold heartbeat at hj
    split at hj
    · exact h j hj
    · exact h j hj

end Leader.StoreAll

/-- What a request may store: an operation as above, a load the jobs of its snapshot. -/
def Request.Stores (J : Job → Prop) (l : Leader) : Request → Prop
  | .op o => o.Stores J l
  | .loadCommittedState snapshot => ∀ data updated jobs, snapshot = some data →
      readState data = .ok (updated, jobs) → ∀ j ∈ jobs, J j
  | _ => True

/-- **The stored jobs**: what is steady and holds of every job that a request stores is kept. -/
theorem storeAll_serve {P : Job → Prop} (hP : Steady P) {r : Request} (hr : r.Stores P s.leader)
    (h : s.leader.StoreAll P) : (s.serve r).leader.StoreAll P := by
  rcases serve_cases s r with ⟨op, rfl⟩ | ⟨snapshot, rfl⟩ | ⟨l', hserve, hnotes⟩
  · exact apply_invariant (P := fun s => s.leader.StoreAll P) hr
      (fun _ _ _ hstep hs => hs.step hP hstep) (fun _ _ _ _ _ => h) h
  · intro j hj
    rcases (s.leader.loadCommittedState_frame snapshot).2.2 j hj with hj | ⟨data, t, jobs, hd, hread, hj⟩
    · exact h j hj
    · exact hr data t jobs hd hread j hj
  · rw [hserve]
    exact fun j hj => h j (hnotes.store ▸ hj)

end Hop.Lead
