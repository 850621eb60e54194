import Hop.Node.Admission

/-!
# A job is taken on or left

`run` decides before it changes anything. A job that is refused leaves the job table and the records
as they are; all that may be left of it is its name among the refused ones and one report. A job that
is admitted gets one record under the id that is returned, also if it cannot start here at all; with
`replace` its predecessors are stopped before it is started (`run_atomic`).

A refusal is reported once (`Agent.reported_le_one`), until the job fits or is deleted, and as long as the
names that were reported fit their bound.
-/

namespace Hop.Node

open Hop.Types (Job Map Task)

namespace Agent

variable {name : String} {a : Agent}

/-! ### A job that is refused -/

/-- The agent up to what a refusal may change. -/
structure Unmoved (a a' : Agent) : Prop where
  jobs : a'.jobs = a.jobs
  tasks : a'.tasks = a.tasks
  rest : ∃ refused out, a' = { a with refused := refused, out := out }

theorem unmoved_refuse (a : Agent) (job why : String) : Unmoved a (a.refuse job why) := by
  rw [refuse]
  split_ifs
  · exact ⟨rfl, rfl, a.refused, a.out, rfl⟩
  · exact ⟨rfl, rfl, _, _, rfl⟩
  · exact ⟨rfl, rfl, a.refused, _, rfl⟩

/-- A report says a new name, and the name is kept while there is room. -/
theorem refuse_reports (a : Agent) (job why : String) :
    (job ∈ a.refused ∧ a.refuse job why = a) ∨
    (job ∉ a.refused ∧ (a.refuse job why).out = a.out ++ [.refused job why] ∧
      (a.refused.length < maxJobs → job ∈ (a.refuse job why).refused)) := by
  by_cases hknown : job ∈ a.refused
  · exact .inl ⟨hknown, by rw [refuse, if_pos hknown]⟩
  · refine .inr ⟨hknown, ?_⟩
    rw [refuse, if_neg hknown]
    by_cases hroom : a.refused.length < maxJobs
    · rw [if_pos hroom]
      exact ⟨rfl, fun _ => List.mem_append_right _ (List.mem_singleton_self job)⟩
    · rw [if_neg hroom]
      exact ⟨rfl, fun h => absurd h hroom⟩

/-! ### The predecessors -/

/-- The stops of the tasks of a job, as the agent orders them. -/
def stopsOf (a : Agent) (name : String) : List Action :=
  (a.tasks.entries.filter fun e => e.2.task.jobName = name).map fun e => stopAction e.2.task

theorem out_stopEach {ids : List String} (hnodup : ids.Nodup) (a : Agent) :
    (a.stopEach ids).out =
      a.out ++ ids.filterMap fun id => (a.tasks.get? id).map fun e => stopAction e.task := by
  induction ids generalizing a with
  | nil => exact (List.append_nil _).symm
  | cons id rest ih =>
    obtain ⟨hnot, hrest⟩ := List.nodup_cons.mp hnodup
    have hstep : a.stopEach (id :: rest) = (a.removeAndStop id).2.stopEach rest := rfl
    -- what is stopped first is none of the others
    have hsame : rest.filterMap (fun i => ((a.removeAndStop id).2.tasks.get? i).map fun e =>
        stopAction e.task) = rest.filterMap fun i => (a.tasks.get? i).map fun e =>
        stopAction e.task := by
      refine List.filterMap_congr fun i hi => ?_
      have hne : i ∉ ({id} : Set String) := fun heq => hnot (heq ▸ hi)
      rw [(removeAndStop_drops a id).kept hne]
    rw [hstep, ih hrest, hsame, List.filterMap_cons, removeAndStop]
    rcases a.tasks.get? id with _ | e
    · rfl
    · exact (List.append_assoc _ _ _)

theorem idsOfJob_nodup (a : Agent) (name : String) : (a.idsOfJob name).Nodup :=
  a.tasks.keys_nodup.sublist (List.filter_sublist.map _)

theorem filterMap_idsOfJob (a : Agent) (name : String) :
    (a.idsOfJob name).filterMap (fun id => (a.tasks.get? id).map fun e => stopAction e.task) =
      a.stopsOf name := by
  have hget : ∀ e ∈ a.tasks.entries.filter (fun e => e.2.task.jobName = name),
      (a.tasks.get? e.1).map (fun e => stopAction e.task) = some (stopAction e.2.task) := by
    intro e he
    rw [SortedMap.get?_eq_some_iff.mpr (List.mem_filter.mp he).1, Option.map_some]
  rw [idsOfJob, stopsOf, List.filterMap_map]
  generalize a.tasks.entries.filter (fun e => e.2.task.jobName = name) = es at hget
  induction es with
  | nil => rfl
  | cons e rest ih =>
    obtain ⟨hhead, hrest⟩ := List.forall_mem_cons.mp hget
    rw [List.filterMap_cons, Function.comp_apply, hhead, List.map_cons, ih hrest]

theorem out_prepared (a : Agent) (job : Job) (replace : Bool) :
    (a.prepared job replace).out = a.out ++ if replace then a.stopsOf job.name else [] := by
  have hcleared : (a.cleared job replace).out =
      a.out ++ if replace then a.stopsOf job.name else [] := by
    rw [cleared]
    split_ifs
    · rw [out_stopEach (idsOfJob_nodup _ _), filterMap_idsOfJob]
      rfl
    · exact (List.append_nil _).symm
  exact hcleared

/-! ### A job that is admitted -/

/-- What taking a job on leaves: the records that stay, one new record of the job under the id, and
the orders: first the stops, then at most the start of the new task. -/
structure TakesOn (a : Agent) (job : Job) (replace : Bool) (id : String) (a' : Agent) : Prop where
  drawn : id = a.ids.id.1
  record : ∃ e, a'.tasks.get? id = some e ∧ e.task.id = id ∧ e.task.jobName = job.name
  others : ∀ id', id' ≠ id → a'.tasks.get? id' = (a.tasks.get? id').filter (stays job replace)
  orders : ∃ acts, a'.out = a.out ++ (if replace then a.stopsOf job.name else []) ++ acts ∧
    (startIds acts = [id] ∨ startIds acts = [])

theorem takesOn (hk : a.Keyed) (now : Nanos) (job : Job) (replace : Bool) :
    TakesOn a job replace (a.takeOn now job replace).1 (a.takeOn now job replace).2 := by
  obtain ⟨flag, kind, e, acts, hbirth⟩ := takeOn_turns True hk now job replace
  have hid : (a.takeOn now job replace).1 = a.ids.id.1 := rfl
  have htasks := hbirth.turn.tasks
  refine ⟨hid, ⟨e, ?_, ?_, hbirth.fresh.jobName⟩, fun id' hne => ?_, acts, ?_, ?_⟩
  · rw [htasks, hid, putRecord, SortedMap.get?_insert_self]
  · rw [hid]
    exact hbirth.fresh.id
  · rw [hid] at hne
    rw [htasks, putRecord, SortedMap.get?_insert, if_neg (Ne.symm hne), SortedMap.get?_erase,
      if_neg (Ne.symm hne), prepared_get?]
    rfl
  · rw [hbirth.turn.frame.out, out_prepared]
  · rw [hid]
    have hturn := hbirth.turn.turn
    generalize (a.prepared job replace).tasks.get? a.ids.id.1 = pre at hturn
    rcases hbirth.how with ⟨rfl, -⟩ | ⟨rfl, -⟩
    · cases hturn with
      | born pre job job' k task hdrawn hnew => exact .inl rfl
      | down kind e st count failedAt nextAt check restartAt starting acts hkind =>
        rcases hkind with ⟨h, -⟩ | ⟨h, -⟩ <;> cases h
    · cases hturn with
      | stillborn pre job k task e acts hdrawn hnew hstart => exact .inr hstart
      | down kind e st count failedAt nextAt check restartAt starting acts hkind =>
        rcases hkind with ⟨h, -⟩ | ⟨h, -⟩ <;> cases h

/-! ### What reports nothing -/

/-- The call of `a` adds no report of a refusal, and keeps the names that were reported. -/
structure Mute (a a' : Agent) : Prop where
  out : ∃ acts, a'.out = a.out ++ acts ∧ ∀ x ∈ acts, ∀ job why, x ≠ .refused job why
  refused : a'.refused = a.refused

namespace Mute

variable {a a' a'' : Agent}

theorem of_same (hout : a'.out = a.out) (hrefused : a'.refused = a.refused) : Mute a a' :=
  ⟨⟨[], by rw [hout, List.append_nil], fun x hx => absurd hx List.not_mem_nil⟩, hrefused⟩

theorem refl (a : Agent) : Mute a a := of_same rfl rfl

theorem trans (h : Mute a a') (h' : Mute a' a'') : Mute a a'' := by
  obtain ⟨⟨acts, hout, hacts⟩, hrefused⟩ := h
  obtain ⟨⟨acts', hout', hacts'⟩, hrefused'⟩ := h'
  refine ⟨⟨acts ++ acts', by rw [hout', hout, List.append_assoc], fun x hx => ?_⟩,
    hrefused'.trans hrefused⟩
  exact (List.mem_append.mp hx).elim (hacts x) (hacts' x)

/-- What a change of the rest comes before. -/
theorem after (h : Mute a' a'') (hout : a'.out = a.out) (hrefused : a'.refused = a.refused) :
    Mute a a'' :=
  trans (of_same hout hrefused) h

theorem push (a : Agent) {x : Action} (hx : ∀ job why, x ≠ .refused job why) : Mute a (a.push x) :=
  ⟨⟨[x], rfl, fun _ hy => List.mem_singleton.mp hy ▸ hx⟩, rfl⟩

end Mute

theorem mute_modifyTask (a : Agent) (id : String) (f : Entry → Entry) : Mute a (a.modifyTask id f) :=
  .of_same rfl rfl

theorem mute_forget (a : Agent) (id : String) : Mute a (a.forget id) := .of_same rfl rfl

theorem mute_stopAction (a : Agent) (task : Task) : Mute a (a.push (stopAction task)) :=
  .push a fun _ _ => by simp [stopAction]

section Chain

variable {begin' : Agent → Nanos → String → Agent} (hbegin : ∀ a now id, Mute a (begin' a now id))

include hbegin

theorem mute_restartFire (a : Agent) (now : Nanos) (id : String) :
    Mute a (restartFire begin' a now id) := by
  rw [restartFire]
  split_ifs
  · exact .refl a
  · rcases a.tasks.get? id with _ | old
    · exact .refl a
    · dsimp only
      rcases a.jobs.get? old.task.jobName with _ | job
      · exact mute_forget a id
      · dsimp only
        rcases a.resolveJobForRun job with e | job'
        · exact mute_modifyTask a id _
        · refine Mute.trans ?_ (hbegin _ now _)
          exact .of_same rfl rfl

theorem mute_restartDecide (a : Agent) (now : Nanos) (id : String) (ran : Bool) :
    Mute a (restartDecide begin' a now id ran) := by
  rw [restartDecide]
  rcases a.tasks.get? id with _ | e
  · exact .refl a
  · dsimp only
    rcases a.jobs.get? e.task.jobName with _ | job
    · exact mute_forget a id
    · dsimp only
      generalize (if 0 < job.restartWindow then job.restartWindow else defaultRestartWindow) = window
      split_ifs
      · exact .of_same rfl rfl
      · exact .of_same rfl rfl
      · refine (mute_restartFire hbegin _ now id).after ?_ ?_ <;> rfl

theorem mute_scheduleRestart (a : Agent) (now : Nanos) (id : String) (ran : Bool) :
    Mute a (scheduleRestart begin' a now id ran) := by
  rw [scheduleRestart]
  refine Mute.trans ?_ (mute_restartDecide hbegin _ now id ran)
  rcases a.tasks.get? id with _ | e
  · exact .refl a
  · exact mute_stopAction a e.task

theorem mute_startFailed (a : Agent) (now : Nanos) (id : String) :
    Mute a (startFailed begin' a now id) := by
  rw [startFailed]
  rcases a.tasks.get? id with _ | e
  · exact .refl a
  · dsimp only
    refine Mute.trans ?_ (mute_scheduleRestart hbegin _ now id false)
    split_ifs
    · exact (mute_modifyTask a id _).trans (.push _ fun _ _ => by simp)
    · exact mute_modifyTask a id _

end Chain

theorem mute_beginStart (rounds : ℕ) (a : Agent) (now : Nanos) (id : String) :
    Mute a (beginStart rounds a now id) := by
  induction rounds generalizing a now id with
  | zero => exact .refl a
  | succ rounds ih =>
    rw [beginStart]
    rcases a.tasks.get? id with _ | e
    · exact .refl a
    · dsimp only
      split
      · exact (mute_modifyTask a id _).trans (.push _ fun _ _ => by simp)
      · exact mute_startFailed ih a now id

theorem mute_removeAndStop (a : Agent) (id : String) : Mute a (a.removeAndStop id).2 := by
  rw [removeAndStop]
  rcases a.tasks.get? id with _ | e
  · exact .refl a
  · exact (mute_forget a id).trans (mute_stopAction _ e.task)

theorem mute_stopEach (ids : List String) (a : Agent) : Mute a (a.stopEach ids) := by
  induction ids generalizing a with
  | nil => exact .refl a
  | cons id rest ih => exact (mute_removeAndStop a id).trans (ih _)

theorem mute_onStarted (a : Agent) (now : Nanos) (id : String) (driver : Types.Driver)
    (result : Except StartError StartOk) : Mute a (a.onStarted now id driver result) := by
  simp only [onStarted]
  refine (mute_modifyTask a id fun e => { e with starting := false }).trans ?_
  generalize a.modifyTask id (fun e => { e with starting := false }) = a₁
  rcases result with (_ | _) | ok
  · rw [releaseUnplaceable]
    rcases a₁.tasks.get? id with _ | e
    · exact .refl a₁
    · exact (mute_forget a₁ id).trans (.push _ fun _ _ => by simp)
  · exact mute_startFailed (mute_beginStart startRounds) a₁ now id
  · dsimp only
    rw [started]
    split_ifs
    · exact (mute_forget a₁ id).trans (.push _ fun _ _ => by simp)
    · rcases a₁.tasks.get? id with _ | e
      · exact .refl a₁
      · exact (mute_modifyTask a₁ id _).trans (.push _ fun _ _ => by simp)

theorem mute_onProbe (a : Agent) (now : Nanos) (id : String) (outcome : Outcome) :
    Mute a (a.onProbe now id outcome) := by
  rw [onProbe]
  rcases a.tasks.get? id with _ | e
  · exact .refl a
  · dsimp only
    split_ifs
    · exact .refl a
    · split
      · exact ((mute_modifyTask a id _).trans (.push _ fun _ _ => by simp)).trans
          (mute_scheduleRestart (mute_beginStart startRounds) _ now id true)
      · split_ifs
        · exact (mute_modifyTask a id _).trans (.push _ fun _ _ => by simp)
        · exact mute_modifyTask a id _

theorem mute_maybeProbe (a : Agent) (now : Nanos) (id : String) : Mute a (a.maybeProbe now id) := by
  rw [maybeProbe]
  rcases a.tasks.get? id with _ | e
  · exact .refl a
  · dsimp only
    rcases (a.jobs.get? e.task.jobName).bind fun j => j.healthCheck with _ | hc
    · exact .refl a
    · dsimp only
      split_ifs
      · exact .refl a
      · rcases probeFor e.task hc a.settings.probeTimeout with _ | probe
        · exact mute_onProbe a now id _
        · exact .push a fun _ _ => by simp

theorem mute_onStatus (a : Agent) (now : Nanos) (id : String) (status : Status) :
    Mute a (a.onStatus now id status) := by
  rw [onStatus]
  rcases a.tasks.get? id with _ | e
  · exact .refl a
  · dsimp only
    split_ifs
    · exact .refl a
    · rcases status with _ | _
      · exact mute_maybeProbe a now id
      · exact ((mute_modifyTask a id _).trans (.push _ fun _ _ => by simp)).trans
          (mute_scheduleRestart (mute_beginStart startRounds) _ now id true)

theorem mute_fireDue (now : Nanos) (a : Agent) (id : String) : Mute a (fireDue now a id) :=
  (mute_modifyTask a id _).trans (mute_restartFire (mute_beginStart startRounds) _ now id)

theorem mute_monitor (a : Agent) : Mute a a.monitor := by
  rw [monitor]
  generalize a.tasks.entries.filter (fun e => e.2.task.state = .running) = es
  induction es generalizing a with
  | nil => exact .refl a
  | cons e rest ih => exact Mute.trans (.push a fun _ _ => by simp) (ih _)

/-- The agent after a tick, before it hands its actions over. -/
def ticked (a : Agent) (now : Nanos) : Agent := ((a.dueIds now).foldl (fireDue now) a).monitorDue now

theorem mute_ticked (a : Agent) (now : Nanos) : Mute a (a.ticked now) := by
  have hfire : ∀ ids : List String, ∀ b : Agent, Mute b (ids.foldl (fireDue now) b) := by
    intro ids
    induction ids with
    | nil => exact fun b => .refl b
    | cons id rest ih => exact fun b => (mute_fireDue now b id).trans (ih _)
  rw [ticked]
  refine (hfire (a.dueIds now) a).trans ?_
  generalize (a.dueIds now).foldl (fireDue now) a = b
  rw [monitorDue]
  split_ifs
  · exact (mute_monitor { b with
      nextMonitor := satAdd u64Max now b.settings.monitorEvery }).after rfl rfl
  · exact .refl b

theorem mute_takeOn (a : Agent) (now : Nanos) (job : Job) (replace : Bool) :
    Mute { a with refused := a.refused.filter (· ≠ job.name) } (a.takeOn now job replace).2 := by
  have hcleared : ∀ b : Agent, Mute b (if replace then b.stopEach (b.idsOfJob job.name) else b) := by
    intro b
    split_ifs
    · exact mute_stopEach _ b
    · exact .refl b
  have hdrawn : Mute { a with refused := a.refused.filter (· ≠ job.name) }
      { a with refused := a.refused.filter (· ≠ job.name), ids := a.ids.id.2 } := .of_same rfl rfl
  refine (hdrawn.trans (hcleared _)).trans (Mute.trans ?_ (mute_beginStart startRounds _ now _))
  exact .of_same rfl rfl

/-! ### One report -/

/-- The reports about a job among some actions. -/
def reports (name : String) (acts : List Action) : ℕ :=
  acts.countP fun x => match x with
    | .refused job _ => decide (job = name)
    | _ => false

/-- The actions that a call adds to those that were collected. -/
def adds (a : Agent) : Call → List Action
  | .input (.tick now) => (a.ticked now).out.drop a.out.length
  | .input .takeActions => []
  | c => (a.answer c).out.drop a.out.length

/-- The reports about a job in a run. -/
def reported (name : String) : Agent → List Call → ℕ
  | _, [] => 0
  | a, c :: cs => reports name (a.adds c) + reported name (a.answer c) cs

/-- The call does not take the job on. -/
def Unfit (name : String) (a : Agent) : Call → Prop
  | .input (.run now job replace poolLargest) => job.name = name →
      ∃ err, (a.run now job replace poolLargest).1 = .error err
  | _ => True

/-- The call does not delete the job, and there is room for its name if it is refused. -/
def Noted (name : String) (a : Agent) : Call → Prop
  | .input (.run _ job _ _) => job.name = name → name ∈ a.refused ∨ a.refused.length < maxJobs
  | .input (.deleteJob _ job) => job ≠ name
  | .input (.deleteJobDefinition _ job) => job ≠ name
  | _ => True

/-- One for a name that was reported. -/
def known (name : String) (a : Agent) : ℕ := if name ∈ a.refused then 1 else 0

theorem reports_eq_zero {acts : List Action} (h : ∀ x ∈ acts, ∀ job why, x ≠ .refused job why) :
    reports name acts = 0 := by
  refine List.countP_eq_zero.mpr fun x hx => ?_
  have hnot := h x hx
  rcases x with _ | _ | _ | _ | ⟨job, why⟩ | _
  case refused => exact absurd rfl (hnot job why)
  all_goals exact Bool.false_ne_true

theorem known_mono {a' : Agent} (h : name ∈ a.refused → name ∈ a'.refused) :
    known name a ≤ known name a' := by
  rw [known, known]
  split_ifs with hbefore hafter
  · exact le_refl 1
  · exact absurd (h hbefore) hafter
  all_goals exact Nat.zero_le _

/-- What is mute reports nothing. -/
theorem reports_of_mute {b a' : Agent} (h : Mute b a') (hout : b.out = a.out)
    (hname : name ∈ a.refused → name ∈ b.refused) :
    reports name (a'.out.drop a.out.length) + known name a ≤ known name a' := by
  obtain ⟨⟨acts, hacts, hmute⟩, hrefused⟩ := h
  rw [hacts, hout, List.drop_left, reports_eq_zero hmute, Nat.zero_add]
  exact known_mono fun hmem => hrefused ▸ hname hmem

theorem reports_run {now : Nanos} {job : Job} {replace : Bool} {poolLargest : Option ℕ}
    (hfit : Unfit name a (.input (.run now job replace poolLargest)))
    (hnoted : Noted name a (.input (.run now job replace poolLargest))) :
    reports name ((a.run now job replace poolLargest).2.out.drop a.out.length) + known name a ≤
      known name (a.run now job replace poolLargest).2 := by
  rcases a.run_cases now job replace poolLargest with ⟨err, a', hrun, rfl | ⟨why, rfl⟩⟩ | ⟨-, hrun⟩
  · rw [hrun]
    exact reports_of_mute (.refl a') rfl id
  · rw [hrun]
    rcases a.refuse_reports job.name why with ⟨hknown, hsame⟩ | ⟨hnew, hout, hkept⟩
    · rw [hsame]
      exact reports_of_mute (.refl a) rfl id
    · dsimp only
      rw [hout, List.drop_left]
      by_cases hname : job.name = name
      · -- the one report of this name, which is kept
        have hroom := (hnoted hname).resolve_left (hname ▸ hnew)
        rw [known, known, if_neg (hname ▸ hnew), if_pos (hname ▸ hkept hroom)]
        simp [reports, hname]
      · have hzero : reports name [Action.refused job.name why] = 0 := by simp [reports, hname]
        rw [hzero, Nat.zero_add]
        refine known_mono fun hmem => ?_
        rw [refuse, if_neg hnew]
        split_ifs
        · exact List.mem_append_left _ hmem
        · exact hmem
  · have hne : job.name ≠ name := by
      intro hname
      obtain ⟨err, herr⟩ := hfit hname
      rw [hrun] at herr
      cases herr
    rw [hrun]
    refine reports_of_mute (mute_takeOn a now (normalized job) replace) rfl fun hmem => ?_
    refine List.mem_filter.mpr ⟨hmem, ?_⟩
    rw [normalized_name]
    exact decide_eq_true hne.symm

theorem mute_storeJob (a : Agent) (now : Nanos) (job : Job) : Mute a (a.storeJob now job).2 := by
  rw [storeJob]
  split_ifs
  · exact .of_same rfl rfl
  · exact .refl a

theorem mute_updateJob (a : Agent) (now : Nanos) (job : Job) : Mute a (a.updateJob now job).2 := by
  rw [updateJob]
  rcases a.jobs.get? job.name with _ | old
  · exact .refl a
  · exact .of_same rfl rfl

theorem mute_rewriteJob (a : Agent) (now : Nanos) (name : String) (f : Job → Job) :
    Mute a (a.rewriteJob now name f).2 := by
  rw [rewriteJob]
  rcases a.jobs.get? name with _ | old
  · exact .refl a
  · exact .of_same rfl rfl

theorem mute_syncJobs (updated : Nanos) (jobs : List Job) (a : Agent) :
    Mute a (syncJobs updated jobs a).2 := by
  induction jobs generalizing a with
  | nil => exact .of_same rfl rfl
  | cons job rest ih =>
    rw [syncJobs]
    split_ifs
    · exact (ih { a with jobs := a.jobs.insert job.name job }).after rfl rfl
    · exact .refl a

theorem mute_adopt (a : Agent) (jobs : List Job) (tasks : List Task) :
    Mute a (a.adopt jobs tasks) := by
  have hjobs : ∀ a : Agent, Mute a (adoptJobs jobs a) := by
    induction jobs with
    | nil => exact fun a => .refl a
    | cons job rest ih =>
      intro a
      rw [adoptJobs]
      split_ifs
      · exact (ih { a with jobs := a.jobs.insert job.name job }).after rfl rfl
      · exact .refl a
  have htasks : ∀ a : Agent, Mute a (adoptTasks tasks a) := by
    induction tasks with
    | nil => exact fun a => .refl a
    | cons task rest ih =>
      intro a
      rw [adoptTasks]
      split_ifs
      · exact (ih (a.insertEntry task false)).after rfl rfl
      · exact .refl a
  exact (hjobs a).trans (htasks _)

/-- A call reports a name that is new, and then knows it. -/
theorem reports_call {c : Call} (hfit : Unfit name a c) (hnoted : Noted name a c) :
    reports name (a.adds c) + known name a ≤ known name (a.answer c) := by
  have hmute : ∀ {a' : Agent}, Mute a a' →
      reports name (a'.out.drop a.out.length) + known name a ≤ known name a' :=
    fun h => reports_of_mute h rfl id
  have hfilter : ∀ {job : String}, job ≠ name → name ∈ a.refused →
      name ∈ a.refused.filter (· ≠ job) :=
    fun hne hmem => List.mem_filter.mpr ⟨hmem, decide_eq_true hne.symm⟩
  rcases c with i | ⟨jobs, tasks⟩
  · cases i with
    | run now job replace poolLargest => exact reports_run hfit hnoted
    | onProgress id downloaded total => exact hmute (mute_modifyTask a id _)
    | onStarted now id driver result => exact hmute (mute_onStarted a now id driver result)
    | onStatus now id status => exact hmute (mute_onStatus a now id status)
    | onProbe now id outcome => exact hmute (mute_onProbe a now id outcome)
    | recordUsage id cores core => exact hmute (mute_modifyTask a id _)
    | tick now => exact hmute (mute_ticked a now)
    | takeActions => exact (Nat.zero_add _).le
    | stopTask id => exact hmute (mute_removeAndStop a id)
    | stopJobTasks job => exact hmute (mute_stopEach _ a)
    | deleteJob now job =>
      refine reports_of_mute (Mute.trans (mute_stopEach _ { a with
        jobs := a.jobs.erase job, refused := a.refused.filter (· ≠ job), stateTime := now })
        (.push _ fun _ _ => ?_)) rfl (hfilter hnoted)
      simp
    | stopAll => exact hmute (mute_stopEach _ a)
    | shutdown => exact hmute ((mute_stopEach _ { a with shuttingDown := true }).after rfl rfl)
    | storeJob now job => exact hmute (mute_storeJob a now job)
    | updateJob now job => exact hmute (mute_updateJob a now job)
    | setJobPriority now job priority => exact hmute (mute_rewriteJob a now job _)
    | setJobDeploying now job deploying => exact hmute (mute_rewriteJob a now job _)
    | deleteJobDefinition now job =>
      exact reports_of_mute (.refl (a.deleteJobDefinition now job)) rfl (hfilter hnoted)
    | syncJobs jobs updated => exact hmute (mute_syncJobs updated jobs a)
    | setLeaderAddr addr => exact hmute (.of_same rfl rfl)
    | setLeaseExpiresAt t => exact hmute (.of_same rfl rfl)
    | setSettings settings => exact hmute (.of_same rfl rfl)
  · exact hmute (mute_adopt a jobs tasks)

/-- **A job that does not fit is reported once**, in any run that does not delete it. -/
theorem reported_le_one {cs : List Call} (hfit : calls.Along (Unfit name) a cs)
    (hnoted : calls.Along (Noted name) a cs) :
    reported name a cs ≤ 1 := by
  have hrun : ∀ cs a, calls.Along (Unfit name) a cs → calls.Along (Noted name) a cs →
      reported name a cs + known name a ≤ 1 := by
    intro cs
    induction cs with
    | nil =>
      intro a _ _
      rw [reported, known]
      split_ifs <;> decide
    | cons c cs ih =>
      intro a hfit hnoted
      obtain ⟨hunfit, hfit⟩ := hfit _ rfl
      obtain ⟨hnote, hnoted⟩ := hnoted _ rfl
      have hstep := reports_call hunfit hnote
      have hrest := ih _ hfit hnoted
      rw [reported]
      omega
  exact le_of_add_le_left (hrun cs a hfit hnoted)

end Agent

/-! ### Atomicity -/

/-- **A job is taken on or left.** If it is refused, the jobs and the records are as before, and there
is one report at most, of a name that was not reported. If it is admitted, it has one record under the
id that is returned; with `replace` that is the only one of the job, and its predecessors are stopped
before it is started; without, the records under other ids are as before, and its own id is new if
the agent took nothing over and drew fewer than `2 ^ 64` numbers. A job that does not fit is
reported once until it is deleted, as long as its name has room. -/
theorem run_atomic {a : Agent} (h : calls.Reachable a) (now : Nanos) (job : Job) (replace : Bool)
    (poolLargest : Option ℕ) :
    (∀ err a', a.run now job replace poolLargest = (.error err, a') → Agent.Unmoved a a' ∧
      (a' = a ∨ job.name ∉ a.refused ∧ ∃ why, a'.out = a.out ++ [.refused job.name why])) ∧
    (∀ id a', a.run now job replace poolLargest = (.ok id, a') →
      (∃ e, a'.tasks.get? id = some e ∧ e.task.id = id ∧ e.task.jobName = job.name) ∧
      (replace = true → ∀ id' e, a'.tasks.get? id' = some e →
        (e.task.jobName = job.name ↔ id' = id)) ∧
      (replace = true → ∃ acts, a'.out = a.out ++ a.stopsOf job.name ++ acts ∧
        (startIds acts = [id] ∨ startIds acts = [])) ∧
      (replace = false → ∀ id', id' ≠ id → a'.tasks.get? id' = a.tasks.get? id') ∧
      (∀ o, inputs.Reachable o → o.agent = a → a.ids.draws < 2 ^ 64 → a.tasks.get? id = none)) ∧
    ∀ name cs, calls.Along (Agent.Unfit name) a cs → calls.Along (Agent.Noted name) a cs →
      a.reported name cs ≤ 1 := by
  refine ⟨fun err a' hrun => ?_, fun id a' hrun => ?_, fun name cs => Agent.reported_le_one⟩
  · rcases a.run_cases now job replace poolLargest with ⟨err', b, herr, hcase⟩ | ⟨-, hok⟩
    · obtain rfl : a' = b := congrArg Prod.snd (hrun.symm.trans herr)
      rcases hcase with rfl | ⟨why, rfl⟩
      · exact ⟨⟨rfl, rfl, a'.refused, a'.out, rfl⟩, .inl rfl⟩
      · refine ⟨a.unmoved_refuse job.name why, ?_⟩
        rcases a.refuse_reports job.name why with ⟨-, hsame⟩ | ⟨hnew, hout, -⟩
        · exact .inl hsame
        · exact .inr ⟨hnew, why, hout⟩
    · rw [hrun] at hok
      cases hok
  · rcases a.run_cases now job replace poolLargest with ⟨err', b, herr, -⟩ | ⟨-, hok⟩
    · rw [hrun] at herr
      cases herr
    · rw [hrun] at hok
      obtain ⟨hid, rfl⟩ := Prod.mk.inj hok
      obtain rfl := Except.ok.inj hid
      have htakes := Agent.takesOn (calls_keyed h) now (Agent.normalized job) replace
      have hname := Agent.normalized_name job
      obtain ⟨e, hget, hself, hjob⟩ := htakes.record
      refine ⟨⟨e, hget, hself, hjob.trans hname⟩, fun hreplace id' e' he' => ?_, fun hreplace => ?_,
        fun hreplace id' hne => ?_,
        fun o ho hagent hd => ?_⟩
      · constructor
        · intro hof
          by_contra hne
          -- any other record of the job would have been stopped
          rw [htakes.others id' hne] at he'
          have hstays := (Option.filter_eq_some_iff.mp he').2
          rw [Agent.stays, hreplace, hname, hof] at hstays
          simp at hstays
        · rintro rfl
          rw [hget] at he'
          obtain rfl := Option.some.inj he'
          rw [hjob, hname]
      · obtain ⟨acts, hout, hstarts⟩ := htakes.orders
        rw [if_pos hreplace, hname] at hout
        exact ⟨acts, hout, hstarts⟩
      · rw [htakes.others id' hne, hreplace]
        rcases a.tasks.get? id' with _ | e'
        · rfl
        · rfl
      · obtain ⟨-, hfiled⟩ := inputs_filed ho
        rw [hagent] at hfiled
        have hdrawn : Drawn a { a with ids := a.ids.id.2 } (a.ids.draws + 1) a.ids.id.1 :=
          ⟨Nat.lt_succ_self _, le_refl _, rfl⟩
        exact hfiled.fresh hdrawn hd

/-- A job takes the place of its only task. -/
theorem run_atomic_replace : ∃ id a',
    ((Agent.new oneCore).feed (.run 0 (pooled 1024) false none)).run 1 (pooled 1024) true none =
      (.ok id, a') ∧
    (∃ e, a'.tasks.get? id = some e ∧ e.task.id = id ∧ e.task.jobName = "web") ∧
    ∀ id' e, a'.tasks.get? id' = some e → (e.task.jobName = "web" ↔ id' = id) := by
  have hreach : calls.Reachable ((Agent.new oneCore).feed (.run 0 (pooled 1024) false none)) :=
    ⟨.new oneCore, [.input (.run 0 (pooled 1024) false none)], ⟨oneCore, rfl⟩, rfl⟩
  obtain ⟨hrecord, hone, -⟩ := (run_atomic hreach 1 (pooled 1024) true none).2.1 _ _ rfl
  exact ⟨_, _, rfl, hrecord, hone rfl⟩

/-- A job that is deleted between two refusals is reported twice, although it never fits; and a task
that was taken over is overwritten by the one that draws its id. -/
theorem refused_twice :
    (¬ ∀ a name cs, calls.Reachable a → calls.Along (Agent.Unfit name) a cs →
      a.reported name cs ≤ 1) ∧
    ¬ ∀ a now job poolLargest id a', calls.Reachable a →
      a.run now job false poolLargest = (.ok id, a') →
      ∀ id' e, a.tasks.get? id' = some e → a'.tasks.get? id' = some e := by
  constructor
  · intro hall
    have hreach : calls.Reachable (Agent.new oneCore) := .init ⟨oneCore, rfl⟩
    have hle := hall _ "web" [.input (.run 0 (pooled 2048) false none), .input (.deleteJob 1 "web"),
      .input (.run 2 (pooled 2048) false none)] hreach ?_
    · exact absurd hle (by decide)
    · rintro _ ⟨⟩
      refine ⟨fun _ => ⟨.noCapacity, by decide⟩, ?_⟩
      rintro _ ⟨⟩
      refine ⟨trivial, ?_⟩
      rintro _ ⟨⟩
      exact ⟨fun _ => ⟨.noCapacity, by decide⟩, trivial⟩
  · intro hall
    have hreach : calls.Reachable ((Agent.new oneCore).adopt []
        [{ id := Ids.idOf 0 1, jobName := "db", driver := "exec", state := .running }]) :=
      ⟨.new oneCore, [.adopt [] _], ⟨oneCore, rfl⟩, rfl⟩
    have hkept := hall _ 0 (pooled 1024) none _ _ hreach rfl (Ids.idOf 0 1) _ rfl
    exact absurd hkept (by decide)

end Hop.Node
