import Hop.Node.Lifecycle

/-!
# The counts that an agent reports

An agent registers with the number of its records for each job. A crash, a failed start, a failed
check and a restart change none of these numbers; only taking a job on, stopping and handing back
do, by what they report. The one exception is a start that is answered again after its task has
crashed: its record waits for a restart, and is dropped.
-/

namespace Hop.Node

open Hop.Types (Driver Job Map Task TaskState)

/-- How many tasks of the job a record counts for. -/
def tally (name : String) : Option Entry → ℕ
  | none => 0
  | some e => if e.task.jobName = name then 1 else 0

theorem Agent.count_erase (a : Agent) (id name : String) :
    a.count name = (a.tasks.erase id).countVal (fun e => decide (e.task.jobName = name)) +
      tally name (a.tasks.get? id) := by
  cases he : a.tasks.get? id with
  | none => rw [SortedMap.erase_of_none he]; rfl
  | some e =>
    unfold count tally
    rw [SortedMap.countVal_erase _ he]
    simp only [decide_eq_true_eq]

/-- The kinds of turns that change the counts of jobs in the table. -/
def Kind.Recounts (kind : Kind) : Prop := kind ∈ [Kind.stop, .handBack, .dead, .born, .stillborn]

instance : DecidablePred Kind.Recounts := fun kind =>
  inferInstanceAs (Decidable (kind ∈ [Kind.stop, .handBack, .dead, .born, .stillborn]))

section

variable {Q : Prop} {a a' : Agent} {id name : String} {kind : Kind} {acts : List Action}
  {post : Option (String × Entry)}

/-- **A turn in the books**: the record before it is counted out, the one after it counted in. -/
theorem TurnsAt.count (h : TurnsAt Q id kind a a' post acts) (hf : a.Filed)
    (hd : a'.ids.draws ≤ 2 ^ 64) (name : String) :
    a'.count name + tally name (a.tasks.get? id) = a.count name + tally name (post.map Prod.snd) := by
  have hput : a'.count name = (a.tasks.erase id).countVal (fun e => decide (e.task.jobName = name)) +
      tally name (post.map Prod.snd) := by
    unfold Agent.count
    rw [h.tasks]
    cases post with
    | none => rfl
    | some p =>
      obtain ⟨newId, e⟩ := p
      have hnone : (a.tasks.erase id).get? newId = none := by
        rw [SortedMap.get?_erase]
        split_ifs with hid
        · rfl
        · rcases h.turn.origin with ⟨_, _, rfl, _⟩ | ⟨job, k, hnew, _⟩
          · exact absurd rfl hid
          · exact hf.fresh hnew hd
      rw [putRecord, SortedMap.countVal_insert _ _ hnone]
      simp only [decide_eq_true_eq]
      rfl
  rw [hput, a.count_erase id name]
  omega

/-- A turn of the other kinds keeps a job that is in the table. -/
theorem Turn.tally_eq {pre : Option Entry} (h : Turn Q a a' id kind pre post acts) (hk : a.Keyed)
    (hname : (a.jobs.get? name).isSome = true) (hkind : ¬ kind.Recounts) :
    tally name (post.map Prod.snd) = tally name pre := by
  cases h with
  | again e job k newId task acts hjob hid hnew hstart hstop =>
    unfold tally
    dsimp only [Option.map_some]
    rw [hnew.jobName, hk _ _ hjob]
  | lost e acts hjob hstart hstop =>
    unfold tally
    dsimp only [Option.map_none]
    rw [if_neg]
    rintro rfl
    rw [hjob] at hname
    cases hname
  | stop e => exact absurd (by decide) hkind
  | handBack e => exact absurd (by decide) hkind
  | dead e driver pid hdead => exact absurd (by decide) hkind
  | born pre job job' k task hid hnew => exact absurd (by decide) hkind
  | stillborn pre job k task e acts hid hnew hstart hstarting hat htask =>
    exact absurd (by decide) hkind
  | _ => rfl

/-- Only a definition changes the job table. -/
theorem Path.jobs {K : Kind → Prop} (h : Path Q K a a') (hdefine : ¬ K .define) :
    a'.jobs = a.jobs := by
  refine h.invariant (P := fun b => b.jobs = a.jobs) (fun b b' kind hkind hmove hb => ?_) rfl
  cases hmove with
  | turn id post acts h => exact h.jobs.trans hb
  | note acts hacts htasks hjobs hdown h => exact hjobs.trans hb
  | define htasks hkeyed hdown h => exact absurd hkind hdefine
  | halt htasks hjobs hdown h => exact hjobs.trans hb

/-- Steps that leave the job table and the reservations alone keep every count. -/
theorem Path.count {K : Kind → Prop} (h : Path Q K a a') (hK : ∀ kind, K kind → ¬ kind.Recounts)
    (hdefine : ¬ K .define) (hk : a.Keyed) (hf : a.Filed) (hd : a'.ids.draws ≤ 2 ^ 64)
    (hname : (a.jobs.get? name).isSome = true) : a'.count name = a.count name := by
  have hkeep := h.invariant_upTo (P := fun b => Path Q K a b ∧ b.count name = a.count name) hd
    (fun b b' kind hkind hmove hd' ⟨hpath, hb⟩ => ⟨hpath.trans (.one hmove hkind), ?_⟩) ⟨.refl a, rfl⟩
  · exact hkeep.2
  · have hsame : b'.tasks = b.tasks → b'.count name = a.count name := by
      intro htasks
      unfold Agent.count at hb ⊢
      rw [htasks, hb]
    cases hmove with
    | turn id post acts h =>
      have hcount := h.count (hpath.filed hf) hd' name
      rw [h.turn.tally_eq (hpath.keyed hk) (by rwa [hpath.jobs hdefine]) (hK kind hkind)] at hcount
      omega
    | note acts hacts htasks hjobs hdown h => exact hsame htasks
    | define htasks hkeyed hdown h => exact hsame htasks
    | halt htasks hjobs hdown h => exact hsame htasks

/-- Steps that touch no record keep the table of tasks. -/
theorem Path.tasks {K : Kind → Prop} (h : Path Q K a a')
    (hK : ∀ kind, K kind → kind ∈ [Kind.note, .define, .halt]) : a'.tasks = a.tasks := by
  refine h.invariant (P := fun b => b.tasks = a.tasks) (fun b b' kind hkind hmove hb => ?_) rfl
  cases hmove with
  | turn id post acts h =>
    exfalso
    have hkind' := hK kind hkind
    have hturn := h.turn
    generalize b.tasks.get? id = pre at hturn
    cases hturn with
    | down kind e st count failedAt nextAt check restartAt starting acts hdown =>
      rcases hdown with ⟨rfl, -⟩ | ⟨rfl, -⟩ <;> revert hkind' <;> decide
    | _ => revert hkind'; decide
  | note acts hacts htasks hjobs hdown h => exact htasks.trans hb
  | define htasks hkeyed hdown h => exact htasks.trans hb
  | halt htasks hjobs hdown h => exact htasks.trans hb

end

namespace Agent

/-- The count that an agent reports for a job. -/
def placed (a : Agent) (name : String) : ℕ := (a.placedTaskCounts.get? name).getD 0

theorem placed_eq (a : Agent) {name : String} (hname : name ≠ "") : a.placed name = a.count name := by
  unfold placed
  rw [placedTaskCounts_get?]
  split_ifs with h
  · exact (h.resolve_left hname).symm
  · rfl

theorem placedTaskCounts_congr {a a' : Agent} {name : String} (h : a'.count name = a.count name) :
    a'.placedTaskCounts.get? name = a.placedTaskCounts.get? name := by
  rw [placedTaskCounts_get?, placedTaskCounts_get?, h]

theorem placedTaskCounts_of_tasks {a a' : Agent} (h : a'.tasks = a.tasks) :
    a'.placedTaskCounts = a.placedTaskCounts := by
  unfold placedTaskCounts
  rw [h]

end Agent

/-- **What an input may do to the reported counts**: what each input reports is what it changes,
and the reports of the runner and the time change nothing for a job in the table. -/
def Accounts (a a' : Agent) : Input → Prop
  | .run now job replace poolLargest => match (a.run now job replace poolLargest).1 with
    | .ok _ => ∀ name, name ≠ "" → a'.placed name =
        (if replace = true ∧ name = job.name then 0 else a.placed name) +
          if name = job.name then 1 else 0
    | .error _ => a'.placedTaskCounts = a.placedTaskCounts
  | .stopTask id => ∀ name, name ≠ "" → a'.placed name + tally name (a.tasks.get? id) = a.placed name ∧
      (a.stopTask id).1 = (a.tasks.get? id).isSome
  | .stopJobTasks job => ∀ name, name ≠ "" →
      a'.placed name + (if name = job then (a.stopJobTasks job).1 else 0) = a.placed name
  | .deleteJob now job => ∀ name, name ≠ "" →
      a'.placed name + (if name = job then (a.deleteJob now job).1 else 0) = a.placed name
  | .stopAll => (∀ name, a'.placed name = 0) ∧ a.stopAll.1 = a.tasks.size
  | .shutdown => (∀ name, a'.placed name = 0) ∧ a.shutdown.1 = a.tasks.size
  | .onStarted _ id _ (.error .noCapacity) =>
    ∀ name, name ≠ "" → a'.placed name + tally name (a.tasks.get? id) = a.placed name
  | _ => ∀ name, (a'.jobs.get? name).isSome = true →
      a'.placedTaskCounts.get? name = a.placedTaskCounts.get? name

/-- A start that worked is reported for a task that has crashed and waits for its restart. -/
def CrossesCrash (a : Agent) : Input → Prop
  | .onStarted _ id _ (.ok _) => ∃ e, a.tasks.get? id = some e ∧ e.task.state = .stopping
  | _ => False

namespace Agent

variable {a : Agent}

theorem prepared_count (a : Agent) (job : Job) (replace : Bool) (name : String) :
    (a.prepared job replace).count name =
      if replace = true ∧ name = job.name then 0 else a.count name := by
  unfold prepared cleared
  dsimp only
  cases replace with
  | false =>
    rw [if_neg Bool.false_ne_true, if_neg (fun h => Bool.false_ne_true h.1)]
    rfl
  | true =>
    rw [if_pos rfl]
    refine (stopJob_count { a with refused := a.refused.filter (· ≠ job.name) } job.name name).trans ?_
    simp only [true_and, eq_comm (a := job.name)]
    rfl

/-- Taking a job on adds one record, in place of all it had if it replaces. -/
theorem takeOn_count (hk : a.Keyed) (hf : a.Filed) (now : Nanos) (job : Job) (replace : Bool)
    (hd : (a.takeOn now job replace).2.ids.draws ≤ 2 ^ 64) (name : String) :
    (a.takeOn now job replace).2.count name =
      (if replace = true ∧ name = job.name then 0 else a.count name) +
        if name = job.name then 1 else 0 := by
  obtain ⟨flag, kind, e, acts, hbirth⟩ := takeOn_turns False hk now job replace
  have hfiled := (path_prepared False a job replace).filed hf
  obtain ⟨k, hid⟩ := hbirth.drawn
  have hcount := hbirth.turn.count hfiled hd name
  rw [hfiled.fresh hid hd, prepared_count] at hcount
  have htally : tally name ((some (a.ids.id.1, e)).map Prod.snd) = if name = job.name then 1 else 0 := by
    unfold tally
    dsimp only [Option.map_some]
    rw [hbirth.fresh.jobName]
    simp only [eq_comm]
  rw [htally] at hcount
  exact hcount

theorem run_accounts (hk : a.Keyed) (hf : a.Filed) (now : Nanos) (job : Job) (replace : Bool)
    (poolLargest : Option ℕ)
    (hd : (a.feed (.run now job replace poolLargest)).ids.draws ≤ 2 ^ 64) :
    Accounts a (a.feed (.run now job replace poolLargest)) (.run now job replace poolLargest) := by
  change (a.run now job replace poolLargest).2.ids.draws ≤ 2 ^ 64 at hd
  change Accounts a (a.run now job replace poolLargest).2 _
  unfold Accounts
  rcases a.run_cases now job replace poolLargest with ⟨err, a', hrun, h⟩ | ⟨-, hrun⟩
  · rw [hrun]
    dsimp only
    rw [hrun]
    refine placedTaskCounts_of_tasks ?_
    rcases h with rfl | ⟨why, rfl⟩
    · rfl
    · exact refuse_tasks a job.name why
  · rw [hrun] at hd ⊢
    dsimp only
    rw [hrun]
    intro name hname
    rw [placed_eq _ hname, placed_eq _ hname, takeOn_count hk hf now _ replace hd, normalized_name]

theorem stopTask_accounts (a : Agent) (id : String) :
    Accounts a (a.stopTask id).2 (.stopTask id) := by
  intro name hname
  rw [placed_eq _ hname, placed_eq _ hname]
  unfold stopTask removeAndStop
  cases he : a.tasks.get? id with
  | none => exact ⟨rfl, rfl⟩
  | some e =>
    refine ⟨?_, rfl⟩
    rw [a.count_erase id name, he]
    rfl

/-- A job has as many ids as records. -/
theorem length_idsOfJob (a : Agent) (name : String) : (a.idsOfJob name).length = a.count name := by
  unfold idsOfJob count SortedMap.countVal
  rw [List.length_map, ← List.countP_eq_length_filter]

theorem stopJobTasks_accounts (a : Agent) (job : String) :
    Accounts a (a.stopJobTasks job).2 (.stopJobTasks job) := by
  intro name hname
  rw [placed_eq _ hname, placed_eq _ hname]
  show (a.stopEach (a.idsOfJob job)).count name + (if name = job then (a.idsOfJob job).length else 0) = _
  rw [stopJob_count, length_idsOfJob]
  by_cases h : name = job
  · subst h
    rw [if_pos rfl, if_pos rfl, Nat.zero_add]
  · rw [if_neg (Ne.symm h), if_neg h, Nat.add_zero]

theorem deleteJob_accounts (a : Agent) (now : Nanos) (job : String) :
    Accounts a (a.deleteJob now job).2 (.deleteJob now job) :=
  stopJobTasks_accounts { a with
    jobs := a.jobs.erase job, refused := a.refused.filter (· ≠ job), stateTime := now } job

theorem stopAll_placed (a : Agent) (name : String) : a.stopAll.2.placed name = 0 := by
  have hzero : a.stopAll.2.count name = 0 := by
    refine (stopEach_drops a.tasks.keys a).count_zero fun id e he _ => ?_
    exact List.mem_map.mpr ⟨(id, e), SortedMap.get?_eq_some_iff.mp he, rfl⟩
  unfold placed
  rw [placedTaskCounts_get?, if_pos (.inr hzero)]
  rfl

theorem noCapacity_accounts (a : Agent) (now : Nanos) (id : String) (driver : Driver) :
    Accounts a (a.onStarted now id driver (.error .noCapacity))
      (.onStarted now id driver (.error .noCapacity)) := by
  intro name hname
  rw [placed_eq _ hname, placed_eq _ hname]
  unfold onStarted releaseUnplaceable
  cases he : a.tasks.get? id with
  | none =>
    rw [modifyTask_of_none he]
    dsimp only
    rw [he]
    rfl
  | some e =>
    rw [modifyTask_of_some he]
    dsimp only
    rw [SortedMap.get?_insert_self]
    unfold count push forget
    dsimp only
    rw [SortedMap.erase_insert_self, ← he]
    exact (a.count_erase id name).symm

/-- An input whose turns leave the job table and the reservations alone. -/
theorem quiet_accounts (hk : a.Keyed) (hf : a.Filed) {i : Input}
    (hi : ∀ kind ∈ i.kinds, ¬ kind.Recounts) (hdefine : Kind.define ∉ i.kinds)
    (hd : (a.feed i).ids.draws ≤ 2 ^ 64) (name : String)
    (hname : ((a.feed i).jobs.get? name).isSome = true) :
    (a.feed i).placedTaskCounts.get? name = a.placedTaskCounts.get? name := by
  obtain ⟨b, hb⟩ := path_feed False hk i fun h => h.elim
  rw [hb.ids] at hd
  rw [hb.jobs, hb.path.jobs hdefine] at hname
  refine placedTaskCounts_congr ?_
  rw [← hb.path.count hi hdefine hk hf hd hname]
  unfold count
  rw [hb.tasks]

/-- An input that touches no record. -/
theorem feed_tasks (hk : a.Keyed) {i : Input}
    (hi : ∀ kind ∈ i.kinds, kind ∈ [Kind.note, .define, .halt]) : (a.feed i).tasks = a.tasks := by
  obtain ⟨b, hb⟩ := path_feed False hk i fun h => h.elim
  rw [hb.tasks]
  exact hb.path.tasks hi

theorem still_accounts (hk : a.Keyed) {i : Input} (hi : ∀ kind ∈ i.kinds, kind = .define) :
    (a.feed i).placedTaskCounts = a.placedTaskCounts := by
  refine placedTaskCounts_of_tasks (feed_tasks hk fun kind hkind => ?_)
  rw [hi kind hkind]
  decide

/-- A start that worked changes no count, unless its task has crashed meanwhile. -/
theorem started_accounts (hk : a.Keyed) (hf : a.Filed) (now : Nanos) (id : String) (driver : Driver)
    (ok : StartOk) (hd : (a.onStarted now id driver (.ok ok)).ids.draws ≤ 2 ^ 64)
    (hcross : ∀ e, a.tasks.get? id = some e → e.task.state ≠ .stopping) (name : String)
    (hname : ((a.onStarted now id driver (.ok ok)).jobs.get? name).isSome = true) :
    (a.onStarted now id driver (.ok ok)).placedTaskCounts.get? name =
      a.placedTaskCounts.get? name := by
  obtain ⟨kind, post, acts, hkind, hturn, -⟩ := onStarted_ok_turns False a id now driver ok
  refine placedTaskCounts_congr ?_
  rw [hturn.jobs] at hname
  have hcount := hturn.count hf hd name
  have htally : tally name (post.map Prod.snd) = tally name (a.tasks.get? id) := by
    have h := hturn.turn
    by_cases hdead : kind = .dead
    · -- the record is dropped, since its job is gone
      subst hdead
      generalize hpre : a.tasks.get? id = pre at h
      cases h with
      | dead e driver pid hdead =>
        have hgone := hdead.resolve_left (hcross e hpre)
        unfold tally
        dsimp only [Option.map_none]
        rw [if_neg]
        rintro rfl
        rw [hgone] at hname
        cases hname
      | down kind e st count failedAt nextAt check restartAt starting acts hkind =>
        rcases hkind with ⟨h, -⟩ | ⟨h, -⟩ <;> cases h
    · refine h.tally_eq hk hname ?_
      revert hkind hdead
      cases kind <;> decide
  omega

end Agent

/-- **Reservations are conserved.** In every run whose ids do not repeat, an input changes the
reported counts by exactly what it reports, unless it answers the start of a task that has crashed
since; and only a second answer for an id can do that. -/
theorem counts_conserved {o : Observed} {i : Input} (hd : (o.take i).agent.ids.draws ≤ 2 ^ 64) :
    (inputs.Reachable o → ¬ CrossesCrash o.agent i → Accounts o.agent (o.take i).agent i) ∧
    (answeredOnce.Reachable o → o.admits i = true → ¬ CrossesCrash o.agent i) := by
  refine ⟨fun h hcross => ?_, fun h hadmits hcross => ?_⟩
  · obtain ⟨hk, hf⟩ := inputs_filed h
    have hquiet := fun hi hdefine => Agent.quiet_accounts hk hf (i := i) hi hdefine hd
    have hstill := fun hi name (_ : ((o.agent.feed i).jobs.get? name).isSome = true) =>
      congrArg (fun m : Map ℕ => m.get? name) (Agent.still_accounts hk (i := i) hi)
    cases i with
    | run now job replace poolLargest => exact Agent.run_accounts hk hf now job replace poolLargest hd
    | stopTask id => exact Agent.stopTask_accounts o.agent id
    | stopJobTasks name => exact Agent.stopJobTasks_accounts o.agent name
    | deleteJob now name => exact Agent.deleteJob_accounts o.agent now name
    | stopAll => exact ⟨Agent.stopAll_placed o.agent, rfl⟩
    | shutdown => exact ⟨Agent.stopAll_placed { o.agent with shuttingDown := true }, rfl⟩
    | onStarted now id driver result =>
      match result with
      | .error .noCapacity => exact Agent.noCapacity_accounts o.agent now id driver
      | .error .failed =>
        exact hquiet (by dsimp only [Input.kinds, Agent.answerKinds]; decide)
          (by dsimp only [Input.kinds, Agent.answerKinds]; decide)
      | .ok ok =>
        exact Agent.started_accounts hk hf now id driver ok hd
          fun e he hstate => hcross ⟨e, he, hstate⟩
    | storeJob now job => exact hstill fun kind hkind => List.mem_singleton.mp hkind
    | updateJob now job => exact hstill fun kind hkind => List.mem_singleton.mp hkind
    | setJobPriority now name priority => exact hstill fun kind hkind => List.mem_singleton.mp hkind
    | setJobDeploying now name deploying => exact hstill fun kind hkind => List.mem_singleton.mp hkind
    | deleteJobDefinition now name => exact hstill fun kind hkind => List.mem_singleton.mp hkind
    | syncJobs jobs updated => exact hstill fun kind hkind => List.mem_singleton.mp hkind
    | _ => exact hquiet (by dsimp only [Input.kinds]; decide) (by dsimp only [Input.kinds]; decide)
  · have hlives := lives_of_reachable h
    have hlively := hlives.lively ((hlives.basics i).2.2.2.2.trans hd)
    cases i with
    | onStarted now id driver result =>
      match result, hcross with
      | .ok ok, ⟨e, he, hstate⟩ =>
        have hfirst : o.answered id = false := by simpa [Observed.admits] using hadmits
        rcases hlively.fresh he hfirst with (h | h) | ⟨h, -⟩ <;> rw [hstate] at h <;> cases h
    | _ => exact hcross

/-- The first crash of a task is restarted at once, under the next id. -/
theorem counts_conserved_crash : (dbUp.agent.jobs.get? "db").isSome = true ∧
    Accounts dbUp.agent (dbUp.take (.onStatus 0 (Ids.idOf 0 1) .failed)).agent
      (.onStatus 0 (Ids.idOf 0 1) .failed) := by
  have hreach : inputs.Reachable dbUp := ⟨⟨.new plainNode, [], []⟩, [.run 0 dbJob false none,
    .onStarted 0 (Ids.idOf 0 1) .exec (.ok { pid := 7 })], ⟨plainNode, rfl⟩, rfl⟩
  exact ⟨by decide, (counts_conserved (by decide)).1 hreach fun h => h⟩

/-- A node on which `db` crashed twice: its second record waits for a restart. -/
def crashedTwice : List Input :=
  [.run 0 dbJob false none, .onStarted 0 (Ids.idOf 0 1) .exec (.ok { pid := 7 }),
    .onStatus 0 (Ids.idOf 0 1) .failed, .onStarted 0 (Ids.idOf 0 3) .exec (.ok { pid := 8 }),
    .onStatus 0 (Ids.idOf 0 3) .failed]

/-- The second answer for a task that waits for its restart drops its record. -/
theorem second_answer_drops_task : ¬ ∀ o now id driver ok, inputs.Reachable o →
    o.agent.shuttingDown = false →
    ∀ name, (o.agent.jobs.get? name).isSome = true →
      (o.agent.onStarted now id driver (.ok ok)).placedTaskCounts.get? name =
        o.agent.placedTaskCounts.get? name := by
  intro hall
  obtain ⟨o, ho⟩ : ∃ o, inputs.run ⟨.new plainNode, [], []⟩ crashedTwice = some o := ⟨_, rfl⟩
  have hreach : inputs.Reachable o := ⟨_, crashedTwice, ⟨plainNode, rfl⟩, ho⟩
  have hone : o = crashedTwice.foldl Observed.take ⟨.new plainNode, [], []⟩ := by
    cases ho
    rfl
  subst hone
  have hcounts := hall _ 0 (Ids.idOf 0 3) .exec { pid := 8 } hreach rfl "db" (by decide)
  revert hcounts
  decide

end Hop.Node
