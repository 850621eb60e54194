import Hop.Node.Conservation

/-!
# Task records are reservations

`Sound` is the invariant of the task table of an agent: a record is found under its own id, which
the agent drew; its job is known; and a task that starts neither runs nor stops. Starts, crashes,
failed health checks and restarts are turns that keep the number of records of every job
(`keeps_path`), as long as the agent drew at most `2 ^ 64` ids; taking a job on adds one, and a stop
takes away.
-/

namespace Hop.Node

open Hop.Types (Driver Job Map Task)

variable {a : Agent}

/-- What holds of each record. -/
structure EntryOk (jobs : Map Job) (ids : Ids) (id : String) (e : Entry) : Prop where
  key : e.task.id = id
  job : (jobs.get? e.task.jobName).isSome
  name : e.task.jobName ≠ ""
  starting : e.starting = true → e.task.state ≠ .running ∧ e.task.state ≠ .stopping
  drawn : ∃ i, 1 ≤ i ∧ i ≤ ids.draws ∧ id = Ids.idOf ids.seed i

namespace Agent

/-- The invariant of the task table and of the job table. -/
structure Sound (a : Agent) : Prop where
  entry : ∀ {id e}, a.tasks.get? id = some e → EntryOk a.jobs a.ids id e
  jobKey : ∀ {name job}, a.jobs.get? name = some job → job.name = name

theorem sound_new (s : Settings) : (new s).Sound where
  entry h := by cases h
  jobKey h := by cases h

theorem Sound.keyed (h : a.Sound) : a.Keyed := fun _ _ hj => h.jobKey hj

theorem Sound.filed (h : a.Sound) : a.Filed :=
  ⟨fun he => (h.entry he).key, fun he => (h.entry he).drawn⟩

/-- What is left for records that are filed. -/
theorem Sound.of_filed (hf : a.Filed) (hk : a.Keyed)
    (h : ∀ {id e}, a.tasks.get? id = some e →
      (a.jobs.get? e.task.jobName).isSome ∧ e.task.jobName ≠ "" ∧
        (e.starting = true → e.task.state ≠ .running ∧ e.task.state ≠ .stopping)) :
    a.Sound :=
  ⟨fun he => ⟨hf.key he, (h he).1, (h he).2.1, (h he).2.2, hf.drawn he⟩, fun hj => hk _ _ hj⟩

theorem Sound.push (h : a.Sound) (x : Action) : (a.push x).Sound :=
  ⟨h.entry, h.jobKey⟩

/-! ### What keeps the records -/

/-- The agent is sound again, and every job has as many records as before, unless ids ran out. -/
structure Keeps (a a' : Agent) : Prop where
  sound : a'.Sound
  jobs : a'.jobs = a.jobs
  draws : a.ids.draws ≤ a'.ids.draws
  count : a'.ids.draws ≤ 2 ^ 64 → ∀ name, a'.count name = a.count name

namespace Keeps

variable {a a' a'' : Agent}

theorem refl (h : a.Sound) : Keeps a a := ⟨h, rfl, le_refl _, fun _ _ => rfl⟩

theorem trans (h : Keeps a a') (h' : Keeps a' a'') : Keeps a a'' :=
  ⟨h'.sound, h'.jobs.trans h.jobs, h.draws.trans h'.draws,
    fun hd name => (h'.count hd name).trans (h.count (h'.draws.trans hd) name)⟩

/-- A step that leaves the records alone. -/
theorem of_tasks {Q : Prop} {kind : Kind} (hmove : Move Q kind a a') (h : a.Sound)
    (htasks : a'.tasks = a.tasks) (hjobs : a'.jobs = a.jobs) : Keeps a a' := by
  obtain ⟨acts, hframe⟩ := hmove.frame
  refine ⟨.of_filed (hmove.filed h.filed) (fun name job hj => h.jobKey (hjobs ▸ hj))
    fun {id e} he => ?_, hjobs, hframe.draws, fun _ name => by rw [Agent.count, htasks, Agent.count]⟩
  have hok := h.entry (htasks ▸ he)
  exact ⟨hjobs ▸ hok.job, hok.name, hok.starting⟩

/-- The other fields of the agent do not matter. -/
theorem congr (h : Keeps a a') (htasks : a''.tasks = a'.tasks) (hjobs : a''.jobs = a'.jobs)
    (hids : a''.ids = a'.ids) : Keeps a a'' := by
  refine ⟨⟨fun he => ?_, fun hj => h.sound.jobKey (hjobs ▸ hj)⟩, hjobs.trans h.jobs, ?_,
    fun hd name => ?_⟩
  · rw [hjobs, hids]
    exact h.sound.entry (htasks ▸ he)
  · rw [hids]
    exact h.draws
  · rw [← h.count (hids ▸ hd) name, Agent.count, htasks, Agent.count]

end Keeps

/-- The kinds of turns that neither begin nor end the record of a task: a restart replaces it. -/
def lastingKinds : List Kind :=
  [.check, .measure, .progress, .up, .down, .crash, .due, .again, .lost, .ghost, .note]

section

variable {Q : Prop} {kind : Kind} {a a' : Agent}

/-- A record of the same job in the place of one. -/
theorem keeps_put {id newId : String} {e e' : Entry} {acts : List Action}
    (h : TurnsAt Q id kind a a' (some (newId, e')) acts) (ha : a.Sound)
    (he : a.tasks.get? id = some e) (hjob : e'.task.jobName = e.task.jobName)
    (hstart : e'.starting = true → e'.task.state ≠ .running ∧ e'.task.state ≠ .stopping) :
    Keeps a a' := by
  have hok := ha.entry he
  have hmove : Move Q kind a a' := .turn id _ acts h
  refine ⟨.of_filed (hmove.filed ha.filed) (fun name job hj => ha.jobKey (h.jobs ▸ hj))
    fun {id' f} hf => ?_, h.jobs, h.frame.draws, fun hd name => ?_⟩
  · rw [h.jobs]
    rcases h.mem hf with hf | ⟨-, hf⟩
    · cases hf
      exact ⟨hjob ▸ hok.job, hjob ▸ hok.name, hstart⟩
    · exact ⟨(ha.entry hf).job, (ha.entry hf).name, (ha.entry hf).starting⟩
  · have hcount := h.count ha.filed hd name
    rw [he] at hcount
    simp only [Option.map_some, tally, hjob] at hcount
    omega

/-- **A turn of a lasting kind keeps the records.** -/
theorem keeps_turn {id : String} {post : Option (String × Entry)} {acts : List Action}
    (h : TurnsAt Q id kind a a' post acts) (ha : a.Sound) (hkind : kind ∈ lastingKinds) :
    Keeps a a' := by
  have hturn := h.turn
  generalize hpre : a.tasks.get? id = pre at hturn
  cases hturn with
  | check e check acts hacts => exact keeps_put h ha hpre rfl (ha.entry hpre).starting
  | measure e cores core => exact keeps_put h ha hpre rfl (ha.entry hpre).starting
  | progress e downloaded total hstate => exact keeps_put h ha hpre rfl fun _ => by simp
  | up e now ok acts hstate hacts => exact keeps_put h ha hpre rfl fun hs => by cases hs
  | down kind e st count failedAt nextAt check restartAt starting acts hdown hst hstop hstart =>
    refine keeps_put h ha hpre rfl fun hs => ?_
    rcases hdown with ⟨-, hno⟩ | ⟨-, hsame, hrun⟩
    · cases hno.symm.trans hs
    · exact absurd hrun ((ha.entry hpre).starting (hsame ▸ hs)).1
  | due e st hat hst =>
    refine keeps_put h ha hpre rfl fun hs => ?_
    rcases hst with rfl | ⟨rfl, -⟩
    · simp
    · exact (ha.entry hpre).starting hs
  | again e job k newId task acts hjob hid hnew hstart hstop =>
    exact keeps_put h ha hpre (hnew.jobName.trans (ha.jobKey hjob)) fun _ => by simp [hnew.state]
  | lost e acts hjob hstart hstop => exact absurd (ha.entry hpre).job (by simp [hjob])
  | ghost driver pid =>
    exact .of_tasks (.turn id _ _ h) ha (h.tasks.trans (SortedMap.erase_of_none hpre)) h.jobs
  | _ => exact absurd hkind (by decide)

end

/-- **So does a path of them.** -/
theorem keeps_path {Q : Prop} {K : Kind → Prop} {a' : Agent} (h : Path Q K a a')
    (hK : ∀ kind, K kind → kind ∈ lastingKinds) (ha : a.Sound) : Keeps a a' := by
  induction h with
  | refl => exact .refl ha
  | tail _ hstep ih =>
    obtain ⟨kind, hkind, hmove⟩ := hstep
    refine ih.trans ?_
    cases hmove with
    | turn id post acts h => exact keeps_turn h ih.sound (hK kind hkind)
    | note acts hacts htasks hjobs hdown h =>
      exact .of_tasks (Q := Q) (.note acts hacts htasks hjobs hdown h) ih.sound htasks hjobs
    | _ => exact absurd (hK _ hkind) (by decide)

/-! ### The events of the runner -/

theorem onProgress_keeps (h : a.Sound) (id : String) (downloaded total : ℕ) :
    Keeps a (a.onProgress id downloaded total) :=
  keeps_path (path_onProgress True a id downloaded total) (by decide) h

theorem recordUsage_keeps (h : a.Sound) (id : String) (cores : ℕ) (core : Option ℕ) :
    Keeps a (a.recordUsage id cores core) :=
  keeps_path (path_recordUsage True a id cores core) (by decide) h

/-- The outcome of a start that was asked for keeps the records, unless the node has no place. The
task may be gone by then. -/
theorem onStarted_keeps (h : a.Sound) (now : Nanos) {id : String}
    (hs : ∀ e, a.tasks.get? id = some e → e.starting = true) (driver : Driver)
    {result : Except StartError StartOk} (hr : result ≠ .error .noCapacity) :
    Keeps a (a.onStarted now id driver result) := by
  rcases onStarted_turns True a id h.keyed now driver result with
    heq | ⟨kind, post, acts, hkind, hturn⟩
  · rw [heq]
    exact .refl h
  · -- a task that starts is not on its way out
    have halive : kind ≠ .dead := by
      rintro rfl
      have hdead := hturn.turn
      generalize hpre : a.tasks.get? id = pre at hdead
      cases hdead with
      | dead e driver pid hdead =>
        have hok := h.entry hpre
        rcases hdead with hstate | hjob
        · exact (hok.starting (hs e hpre)).2 hstate
        · exact absurd hok.job (by simp [hjob])
      | down kind e st count failedAt nextAt check restartAt starting acts hdown =>
        rcases hdown with ⟨hdown, -⟩ | ⟨hdown, -⟩ <;> cases hdown
    refine keeps_turn hturn h ?_
    match result with
    | .error .noCapacity => exact absurd rfl hr
    | .error .failed =>
      have hlasting : ∀ kind ∈ [Kind.down, .again, .lost], kind ∈ lastingKinds := by decide
      exact hlasting kind hkind
    | .ok ok =>
      have hlasting : ∀ kind ∈ [Kind.up, .ghost, .dead], kind ≠ .dead → kind ∈ lastingKinds := by
        decide
      exact hlasting kind hkind halive

theorem lasting_of_report : ∀ kind ∈ [Kind.check, .crash, .again, .lost], kind ∈ lastingKinds := by
  decide

theorem onProbe_keeps (h : a.Sound) (now : Nanos) (id : String) (outcome : Outcome) :
    Keeps a (a.onProbe now id outcome) := by
  rcases onProbe_turns True a id h.keyed now outcome with heq | ⟨kind, post, acts, hkind, hturn⟩
  · rw [heq]
    exact .refl h
  · exact keeps_turn hturn h (lasting_of_report kind hkind)

theorem onStatus_keeps (h : a.Sound) (now : Nanos) (id : String) (status : Status) :
    Keeps a (a.onStatus now id status) := by
  rcases onStatus_turns True a id h.keyed now status with
    heq | ⟨x, -, heq⟩ | ⟨kind, post, acts, hkind, hturn⟩
  · rw [heq]
    exact .refl h
  · rw [heq]
    exact (Keeps.refl h).congr rfl rfl rfl
  · exact keeps_turn hturn h (lasting_of_report kind hkind)

theorem tick_keeps (h : a.Sound) (now : Nanos) : Keeps a (a.tick now).2 := by
  obtain ⟨b, hpath, htick⟩ := path_tick False h.keyed now False.elim
  rw [htick]
  exact (keeps_path hpath (by decide) h).congr rfl rfl rfl

/-! ### What takes records away -/

theorem Drops.sound {T : Set String} {a' : Agent} (hd : Drops T a a') (h : a.Sound) : a'.Sound := by
  refine ⟨fun {id e} he => ?_, fun hj => ?_⟩
  · rw [hd.jobs, hd.ids]
    by_cases hid : id ∈ T
    · rw [hd.gone hid] at he
      cases he
    · exact h.entry (hd.kept hid ▸ he)
  · rw [hd.jobs] at hj
    exact h.jobKey hj

/-- Stopping a job leaves none of its records, and all others. -/
theorem stopJobTasks_spec (h : a.Sound) (name : String) :
    (a.stopJobTasks name).2.Sound ∧ (a.stopJobTasks name).2.ids = a.ids ∧
    ∀ name', (a.stopJobTasks name).2.count name' = if name = name' then 0 else a.count name' :=
  ⟨(stopEach_drops _ a).sound h, (stopEach_drops _ a).ids, stopJob_count a name⟩

/-- So does deleting it. -/
theorem deleteJob_spec (h : a.Sound) (now : Nanos) (name : String) :
    (a.deleteJob now name).2.Sound ∧ (a.deleteJob now name).2.ids = a.ids ∧
    ∀ name', (a.deleteJob now name).2.count name' = if name = name' then 0 else a.count name' := by
  unfold deleteJob stopJobTasks
  dsimp only
  generalize hb : ({ a with
    jobs := a.jobs.erase name, refused := _, stateTime := now } : Agent) = b
  have htasks : b.tasks = a.tasks := by rw [← hb]
  have hjobs : b.jobs = a.jobs.erase name := by rw [← hb]
  have hids : b.ids = a.ids := by rw [← hb]
  have hdrops := stopEach_drops (b.idsOfJob name) b
  refine ⟨Sound.push ⟨fun {id e} he => ?_, fun {n j} hj => ?_⟩ _, hdrops.ids.trans hids,
    fun name' => ?_⟩
  · by_cases hid : id ∈ { id | id ∈ b.idsOfJob name }
    · rw [hdrops.gone hid] at he
      cases he
    · rw [hdrops.kept hid, htasks] at he
      have hok := h.entry he
      have hne : name ≠ e.task.jobName := fun heq =>
        hid (mem_idsOfJob.mpr ⟨e, htasks ▸ he, heq.symm⟩)
      rw [hdrops.jobs, hdrops.ids, hids, hjobs]
      refine { hok with job := ?_ }
      rw [SortedMap.get?_erase, if_neg hne]
      exact hok.job
  · rw [hdrops.jobs, hjobs, SortedMap.get?_erase] at hj
    split_ifs at hj
    exact h.jobKey hj
  · rw [push_count, stopJob_count, count, htasks, count]

/-- Stopping a task that is there takes its record away. -/
theorem stopTask_spec (h : a.Sound) {id : String} {e : Entry} (he : a.tasks.get? id = some e) :
    (a.stopTask id).2.Sound ∧ (a.stopTask id).2.ids = a.ids ∧
    (∀ {id'}, id' ≠ id → (a.stopTask id).2.tasks.get? id' = a.tasks.get? id') ∧
    ∀ name, a.count name = (a.stopTask id).2.count name + if e.task.jobName = name then 1 else 0 := by
  have hdrops : Drops {id} a (a.stopTask id).2 := removeAndStop_drops a id
  refine ⟨hdrops.sound h, hdrops.ids, fun hne => hdrops.kept hne, fun name => ?_⟩
  rw [stopTask, removeAndStop, he, count_forget he name]
  rfl

/-- The hand-back of a task takes its record away. -/
theorem onStarted_noCapacity (h : a.Sound) (now : Nanos) (id : String) (driver : Driver) {e : Entry}
    (he : a.tasks.get? id = some e) :
    (a.onStarted now id driver (.error .noCapacity)).Sound ∧
    (a.onStarted now id driver (.error .noCapacity)).ids = a.ids ∧
    ∀ name, a.count name = (a.onStarted now id driver (.error .noCapacity)).count name +
      if e.task.jobName = name then 1 else 0 := by
  unfold onStarted releaseUnplaceable
  dsimp only
  rw [modifyTask_of_some he]
  dsimp only
  rw [SortedMap.get?_insert_self]
  dsimp only [push, forget]
  rw [SortedMap.erase_insert_self]
  refine ⟨⟨fun {id' e'} he' => ?_, h.jobKey⟩, rfl, count_forget he⟩
  rw [SortedMap.get?_erase] at he'
  split_ifs at he'
  exact h.entry he'

/-! ### Taking a job on -/

/-- What an accepted `run` of a job of this name does to the records. -/
structure Runs (name : String) (replace : Bool) (a a' : Agent) : Prop where
  sound : a'.Sound
  draws : a.ids.draws ≤ a'.ids.draws
  size : a.tasks.size < maxTasks
  count : a'.ids.draws ≤ 2 ^ 64 → ∀ name', a'.count name' =
    (if replace = true ∧ name = name' then 0 else a.count name') + if name = name' then 1 else 0
  others : a'.ids.draws ≤ 2 ^ 64 → ∀ {id e}, (replace = true → e.task.jobName ≠ name) →
    a.tasks.get? id = some e → a'.tasks.get? id = some e

theorem Sound.prepared (h : a.Sound) (job : Job) (replace : Bool) :
    (a.prepared job replace).Sound := by
  have hpath := path_prepared True a job replace
  obtain ⟨flag, hjobs⟩ := a.prepared_jobs job replace
  refine .of_filed (hpath.filed h.filed) (hpath.keyed h.keyed) fun {id e} he => ?_
  rw [prepared_get?] at he
  have hok := h.entry (Option.filter_eq_some_iff.mp he).1
  refine ⟨?_, hok.name, hok.starting⟩
  rw [hjobs, SortedMap.get?_insert]
  split_ifs
  · rfl
  · exact hok.job

/-- A new task waits for its start, or it has failed. -/
theorem Birth.starting {job : Job} {id : String} {a' : Agent} {kind : Kind} {e : Entry}
    {acts : List Action} (h : Birth True job id a a' kind e acts) (hs : e.starting = true) :
    e.task.state ≠ .running ∧ e.task.state ≠ .stopping := by
  have hturn := h.turn.turn
  generalize a.tasks.get? id = pre at hturn
  rcases h.how with ⟨rfl, -⟩ | ⟨rfl, -⟩
  · cases hturn with
    | born pre job job' k task hid hnew => simp [hnew.state]
    | down kind e st count failedAt nextAt check restartAt starting acts hdown =>
      rcases hdown with ⟨h, -⟩ | ⟨h, -⟩ <;> cases h
  · cases hturn with
    | stillborn pre job k task e acts hid hnew hstart hstarting hat htask =>
      cases hstarting.symm.trans hs
    | down kind e st count failedAt nextAt check restartAt starting acts hdown =>
      rcases hdown with ⟨h, -⟩ | ⟨h, -⟩ <;> cases h

/-- A job that was admitted has one record more, or one instead of all it had. -/
theorem takeOn_runs (h : a.Sound) (now : Nanos) {job : Job} (hne : job.name ≠ "") (replace : Bool)
    (hsize : a.tasks.size < maxTasks) :
    Runs job.name replace a (a.takeOn now job replace).2 := by
  obtain ⟨flag, kind, e, acts, hbirth⟩ := takeOn_turns True h.keyed now job replace
  have hready := h.prepared job replace
  have hids := a.prepared_ids job replace
  have hget := a.prepared_get? job replace
  have hcount := takeOn_count h.keyed h.filed now job replace
  obtain ⟨flag', hjobs⟩ := a.prepared_jobs job replace
  generalize a.prepared job replace = b at hbirth hready hids hget hjobs
  generalize (a.takeOn now job replace).2 = a' at hbirth hcount ⊢
  obtain ⟨k, hdrawn⟩ := hbirth.drawn
  have hturn := hbirth.turn
  have hfresh : a'.ids.draws ≤ 2 ^ 64 → b.tasks.get? a.ids.id.1 = none := hready.filed.fresh hdrawn
  refine ⟨.of_filed (Move.filed (.turn _ _ acts hturn) hready.filed)
    (fun name j hj => hready.jobKey (hturn.jobs ▸ hj)) fun {id f} hf => ?_,
    hids ▸ hturn.frame.draws, hsize, fun hd name => ?_, fun hd id f hname hf => ?_⟩
  · rw [hturn.jobs]
    rcases hturn.mem hf with hf | ⟨-, hf⟩
    · cases hf
      have hjob : e.task.jobName = job.name := hbirth.fresh.jobName
      refine ⟨?_, hjob ▸ hne, hbirth.starting⟩
      rw [hjob, hjobs, SortedMap.get?_insert_self]
      rfl
    · exact ⟨(hready.entry hf).job, (hready.entry hf).name, (hready.entry hf).starting⟩
  · rw [hcount hd name]
    simp only [eq_comm]
  · have hkept : b.tasks.get? id = some f := by
      rw [hget, hf, Option.filter_some]
      cases replace with
      | false => rfl
      | true => simp [hname rfl]
    have hne' : a.ids.id.1 ≠ id := by
      rintro rfl
      rw [hfresh hd] at hkept
      cases hkept
    rw [hturn.get?_of_ne hne'.symm fun newId f' hf' => by cases hf'; exact hne']
    exact hkept

/-- **What `run` does to the records**: a refusal changes none. -/
theorem run_spec (h : a.Sound) (now : Nanos) {job : Job} (hne : job.name ≠ "") (replace : Bool)
    (poolLargest : Option ℕ) :
    match a.run now job replace poolLargest with
    | (.ok _, a') => Runs job.name replace a a'
    | (.error _, a') => Keeps a a' ∧ a'.tasks = a.tasks := by
  by_cases hsize : a.tasks.size < maxTasks
  · rcases a.run_cases now job replace poolLargest with ⟨err, a', hrun, ha'⟩ | ⟨-, hrun⟩
    · rw [hrun]
      rcases ha' with rfl | ⟨why, rfl⟩
      · exact ⟨.refl h, rfl⟩
      · refine ⟨(Keeps.refl h).congr (refuse_tasks a _ why) ?_ ?_, refuse_tasks a _ why⟩
        · unfold refuse
          split_ifs <;> rfl
        · unfold refuse
          split_ifs <;> rfl
    · rw [hrun]
      rw [← normalized_name job] at hne ⊢
      exact takeOn_runs h now hne replace hsize
  · unfold run
    dsimp only
    rw [if_pos (Nat.not_lt.mp hsize)]
    split_ifs
    · exact ⟨.refl h, rfl⟩
    · exact ⟨.refl h, rfl⟩

/-! ### The counts that an agent reports -/

/-- No record of a sound agent is without a name. -/
theorem placedTaskCounts_get (h : a.Sound) (name : String) :
    (a.placedTaskCounts.get? name).getD 0 = a.count name := by
  rw [placedTaskCounts_get?]
  split_ifs with hnone
  · rcases hnone with rfl | hzero
    · by_contra hne
      obtain ⟨id, e, he, hname⟩ := SortedMap.countVal_pos_iff.mp (Nat.pos_of_ne_zero (Ne.symm hne))
      exact (h.entry he).name (by simpa using hname)
    · exact hzero.symm
  · rfl

end Agent

end Hop.Node
