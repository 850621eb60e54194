import Hop.Node.Conservation
import Hop.Node.Charges

/-!
# The budget of restarts

Every job says how often its tasks may be restarted, and after which uptime they have earned a new
budget. The count of the restarts goes from record to record: a record that fails keeps it (or loses
it, if it had really run for longer than the window), and the record that takes its place has one more.
`Descends` says where each record after an input comes from; from it follow the bound on the count,
what lowers it, and how long a restart waits (`restart_budget`).

The first restart of a chain waits for nothing, and so does the first one after a count was lowered.
-/

namespace Hop.Node

open Hop.Types (Driver Job Map Task TaskState)

variable {now : Nanos} {e' : Entry} {id' : String} {a : Agent}

/-! ### Where a record comes from -/

/-- The record of a task that goes on. -/
structure Kept (e e' : Entry) : Prop where
  jobName : e'.task.jobName = e.task.jobName
  count : e'.task.restartCount = e.task.restartCount
  failedAt : e'.task.lastFailedAt = e.task.lastFailedAt
  restartAt : e'.restartAt = e.restartAt ∨ e'.restartAt = none
  running : e'.task.state = .running → e.task.state = .running ∧ e'.task.startedAt = e.task.startedAt

theorem Kept.refl (e : Entry) : Kept e e := ⟨rfl, rfl, rfl, .inl rfl, fun h => ⟨h, rfl⟩⟩

theorem Kept.trans {e e₁ : Entry} (h : Kept e e₁) (h' : Kept e₁ e') : Kept e e' := by
  refine ⟨h'.jobName.trans h.jobName, h'.count.trans h.count, h'.failedAt.trans h.failedAt, ?_,
    fun hrun => ?_⟩
  · rcases h'.restartAt with hat | hat
    · rw [hat]
      exact h.restartAt
    · exact .inr hat
  · obtain ⟨hrun₁, hstarted₁⟩ := h'.running hrun
    obtain ⟨hrun₀, hstarted₀⟩ := h.running hrun₁
    exact ⟨hrun₀, hstarted₁.trans hstarted₀⟩

/-- The record of a task that came up. -/
structure Up (now : Nanos) (e e' : Entry) : Prop where
  jobName : e'.task.jobName = e.task.jobName
  count : e'.task.restartCount = e.task.restartCount
  failedAt : e'.task.lastFailedAt = e.task.lastFailedAt
  restartAt : e'.restartAt = e.restartAt
  startedAt : e'.task.startedAt = now

theorem Renewed.of_kept {base : ℤ} {failedAt : Nanos} {e e₁ : Entry}
    (h : Renewed base failedAt e e₁) (hkept : Kept e₁ e') : Renewed base failedAt e e' := by
  refine ⟨hkept.jobName.trans h.jobName, hkept.count.trans h.count, hkept.failedAt.trans h.failedAt,
    fun hrun => h.state (hkept.running hrun).1, ?_⟩
  rcases hkept.restartAt with hat | hat
  · rw [hat, h.restartAt]
  · exact hat

/-- The input says that a task failed: its start, or the task while it was running. -/
def Fails (i : Input) (now : Nanos) (id : String) (e : Entry) (ran : Bool) : Prop :=
  ran = false ∧ (∃ driver, i = .onStarted now id driver (.error .failed)) ∨
  ran = true ∧ e.task.state = .running ∧
    ((∃ status, i = .onStatus now id status) ∨ ∃ outcome, i = .onProbe now id outcome)

/-- **Where a record comes from** after an input. -/
inductive Descends (a : Agent) (i : Input) (id' : String) (e' : Entry) : Prop
  | kept (e : Entry) (he : a.tasks.get? id' = some e) (h : Kept e e')
  | up (e : Entry) (now : Nanos) (driver : Driver) (ok : StartOk) (he : a.tasks.get? id' = some e)
      (hi : i = .onStarted now id' driver (.ok ok)) (h : Up now e e')
  | born (now : Nanos) (job : Job) (replace : Bool) (poolLargest : Option ℕ)
      (hi : i = .run now job replace poolLargest) (hname : e'.task.jobName = job.name)
      (hcount : e'.task.restartCount = 0) (hat : e'.restartAt = none)
      (hstate : e'.task.state ≠ .running)
  | down (e : Entry) (job : Job) (now : Nanos) (ran : Bool) (he : a.tasks.get? id' = some e)
      (hjob : a.jobs.get? e.task.jobName = some job) (hi : Fails i now id' e ran)
      (h : Down job now ran e e')
  /-- A restart at once. -/
  | again (id : String) (e : Entry) (job : Job) (now : Nanos) (ran : Bool)
      (he : a.tasks.get? id = some e) (hjob : a.jobs.get? e.task.jobName = some job)
      (hi : Fails i now id e ran) (hzero : judged job now ran e ≤ 0)
      (hallows : Allows job (judged job now ran e)) (h : Renewed (judged job now ran e) now e e')
  /-- A restart that was waited for. -/
  | due (id : String) (e : Entry) (now t : Nanos) (he : a.tasks.get? id = some e)
      (hi : i = .tick now) (hat : e.restartAt = some t) (hle : t ≤ now)
      (h : Renewed e.task.restartCount e.task.lastFailedAt e e')

namespace Agent

/-! ### The chain of a restart -/

/-- The records after a restart was fired: the others, the same one, or its replacement. -/
theorem restartFire_mem (hk : a.Keyed) {id : String} {e : Entry} (he : a.tasks.get? id = some e)
    {rounds : ℕ} (h : (restartFire (beginStart (rounds + 1)) a now id).tasks.get? id' = some e') :
    id' ≠ id ∧ a.tasks.get? id' = some e' ∨
    id' = id ∧ (e' = e ∨ e' = { e with task := { e.task with state := .failed } }) ∨
    Renewed e.task.restartCount e.task.lastFailedAt e e' := by
  have hfired := restartFire_fired hk he rounds now
  generalize restartFire (beginStart (rounds + 1)) a now id = a' at hfired h
  cases hfired with
  | halted =>
    by_cases hid : id' = id
    · rw [hid, he] at h
      exact .inr (.inl ⟨hid, .inl (Option.some.inj h).symm⟩)
    · exact .inl ⟨hid, h⟩
  | lost => exact .inl (SortedMap.of_get?_erase h)
  | failed => exact (SortedMap.of_get?_insert h).imp_right fun ⟨hid, hx⟩ => .inl ⟨hid, .inr hx⟩
  | again job job' task hjob hres hnew hrenewed =>
    rcases SortedMap.of_get?_insert h with ⟨-, h⟩ | ⟨-, rfl⟩
    · exact .inl (SortedMap.of_get?_erase h)
    · exact .inr (.inr hrenewed)

/-- The records after a failure was judged. -/
theorem restartDecide_mem (hk : a.Keyed) {id : String} {e : Entry} (he : a.tasks.get? id = some e)
    (hstate : e.task.state ≠ .running) {rounds : ℕ} {ran : Bool}
    (h : (restartDecide (beginStart (rounds + 1)) a now id ran).tasks.get? id' = some e') :
    id' ≠ id ∧ a.tasks.get? id' = some e' ∨
    ∃ job, a.jobs.get? e.task.jobName = some job ∧
      (id' = id ∧ Down job now ran e e' ∨
        judged job now ran e ≤ 0 ∧ Allows job (judged job now ran e) ∧
          Renewed (judged job now ran e) now e e') := by
  have hdecided := restartDecide_decided hk he rounds now ran
  generalize restartDecide (beginStart (rounds + 1)) a now id ran = a' at hdecided h
  cases hdecided with
  | lost => exact .inl (SortedMap.of_get?_erase h)
  | stays job st nextAt restartAt hjob hst hallows hat =>
    refine (SortedMap.of_get?_insert h).imp_right fun ⟨hid, hx⟩ => ⟨job, hjob, .inl ⟨hid, ?_⟩⟩
    rw [hx]
    refine ⟨rfl, rfl, rfl, ?_, fun t ht => ?_⟩
    · rcases hst with rfl | ⟨rfl, -⟩
      · simp
      · exact hstate
    · obtain rfl : restartAt = some t := ht
      refine ⟨hallows rfl, ?_⟩
      have hdue := hat.resolve_left (by simp)
      split_ifs at hdue ⊢
      · exact hdue.imp fun _ => Option.some.inj
      · exact hdue.symm
  | again job job' task hjob hres hnew hzero hallows hrenewed =>
    rcases SortedMap.of_get?_insert h with ⟨-, h⟩ | ⟨-, rfl⟩
    · exact .inl (SortedMap.of_get?_erase h)
    · exact .inr ⟨job, hjob, .inr ⟨hzero, hallows, hrenewed⟩⟩

/-- The record of a task that is not running any more. -/
structure Halted (e e₁ : Entry) : Prop where
  jobName : e₁.task.jobName = e.task.jobName
  count : e₁.task.restartCount = e.task.restartCount
  startedAt : e₁.task.startedAt = e.task.startedAt
  restartAt : e₁.restartAt = e.restartAt
  state : e₁.task.state ≠ .running

theorem Halted.judged {e e₁ : Entry} (h : Halted e e₁) (job : Job) (now : Nanos) (ran : Bool) :
    judged job now ran e₁ = judged job now ran e := by
  rw [Node.judged, Node.judged, failedNow, failedNow]
  dsimp only
  rw [h.count, h.startedAt]

/-- The records after a task failed. -/
theorem scheduleRestart_mem (hk : a.Keyed) {id : String} {e e₁ : Entry}
    (he : a.tasks.get? id = some e) (hhalted : Halted e e₁) {acts : List Action} {ran : Bool}
    {i : Input} (hi : Fails i now id e ran)
    (h : (scheduleRestart (beginStart startRounds) { a with
      tasks := a.tasks.insert id e₁, out := a.out ++ acts } now id ran).tasks.get? id' = some e') :
    Descends a i id' e' := by
  rw [scheduleRestart] at h
  dsimp only at h
  rw [SortedMap.get?_insert_self] at h
  dsimp only at h
  have hdecided := restartDecide_mem (a := push { a with
    tasks := a.tasks.insert id e₁, out := a.out ++ acts } (stopAction e₁.task)) hk
    (SortedMap.get?_insert_self _ _ _) hhalted.state h
  have hname := hhalted.jobName
  rcases hdecided with ⟨hne, hx⟩ | ⟨job, hjob, hcase⟩
  · rcases SortedMap.of_get?_insert hx with ⟨-, hx⟩ | ⟨hid, -⟩
    · exact .kept e' hx (.refl e')
    · exact absurd hid hne
  change a.jobs.get? e₁.task.jobName = some job at hjob
  rw [hname] at hjob
  rw [hhalted.judged] at hcase
  rcases hcase with ⟨rfl, hdown⟩ | ⟨hzero, hallows, hnew⟩
  · refine .down e job now ran he hjob hi ⟨hdown.jobName.trans hname, ?_, hdown.failedAt,
      hdown.state, ?_⟩
    · rw [hdown.count, hhalted.judged]
    · rw [← hhalted.judged job now ran, ← hhalted.restartAt]
      exact hdown.restartAt
  · exact .again id e job now ran he hjob hi hzero hallows ⟨hnew.jobName.trans hname, hnew.count,
      hnew.failedAt, hnew.state, hnew.restartAt⟩

/-! ### Every input -/

section

variable {a : Agent} {i : Input} {id id' : String} {e' : Entry}

/-- Editing one record. -/
theorem descends_modifyTask {f : Entry → Entry} (hf : ∀ e, Kept e (f e))
    (h : (a.modifyTask id f).tasks.get? id' = some e') : Descends a i id' e' := by
  change (a.tasks.modify id f).get? id' = some e' at h
  rw [SortedMap.get?_modify] at h
  split_ifs at h with hid
  · obtain ⟨e, he, rfl⟩ := Option.map_eq_some_iff.mp h
    exact .kept e he (hf e)
  · exact .kept e' h (.refl e')

theorem descends_onProgress {downloaded total : ℕ}
    (h : (a.onProgress id downloaded total).tasks.get? id' = some e') : Descends a i id' e' := by
  refine descends_modifyTask (fun e => ?_) h
  split_ifs
  · exact ⟨rfl, rfl, rfl, .inl rfl, fun hrun => by cases hrun⟩
  · exact .refl e

theorem descends_onStarted (hk : a.Keyed) {driver : Driver} {result : Except StartError StartOk}
    (h : (a.onStarted now id driver result).tasks.get? id' = some e') :
    Descends a (.onStarted now id driver result) id' e' := by
  have hkept : ∀ {x : Entry}, a.tasks.get? id' = some x →
      Descends a (.onStarted now id driver result) id' x := fun hx => .kept _ hx (.refl _)
  rcases he : a.tasks.get? id with _ | e
  · -- an answer for a task that is not there
    have hnone : (a.onStarted now id driver result).tasks.get? id' = a.tasks.get? id' := by
      simp only [onStarted]
      rw [modifyTask_of_none he]
      rcases result with (_ | _) | ok
      · rw [releaseUnplaceable, he]
      · rw [startFailed, he]
      · simp only [started]
        rw [he]
        change (a.tasks.erase id).get? id' = a.tasks.get? id'
        rw [SortedMap.erase_of_none he]
    rw [hnone] at h
    exact hkept h
  simp only [onStarted] at h
  rw [modifyTask_of_some he] at h
  rcases result with (_ | _) | ok
  · rw [releaseUnplaceable] at h
    dsimp only at h
    rw [SortedMap.get?_insert_self] at h
    change ((a.tasks.insert id { e with starting := false }).erase id).get? id' = some e' at h
    rw [SortedMap.erase_insert_self] at h
    exact hkept (SortedMap.of_get?_erase h).2
  · rw [startFailed] at h
    dsimp only at h
    rw [SortedMap.get?_insert_self] at h
    dsimp only at h
    rw [modifyTask_of_some (SortedMap.get?_insert_self _ _ _)] at h
    dsimp only at h
    rw [SortedMap.insert_insert_self] at h
    have hhalted : Halted e { e with task := { e.task with state := .failed }, starting := false } :=
      ⟨rfl, rfl, rfl, rfl, by simp⟩
    have hfails : Fails (.onStarted now id driver (.error .failed)) now id e false :=
      .inl ⟨rfl, driver, rfl⟩
    by_cases hfirst : e.firstStart = true
    · rw [if_pos hfirst] at h
      exact scheduleRestart_mem hk he hhalted hfails h
    · rw [if_neg hfirst] at h
      rw [← List.append_nil a.out] at h
      exact scheduleRestart_mem hk he hhalted hfails h
  · simp only [started] at h
    rw [SortedMap.get?_insert_self] at h
    split_ifs at h with halive
    · change ((a.tasks.insert id { e with starting := false }).erase id).get? id' = some e' at h
      rw [SortedMap.erase_insert_self] at h
      exact hkept (SortedMap.of_get?_erase h).2
    · dsimp only at h
      rw [modifyTask_of_some (SortedMap.get?_insert_self _ _ _)] at h
      dsimp only [push] at h
      rw [SortedMap.insert_insert_self] at h
      rcases SortedMap.of_get?_insert h with ⟨-, hx⟩ | ⟨rfl, rfl⟩
      · exact hkept hx
      · exact .up e now driver ok he rfl ⟨rfl, rfl, rfl, rfl, rfl⟩

theorem descends_onProbe (hk : a.Keyed) {outcome : Outcome}
    (hi : (∃ status, i = .onStatus now id status) ∨ ∃ outcome, i = .onProbe now id outcome)
    (h : (a.onProbe now id outcome).tasks.get? id' = some e') : Descends a i id' e' := by
  rw [onProbe] at h
  rcases he : a.tasks.get? id with _ | e
  · rw [he] at h
    exact .kept e' h (.refl e')
  rw [he] at h
  dsimp only at h
  split_ifs at h with hstate
  · exact .kept e' h (.refl e')
  rw [not_not] at hstate
  generalize e.check.apply _ now _ = verdict at h
  obtain ⟨verdict, check⟩ := verdict
  rcases verdict with passed | _
  · dsimp only at h
    split_ifs at h
    · refine descends_modifyTask (fun e => ?_) h
      exact ⟨rfl, rfl, rfl, .inl rfl, fun h => ⟨h, rfl⟩⟩
    · refine descends_modifyTask (fun e => ?_) h
      exact ⟨rfl, rfl, rfl, .inl rfl, fun h => ⟨h, rfl⟩⟩
  · dsimp only at h
    rw [modifyTask_of_some he] at h
    refine scheduleRestart_mem hk he ?_ (.inr ⟨rfl, hstate, hi⟩) h
    exact ⟨rfl, rfl, rfl, rfl, by simp⟩

theorem descends_onStatus (hk : a.Keyed) {status : Status}
    (h : (a.onStatus now id status).tasks.get? id' = some e') :
    Descends a (.onStatus now id status) id' e' := by
  rw [onStatus] at h
  rcases he : a.tasks.get? id with _ | e
  · rw [he] at h
    exact .kept e' h (.refl e')
  rw [he] at h
  dsimp only at h
  split_ifs at h with hstate
  · exact .kept e' h (.refl e')
  rw [not_not] at hstate
  rcases status with _ | _
  · -- a task that runs is probed
    dsimp only at h
    rw [maybeProbe, he] at h
    dsimp only at h
    rcases hcheck : (a.jobs.get? e.task.jobName).bind fun j => j.healthCheck with _ | hc
    · rw [hcheck] at h
      exact .kept e' h (.refl e')
    rw [hcheck] at h
    dsimp only at h
    split_ifs at h
    · exact .kept e' h (.refl e')
    rcases hprobe : probeFor e.task hc a.settings.probeTimeout with _ | probe
    · rw [hprobe] at h
      exact descends_onProbe hk (.inl ⟨.running, rfl⟩) h
    · rw [hprobe] at h
      exact .kept e' h (.refl e')
  · dsimp only at h
    rw [modifyTask_of_some he] at h
    refine scheduleRestart_mem hk he ?_ (.inr ⟨rfl, hstate, .inl ⟨.failed, rfl⟩⟩) h
    exact ⟨rfl, rfl, rfl, rfl, by simp⟩

theorem descends_run (hk : a.Keyed) {job : Job} {replace : Bool} {poolLargest : Option ℕ}
    (h : (a.run now job replace poolLargest).2.tasks.get? id' = some e') :
    Descends a (.run now job replace poolLargest) id' e' := by
  rcases a.run_cases now job replace poolLargest with ⟨err, a', hrun, hcase⟩ | ⟨-, hrun⟩
  · rw [hrun] at h
    rcases hcase with rfl | ⟨why, rfl⟩
    · exact .kept e' h (.refl e')
    · rw [refuse_tasks] at h
      exact .kept e' h (.refl e')
  rw [hrun] at h
  obtain ⟨flag, kind, e, acts, hbirth⟩ := takeOn_turns True hk now (normalized job) replace
  rcases hbirth.turn.mem h with heq | ⟨-, hx⟩
  · cases heq
    exact .born now job replace poolLargest rfl (hbirth.fresh.jobName.trans (normalized_name job))
      hbirth.count hbirth.restartAt hbirth.state
  · rw [prepared_get?] at hx
    exact .kept e' (Option.filter_eq_some_iff.mp hx).1 (.refl e')

end

/-! ### A tick -/

/-- One restart that is due. -/
theorem fireDue_mem (hk : a.Keyed) {id : String} (h : (fireDue now a id).tasks.get? id' = some e') :
    (∃ e, a.tasks.get? id' = some e ∧ Kept e e') ∨
    ∃ e, a.tasks.get? id = some e ∧ Renewed e.task.restartCount e.task.lastFailedAt e e' := by
  rw [fireDue] at h
  rcases he : a.tasks.get? id with _ | e
  · rw [modifyTask_of_none he, restartFire, he] at h
    rw [ite_self] at h
    exact .inl ⟨e', h, .refl e'⟩
  rw [modifyTask_of_some he] at h
  have hfired := restartFire_mem (a := { a with
    tasks := a.tasks.insert id { e with restartAt := none } }) hk
    (SortedMap.get?_insert_self _ _ _) h
  rcases hfired with ⟨hne, hx⟩ | ⟨rfl, rfl | rfl⟩ | hnew
  · rcases SortedMap.of_get?_insert hx with ⟨-, hx⟩ | ⟨hid, -⟩
    · exact .inl ⟨e', hx, .refl e'⟩
    · exact absurd hid hne
  · exact .inl ⟨e, he, rfl, rfl, rfl, .inr rfl, fun h => ⟨h, rfl⟩⟩
  · exact .inl ⟨e, he, rfl, rfl, rfl, .inr rfl, fun h => by cases h⟩
  · exact .inr ⟨e, rfl, hnew.jobName, hnew.count, hnew.failedAt, hnew.state,
      hnew.restartAt⟩

/-- The restarts that are due, one after the other: none is of a record that another one made. -/
theorem foldl_fireDue_mem {ids : List String} (hk : a.Keyed) (hnodup : ids.Nodup)
    (hdrawn : ∀ id ∈ ids, ∃ i, 1 ≤ i ∧ i ≤ a.ids.draws ∧ id = Ids.idOf a.ids.seed i)
    (hd : (ids.foldl (fireDue now) a).ids.draws ≤ 2 ^ 64)
    (h : (ids.foldl (fireDue now) a).tasks.get? id' = some e') :
    (∃ e, a.tasks.get? id' = some e ∧ Kept e e') ∨ ∃ id ∈ ids, ∃ e, a.tasks.get? id = some e ∧
      Renewed e.task.restartCount e.task.lastFailedAt e e' := by
  induction ids generalizing a with
  | nil => exact .inl ⟨e', h, .refl e'⟩
  | cons id ids ih =>
    obtain ⟨hid, hnodup⟩ := List.nodup_cons.mp hnodup
    have hk' := (path_fireDue hk id now).keyed hk
    rw [List.foldl_cons] at hd h
    have hd' := (draws_le_foldl_fireDue hk' ids now).trans hd
    have hdrawn' := fun id' hid' => hdrawn id' (List.mem_cons_of_mem id hid')
    rcases ih hk' hnodup (fun id' hid' => drawn_fireDue hk id now (hdrawn' id' hid')) hd h with
      ⟨e₁, he₁, hkept⟩ | ⟨id₁, hid₁, e₁, he₁, hnew⟩
    · rcases fireDue_mem hk he₁ with ⟨e, he, hkept₁⟩ | ⟨e, he, hnew₁⟩
      · exact .inl ⟨e, he, hkept₁.trans hkept⟩
      · exact .inr ⟨id, List.mem_cons_self, e, he, hnew₁.of_kept hkept⟩
    · have hne : id₁ ≠ id := fun heq => hid (heq ▸ hid₁)
      have he := get?_of_fireDue hk hne (hdrawn' id₁ hid₁) hd' he₁
      exact .inr ⟨id₁, List.mem_cons_of_mem id hid₁, e₁, he, hnew⟩

theorem descends_tick (hk : a.Keyed) (hf : a.Filed) (hd : (a.tick now).2.ids.draws ≤ 2 ^ 64)
    (h : (a.tick now).2.tasks.get? id' = some e') : Descends a (.tick now) id' e' := by
  have hsame : ∀ b : Agent, (b.monitorDue now).tasks = b.tasks ∧ (b.monitorDue now).ids = b.ids := by
    intro b
    unfold monitorDue
    split_ifs
    · obtain ⟨out, hout⟩ := monitor_eq { b with
        nextMonitor := satAdd u64Max now b.settings.monitorEvery }
      rw [hout]
      exact ⟨rfl, rfl⟩
    · exact ⟨rfl, rfl⟩
  change (((a.dueIds now).foldl (fireDue now) a).monitorDue now).tasks.get? id' = some e' at h
  change (((a.dueIds now).foldl (fireDue now) a).monitorDue now).ids.draws ≤ 2 ^ 64 at hd
  rw [(hsame _).1] at h
  rw [(hsame _).2] at hd
  have hdrawn : ∀ id ∈ a.dueIds now,
      ∃ i, 1 ≤ i ∧ i ≤ a.ids.draws ∧ id = Ids.idOf a.ids.seed i := by
    intro id hid
    obtain ⟨e, he, -⟩ := mem_dueIds hid
    exact hf.drawn he
  rcases foldl_fireDue_mem hk (a.dueIds_nodup now) hdrawn hd h with
    ⟨e, he, hkept⟩ | ⟨id, hid, e, he, hnew⟩
  · exact .kept e he hkept
  · obtain ⟨p, hp, rfl⟩ := List.mem_map.mp hid
    obtain ⟨hmem, hat⟩ := List.mem_filter.mp hp
    rw [SortedMap.get?_eq_some_iff.mpr hmem] at he
    obtain rfl := Option.some.inj he
    obtain ⟨t, ht, hle⟩ := (Option.any_eq_true _ _).mp hat
    exact .due p.1 p.2 now t (SortedMap.get?_eq_some_iff.mpr hmem) rfl ht (of_decide_eq_true hle) hnew

/-- **Every record after an input descends from one before it, or is born.** -/
theorem descends (hk : a.Keyed) (hf : a.Filed) (i : Input) (hd : (a.feed i).ids.draws ≤ 2 ^ 64)
    (h : (a.feed i).tasks.get? id' = some e') : Descends a i id' e' := by
  have hsame : (∀ kind ∈ i.kinds, kind ∈ [Kind.note, .define, .halt]) →
      (a.feed i).tasks.get? id' = some e' → Descends a i id' e' := by
    intro hi hget
    rw [feed_tasks hk hi] at hget
    exact .kept e' hget (.refl e')
  -- what is left after records were taken away
  have hdropped : ∀ {T : Set String} {b b' : Agent}, b.tasks = a.tasks → Drops T b b' →
      b'.tasks.get? id' = some e' → Descends a i id' e' := by
    intro T b b' htasks hdrops hget
    by_cases hid : id' ∈ T
    · rw [hdrops.gone hid] at hget
      cases hget
    · rw [hdrops.kept hid, htasks] at hget
      exact .kept e' hget (.refl e')
  cases i with
  | run now job replace poolLargest => exact descends_run hk h
  | onProgress id downloaded total => exact descends_onProgress h
  | onStarted now id driver result => exact descends_onStarted hk h
  | onStatus now id status => exact descends_onStatus hk h
  | onProbe now id outcome => exact descends_onProbe hk (.inr ⟨outcome, rfl⟩) h
  | recordUsage id cores core =>
    refine descends_modifyTask (fun e => ?_) h
    exact ⟨rfl, rfl, rfl, .inl rfl, fun h => ⟨h, rfl⟩⟩
  | tick now => exact descends_tick hk hf hd h
  | stopTask id => exact hdropped rfl (removeAndStop_drops a id) h
  | stopJobTasks name => exact hdropped rfl (stopEach_drops _ a) h
  | deleteJob now name =>
    have hdrops := stopEach_drops (a.idsOfJob name) { a with
      jobs := a.jobs.erase name, refused := a.refused.filter (· ≠ name), stateTime := now }
    exact hdropped (b := { a with
      jobs := a.jobs.erase name, refused := a.refused.filter (· ≠ name), stateTime := now }) rfl hdrops h
  | stopAll => exact hdropped rfl (stopEach_drops _ a) h
  | shutdown =>
    exact hdropped (b := { a with shuttingDown := true }) rfl (stopEach_drops _ _) h
  | _ => exact hsame (by simp [Input.kinds]) h

end Agent

/-! ### What an agent was told -/

/-- An agent with the inputs of its run. -/
structure Told where
  agent : Agent
  inputs : List Input

/-- The runs of an agent that was created by `new`, with what it was told. -/
def history : Machine Told Input where
  Init s := ∃ settings, s = ⟨.new settings, []⟩
  step s i := some ⟨s.agent.feed i, s.inputs ++ [i]⟩

/-- The definition of the job has this budget. -/
def HasBudget (name : String) (n : ℤ) (w : Nanos) (s : Told) : Prop :=
  ∀ job, s.agent.jobs.get? name = some job → maxOf job = n ∧ windowOf job = w

/-- The task had really started, more than `w` ago, and is told to have crashed. -/
structure Earned (s : Told) (i : Input) (id : String) (e : Entry) (w : Nanos) : Prop where
  running : e.task.state = .running
  started : ∃ driver ok, .onStarted e.task.startedAt id driver (.ok ok) ∈ s.inputs
  crashed : ∃ now, w < now - e.task.startedAt ∧
    ((∃ status, i = .onStatus now id status) ∨ ∃ outcome, i = .onProbe now id outcome)

/-- A moment `t` that is due after the failure at `failedAt`: half a second to thirty seconds later,
or at the end of the clock. -/
def DueAfter (failedAt t : Nanos) : Prop :=
  ∃ delay, second / 2 ≤ delay ∧ delay ≤ maxRestartDelay ∧ t = min (failedAt + delay) u64Max

/-- The agent was told at this time that the task failed. -/
def FailedAt (inputs : List Input) (id : String) (t : Nanos) : Prop :=
  ∃ i ∈ inputs, (∃ driver, i = .onStarted t id driver (.error .failed)) ∨
    (∃ status, i = .onStatus t id status) ∨ ∃ outcome, i = .onProbe t id outcome

/-- The agent was told that the task came up after it had been told that it failed. -/
def Revived (inputs : List Input) (id : String) : Prop :=
  ∃ before now driver ok after, inputs = before ++ .onStarted now id driver (.ok ok) :: after ∧
    ∃ t, FailedAt before id t

theorem Revived.told {inputs : List Input} {id : String} (h : Revived inputs id) (i : Input) :
    Revived (inputs ++ [i]) id := by
  obtain ⟨before, now, driver, ok, after, rfl, hfailed⟩ := h
  exact ⟨before, now, driver, ok, after ++ [i], by simp, hfailed⟩

/-- Half of a base, and a jitter of up to the other half. -/
theorem jitter_bounds {low base high limit r : ℕ} (hlow : low ≤ base) (hhigh : base ≤ high)
    (hroom : high + 1 < limit) (hone : 1 ≤ low / 2) (hr : r < base / 2 + 1) :
    low / 2 ≤ max 1 (min (satAdd limit (base / 2) r) high) ∧
      max 1 (min (satAdd limit (base / 2) r) high) ≤ high := by
  rw [satAdd]
  omega

/-- The wait before a restart is never zero, and never longer than the maximum. -/
theorem restartDelay_bounds {count : ℤ} (hcount : 0 < count) (rand : BitVec 64) :
    second / 2 ≤ restartDelay count rand ∧ restartDelay count rand ≤ maxRestartDelay := by
  have hbase : second ≤ (if count ≤ 5 then second * 2 ^ (count - 1).toNat else maxRestartDelay) ∧
      (if count ≤ 5 then second * 2 ^ (count - 1).toNat else maxRestartDelay) ≤ maxRestartDelay := by
    by_cases hle : count ≤ 5
    · rw [if_pos hle]
      have hshift : ∀ k ≤ 4, second ≤ second * 2 ^ k ∧ second * 2 ^ k ≤ maxRestartDelay := by decide
      exact hshift _ (by omega)
    · rw [if_neg hle]
      decide
  rw [restartDelay, if_neg (not_le.mpr hcount)]
  generalize (if count ≤ 5 then second * 2 ^ (count - 1).toNat else maxRestartDelay) = base at hbase
  obtain ⟨hlow, hhigh⟩ := hbase
  have hroom : maxRestartDelay + 1 < u64Max := by decide
  have hmodulus : satAdd u64Max (base / 2) 1 = base / 2 + 1 :=
    min_eq_left ((Nat.succ_le_succ ((Nat.div_le_self _ _).trans hhigh)).trans hroom.le)
  dsimp only
  rw [hmodulus]
  exact jitter_bounds hlow hhigh hroom (by decide) (Nat.mod_lt _ (Nat.succ_pos _))

/-- What is known of the record of a task whose job has the budget `n`. -/
structure Budgeted (n : ℤ) (inputs : List Input) (id : String) (e : Entry) : Prop where
  nonneg : 0 ≤ e.task.restartCount
  le : e.task.restartCount ≤ n
  waits : ∀ t, e.restartAt = some t → e.task.restartCount < n ∧
    (0 < e.task.restartCount → DueAfter e.task.lastFailedAt t ∧ FailedAt inputs id e.task.lastFailedAt)
  started : e.task.state = .running →
    ∃ driver ok, .onStarted e.task.startedAt id driver (.ok ok) ∈ inputs
  /-- A due time that stands beside a count of zero, or of a task that runs, is one that was left when
  the task came up after its failure. -/
  left : ∀ t, e.restartAt = some t →
    0 < e.task.restartCount ∧ e.task.state ≠ .running ∨ Revived inputs id

/-- **Every record of the job keeps to the budget.** -/
def Keeping (name : String) (n : ℤ) (s : Told) : Prop :=
  ∀ id e, s.agent.tasks.get? id = some e → e.task.jobName = name → Budgeted n s.inputs id e

namespace Budgeted

variable {n : ℤ} {w : Nanos} {s : Told} {i : Input} {id id' : String} {e e' : Entry}

theorem told (h : ∃ driver ok, Input.onStarted e.task.startedAt id driver (.ok ok) ∈ s.inputs) :
    ∃ driver ok, .onStarted e.task.startedAt id driver (.ok ok) ∈ s.inputs ++ [i] := by
  obtain ⟨driver, ok, hmem⟩ := h
  exact ⟨driver, ok, List.mem_append_left _ hmem⟩

/-- What a record waits for is still known after another input. -/
theorem waits_of (h : Budgeted n s.inputs id e) (hcount : e'.task.restartCount = e.task.restartCount)
    (hfailed : e'.task.lastFailedAt = e.task.lastFailedAt) {t : Nanos} (ht : e.restartAt = some t) :
    e'.task.restartCount < n ∧ (0 < e'.task.restartCount →
      DueAfter e'.task.lastFailedAt t ∧ FailedAt (s.inputs ++ [i]) id e'.task.lastFailedAt) := by
  obtain ⟨hlt, hdue⟩ := h.waits t ht
  rw [hcount, hfailed]
  refine ⟨hlt, fun hpos => ⟨(hdue hpos).1, ?_⟩⟩
  obtain ⟨j, hj, hfail⟩ := (hdue hpos).2
  exact ⟨j, List.mem_append_left _ hj, hfail⟩

theorem kept (h : Budgeted n s.inputs id e) (hkept : Kept e e') :
    Budgeted n (s.inputs ++ [i]) id e' := by
  refine ⟨hkept.count ▸ h.nonneg, hkept.count ▸ h.le, fun t ht => ?_, fun hrun => ?_, fun t ht => ?_⟩
  · rcases hkept.restartAt with hat | hat
    · exact h.waits_of hkept.count hkept.failedAt (hat ▸ ht)
    · rw [hat] at ht
      cases ht
  · obtain ⟨hrun, hstarted⟩ := hkept.running hrun
    rw [hstarted]
    exact told (h.started hrun)
  · rcases hkept.restartAt with hat | hat
    · rw [hkept.count]
      refine (h.left t (hat ▸ ht)).imp (fun ⟨hpos, hrun⟩ => ⟨hpos, fun hrun' => ?_⟩) (·.told i)
      exact hrun (hkept.running hrun').1
    · rw [hat] at ht
      cases ht

theorem up (h : Budgeted n s.inputs id e) {driver : Driver} {ok : StartOk}
    (hi : i = .onStarted now id driver (.ok ok)) (hup : Up now e e') :
    Budgeted n (s.inputs ++ [i]) id e' := by
  refine ⟨hup.count ▸ h.nonneg, hup.count ▸ h.le, fun t ht => ?_, fun hrun => ?_, fun t ht => ?_⟩
  · exact h.waits_of hup.count hup.failedAt (hup.restartAt ▸ ht)
  · rw [hup.startedAt]
    exact ⟨driver, ok, List.mem_append_right _ (hi ▸ List.mem_singleton_self _)⟩
  · have hat : e.restartAt = some t := hup.restartAt ▸ ht
    rcases h.left t hat with ⟨hpos, -⟩ | hleft
    · -- the failure that it waits for comes before this input
      exact .inr ⟨s.inputs, now, driver, ok, [], by rw [hi], _, ((h.waits t hat).2 hpos).2⟩
    · exact .inr (hleft.told i)

/-- A failure is judged by the count, or by nothing if the task had earned it. -/
theorem judged (h : Budgeted n s.inputs id e) {job : Job} (hwindow : windowOf job = w) {ran : Bool}
    (hi : Fails i now id e ran) : judged job now ran e = e.task.restartCount ∨
      judged job now ran e = 0 ∧ Earned s i id e w := by
  rcases judged_cases job now ran e with hsame | ⟨hzero, hran, hlong⟩
  · exact .inl hsame
  · rcases hi with ⟨hran', -⟩ | ⟨-, hrunning, hcrash⟩
    · rw [hran] at hran'
      cases hran'
    · exact .inr ⟨hzero, hrunning, h.started hrunning, now, hwindow ▸ hlong, hcrash⟩

end Budgeted

/-- **How the count of a record comes about** after an input, for a job with the window `w`. -/
inductive Counted (name : String) (w : Nanos) (s : Told) (i : Input) (id' : String) (e' : Entry) : Prop
  | born (now : Nanos) (job : Job) (replace : Bool) (poolLargest : Option ℕ)
      (hi : i = .run now job replace poolLargest) (hname : job.name = name)
      (hcount : e'.task.restartCount = 0)
  | same (e : Entry) (he : s.agent.tasks.get? id' = some e) (hname : e.task.jobName = name)
      (hcount : e'.task.restartCount = e.task.restartCount)
  /-- The count is lowered. -/
  | lowered (e : Entry) (he : s.agent.tasks.get? id' = some e) (hname : e.task.jobName = name)
      (hcount : e'.task.restartCount = 0) (hearned : Earned s i id' e w)
  /-- The first restart, or the first one after the count was lowered: at once. -/
  | first (id : String) (e : Entry) (he : s.agent.tasks.get? id = some e)
      (hname : e.task.jobName = name) (hcount : e'.task.restartCount = 1) (now : Nanos) (ran : Bool)
      (hi : Fails i now id e ran) (hfirst : e.task.restartCount = 0 ∨ Earned s i id e w)
  /-- A restart that is due: of a count above zero, unless the due time was left when the task came up
  after its failure. -/
  | waited (id : String) (e : Entry) (now t : Nanos) (he : s.agent.tasks.get? id = some e)
      (hname : e.task.jobName = name) (hi : i = .tick now) (hat : e.restartAt = some t) (hle : t ≤ now)
      (hcount : e'.task.restartCount = e.task.restartCount + 1)
      (hpos : 0 < e.task.restartCount ∨ Revived s.inputs id)
      (hdue : 0 < e.task.restartCount →
        DueAfter e.task.lastFailedAt t ∧ FailedAt s.inputs id e.task.lastFailedAt)

section

variable {name : String} {n : ℤ} {w : Nanos} {s : Told} {i : Input} {id' : String} {e' : Entry}

theorem Allows.lt {job : Job} {count : ℤ} (h : Allows job count) (hn : 0 ≤ maxOf job) :
    count < maxOf job := not_le.mp fun hle => h ⟨hn, hle⟩

theorem satI64_succ {c n : ℤ} (hc : 0 ≤ c) (hlt : c < n) (hn : n ≤ i64Max) : satI64 (c + 1) = c + 1 := by
  have hmin : i64Min ≤ 0 := by decide
  rw [satI64_eq_clamp, Pool.clamp_of_mem (hmin.trans (by omega)) (by omega)]

/-- A record that descends from one that keeps to the budget keeps to it, and its count comes about
in one of the ways. -/
theorem Descends.budgeted (hn : 0 ≤ n) (hmax : n ≤ i64Max) (hs : Keeping name n s)
    (hbudget : HasBudget name n w s) (h : Descends s.agent i id' e') (hname : e'.task.jobName = name) :
    Budgeted n (s.inputs ++ [i]) id' e' ∧ Counted name w s i id' e' := by
  cases h with
  | kept e he hkept =>
    have hof := hkept.jobName.symm.trans hname
    exact ⟨(hs id' e he hof).kept hkept, .same e he hof hkept.count⟩
  | up e now driver ok he hi hup =>
    have hof := hup.jobName.symm.trans hname
    exact ⟨(hs id' e he hof).up hi hup, .same e he hof hup.count⟩
  | born now job replace poolLargest hi hof hcount hat hstate =>
    have hnot : ∀ t, e'.restartAt ≠ some t := fun t ht => by
      rw [hat] at ht
      cases ht
    exact ⟨⟨hcount.ge, hcount.le.trans hn, fun t ht => absurd ht (hnot t),
      fun hrun => absurd hrun hstate, fun t ht => absurd ht (hnot t)⟩,
      .born now job replace poolLargest hi (hof.symm.trans hname) hcount⟩
  | down e job now ran he hjob hi hdown =>
    have hof := hdown.jobName.symm.trans hname
    have hbefore := hs id' e he hof
    obtain ⟨hmaxOf, hwindow⟩ := hbudget job (hof ▸ hjob)
    have hjudged := hbefore.judged hwindow hi
    have hcount := hdown.count
    refine ⟨⟨?_, ?_, fun t ht => ?_, fun hrun => absurd hrun hdown.state, fun t ht => ?_⟩, ?_⟩
    · rcases hjudged with hsame | ⟨hzero, -⟩
      · exact (hcount.trans hsame) ▸ hbefore.nonneg
      · exact (hcount.trans hzero).ge
    · rcases hjudged with hsame | ⟨hzero, -⟩
      · exact (hcount.trans hsame) ▸ hbefore.le
      · exact (hcount.trans hzero).le.trans hn
    · obtain ⟨hallows, hat⟩ := hdown.restartAt t ht
      rw [hcount, hdown.failedAt]
      refine ⟨hmaxOf ▸ hallows.lt (hmaxOf ▸ hn), fun hpos => ⟨?_, i, ?_, ?_⟩⟩
      · rw [if_pos hpos] at hat
        obtain ⟨rand, rfl⟩ := hat
        obtain ⟨hlow, hhigh⟩ := restartDelay_bounds hpos rand
        exact ⟨_, hlow, hhigh, rfl⟩
      · exact List.mem_append_right _ (List.mem_singleton_self i)
      · rcases hi with ⟨-, hstart⟩ | ⟨-, -, hcrash⟩
        · exact .inl hstart
        · exact .inr hcrash
    · obtain ⟨-, hat⟩ := hdown.restartAt t ht
      rw [hcount]
      by_cases hpos : 0 < Node.judged job now ran e
      · exact .inl ⟨hpos, hdown.state⟩
      · rw [if_neg hpos] at hat
        refine .inr ?_
        rcases hbefore.left t hat with ⟨hpos', hrun⟩ | hleft
        · rcases hjudged with hsame | ⟨-, hrunning, -⟩
          · exact absurd (hsame ▸ hpos') hpos
          · exact absurd hrunning hrun
        · exact hleft.told i
    · rcases hjudged with hsame | ⟨hzero, hearned⟩
      · exact .same e he hof (hcount.trans hsame)
      · exact .lowered e he hof (hcount.trans hzero) hearned
  | again id e job now ran he hjob hi hle hallows hnew =>
    have hof := hnew.jobName.symm.trans hname
    have hbefore := hs id e he hof
    obtain ⟨hmaxOf, hwindow⟩ := hbudget job (hof ▸ hjob)
    have hjudged := hbefore.judged hwindow hi
    have hzero : judged job now ran e = 0 := by
      rcases hjudged with hsame | ⟨hzero, -⟩
      · exact le_antisymm hle (hsame ▸ hbefore.nonneg)
      · exact hzero
    have hlt : 0 < n := hmaxOf ▸ hzero ▸ hallows.lt (hmaxOf ▸ hn)
    have hcount : e'.task.restartCount = 1 := by
      rw [hnew.count, hzero, satI64_succ le_rfl hlt hmax, zero_add]
    have hnot : ∀ t, e'.restartAt ≠ some t := fun t ht => by
      rw [hnew.restartAt] at ht
      cases ht
    refine ⟨⟨?_, ?_, fun t ht => absurd ht (hnot t), fun hrun => absurd hrun hnew.state,
      fun t ht => absurd ht (hnot t)⟩, .first id e he hof hcount now ran hi ?_⟩
    · rw [hcount]
      decide
    · rw [hcount]
      exact hlt
    · exact hjudged.imp (fun hsame => hsame.symm.trans hzero) And.right
  | due id e now t he hi hat hle hnew =>
    have hof := hnew.jobName.symm.trans hname
    have hbefore := hs id e he hof
    obtain ⟨hlt, hdue⟩ := hbefore.waits t hat
    have hcount : e'.task.restartCount = e.task.restartCount + 1 := by
      rw [hnew.count, satI64_succ hbefore.nonneg hlt hmax]
    have hnot : ∀ t, e'.restartAt ≠ some t := fun t ht => by
      rw [hnew.restartAt] at ht
      cases ht
    refine ⟨⟨?_, ?_, fun t ht => absurd ht (hnot t), fun hrun => absurd hrun hnew.state,
      fun t ht => absurd ht (hnot t)⟩,
      .waited id e now t he hof hi hat hle hcount ((hbefore.left t hat).imp_left And.left) hdue⟩
    · rw [hcount]
      exact (hbefore.nonneg.trans_lt (Int.lt_succ _)).le
    · rw [hcount]
      exact hlt

end

theorem feed_draws_le (hk : a.Keyed) (i : Input) : a.ids.draws ≤ (a.feed i).ids.draws := by
  obtain ⟨b, hb⟩ := path_feed False hk i fun h => h.elim
  rw [hb.ids]
  exact hb.path.draws_le

theorem history_draws_le {is : List Input} {s₀ s : Told} (hk : s₀.agent.Keyed)
    (hrun : history.run s₀ is = some s) : s₀.agent.ids.draws ≤ s.agent.ids.draws := by
  induction is generalizing s₀ with
  | nil =>
    obtain rfl : s₀ = s := Option.some.inj hrun
    exact le_rfl
  | cons i is ih => exact (feed_draws_le hk i).trans (ih (feed_keyed hk i) hrun)

/-- What keeps to the budget at first keeps to it along the run. -/
theorem Keeping.run {name : String} {n : ℤ} {w : Nanos} (hn : 0 ≤ n) (hmax : n ≤ i64Max)
    {is : List Input} {s₀ s : Told} (hs : Keeping name n s₀) (hk : s₀.agent.Keyed)
    (hf : s₀.agent.Filed) (hrun : history.run s₀ is = some s)
    (hbudget : history.Always (HasBudget name n w) s₀ is) (hd : s.agent.ids.draws ≤ 2 ^ 64) :
    s.agent.Keyed ∧ s.agent.Filed ∧ Keeping name n s := by
  induction is generalizing s₀ with
  | nil =>
    obtain rfl : s₀ = s := Option.some.inj hrun
    exact ⟨hk, hf, hs⟩
  | cons i is ih =>
    have hk' := feed_keyed hk i
    have hrest : history.run ⟨s₀.agent.feed i, s₀.inputs ++ [i]⟩ is = some s := hrun
    have hdraws : (s₀.agent.feed i).ids.draws ≤ 2 ^ 64 := (history_draws_le hk' hrest).trans hd
    have hnext : Keeping name n ⟨s₀.agent.feed i, s₀.inputs ++ [i]⟩ := fun id e he hname =>
      ((Agent.descends hk hf i hdraws he).budgeted hn hmax hs hbudget.1 hname).1
    exact ih hnext hk' (feed_filed hk hf i) hrest (hbudget.2 _ rfl)

/-- A job with three restarts, and a window of ten seconds. -/
def threeTimes : Job :=
  { name := "web", command := "web", maxRestarts := some 3, restartWindow := 10 * second }

/-- A node without tasks, before it was told anything. -/
def idleNode : Told := ⟨.new { id := "node" }, []⟩

/-- The job is taken on, comes up, crashes and is replaced at once; its replacement comes up. The node
draws an id for each task, and a number for each failure. -/
def crashedOnce (crash : Nanos) : List Input :=
  [.run 1 threeTimes false none, .onStarted 1 (Ids.idOf 0 1) .exec (.ok {}),
    .onStatus crash (Ids.idOf 0 1) .failed, .onStarted crash (Ids.idOf 0 3) .exec (.ok {})]

theorem hasBudget_of_all {name : String} {n : ℤ} {w : Nanos} {s : Told}
    (h : (s.agent.jobs.get? name).all (fun job => decide (maxOf job = n ∧ windowOf job = w)) = true) :
    HasBudget name n w s := by
  intro job hjob
  rw [hjob, Option.all_some, decide_eq_true_eq] at h
  exact h

/-- Whether the definition of the job has this budget all along. -/
def budgetAlong (name : String) (n : ℤ) (w : Nanos) : Told → List Input → Bool
  | s, [] => (s.agent.jobs.get? name).all fun job => decide (maxOf job = n ∧ windowOf job = w)
  | s, i :: is => (s.agent.jobs.get? name).all (fun job => decide (maxOf job = n ∧ windowOf job = w)) &&
    budgetAlong name n w ⟨s.agent.feed i, s.inputs ++ [i]⟩ is

theorem always_of_budgetAlong {name : String} {n : ℤ} {w : Nanos} {s : Told} {is : List Input}
    (h : budgetAlong name n w s is = true) : history.Always (HasBudget name n w) s is := by
  induction is generalizing s with
  | nil => exact hasBudget_of_all h
  | cons i is ih =>
    rw [budgetAlong, Bool.and_eq_true] at h
    refine ⟨hasBudget_of_all h.1, ?_⟩
    rintro _ ⟨⟩
    exact ih h.2

/-- The restart of a task that is a replacement itself waits for half a second: the record that takes
its place says when the task failed, and when the restart was fired. -/
def WaitsHalf (s : Told) (i : Input) : Prop :=
  ∀ p ∈ s.agent.tasks.entries, ∀ q ∈ (s.agent.feed i).tasks.entries,
    p.2.task.jobName = "web" → q.2.task.jobName = "web" → p.2.firstStart = false →
    (s.agent.feed i).tasks.get? p.1 = none → s.agent.tasks.get? q.1 = none →
    q.2.task.lastFailedAt + second / 2 ≤ q.2.task.startedAt

instance (s : Told) (i : Input) : Decidable (WaitsHalf s i) :=
  inferInstanceAs (Decidable (∀ p ∈ s.agent.tasks.entries, ∀ q ∈ (s.agent.feed i).tasks.entries,
    p.2.task.jobName = "web" → q.2.task.jobName = "web" → p.2.firstStart = false →
    (s.agent.feed i).tasks.get? p.1 = none → s.agent.tasks.get? q.1 = none →
    q.2.task.lastFailedAt + second / 2 ≤ q.2.task.startedAt))

end Hop.Node
