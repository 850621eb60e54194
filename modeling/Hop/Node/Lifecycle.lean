import Hop.Node.Paths

/-!
# The life of a task

What the fields of a task record say of each other, in the runs in which no start is answered
twice: a record is starting exactly while it is queued or downloading, it waits for a restart only
after it went down, and nothing brings it back. No process is lost on the way: a start that worked
is the pid of a record that runs, or its stop has been asked for since. All of it rests on ids that
are drawn once, that is on the first `2 ^ 64` draws of an agent.
-/

namespace Hop.Node

open Hop.Types (Driver Job Map Task TaskState)

variable {e : Entry} {Q : Prop}

/-- On the way up: queued or downloading. -/
def Pending (st : TaskState) : Prop := st = .queued ∨ st = .downloading

/-- The fields of a record agree with its state. -/
structure Orderly (e : Entry) : Prop where
  starting : e.starting = true ↔ Pending e.task.state
  waits : e.restartAt.isSome = true → e.task.state = .failed ∨ e.task.state = .stopping

/-- A record as it is before the answer to its start. -/
def Fresh (e : Entry) : Prop := Pending e.task.state ∨ e.task.state = .failed ∧ e.restartAt = none

theorem Fresh.restartAt (h : Fresh e) (ho : Orderly e) : e.restartAt.isSome = false := by
  rw [← Bool.not_eq_true]
  intro hat
  rcases h with h | ⟨-, hnone⟩
  · have hdown := ho.waits hat
    rcases h with h | h <;> rw [h] at hdown <;> rcases hdown with hdown | hdown <;> cases hdown
  · rw [hnone] at hat
    cases hat

theorem Fresh.not_running (h : Fresh e) : e.task.state ≠ .running := by
  intro hrun
  rcases h with (h | h) | ⟨h, -⟩ <;> rw [hrun] at h <;> cases h

theorem Orderly.not_running (h : Orderly e) (hat : e.restartAt.isSome = true) :
    e.task.state ≠ .running := by
  intro hrun
  rcases h.waits hat with h | h <;> rw [hrun] at h <;> cases h

/-- The turns that only an answer to a start makes. -/
def Kind.Answers (kind : Kind) : Prop := kind ∈ [Kind.up, .down, .handBack, .ghost, .dead]

instance : DecidablePred Kind.Answers := fun kind =>
  inferInstanceAs (Decidable (kind ∈ [Kind.up, .down, .handBack, .ghost, .dead]))

/-! ### One turn -/

section

variable {a a' : Agent} {id newId : String} {kind : Kind} {pre : Option Entry} {e' : Entry}
  {acts : List Action}

theorem newborn_orderly {job : Job} {id : String} {task : Task} (hnew : Newborn job id task)
    (firstStart : Bool) : Orderly { task := task, firstStart := firstStart, starting := true } :=
  ⟨⟨fun _ => .inl hnew.state, fun _ => rfl⟩, fun h => by cases h⟩

/-- A turn keeps a record orderly. -/
theorem Turn.orderly (h : Turn True a a' id kind pre (some (newId, e')) acts)
    (hpre : ∀ e, pre = some e → Orderly e)
    (hanswer : kind.Answers → ∀ e, pre = some e → Fresh e) : Orderly e' := by
  cases h with
  | check e check acts hacts =>
    have ho := hpre e rfl
    exact ⟨ho.starting, ho.waits⟩
  | measure e cores core =>
    have ho := hpre e rfl
    exact ⟨ho.starting, ho.waits⟩
  | progress e downloaded total hstate =>
    have ho := hpre e rfl
    refine ⟨⟨fun _ => .inr rfl, fun _ => ho.starting.mpr hstate⟩, fun hat => ?_⟩
    rcases ho.waits hat with h | h <;> rw [h] at hstate <;> rcases hstate with h | h <;> cases h
  | up e now ok acts hstate hacts =>
    refine ⟨⟨fun h => absurd h Bool.false_ne_true, fun h => ?_⟩, fun hat => ?_⟩
    · rcases h with h | h <;> cases h
    · have hnone := (hanswer (by decide) e rfl).restartAt (hpre e rfl)
      exact absurd hat (by rw [hnone]; decide)
  | down kind e st count failedAt nextAt check restartAt starting acts hkind hst hstop hstart =>
    have hdown : st = .failed ∨ st = .stopping := hst.imp_right And.left
    have hstarting : starting = false := by
      rcases hkind with ⟨-, h⟩ | ⟨-, h, hrun⟩
      · exact h
      · rw [h, ← Bool.not_eq_true, (hpre e rfl).starting, hrun]
        rintro (h | h) <;> cases h
    refine ⟨⟨fun h => ?_, fun h => ?_⟩, fun _ => hdown⟩
    · rw [hstarting] at h
      cases h
    · rcases hdown with rfl | rfl <;> rcases h with h | h <;> cases h
  | due e st hat hst =>
    have ho := hpre e rfl
    have hdown := ho.waits (hat trivial)
    have hst' : st = .failed ∨ st = .stopping := by
      rcases hst with h | ⟨h, -⟩
      · exact .inl h
      · rwa [h]
    have hnot : ∀ st : TaskState, st = .failed ∨ st = .stopping → ¬ Pending st := by
      rintro st (rfl | rfl) (h | h) <;> cases h
    refine ⟨⟨fun h => ?_, fun h => absurd h (hnot st hst')⟩, fun h => by cases h⟩
    exact absurd (ho.starting.mp h) (hnot _ hdown)
  | again e job k newId task acts hjob hid hnew hstart hstop => exact newborn_orderly hnew false
  | born pre job job' k task hid hnew => exact newborn_orderly hnew true
  | stillborn pre job k task e acts hid hnew hstart hstarting hat htask =>
    obtain ⟨count, failedAt, nextAt, htask⟩ := htask
    refine ⟨⟨fun h => ?_, fun h => ?_⟩, fun h => ?_⟩
    · rw [hstarting] at h
      cases h
    · rw [htask] at h
      rcases h with h | h <;> cases h
    · rw [hat] at h
      cases h

/-- Only an answer takes a record from before its answer. -/
theorem Turn.fresh (h : Turn True a a' id kind pre (some (newId, e')) acts)
    (hpre : newId = id → ¬ kind.Answers ∧ ∀ e, pre = some e → Orderly e ∧ Fresh e) : Fresh e' := by
  cases h with
  | check e check acts hacts => exact ((hpre rfl).2 e rfl).2
  | measure e cores core => exact ((hpre rfl).2 e rfl).2
  | progress e downloaded total hstate => exact .inl (.inr rfl)
  | up e now ok acts hstate hacts => exact absurd (by decide) (hpre rfl).1
  | down kind e st count failedAt nextAt check restartAt starting acts hkind hst hstop hstart =>
    rcases hkind with ⟨rfl, -⟩ | ⟨-, -, hrun⟩
    · exact absurd (by decide) (hpre rfl).1
    · exact absurd hrun ((hpre rfl).2 e rfl).2.not_running
  | due e st hat hst =>
    obtain ⟨ho, hfresh⟩ := (hpre rfl).2 e rfl
    exact absurd (hat trivial) (by rw [hfresh.restartAt ho]; decide)
  | again e job k newId task acts hjob hid hnew hstart hstop => exact .inl (.inl hnew.state)
  | born pre job job' k task hid hnew => exact .inl (.inl hnew.state)
  | stillborn pre job k task e acts hid hnew hstart hstarting hat htask =>
    obtain ⟨count, failedAt, nextAt, htask⟩ := htask
    exact .inr ⟨by rw [htask], hat⟩

/-- A record that is stopping waits for its restart. -/
theorem Turn.restarts (h : Turn True a a' id kind pre (some (newId, e')) acts)
    (hdown : a.shuttingDown = false)
    (hpre : ∀ e, pre = some e → e.task.state = .stopping → e.restartAt.isSome = true)
    (hstate : e'.task.state = .stopping) : e'.restartAt.isSome = true := by
  cases h with
  | check e check acts hacts => exact hpre e rfl hstate
  | measure e cores core => exact hpre e rfl hstate
  | progress e downloaded total h => cases hstate
  | up e now ok acts h hacts => cases hstate
  | down kind e st count failedAt nextAt check restartAt starting acts hkind hst hstop hstart =>
    obtain rfl : st = .stopping := hstate
    rcases hst with h | ⟨-, h | h⟩
    · cases h
    · exact h
    · rw [hdown] at h
      cases h
  | due e st hat hst =>
    obtain rfl : st = .stopping := hstate
    rcases hst with h | ⟨-, h⟩
    · cases h
    · rw [hdown] at h
      cases h
  | again e job k newId task acts hjob hid hnew hstart hstop =>
    rw [hnew.state] at hstate
    cases hstate
  | born pre job job' k task hid hnew =>
    rw [hnew.state] at hstate
    cases hstate
  | stillborn pre job k task e acts hid hnew hstart hstarting hat htask =>
    obtain ⟨count, failedAt, nextAt, htask⟩ := htask
    rw [htask] at hstate
    cases hstate

/-- A process that runs goes on, or is stopped. -/
theorem Turn.running {post : Option (String × Entry)}
    (h : Turn True a a' id kind (some e) post acts) (ho : Orderly e)
    (hanswer : kind.Answers → Fresh e) (hrun : e.task.state = .running) :
    (∃ e', post = some (id, e') ∧ e'.task.state = .running ∧ e'.task.pid = e.task.pid) ∨
      Stops e.task acts ∨ ∃ k, Drawn a a' k id := by
  have hnot : kind.Answers → False := fun hkind => (hanswer hkind).not_running hrun
  have hwaits : ¬ e.restartAt.isSome = true := fun hat => ho.not_running hat hrun
  cases h with
  | check e check acts hacts => exact .inl ⟨_, rfl, hrun, rfl⟩
  | measure e cores core => exact .inl ⟨_, rfl, hrun, rfl⟩
  | progress e downloaded total hstate => rcases hstate with h | h <;> rw [hrun] at h <;> cases h
  | up e now ok acts hstate hacts => exact (hnot (by decide)).elim
  | down kind e st count failedAt nextAt check restartAt starting acts hkind hst hstop hstart =>
    exact .inr (.inl hstop)
  | due e st hat hst => exact absurd (hat trivial) hwaits
  | again e job k newId task acts hjob hid hnew hstart hstop =>
    exact .inr (.inl (hstop.resolve_right fun hat => hwaits (hat trivial)))
  | lost e acts hjob hstart hstop =>
    exact .inr (.inl (hstop.resolve_right fun hat => hwaits (hat trivial)))
  | stop e => exact .inr (.inl ⟨driverOf e.task, List.mem_singleton_self _⟩)
  | handBack e => exact (hnot (by decide)).elim
  | dead e driver pid hdead => exact (hnot (by decide)).elim
  | born pre job job' k task hid hnew => exact .inr (.inr ⟨k, hid⟩)
  | stillborn pre job k task e acts hid hnew hstart hstarting hat htask =>
    exact .inr (.inr ⟨k, hid⟩)

/-- A task that left its start behind does not go back to it; only a new id is on its way up. -/
theorem Turn.onward (h : Turn Q a a' id kind pre (some (newId, e')) acts)
    (hpre : newId = id → ∀ e, pre = some e → ¬ Pending e.task.state) :
    ¬ Pending e'.task.state ∨ ∃ k, Drawn a a' k newId := by
  cases h with
  | check e check acts hacts => exact .inl (hpre rfl e rfl)
  | measure e cores core => exact .inl (hpre rfl e rfl)
  | progress e downloaded total hstate => exact absurd hstate (hpre rfl e rfl)
  | up e now ok acts hstate hacts => exact .inl (by rintro (h | h) <;> cases h)
  | down kind e st count failedAt nextAt check restartAt starting acts hkind hst hstop hstart =>
    refine .inl ?_
    rcases hst with rfl | ⟨rfl, -⟩ <;> rintro (h | h) <;> cases h
  | due e st hat hst =>
    refine .inl ?_
    rcases hst with rfl | ⟨rfl, -⟩
    · rintro (h | h) <;> cases h
    · exact hpre rfl e rfl
  | again e job k newId task acts hjob hid hnew hstart hstop => exact .inr ⟨k, hid⟩
  | born pre job job' k task hid hnew => exact .inr ⟨k, hid⟩
  | stillborn pre job k task e acts hid hnew hstart hstarting hat htask => exact .inr ⟨k, hid⟩

/-- A birth is the start of a task that waits for it. -/
theorem Turn.of_born (h : Turn Q a a' id .born pre (some (newId, e')) acts) :
    e'.task.state = .queued ∧ startIds acts = [id] := by
  cases h with
  | born pre job job' k task hid hnew => exact ⟨hnew.state, rfl⟩
  | down kind e st count failedAt nextAt check restartAt starting acts hkind =>
    rcases hkind with ⟨h, -⟩ | ⟨h, -⟩ <;> cases h

/-- A turn starts no task, or the one whose id it drew. -/
theorem Turn.starts {post : Option (String × Entry)} (h : Turn Q a a' id kind pre post acts) :
    startIds acts = [] ∨ ∃ k newId, Drawn a a' k newId ∧ startIds acts = [newId] := by
  cases h with
  | check e check acts hacts => exact .inl (startIds_of_quiet hacts)
  | up e now ok acts hstate hacts => exact .inl (startIds_of_quiet hacts)
  | down kind e st count failedAt nextAt check restartAt starting acts hkind hst hstop hstart =>
    exact .inl hstart
  | again e job k newId task acts hjob hid hnew hstart hstop => exact .inr ⟨k, newId, hid, hstart⟩
  | lost e acts hjob hstart hstop => exact .inl hstart
  | born pre job job' k task hid hnew => exact .inr ⟨k, id, hid, rfl⟩
  | stillborn pre job k task e acts hid hnew hstart hstarting hat htask => exact .inl hstart
  | _ => exact .inl rfl

end

/-! ### The records of an agent -/

/-- The records of an agent agree with the answers there were. -/
structure Lively (answered : String → Bool) (a : Agent) : Prop where
  orderly : ∀ {id e}, a.tasks.get? id = some e → Orderly e
  fresh : ∀ {id e}, a.tasks.get? id = some e → answered id = false → Fresh e
  restarts : a.shuttingDown = false → ∀ {id e}, a.tasks.get? id = some e →
    e.task.state = .stopping → e.restartAt.isSome = true

theorem lively_new (settings : Settings) (answered : String → Bool) :
    Lively answered (.new settings) where
  orderly he := by cases he
  fresh he := by cases he
  restarts _ _ _ he := by cases he

section

variable {answered answered' : String → Bool} {a a' : Agent} {id : String} {kind : Kind}
  {post : Option (String × Entry)} {acts : List Action}

theorem TurnsAt.lively (h : TurnsAt True id kind a a' post acts) (ha : Lively answered a)
    (hmore : ∀ id, answered' id = false → answered id = false)
    (hanswer : kind.Answers → answered id = false ∧ answered' id = true) :
    Lively answered' a' := by
  have hfresh : kind.Answers → ∀ e, a.tasks.get? id = some e → Fresh e := fun hkind e he =>
    ha.fresh he (hanswer hkind).1
  refine ⟨fun {id' e'} he => ?_, fun {id' e'} he hans => ?_, fun hdown {id' e'} he hstate => ?_⟩
  · rcases h.mem he with rfl | ⟨-, he⟩
    · exact h.turn.orderly (fun e he => ha.orderly he) hfresh
    · exact ha.orderly he
  · rcases h.mem he with rfl | ⟨-, he⟩
    · refine h.turn.fresh fun hid => ?_
      rw [hid] at hans
      refine ⟨fun hkind => ?_, fun e he => ⟨ha.orderly he, ha.fresh he (hmore id hans)⟩⟩
      rw [(hanswer hkind).2] at hans
      cases hans
    · exact ha.fresh he (hmore _ hans)
  · rw [h.down] at hdown
    rcases h.mem he with rfl | ⟨-, he⟩
    · exact h.turn.restarts hdown (fun e he => ha.restarts hdown he) hstate
    · exact ha.restarts hdown he hstate

/-- Steps that answer nothing keep the records in agreement with the answers. -/
theorem Move.lively (h : Move True kind a a') (hkind : ¬ kind.Answers) (ha : Lively answered a) :
    Lively answered a' := by
  have hsame : a'.tasks = a.tasks → (a'.shuttingDown = false → a.shuttingDown = false) →
      Lively answered a' := by
    intro htasks hdown
    refine ⟨fun {id e} he => ?_, fun {id e} he => ?_, fun hoff {id e} he => ?_⟩
    · exact ha.orderly (htasks ▸ he)
    · exact ha.fresh (htasks ▸ he)
    · exact ha.restarts (hdown hoff) (htasks ▸ he)
  cases h with
  | turn id post acts h => exact h.lively ha (fun _ h => h) fun hans => absurd hans hkind
  | note acts hacts htasks hjobs hdown h => exact hsame htasks fun h => hdown ▸ h
  | define htasks hkeyed hdown h => exact hsame htasks fun h => hdown ▸ h
  | halt htasks hjobs hdown h =>
    refine hsame htasks fun h => ?_
    rw [hdown] at h
    cases h

/-- A process `pid` of the task `id` is not lost: its record runs, or its stop is among the actions
after the first `moment`. -/
def Agent.Covers (handed : List Action) (id : String) (pid : ℤ) (moment : ℕ) (a : Agent) : Prop :=
  (∃ e, a.tasks.get? id = some e ∧ e.task.state = .running ∧ e.task.pid = pid) ∨
    ∃ driver, .stop id driver pid ∈ (handed ++ a.out).drop moment

/-- What is among the last actions stays among them. -/
theorem mem_drop_append {xs ys : List Action} {x : Action} {n : ℕ} (h : x ∈ xs.drop n) :
    x ∈ (xs ++ ys).drop n := by
  rw [List.drop_append]
  exact List.mem_append_left _ h

/-- What is added is among the last actions. -/
theorem mem_drop_of_mem {xs ys : List Action} {x : Action} {n : ℕ} (hn : n ≤ xs.length)
    (h : x ∈ ys) : x ∈ (xs ++ ys).drop n := by
  rw [List.drop_append, Nat.sub_eq_zero_of_le hn]
  exact List.mem_append_right _ h

variable {handed : List Action} {id' : String} {pid : ℤ} {moment : ℕ}

theorem TurnsAt.covers (h : TurnsAt True id kind a a' post acts) (ha : Lively answered a)
    (hf : a.Filed) (hd : a'.ids.draws ≤ 2 ^ 64) (hanswer : kind.Answers → answered id = false)
    (hmoment : moment ≤ (handed ++ a.out).length) (hcov : a.Covers handed id' pid moment) :
    a'.Covers handed id' pid moment := by
  have hout : handed ++ a'.out = handed ++ a.out ++ acts := by
    rw [h.frame.out, List.append_assoc]
  rcases hcov with ⟨e, he, hrun, rfl⟩ | ⟨driver, hstop⟩
  · have hfresh : ∀ {k}, Drawn a a' k id' → False := fun hid => by
      rw [hf.fresh hid hd] at he
      cases he
    by_cases hid : id' = id
    · subst hid
      have hturn := h.turn
      rw [he] at hturn
      rcases hturn.running (ha.orderly he) (fun hkind => ha.fresh he (hanswer hkind)) hrun with
        ⟨e', hpost, hrun', hpid⟩ | ⟨driver, hstop⟩ | ⟨k, hk⟩
      · refine .inl ⟨e', ?_, hrun', hpid⟩
        rw [h.tasks, hpost]
        exact SortedMap.get?_insert_self _ _ _
      · refine .inr ⟨driver, ?_⟩
        rw [hf.key he] at hstop
        rw [hout]
        exact mem_drop_of_mem hmoment hstop
      · exact (hfresh hk).elim
    · refine .inl ⟨e, ?_, hrun, rfl⟩
      rw [h.get?_of_ne hid fun newId e' hpost heq => ?_, he]
      subst hpost heq
      rcases h.turn.origin with ⟨_, _, rfl, _⟩ | ⟨job, k, hk, _⟩
      · exact hid rfl
      · exact hfresh hk
  · refine .inr ⟨driver, ?_⟩
    rw [hout]
    exact mem_drop_append hstop

theorem Move.covers (h : Move True kind a a') (hkind : ¬ kind.Answers) (ha : Lively answered a)
    (hf : a.Filed) (hd : a'.ids.draws ≤ 2 ^ 64) (hmoment : moment ≤ (handed ++ a.out).length)
    (hcov : a.Covers handed id' pid moment) : a'.Covers handed id' pid moment := by
  have hsame : ∀ {acts}, a'.tasks = a.tasks → a'.out = a.out ++ acts →
      a'.Covers handed id' pid moment := by
    intro acts htasks hout
    rcases hcov with ⟨e, he, hrun⟩ | ⟨driver, hstop⟩
    · exact .inl ⟨e, by rw [htasks, he], hrun⟩
    · refine .inr ⟨driver, ?_⟩
      rw [hout, ← List.append_assoc]
      exact mem_drop_append hstop
  cases h with
  | turn id post acts h => exact h.covers ha hf hd (fun hans => absurd hans hkind) hmoment hcov
  | note acts hacts htasks hjobs hdown h => exact hsame htasks h.out
  | define htasks hkeyed hdown h => exact hsame htasks h.out
  | halt htasks hjobs hdown h => exact hsame htasks h.out

end

/-! ### The starts of a run -/

/-- The tasks that were started have the ids of increasing draws. -/
def StartsDrawn (acts : List Action) (ids : Ids) : Prop :=
  ∃ ks : List ℕ, startIds acts = ks.map (Ids.idOf ids.seed) ∧ ks.Pairwise (· < ·) ∧
    ∀ k ∈ ks, 1 ≤ k ∧ k ≤ ids.draws

theorem StartsDrawn.nodup {acts : List Action} {ids : Ids} (h : StartsDrawn acts ids)
    (hd : ids.draws ≤ 2 ^ 64) : (startIds acts).Nodup := by
  obtain ⟨ks, hks, hsorted, hbound⟩ := h
  rw [hks]
  refine List.pairwise_map.mpr (hsorted.imp_of_mem fun {i j} hi hj hlt heq => ?_)
  obtain ⟨hi, hile⟩ := hbound i hi
  obtain ⟨hj, hjle⟩ := hbound j hj
  exact hlt.ne (Ids.idOf_inj heq ⟨hi, hile.trans hd⟩ ⟨hj, hjle.trans hd⟩)

/-- A step starts no task, or one whose id it draws. -/
theorem Move.starts {kind : Kind} {a a' : Agent} (h : Move Q kind a a') :
    ∃ acts, Frame a a' acts ∧
      (startIds acts = [] ∨ ∃ k newId, Drawn a a' k newId ∧ startIds acts = [newId]) := by
  cases h with
  | turn id post acts h => exact ⟨acts, h.frame, h.turn.starts⟩
  | note acts hacts htasks hjobs hdown h => exact ⟨acts, h, .inl (startIds_of_quiet hacts)⟩
  | define htasks hkeyed hdown h => exact ⟨[], h, .inl rfl⟩
  | halt htasks hjobs hdown h => exact ⟨[], h, .inl rfl⟩

theorem Path.startsDrawn {K : Kind → Prop} {a a' : Agent} {handed : List Action} (h : Path Q K a a')
    (ha : StartsDrawn (handed ++ a.out) a.ids) :
    StartsDrawn (handed ++ a'.out) a'.ids := by
  refine h.invariant (P := fun b => StartsDrawn (handed ++ b.out) b.ids)
    (fun b b' kind _ hmove hb => ?_) ha
  obtain ⟨ks, hks, hsorted, hbound⟩ := hb
  obtain ⟨acts, hframe, hacts⟩ := hmove.starts
  have hle := hframe.draws
  unfold StartsDrawn
  rw [hframe.out, hframe.seed, ← List.append_assoc, startIds_append, hks]
  rcases hacts with hacts | ⟨k, newId, hid, hacts⟩
  · rw [hacts]
    refine ⟨ks, List.append_nil _, hsorted, fun k hk => ?_⟩
    exact ⟨(hbound k hk).1, (hbound k hk).2.trans hle⟩
  · have hafter := hid.after
    rw [hacts, hid.id]
    refine ⟨ks ++ [k], by rw [List.map_append]; rfl, ?_, fun j hj => ?_⟩
    · refine List.pairwise_append.mpr ⟨hsorted, List.pairwise_singleton _ _, fun i hi j hj => ?_⟩
      rw [List.mem_singleton.mp hj]
      exact (hbound i hi).2.trans_lt hafter
    · rcases List.mem_append.mp hj with hj | hj
      · exact ⟨(hbound j hj).1, (hbound j hj).2.trans hle⟩
      · rw [List.mem_singleton.mp hj]
        exact ⟨by omega, hid.upTo⟩

/-! ### Whole runs -/

/-- What holds of an observed agent in every run without second answers. -/
structure Observed.Lives (o : Observed) : Prop where
  keyed : o.agent.Keyed
  filed : o.agent.Filed
  starts : StartsDrawn o.emitted o.agent.ids
  moments : ∀ x ∈ o.answers, x.moment ≤ o.emitted.length
  lively : o.agent.ids.draws ≤ 2 ^ 64 → Lively o.answered o.agent
  covers : o.agent.ids.draws ≤ 2 ^ 64 → ∀ x ∈ o.answers, ∀ ok, x.result = .ok ok →
    o.agent.Covers o.handed x.id ok.pid x.moment

theorem Observed.lives_new (settings : Settings) : Observed.Lives ⟨.new settings, [], []⟩ where
  keyed _ _ hj := by cases hj
  filed := Agent.filed_new settings
  starts := ⟨[], rfl, .nil, fun _ h => by cases h⟩
  moments _ h := by cases h
  lively _ := lively_new settings _
  covers _ _ h := by cases h

/-- Only the answer to a start is a turn of an answer. -/
theorem Input.not_answers {i : Input} (h : ∀ now id driver result, i ≠ .onStarted now id driver result)
    {kind : Kind} (hkind : kind ∈ i.kinds) : ¬ kind.Answers := by
  have hlist : ∀ ks : List Kind, (∀ k ∈ ks, ¬ k.Answers) → kind ∈ ks → ¬ kind.Answers :=
    fun ks hks hmem => hks kind hmem
  cases i with
  | onStarted now id driver result => exact absurd rfl (h now id driver result)
  | _ => exact hlist _ (by dsimp only [Input.kinds]; decide) hkind

/-- What the agent knows of a path that answers nothing. -/
theorem Path.lives {a b : Agent} {K : Kind → Prop} {answered : String → Bool} {handed : List Action}
    (h : Path True K a b) (hK : ∀ kind, K kind → ¬ kind.Answers) (hd : b.ids.draws ≤ 2 ^ 64)
    (hf : a.Filed) (ha : Lively answered a) :
    Lively answered b ∧ ∀ id pid moment, moment ≤ (handed ++ a.out).length →
      a.Covers handed id pid moment → b.Covers handed id pid moment := by
  have hkeep := h.invariant_upTo (P := fun b => b.Filed ∧ Lively answered b ∧
      (handed ++ a.out).length ≤ (handed ++ b.out).length ∧
      ∀ id pid moment, moment ≤ (handed ++ a.out).length → a.Covers handed id pid moment →
        b.Covers handed id pid moment) hd
    (fun b b' kind hkind hmove hd' ⟨hf, hb, hlen, hcov⟩ => ?_)
    ⟨hf, ha, le_refl _, fun _ _ _ _ h => h⟩
  · exact ⟨hkeep.2.1, hkeep.2.2.2⟩
  · have hno := hK kind hkind
    obtain ⟨acts, hframe⟩ := hmove.frame
    refine ⟨hmove.filed hf, hmove.lively hno hb, ?_, fun id pid moment hm hc => ?_⟩
    · refine hlen.trans ?_
      rw [hframe.out, ← List.append_assoc]
      exact (List.sublist_append_left _ _).length_le
    · exact hmove.covers hno hb hf hd' (hm.trans hlen) (hcov id pid moment hm hc)

section

variable {Q : Prop} {o : Observed} {i : Input} {b : Agent}

theorem Feeds.emitted (h : Feeds Q o.agent i b) : (o.take i).emitted = o.handed ++ b.out := by
  rw [← h.out, ← List.append_assoc]
  rfl

theorem Feeds.covers (h : Feeds Q o.agent i b) {id : String} {pid : ℤ} {moment : ℕ}
    (hcov : b.Covers o.handed id pid moment) :
    (o.take i).agent.Covers (o.take i).handed id pid moment := by
  rcases hcov with ⟨e, he, hrun⟩ | ⟨driver, hstop⟩
  · refine .inl ⟨e, ?_, hrun⟩
    rw [← he, ← h.tasks]
    rfl
  · refine .inr ⟨driver, ?_⟩
    rw [← h.emitted] at hstop
    exact hstop

theorem Feeds.lively {a : Agent} (h : Feeds Q a i b) {answered : String → Bool}
    (hb : Lively answered b) : Lively answered (a.feed i) := by
  refine ⟨fun {id e} he => ?_, fun {id e} he => ?_, fun hdown {id e} he => ?_⟩
  · exact hb.orderly (h.tasks ▸ he)
  · exact hb.fresh (h.tasks ▸ he)
  · exact hb.restarts (h.down ▸ hdown) (h.tasks ▸ he)

/-- The observer of an input that is no answer. -/
theorem Observed.take_answers (h : ∀ now id driver result, i ≠ .onStarted now id driver result) :
    (o.take i).answers = o.answers := by
  cases i with
  | onStarted now id driver result => exact absurd rfl (h now id driver result)
  | _ => rfl

/-- The jobs stay filed, the ids are drawn in order, and no action is lost, whatever the input. -/
theorem Observed.Lives.basics (h : o.Lives) (i : Input) : (o.take i).agent.Keyed ∧
    (o.take i).agent.Filed ∧ StartsDrawn (o.take i).emitted (o.take i).agent.ids ∧
    o.emitted.length ≤ (o.take i).emitted.length ∧
    o.agent.ids.draws ≤ (o.take i).agent.ids.draws := by
  obtain ⟨b, hb⟩ := path_feed False h.keyed i fun h => h.elim
  obtain ⟨acts, hframe⟩ := hb.path.frame
  refine ⟨feed_keyed h.keyed i, feed_filed h.keyed h.filed i, ?_, ?_, ?_⟩
  · rw [hb.emitted, show (o.take i).agent.ids = b.ids from hb.ids]
    exact hb.path.startsDrawn h.starts
  · rw [hb.emitted, hframe.out, ← List.append_assoc]
    exact (List.sublist_append_left _ _).length_le
  · rw [show (o.take i).agent.ids = b.ids from hb.ids]
    exact hframe.draws

/-- An input that is no answer keeps the life of the tasks in order. -/
theorem Observed.Lives.take_quiet (h : o.Lives)
    (hi : ∀ now id driver result, i ≠ .onStarted now id driver result) : (o.take i).Lives := by
  obtain ⟨hkeyed, hfiled, hstarts, hlen, hdraws⟩ := h.basics i
  have hanswers : (o.take i).answers = o.answers := take_answers hi
  have hanswered : (o.take i).answered = o.answered := by
    funext id
    unfold answered
    rw [hanswers]
  have hlives : (o.take i).agent.ids.draws ≤ 2 ^ 64 → ∃ b, Feeds True o.agent i b ∧
      Lively o.answered b ∧ ∀ id pid moment, moment ≤ o.emitted.length →
        o.agent.Covers o.handed id pid moment → b.Covers o.handed id pid moment := by
    intro hd
    obtain ⟨b, hb⟩ := path_feed True h.keyed i fun _ => ⟨h.filed, hd⟩
    refine ⟨b, hb, hb.path.lives (fun kind hkind => Input.not_answers hi hkind) ?_ h.filed
      (h.lively (hdraws.trans hd))⟩
    rw [← hb.ids]
    exact hd
  refine ⟨hkeyed, hfiled, hstarts, fun x hx => ?_, fun hd => ?_, fun hd x hx ok hok => ?_⟩
  · rw [hanswers] at hx
    exact (h.moments x hx).trans hlen
  · obtain ⟨b, hb, hlively, -⟩ := hlives hd
    rw [hanswered]
    exact hb.lively hlively
  · obtain ⟨b, hb, -, hcov⟩ := hlives hd
    rw [hanswers] at hx
    exact hb.covers (hcov _ _ _ (h.moments x hx) (h.covers (hdraws.trans hd) x hx ok hok))

theorem Observed.answered_take_onStarted (o : Observed) (now : Nanos) (id : String) (driver : Driver)
    (result : Except StartError StartOk) (id' : String) :
    (o.take (.onStarted now id driver result)).answered id' = (o.answered id' || decide (id = id')) := by
  unfold answered take
  rw [List.any_append]
  simp

/-- The first answer for an id keeps the life of the tasks in order. -/
theorem Observed.Lives.take_answer (h : o.Lives) {id : String} (hid : o.answered id = false)
    (now : Nanos) (driver : Driver) (result : Except StartError StartOk) :
    (o.take (.onStarted now id driver result)).Lives := by
  have hbasics := h.basics (.onStarted now id driver result)
  obtain ⟨o', ho'⟩ : ∃ o', o' = o.take (.onStarted now id driver result) := ⟨_, rfl⟩
  have hagent : o'.agent = o.agent.onStarted now id driver result := by rw [ho']; rfl
  have hhanded : o'.handed = o.handed := by rw [ho']; exact List.append_nil _
  have hanswers : o'.answers = o.answers ++ [⟨id, result, o.emitted.length⟩] := by rw [ho']; rfl
  have hanswered : ∀ id', o'.answered id' = (o.answered id' || decide (id = id')) := by
    rw [ho']
    exact o.answered_take_onStarted now id driver result
  rw [← ho'] at hbasics ⊢
  obtain ⟨hkeyed, hfiled, hstarts, hlen, hdraws⟩ := hbasics
  have hmore : ∀ id', o'.answered id' = false → o.answered id' = false := by
    intro id' hans
    rw [hanswered] at hans
    exact (Bool.or_eq_false_iff.mp hans).1
  have hself : o'.answered id = true := by
    rw [hanswered, decide_eq_true rfl, Bool.or_true]
  have hturns := Agent.onStarted_turns True o.agent id h.keyed now driver result
  rw [← hagent] at hturns
  refine ⟨hkeyed, hfiled, hstarts, fun x hx => ?_, fun hd => ?_, fun hd x hx ok hok => ?_⟩
  · rw [hanswers] at hx
    rcases List.mem_append.mp hx with hx | hx
    · exact (h.moments x hx).trans hlen
    · rw [List.mem_singleton.mp hx]
      exact hlen
  · have hlively := h.lively (hdraws.trans hd)
    rcases hturns with hsame | ⟨kind, post, acts, -, hturn⟩
    · rw [hsame]
      exact ⟨hlively.orderly, fun he hans => hlively.fresh he (hmore _ hans), hlively.restarts⟩
    · exact hturn.lively hlively hmore fun _ => ⟨hid, hself⟩
  · rw [hhanded]
    rw [hanswers] at hx
    rcases List.mem_append.mp hx with hx | hx
    · have hcov := h.covers (hdraws.trans hd) x hx ok hok
      rcases hturns with hsame | ⟨kind, post, acts, -, hturn⟩
      · rw [hsame]
        exact hcov
      · exact hturn.covers (h.lively (hdraws.trans hd)) h.filed hd (fun _ => hid) (h.moments x hx)
          hcov
    · -- the new answer: its process runs, or it is stopped at once
      rw [List.mem_singleton.mp hx] at hok ⊢
      obtain rfl : result = .ok ok := hok
      obtain ⟨kind, post, acts, -, hturn, hup⟩ :=
        Agent.onStarted_ok_turns True o.agent id now driver ok
      rw [← hagent] at hturn
      rcases hup with ⟨e, hpost, hrun, hpid⟩ | hstop
      · refine .inl ⟨e, ?_, hrun, hpid⟩
        rw [hturn.tasks, hpost]
        exact SortedMap.get?_insert_self _ _ _
      · refine .inr ⟨driver, ?_⟩
        rw [hturn.frame.out, ← List.append_assoc]
        exact mem_drop_of_mem (le_refl _) hstop

/-- An input that is no second answer is a step. -/
theorem answeredOnce_step (h : o.admits i = true) : answeredOnce.step o i = some (o.take i) :=
  if_pos h

theorem lives_of_reachable (h : answeredOnce.Reachable o) : o.Lives := by
  refine h.invariant (P := Observed.Lives) ?_ fun o i o' ho hstep => ?_
  · rintro o ⟨settings, rfl⟩
    exact Observed.lives_new settings
  · unfold answeredOnce at hstep
    dsimp only at hstep
    split_ifs at hstep with hadmits
    cases hstep
    by_cases hi : ∀ now id driver result, i ≠ .onStarted now id driver result
    · exact ho.take_quiet hi
    · push Not at hi
      obtain ⟨now, id, driver, result, rfl⟩ := hi
      refine ho.take_answer ?_ now driver result
      simpa [Observed.admits] using hadmits

end

/-! ### Late reports -/

namespace Agent

variable {a : Agent} {id : String}

theorem onProgress_late (h : ∀ e, a.tasks.get? id = some e → ¬ Pending e.task.state)
    (downloaded total : ℕ) : a.onProgress id downloaded total = a := by
  unfold onProgress modifyTask
  rw [SortedMap.modify_of_fixed fun e he => ?_]
  exact if_neg (h e he)

theorem onStatus_late (h : ∀ e, a.tasks.get? id = some e → e.task.state ≠ .running) (now : Nanos)
    (status : Status) : a.onStatus now id status = a := by
  unfold onStatus
  cases he : a.tasks.get? id with
  | none => rfl
  | some e => exact if_pos (h e he)

theorem onProbe_late (h : ∀ e, a.tasks.get? id = some e → e.task.state ≠ .running) (now : Nanos)
    (outcome : Outcome) : a.onProbe now id outcome = a := by
  unfold onProbe
  cases he : a.tasks.get? id with
  | none => rfl
  | some e => exact if_pos (h e he)

end Agent

/-! ### The id that comes back -/

/-- A node without limits of its own. -/
def plainNode : Settings := { id := "node" }

/-- A job that stays, and one that is replaced again and again. -/
def dbJob : Job := { name := "db", command := "db" }

def webJob : Job := { name := "web", command := "web" }

/-- The id of the first draw comes back after `2 ^ 64` draws. -/
theorem Ids.idOf_wrap (seed : BitVec 64) : Ids.idOf seed (2 ^ 64 + 1) = Ids.idOf seed 1 := by
  unfold Ids.idOf Ids.number
  rw [show BitVec.ofNat 64 (2 ^ 64 + 1) = BitVec.ofNat 64 1 by decide]

/-- The job `db` runs under the first id of the node, and the agent drew `n` numbers since. -/
structure Crowded (n : ℕ) (o : Observed) : Prop where
  reachable : answeredOnce.Reachable o
  settings : o.agent.settings = plainNode
  ids : o.agent.ids = ⟨0, n + 1⟩
  up : o.agent.shuttingDown = false
  jobs : o.agent.jobs.size < maxJobs ∨ (o.agent.jobs.get? "web").isSome = true
  size : o.agent.tasks.size < maxTasks
  db : ∃ e, o.agent.tasks.get? (Ids.idOf 0 1) = some e ∧ e.task.jobName = "db" ∧
    e.task.state = .running
  others : ∀ id e, o.agent.tasks.get? id = some e → id = Ids.idOf 0 1 ∨ e.task.jobName = "web"
  started : Ids.idOf 0 1 ∈ startIds o.emitted

/-- The job as the node runs it. -/
def webRun : Job := { webJob with driver := some .exec }

theorem normalized_webJob : Agent.normalized webJob = webRun := by decide

namespace Crowded

variable {n : ℕ} {o : Observed}

theorem run_eq (h : Crowded n o) :
    (o.agent.run 0 webJob true none).2 = (o.agent.takeOn 0 webRun true).2 := by
  unfold Agent.run
  have haff : o.agent.matchesAffinity webJob.affinity = true := rfl
  have hsize : ¬ maxTasks ≤ o.agent.tasks.size := not_le.mpr h.size
  have hjobs : ¬ ((o.agent.jobs.get? webRun.name).isNone = true ∧
      maxJobs ≤ o.agent.jobs.size) := by
    rintro ⟨hnone, hfull⟩
    rcases h.jobs with hroom | hsome
    · omega
    · rw [show webRun.name = "web" from rfl, Option.isNone_iff_eq_none] at hnone
      rw [hnone] at hsome
      cases hsome
  have hadmitted : o.agent.admitJob webRun true none = .ok () := rfl
  simp only [normalized_webJob, haff, Bool.not_true, Bool.false_eq_true, if_false, hsize, hjobs, hadmitted]

/-- The records before the new task of `web` is put in: only `db` is left. -/
theorem prepared_tasks (h : Crowded n o) {id : String} :
    (o.agent.prepared webRun true).tasks.get? id = some e ↔
      id = Ids.idOf 0 1 ∧ o.agent.tasks.get? id = some e := by
  obtain ⟨d, hd, hname, -⟩ := h.db
  rw [Agent.prepared_get?, Option.filter_eq_some_iff]
  constructor
  · rintro ⟨he, hkeep⟩
    refine ⟨(h.others id e he).resolve_right fun hweb => ?_, he⟩
    rw [decide_eq_true (show e.task.jobName = webRun.name from hweb)] at hkeep
    cases hkeep
  · rintro ⟨rfl, he⟩
    refine ⟨he, ?_⟩
    obtain rfl : d = e := Option.some.inj (hd.symm.trans he)
    rw [decide_eq_false (show d.task.jobName ≠ webRun.name by rw [hname]; decide)]
    rfl

/-- One more replacement of `web`: the next id is started, and the rest stays as it was prepared. -/
theorem birth (h : Crowded n o) : ∃ e acts,
    TurnsAt False (Ids.idOf 0 (n + 2)) .born (o.agent.prepared webRun true)
      (o.agent.feed (.run 0 webJob true none)) (some (Ids.idOf 0 (n + 2), e)) acts ∧
    (o.agent.feed (.run 0 webJob true none)).ids = ⟨0, n + 2⟩ ∧
    e.task.jobName = "web" ∧ e.task.state = .queued ∧ startIds acts = [Ids.idOf 0 (n + 2)] := by
  obtain ⟨flag, kind, e, acts, hbirth⟩ :=
    Agent.takeOn_turns False (lives_of_reachable h.reachable).keyed 0 webRun true
  have hid : o.agent.ids.id.1 = Ids.idOf 0 (n + 2) := by rw [h.ids]; rfl
  rw [← h.run_eq, hid] at hbirth
  rcases hbirth.how with ⟨rfl, hids⟩ | ⟨-, why, hres⟩
  · rw [Agent.prepared_ids, h.ids] at hids
    obtain ⟨hstate, hstart⟩ := hbirth.turn.turn.of_born
    exact ⟨e, acts, hbirth.turn, hids, hbirth.fresh.jobName, hstate, hstart⟩
  · cases hres

/-- Under a new id, nothing else changes. -/
theorem next (h : Crowded n o) (hn : n + 1 < 2 ^ 64) :
    Crowded (n + 1) (o.take (.run 0 webJob true none)) := by
  obtain ⟨e, acts, hturn, hids, hname, -, -⟩ := h.birth
  obtain ⟨d, hd, hdb⟩ := h.db
  have hne : Ids.idOf 0 1 ≠ Ids.idOf 0 (n + 2) := by
    intro heq
    have hone := Ids.idOf_inj heq ⟨by omega, by omega⟩ ⟨by omega, by omega⟩
    omega
  have hpath := Agent.path_run False (lives_of_reachable h.reachable).keyed 0 webJob true none
  have hmem : ∀ id e', (o.agent.feed (.run 0 webJob true none)).tasks.get? id = some e' →
      id = Ids.idOf 0 1 ∨ id = Ids.idOf 0 (n + 2) ∧ e' = e := by
    intro id e' he'
    rcases hturn.mem he' with hpost | ⟨-, he'⟩
    · cases hpost
      exact .inr ⟨rfl, rfl⟩
    · exact .inl (h.prepared_tasks.mp he').1
  obtain ⟨flag, hjobs⟩ := Agent.prepared_jobs o.agent webRun true
  obtain ⟨acts', hframe⟩ := hpath.frame
  have hemitted : (o.take (.run 0 webJob true none)).emitted = o.emitted ++ acts' := by
    unfold Observed.emitted Observed.take
    dsimp only [Agent.handsOver]
    rw [List.append_nil, List.append_assoc]
    exact congrArg _ hframe.out
  refine
    { reachable := h.reachable.next (answeredOnce_step (i := .run 0 webJob true none) rfl)
      settings := hturn.settings.trans ((Agent.prepared_settings _ _ _).trans h.settings)
      ids := hids
      up := (hpath.down (by decide)).trans h.up
      jobs := .inr ?jobs
      size := ?size
      db := ⟨d, ?db, hdb⟩
      others := fun id e' he' => (hmem id e' he').imp_right ?others
      started := ?started }
  case jobs =>
    show ((o.agent.feed _).jobs.get? "web").isSome = true
    rw [hturn.jobs, hjobs, show "web" = webRun.name from rfl, SortedMap.get?_insert_self]
    rfl
  case size =>
    have hsize : (o.agent.feed (.run 0 webJob true none)).tasks.size ≤
        [Ids.idOf 0 1, Ids.idOf 0 (n + 2)].length := by
      refine SortedMap.size_le_of_keys fun id e' he' => ?_
      rcases hmem id e' he' with rfl | ⟨rfl, -⟩ <;> simp
    exact hsize.trans_lt (show 2 < maxTasks by decide)
  case db =>
    refine (hturn.get?_of_ne hne fun newId e' hpost => ?_).trans (h.prepared_tasks.mpr ⟨rfl, hd⟩)
    cases hpost
    exact hne.symm
  case others =>
    rintro ⟨-, rfl⟩
    exact hname
  case started =>
    rw [hemitted, startIds_append]
    exact List.mem_append_left _ h.started

/-- The last draw before the first id comes back. -/
theorem brink (h : Crowded 0 o) : ∃ o', Crowded (2 ^ 64 - 1) o' := by
  have hsteps : ∀ n, n < 2 ^ 64 → ∃ o', Crowded n o' := by
    intro n hn
    induction n with
    | zero => exact ⟨o, h⟩
    | succ n ih =>
      obtain ⟨o', ho'⟩ := ih (by omega)
      exact ⟨_, ho'.next hn⟩
  exact hsteps _ (by decide)

end Crowded

/-- The node on which `db` was taken on and has come up. -/
def dbUp : Observed :=
  (Observed.take ⟨.new plainNode, [], []⟩ (.run 0 dbJob false none)).take
    (.onStarted 0 (Ids.idOf 0 1) .exec (.ok { pid := 7 }))

theorem dbUp_reachable : answeredOnce.Reachable dbUp := by
  have hinit : answeredOnce.Reachable ⟨.new plainNode, [], []⟩ := .init ⟨plainNode, rfl⟩
  have hrun := hinit.next (answeredOnce_step (i := .run 0 dbJob false none) rfl)
  exact hrun.next
    (answeredOnce_step (i := .onStarted 0 (Ids.idOf 0 1) .exec (.ok { pid := 7 })) rfl)

theorem dbUp_crowded : Crowded 0 dbUp where
  reachable := dbUp_reachable
  settings := rfl
  ids := rfl
  up := rfl
  jobs := .inl (by decide)
  size := by decide
  db := ⟨_, rfl, rfl, rfl⟩
  others id e he := by
    have hentries : dbUp.agent.tasks.entries.map Prod.fst = [Ids.idOf 0 1] := by decide
    have hid := List.mem_map_of_mem (f := Prod.fst) (SortedMap.get?_eq_some_iff.mp he)
    rw [hentries] at hid
    exact .inl (List.mem_singleton.mp hid)
  started := by decide

/-! ### The results -/

/-- **No cage is leaked.** Every task id is started once, and every start that worked is the
process of a record that runs, or its stop was asked for since. -/
theorem no_cage_leaked {o : Observed} (h : answeredOnce.Reachable o)
    (hd : o.agent.ids.draws ≤ 2 ^ 64) :
    (startIds o.emitted).Nodup ∧ ∀ x ∈ o.answers, ∀ ok, x.result = .ok ok →
      o.agent.Covers o.handed x.id ok.pid x.moment :=
  ⟨(lives_of_reachable h).starts.nodup hd, (lives_of_reachable h).covers hd⟩

/-- One job that was taken on, and whose start worked. -/
theorem no_cage_leaked_db : (startIds dbUp.emitted).Nodup ∧
    ∀ x ∈ dbUp.answers, ∀ ok, x.result = .ok ok →
      dbUp.agent.Covers dbUp.handed x.id ok.pid x.moment :=
  no_cage_leaked dbUp_reachable (by decide)

/-- After `2 ^ 64` draws the id of `db` is drawn for `web`, and started once more. -/
theorem id_started_twice : ¬ ∀ o, answeredOnce.Reachable o → (startIds o.emitted).Nodup := by
  intro hall
  obtain ⟨o, ho⟩ := dbUp_crowded.brink
  obtain ⟨e, acts, hturn, -, -, -, hstart⟩ := ho.birth
  have hreach := ho.reachable.next (answeredOnce_step (i := .run 0 webJob true none) rfl)
  have hnodup := hall _ hreach
  have hpath := Agent.path_prepared False o.agent webRun true
  obtain ⟨acts', hframe⟩ := hpath.frame
  have hemitted : (o.take (.run 0 webJob true none)).emitted = o.emitted ++ (acts' ++ acts) := by
    unfold Observed.emitted Observed.take
    dsimp only [Agent.handsOver]
    rw [hturn.frame.out, hframe.out]
    simp only [List.append_nil, List.append_assoc]
  rw [hemitted, startIds_append, startIds_append, hstart] at hnodup
  have hwrap : Ids.idOf 0 (2 ^ 64 - 1 + 2) = Ids.idOf 0 1 := Ids.idOf_wrap 0
  rw [hwrap] at hnodup
  exact (List.nodup_append.mp hnodup).2.2 _ ho.started _
    (List.mem_append_right _ (List.mem_singleton_self _)) rfl

/-- No input takes a task back to its start. -/
theorem feed_onward {a : Agent} (hk : a.Keyed) (hf : a.Filed) (i : Input)
    (hd : (a.feed i).ids.draws ≤ 2 ^ 64) {id : String} {e' : Entry} (he : a.tasks.get? id = some e)
    (hstate : ¬ Pending e.task.state) (he' : (a.feed i).tasks.get? id = some e') :
    ¬ Pending e'.task.state := by
  obtain ⟨b, hb⟩ := path_feed True hk i fun _ => ⟨hf, hd⟩
  rw [hb.ids] at hd
  rw [hb.tasks] at he'
  obtain ⟨j, hj, hle, hid⟩ := hf.drawn he
  have hkeep := hb.path.invariant_upTo (P := fun b => (b.ids.seed = a.ids.seed ∧ j ≤ b.ids.draws) ∧
      ∀ e', b.tasks.get? id = some e' → ¬ Pending e'.task.state) hd
    (fun c c' kind _ hmove hd' ⟨⟨hseed, hjc⟩, hc⟩ => ?_) ⟨⟨rfl, hle⟩, fun e' he' => ?_⟩
  · exact hkeep.2 e' he'
  · obtain ⟨acts, hframe⟩ := hmove.frame
    refine ⟨⟨hframe.seed.trans hseed, hjc.trans hframe.draws⟩, fun e' he' => ?_⟩
    cases hmove with
    | turn id' post acts h =>
      rcases h.mem he' with rfl | ⟨-, he'⟩
      · have hpre : id = id' → ∀ e, c.tasks.get? id' = some e → ¬ Pending e.task.state := by
          rintro rfl
          exact hc
        rcases h.turn.onward hpre with hnot | ⟨k, hnew⟩
        · exact hnot
        · refine absurd ?_ (Agent.Filed.ne_of_drawn hnew hd' hj hjc)
          rw [hseed, hid]
      · exact hc e' he'
    | note acts hacts htasks hjobs hdown h => exact hc e' (htasks ▸ he')
    | define htasks hkeyed hdown h => exact hc e' (htasks ▸ he')
    | halt htasks hjobs hdown h => exact hc e' (htasks ▸ he')
  · rw [he] at he'
    cases he'
    exact hstate

/-- **The life of a task.** While the agent is not shutting down, the fields of every record agree
with its state; no input takes a task back to its start; and late reports change nothing. -/
theorem task_life {o : Observed} (h : answeredOnce.Reachable o) (hd : o.agent.ids.draws ≤ 2 ^ 64)
    (hdown : o.agent.shuttingDown = false) :
    (∀ id e, o.agent.tasks.get? id = some e →
      (e.starting = true ↔ e.task.state = .queued ∨ e.task.state = .downloading) ∧
      (e.restartAt.isSome = true → e.task.state = .failed ∨ e.task.state = .stopping) ∧
      (e.task.state = .stopping → e.restartAt.isSome = true)) ∧
    (∀ i, (o.take i).agent.ids.draws ≤ 2 ^ 64 → ∀ id e e', o.agent.tasks.get? id = some e →
      ¬ Pending e.task.state → (o.take i).agent.tasks.get? id = some e' → ¬ Pending e'.task.state) ∧
    (∀ id downloaded total, (∀ e, o.agent.tasks.get? id = some e → ¬ Pending e.task.state) →
      o.agent.onProgress id downloaded total = o.agent) ∧
    (∀ now id status, (∀ e, o.agent.tasks.get? id = some e → e.task.state ≠ .running) →
      o.agent.onStatus now id status = o.agent) ∧
    ∀ now id outcome, (∀ e, o.agent.tasks.get? id = some e → e.task.state ≠ .running) →
      o.agent.onProbe now id outcome = o.agent := by
  have hlives := lives_of_reachable h
  have hlively := hlives.lively hd
  refine ⟨fun id e he => ?_, fun i hd' id e e' he hstate he' => ?_, fun id downloaded total hlate => ?_,
    fun now id status hlate => ?_, fun now id outcome hlate => ?_⟩
  · have ho := hlively.orderly he
    exact ⟨ho.starting, ho.waits, hlively.restarts hdown he⟩
  · exact feed_onward hlives.keyed hlives.filed i hd' he hstate he'
  · exact Agent.onProgress_late hlate downloaded total
  · exact Agent.onStatus_late hlate now status
  · exact Agent.onProbe_late hlate now outcome

/-- A node with one task that runs. -/
theorem task_life_db : dbUp.agent.shuttingDown = false ∧
    (∀ id e, dbUp.agent.tasks.get? id = some e →
      (e.starting = true ↔ e.task.state = .queued ∨ e.task.state = .downloading) ∧
      (e.restartAt.isSome = true → e.task.state = .failed ∨ e.task.state = .stopping) ∧
      (e.task.state = .stopping → e.restartAt.isSome = true)) :=
  ⟨rfl, (task_life dbUp_reachable (by decide) rfl).1⟩

/-- After `2 ^ 64` draws the record of `db`, which runs, is overwritten by a queued one of `web`. -/
theorem running_task_queued_again : ¬ ∀ o i, answeredOnce.Reachable o →
    o.agent.shuttingDown = false → o.admits i = true → ∀ id e e', o.agent.tasks.get? id = some e →
      e.task.state = .running → (o.take i).agent.tasks.get? id = some e' →
        e'.task.state ≠ .queued := by
  intro hall
  obtain ⟨o, ho⟩ := dbUp_crowded.brink
  obtain ⟨e, acts, hturn, -, -, hstate, -⟩ := ho.birth
  obtain ⟨d, hd, -, hrun⟩ := ho.db
  refine hall o (.run 0 webJob true none) ho.reachable ho.up rfl _ d e hd hrun ?_ hstate
  have hwrap : Ids.idOf 0 (2 ^ 64 - 1 + 2) = Ids.idOf 0 1 := Ids.idOf_wrap 0
  show (o.agent.feed _).tasks.get? _ = some e
  rw [hturn.tasks, hwrap]
  exact SortedMap.get?_insert_self _ _ _

end Hop.Node
