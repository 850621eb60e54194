import Hop.Runner.Host

/-!
# What the runner of a host does to a task

Every call of the runner is a path of single moves, each on one task: its child is reaped, its group
gets a signal, its record is marked, it is forgotten. What holds along every run is shown for the
moves.
-/

namespace Hop.Runner.Host

variable {q : HostRunner}

/-! ### Moves -/

/-- The group of this start is not there (any more). -/
def Os.Extinct (os : Os) (generation : ℕ) : Prop :=
  ∀ n g, os.groups.get? n = some g → g.owner ≠ some generation

namespace HostRunner

@[simp] theorem put_os (r : HostRunner) (id : String) (t : Task) (os : Os) :
    (r.put id t os).os = os := rfl

theorem get?_put (r : HostRunner) (id k : String) (t : Task) (os : Os) :
    (r.put id t os).tasks.get? k = if id = k then some t else r.tasks.get? k :=
  SortedMap.get?_insert _ _ _ _

@[simp] theorem get?_put_self (r : HostRunner) (id : String) (t : Task) (os : Os) :
    (r.put id t os).tasks.get? id = some t :=
  SortedMap.get?_insert_self _ _ _

@[simp] theorem put_put (r : HostRunner) (id : String) (t t' : Task) (os os' : Os) :
    (r.put id t os).put id t' os' = r.put id t' os' := by
  simp [put, SortedMap.insert_insert_self]

theorem put_self {r : HostRunner} {id : String} {t : Task} (h : r.tasks.get? id = some t) :
    r.put id t r.os = r := by
  have : r.tasks.insert id t = r.tasks := by
    refine SortedMap.ext_get? fun k => ?_
    rw [SortedMap.get?_insert]
    split_ifs with hk
    · rw [← hk, h]
    · rfl
  rw [put, this]

end HostRunner

/-- The stop of a task got as far as its end. -/
def Task.isGone (t : Task) : Bool := t.stop.any fun st => st.gone.isSome

/-- The container of a task counts as removed. -/
def Task.isRemoved (t : Task) : Bool := t.stop.any fun st => st.dockerDone

/-- The runner takes the task for ended. -/
def Task.Ended (t : Task) : Prop :=
  match t.body with
  | .proc p => p.reaped = true ∧ p.groupGone = true
  | .docker _ => t.isRemoved = true

/-- The number of the child is still taken: it runs, or its end is known. -/
def Proc.Waited (p : Proc) (os : Os) : Prop :=
  p.reaped = true ∨ ∃ owner others, os.groups.get? p.child.pid = some ⟨some owner, .running, others⟩

/-- A single move of the runner. With `D`, a container counts as removed only if it is. -/
inductive Move (D : Prop) (r : HostRunner) : HostRunner → Prop
  /-- The clock, or a start that comes to nothing. -/
  | note {q : HostRunner} (hos : q.os = r.os) (htasks : q.tasks = r.tasks)
      (hquar : q.quarantine = r.quarantine) (hgen : r.nextGeneration ≤ q.nextGeneration) : Move D r q
  /-- The record of a task is marked. -/
  | mark {id : String} {t t' : Task} (ht : r.tasks.get? id = some t)
      (hgen : t'.generation = t.generation) (hbody : t'.body = t.body)
      (hgone : t'.isGone = true → t.isGone = true ∨ t.Ended)
      (hremoved : t'.isRemoved = t.isRemoved) : Move D r (r.put id t' r.os)
  | reap {id : String} {t : Task} {p : Proc} (ht : r.tasks.get? id = some t)
      (hbody : t.body = .proc p) (exit : Option ℤ) :
      Move D r (r.put id { t with body := .proc (reap p t.exit r.os).1, exit := exit }
        (reap p t.exit r.os).2.2)
  | signal {id : String} {t : Task} {p : Proc} (ht : r.tasks.get? id = some t)
      (hbody : t.body = .proc p) (hwaited : p.Waited r.os) (env : Env) (sig : Sig) :
      Move D r (r.put id { t with body := .proc (p.signal env r.os sig).2.1 }
        (p.signal env r.os sig).2.2)
  | killChild {id : String} {t : Task} {p : Proc} (ht : r.tasks.get? id = some t)
      (hbody : t.body = .proc p) (hreaped : p.reaped = false) :
      Move D r (r.put id t (r.os.killChild p.child))
  /-- The container is stopped and removed. -/
  | removed {id : String} {t t' : Task} (ht : r.tasks.get? id = some t)
      (hgen : t'.generation = t.generation) (hbody : t'.body = t.body)
      (hgone : t'.isGone = t.isGone) (hremoved : t'.isRemoved = true) :
      Move D r (r.put id t' { r.os with seen := r.os.seen ++ [.removed t.generation] })
  /-- It could not be stopped or removed, and counts as removed. -/
  | unremoved {id : String} {t t' : Task} (hD : D → ∃ p, t.body = .proc p)
      (ht : r.tasks.get? id = some t)
      (hgen : t'.generation = t.generation) (hbody : t'.body = t.body)
      (hgone : t'.isGone = t.isGone) (hremoved : t'.isRemoved = true) : Move D r (r.put id t' r.os)
  /-- A task is forgotten, and its directory and cgroup are cleaned up. -/
  | finish {id : String} {t : Task} {q : HostRunner} (new : List String)
      (ht : r.tasks.get? id = some t) (hgone : t.isGone = true)
      (htasks : q.tasks = r.tasks.erase id) (hgen : q.nextGeneration = r.nextGeneration)
      (hos : q.os = { r.os with cleaned := r.os.cleaned ++ new })
      (hnew : ∀ c ∈ new, c = id ∨ ∃ p, t.body = .proc p ∧ c = p.dir.path)
      (hquar : ∀ d ∈ q.quarantine, d ∈ r.quarantine ∨ ∃ p, t.body = .proc p ∧ d.path = p.dir.path) :
      Move D r q
  /-- The quarantine is tried again. -/
  | retry {q : HostRunner} (new : List String) (htasks : q.tasks = r.tasks)
      (hgen : q.nextGeneration = r.nextGeneration)
      (hos : q.os = { r.os with cleaned := r.os.cleaned ++ new })
      (hnew : ∀ c ∈ new, ∃ d ∈ r.quarantine, c = d.path)
      (hquar : ∀ d ∈ q.quarantine, ∃ d' ∈ r.quarantine, d.path = d'.path) : Move D r q

/-- A path of moves. -/
abbrev Path (D : Prop) : HostRunner → HostRunner → Prop := Relation.ReflTransGen (Move D)

namespace Path

variable {D : Prop} {r : HostRunner} {id : String} {t t' : Task} {p : Proc} {os : Os}

/-- A path that ends with the record of a task goes on from there. -/
theorem mark (h : Path D r (r.put id t os)) (hgen : t'.generation = t.generation)
    (hbody : t'.body = t.body) (hgone : t'.isGone = true → t.isGone = true ∨ t.Ended)
    (hremoved : t'.isRemoved = t.isRemoved) : Path D r (r.put id t' os) := by
  have := h.tail (.mark (r.get?_put_self id t os) hgen hbody hgone hremoved)
  rwa [HostRunner.put_put] at this

theorem reap (h : Path D r (r.put id t os)) (hbody : t.body = .proc p) (exit : Option ℤ) :
    Path D r (r.put id { t with body := .proc (Host.reap p t.exit os).1, exit := exit }
      (Host.reap p t.exit os).2.2) := by
  have := h.tail (.reap (r.get?_put_self id t os) hbody exit)
  rwa [HostRunner.put_put] at this

theorem signal (h : Path D r (r.put id t os)) (hbody : t.body = .proc p) (hwaited : p.Waited os)
    (env : Env) (sig : Sig) :
    Path D r (r.put id { t with body := .proc (p.signal env os sig).2.1 }
      (p.signal env os sig).2.2) := by
  have := h.tail (.signal (r.get?_put_self id t os) hbody hwaited env sig)
  rwa [HostRunner.put_put] at this

theorem killChild (h : Path D r (r.put id t os)) (hbody : t.body = .proc p)
    (hreaped : p.reaped = false) : Path D r (r.put id t (os.killChild p.child)) := by
  have := h.tail (.killChild (r.get?_put_self id t os) hbody hreaped)
  rwa [HostRunner.put_put] at this

/-- The path that stays, at the record of a task. -/
theorem here (ht : r.tasks.get? id = some t) : Path D r (r.put id t r.os) := by
  rw [HostRunner.put_self ht]

end Path

/-! ### The calls as paths -/

/-- After `reap` the number of the child is not free. -/
theorem waited_reap (p : Proc) (exit : Option ℤ) (os : Os) :
    (reap p exit os).1.Waited (reap p exit os).2.2 := by
  simp only [reap]
  by_cases hreaped : p.reaped = true
  · rw [if_pos hreaped]
    exact .inl hreaped
  · rw [if_neg hreaped, Os.tryWait]
    rcases hget : os.groups.get? p.child.pid with _ | ⟨_ | owner, _ | _ | _, others⟩
    all_goals first | exact .inl rfl | exact .inr ⟨owner, others, hget⟩

theorem reap_child (p : Proc) (exit : Option ℤ) (os : Os) :
    (reap p exit os).1.child = p.child ∧ (reap p exit os).1.pgid = p.pgid ∧
      (reap p exit os).1.dir = p.dir ∧ (reap p exit os).1.groupGone = p.groupGone := by
  simp only [reap]
  split_ifs
  · exact ⟨rfl, rfl, rfl, rfl⟩
  · rcases os.tryWait p.child with ⟨_ | _ | _, os'⟩ <;> exact ⟨rfl, rfl, rfl, rfl⟩

theorem get?_settle (os : Os) (pgid : ℕ) (g : Group) (n : ℕ) :
    (os.settle pgid g).groups.get? n = if pgid = n then
      (if g.leader = .reaped ∧ g.others = 0 then none else some g) else os.groups.get? n := by
  rw [Os.settle]
  split_ifs with hempty hn hn
  · rw [SortedMap.get?_erase, if_pos hn]
  · rw [SortedMap.get?_erase, if_neg hn]
  · rw [SortedMap.get?_insert, if_pos hn]
  · rw [SortedMap.get?_insert, if_neg hn]

theorem settle_same (os : Os) (pgid : ℕ) (g : Group) :
    (os.settle pgid g).seen = os.seen ∧ (os.settle pgid g).sent = os.sent ∧
      (os.settle pgid g).cleaned = os.cleaned := by
  rw [Os.settle]
  split_ifs <;> exact ⟨rfl, rfl, rfl⟩

/-- What reaping does to the system. -/
theorem reap_os (p : Proc) (exit : Option ℤ) (os : Os) :
    (∀ n g, (reap p exit os).2.2.groups.get? n = some g →
      ∃ g', os.groups.get? n = some g' ∧ g'.owner = g.owner) ∧
    (reap p exit os).2.2.sent = os.sent ∧ os.seen <+: (reap p exit os).2.2.seen ∧
    (reap p exit os).2.2.cleaned = os.cleaned := by
  rw [reap]
  split_ifs
  · exact ⟨fun n g hg => ⟨g, hg, rfl⟩, rfl, List.prefix_refl _, rfl⟩
  · rw [Os.tryWait]
    rcases hget : os.groups.get? p.child.pid with _ | ⟨_ | owner, _ | code | _, others⟩
    case some.some.zombie =>
      obtain ⟨hseen, hsent, hcleaned⟩ := settle_same os p.child.pid ⟨some owner, .reaped, others⟩
      refine ⟨fun n g hg => ?_, hsent, ?_, hcleaned⟩
      · simp only [get?_settle] at hg
        split_ifs at hg with hn
        · rw [← Option.some.inj hg]
          exact ⟨⟨some owner, .zombie code, others⟩, hn ▸ hget, rfl⟩
        · exact ⟨g, hg, rfl⟩
      · simp only [hseen]
        exact List.prefix_append _ _
    case some.some.running => exact ⟨fun n g hg => ⟨g, hg, rfl⟩, rfl, List.prefix_refl _, rfl⟩
    all_goals exact ⟨fun n g hg => ⟨g, hg, rfl⟩, rfl, List.prefix_append _ _, rfl⟩

/-- What a signal does: nothing, it finds no group, or the group gets it. -/
theorem signal_cases (p : Proc) (env : Env) (os : Os) (sig : Sig) :
    (p.signal env os sig).2 = (p, os) ∨
      (p.groupGone = false ∧ os.groups.get? p.pgid = none ∧ (p.signal env os sig).2 =
        ({ p with groupGone := true }, { os with seen := os.seen ++ [.empty p.child.owner] })) ∨
      (p.groupGone = false ∧ ∃ g, os.groups.get? p.pgid = some g ∧ (p.signal env os sig).2 =
        (p, { os with sent := os.sent ++ [⟨sig, p.child.owner, g.owner⟩] })) := by
  rcases hgone : p.groupGone with _ | _
  · rw [Proc.signal, hgone, if_neg Bool.false_ne_true, Os.signalGroup]
    rcases env.kill p.pgid sig with _ | why
    · rcases hget : os.groups.get? p.pgid with _ | g
      · exact .inr (.inl ⟨rfl, rfl, rfl⟩)
      · rcases sig with _ | _ | _
        · exact .inl rfl
        all_goals exact .inr (.inr ⟨rfl, g, rfl, rfl⟩)
    · exact .inl rfl
  · rw [Proc.signal, hgone]
    exact .inl rfl

/-- A signal leaves the number as it is. -/
theorem waited_signal {p : Proc} {os : Os} (h : p.Waited os) (env : Env) (sig : Sig) :
    (p.signal env os sig).2.1.Waited (p.signal env os sig).2.2 := by
  rcases signal_cases p env os sig with hs | ⟨-, -, hs⟩ | ⟨-, g, -, hs⟩ <;> rw [hs] <;> exact h

variable {D : Prop} {r : HostRunner} {id : String} {t : Task} {p : Proc} {os : Os}

/-- Marks on the stop of a task that leave its end open. -/
theorem Path.stopping {st st' : Stopping} (h : Path D r (r.put id t os)) (hstop : t.stop = some st)
    (hgone : st'.gone = st.gone) (hdone : st'.dockerDone = st.dockerDone) :
    Path D r (r.put id { t with stop := some st' } os) := by
  refine h.mark rfl rfl (fun hg => .inl ?_) ?_
  · simpa [Task.isGone, hstop, hgone] using hg
  · simp [Task.isRemoved, hstop, hdone]

theorem stuck_same (st : Stopping) (now : ℕ) :
    (st.stuck now).gone = st.gone ∧ (st.stuck now).dockerDone = st.dockerDone := by
  rw [Stopping.stuck]
  split_ifs <;> exact ⟨rfl, rfl⟩

theorem path_sigkill (h : Path D r (r.put id t os)) (hbody : t.body = .proc p)
    (hwaited : p.Waited os) (env : Env) :
    Path D r (r.put id { t with body := .proc (p.sigkill env os).1 } (p.sigkill env os).2) := by
  have hsent := h.signal hbody hwaited env .kill
  rcases hreaped : (p.signal env os .kill).2.1.reaped with _ | _
  · have hkilled := hsent.killChild rfl hreaped
    simpa only [Proc.sigkill, hreaped, Bool.false_eq_true, if_false] using hkilled
  · simpa only [Proc.sigkill, hreaped, if_true] using hsent

theorem path_escalate {st : Stopping} (h : Path D r (r.put id t os)) (hbody : t.body = .proc p)
    (hstop : t.stop = some st) (hwaited : p.Waited os) (now : ℕ) (env : Env) :
    ∃ gone q st' os', escalate p st now env os = (gone, q, st', os') ∧
      Path D r (r.put id { t with body := .proc q, stop := some st' } os') ∧
      (gone = true → q.reaped = true ∧ q.groupGone = true) ∧
      st'.gone = st.gone ∧ st'.dockerDone = st.dockerDone := by
  -- The probe of a child that is reaped.
  obtain ⟨q, os₁, hq, hpath, hwaited⟩ : ∃ q os₁,
      (if p.reaped then (p.signal env os .probe).2 else (p, os)) = (q, os₁) ∧
      Path D r (r.put id { t with body := .proc q } os₁) ∧ q.Waited os₁ := by
    by_cases hreaped : p.reaped = true
    · exact ⟨_, _, if_pos hreaped, h.signal hbody hwaited env .probe,
        waited_signal hwaited env .probe⟩
    · exact ⟨p, os, if_neg hreaped, hbody ▸ h, hwaited⟩
  have hstop' : ({ t with body := .proc q } : Task).stop = some st := hstop
  simp only [escalate, hq]
  split_ifs with hgone hkill
  · exact ⟨_, _, _, _, rfl, hstop ▸ hpath, fun _ => hgone, rfl, rfl⟩
  · have hkilled := path_sigkill hpath rfl hwaited env
    obtain ⟨hsame, hdone⟩ := stuck_same { st with killed := some now } now
    exact ⟨_, _, _, _, rfl, hkilled.stopping hstop hsame hdone, by simp, hsame, hdone⟩
  · obtain ⟨hsame, hdone⟩ := stuck_same st now
    exact ⟨_, _, _, _, rfl, hpath.stopping hstop' hsame hdone, by simp, hsame, hdone⟩

/-- The end of a task is marked when it is known. -/
theorem Path.ending (h : Path D r (r.put id t os)) (hended : t.Ended) (now : ℕ) :
    Path D r (r.put id (t.markGone now) os) := by
  refine h.mark rfl rfl (fun _ => .inr hended) ?_
  rw [Task.isRemoved, Task.isRemoved, Task.markGone]
  rcases t.stop with _ | st
  · rfl
  · simp only [Option.map_some, Option.any_some]
    split_ifs <;> rfl

theorem path_reap (h : Path D r (r.put id t os)) : Path D r (r.put id (t.reap os).1 (t.reap os).2) := by
  rcases hbody : t.body with p | name
  · simpa only [Task.reap, hbody] using h.reap hbody (Host.reap p t.exit os).2.1
  · simpa only [Task.reap, hbody] using h

theorem path_stopOne {st : Stopping} (h : Path D r (r.put id t os)) (hstop : t.stop = some st)
    (hwaited : ∀ p, t.body = .proc p → p.Waited os) (now : ℕ) (env : Env) :
    ∃ gone t' os', t.escalate st now env os = (gone, t', os') ∧ Path D r (r.put id t' os') ∧
      (gone = true → t'.Ended) := by
  rcases hbody : t.body with p | name
  · obtain ⟨gone, q, st', os', hesc, hpath, hended, -, -⟩ :=
      path_escalate h hbody hstop (hwaited p hbody) now env
    exact ⟨_, _, _, by simp only [Task.escalate, hbody, hesc], hpath, hended⟩
  · refine ⟨st.dockerDone, t, os, by simp only [Task.escalate, hbody], h, fun hdone => ?_⟩
    simpa [Task.Ended, hbody, Task.isRemoved, hstop] using hdone

/-- The work on one task at a tick, and that a task that is to be cleaned up is at its end. -/
theorem path_tickOne (r : HostRunner) (now : ℕ) (env : Env) (id : String) :
    Path D r (r.tickOne now env id).2 ∧ ((r.tickOne now env id).1 = true →
      ∃ t, (r.tickOne now env id).2.tasks.get? id = some t ∧ t.isGone = true) := by
  rw [HostRunner.tickOne]
  rcases ht : r.tasks.get? id with _ | t
  · exact ⟨.refl, by simp⟩
  have hreaped : Path D r (r.put id (t.reap r.os).1 (t.reap r.os).2) := path_reap (.here ht)
  rcases hstop : (t.reap r.os).1.stop with _ | st
  · simpa [hstop] using hreaped
  · have hwaited : ∀ p, (t.reap r.os).1.body = .proc p → p.Waited (t.reap r.os).2 := by
      intro p hp
      rcases hbody : t.body with q | name
      · simp only [Task.reap, hbody, Body.proc.injEq] at hp ⊢
        rw [← hp]
        exact waited_reap q t.exit r.os
      · simp [Task.reap, hbody] at hp
    obtain ⟨gone, t', os', hesc, hpath, hended⟩ := path_stopOne hreaped hstop hwaited now env
    simp only [hstop, hesc]
    refine ⟨?_, fun hdone => ⟨_, r.get?_put_self id _ os', ?_⟩⟩
    · split_ifs with hgone
      · exact hpath.ending (hended hgone) now
      · exact hpath
    · rw [Task.isGone]
      rw [Task.isDone] at hdone
      rcases hst : (if gone = true then t'.markGone now else t').stop with _ | st
      · simp [hst] at hdone
      · rcases hg : st.gone with _ | since
        · simp [hst, hg] at hdone
        · simp [hg]

theorem tickOne_of_ne (r : HostRunner) (now : ℕ) (env : Env) {id k : String} (hk : id ≠ k) :
    (r.tickOne now env id).2.tasks.get? k = r.tasks.get? k := by
  rw [HostRunner.tickOne]
  rcases r.tasks.get? id with _ | t
  · rfl
  · rcases hstop : (t.reap r.os).1.stop with _ | st
    · simp only [hstop]
      rw [HostRunner.get?_put, if_neg hk]
    · simp only [hstop]
      rw [HostRunner.get?_put, if_neg hk]

/-- The ticks of the tasks, one after the other. -/
theorem path_tickEach (now : ℕ) (env : Env) (ids : List String) (hnodup : ids.Nodup)
    (r : HostRunner) :
    Path D r (HostRunner.tickEach now env ids r).2 ∧
      (HostRunner.tickEach now env ids r).1.Sublist ids ∧
      (∀ k, k ∉ ids → (HostRunner.tickEach now env ids r).2.tasks.get? k = r.tasks.get? k) ∧
      ∀ id ∈ (HostRunner.tickEach now env ids r).1, ∃ t,
        (HostRunner.tickEach now env ids r).2.tasks.get? id = some t ∧ t.isGone = true := by
  induction ids generalizing r with
  | nil => exact ⟨.refl, List.Sublist.refl _, fun _ _ => rfl, by simp [HostRunner.tickEach]⟩
  | cons id ids ih =>
    obtain ⟨hid, hnodup⟩ := List.nodup_cons.mp hnodup
    obtain ⟨hone, hdone⟩ := path_tickOne (D := D) r now env id
    obtain ⟨hpath, hsub, hrest, hgone⟩ := ih hnodup (r.tickOne now env id).2
    simp only [HostRunner.tickEach]
    refine ⟨hone.trans hpath, ?_, fun k hk => ?_, fun k hk => ?_⟩
    · split_ifs
      · exact hsub.cons_cons id
      · exact hsub.cons id
    · obtain ⟨hkid, hk⟩ := by simpa only [List.mem_cons, not_or] using hk
      rw [hrest k hk, tickOne_of_ne r now env (Ne.symm hkid)]
    · split_ifs at hk with hflag
      · rcases List.mem_cons.mp hk with rfl | hk
        · rw [hrest k hid]
          exact hdone hflag
        · exact hgone k hk
      · exact hgone k hk

/-- What cleaning a directory up leaves. -/
theorem cleanup_spec (d : TaskDir) (env : Env) (os : Os) :
    (d.cleanup env os).2.1.path = d.path ∧ ∃ new, (∀ c ∈ new, c = d.path) ∧
      (d.cleanup env os).2.2 = { os with cleaned := os.cleaned ++ new } := by
  rw [TaskDir.cleanup]
  split_ifs
  · exact ⟨rfl, [], by simp, by simp⟩
  all_goals exact ⟨rfl, [d.path], by simp, rfl⟩

/-- A directory that cannot be cleaned up is in quarantine afterwards. -/
theorem mem_quarantined {res : Except HostError Unit} {quarantine : List TaskDir} {d dir : TaskDir}
    (h : d ∈ (match res with
      | .ok () => quarantine
      | .error _ => quarantine ++ [dir])) : d ∈ quarantine ∨ d = dir := by
  rcases res with e | u
  · exact (List.mem_append.mp h).imp_right List.mem_singleton.mp
  · exact .inl h

/-- A task is forgotten. -/
theorem move_finish (ht : r.tasks.get? id = some t) (hgone : t.isGone = true) (env : Env) :
    Move D r (r.finish env id) := by
  rw [HostRunner.finish, ht]
  rcases hbody : t.body with p | name
  · obtain ⟨hpath, new, hnew, hos⟩ := cleanup_spec p.dir env r.os
    simp only [hbody, hos]
    have hdir : ∀ d, d = (p.dir.cleanup env r.os).2.1 →
        ∃ p', t.body = .proc p' ∧ d.path = p'.dir.path := fun d hd => ⟨p, hbody, hd ▸ hpath⟩
    split_ifs with hcgroup
    · refine .finish (new ++ [id]) ht hgone rfl rfl (by simp) (fun c hc => ?_)
        fun d hd => (mem_quarantined hd).imp_right (hdir d)
      rcases List.mem_append.mp hc with hc | hc
      · exact .inr ⟨p, hbody, hnew c hc⟩
      · exact .inl (List.mem_singleton.mp hc)
    · exact .finish new ht hgone rfl rfl rfl (fun c hc => .inr ⟨p, hbody, hnew c hc⟩)
        fun d hd => (mem_quarantined hd).imp_right (hdir d)
  · refine .finish [] ht hgone ?_ ?_ ?_ (by simp) ?_ <;> simp [hbody]

theorem finish_of_ne (r : HostRunner) (env : Env) {id k : String} (hk : id ≠ k) :
    (r.finish env id).tasks.get? k = r.tasks.get? k := by
  rw [HostRunner.finish]
  rcases r.tasks.get? id with _ | t
  · rfl
  · rcases hbody : t.body with p | name
    · simp only [hbody]
      split_ifs <;> exact (SortedMap.get?_erase _ _ _).trans (if_neg hk)
    · simp only [hbody]
      exact (SortedMap.get?_erase _ _ _).trans (if_neg hk)

theorem path_finishEach (env : Env) (ids : List String) (hnodup : ids.Nodup) (r : HostRunner)
    (hgone : ∀ id ∈ ids, ∃ t, r.tasks.get? id = some t ∧ t.isGone = true) :
    Path D r (ids.foldl (fun r id => r.finish env id) r) := by
  induction ids generalizing r with
  | nil => exact .refl
  | cons id ids ih =>
    obtain ⟨hid, hnodup⟩ := List.nodup_cons.mp hnodup
    obtain ⟨t, ht, ht'⟩ := hgone id List.mem_cons_self
    refine .head (move_finish ht ht' env) (ih hnodup _ fun k hk => ?_)
    have hne : id ≠ k := fun heq => hid (heq ▸ hk)
    rw [finish_of_ne r env hne]
    exact hgone k (List.mem_cons_of_mem _ hk)

theorem retryEach_spec (env : Env) (ds : List TaskDir) (os : Os) :
    (∀ d ∈ (HostRunner.retryEach env ds os).1, ∃ d' ∈ ds, d.path = d'.path) ∧
      ∃ new, (∀ c ∈ new, ∃ d ∈ ds, c = d.path) ∧
        (HostRunner.retryEach env ds os).2 = { os with cleaned := os.cleaned ++ new } := by
  induction ds generalizing os with
  | nil => exact ⟨by simp [HostRunner.retryEach], [], by simp, by simp [HostRunner.retryEach]⟩
  | cons d ds ih =>
    obtain ⟨hpath, new, hnew, hos⟩ := cleanup_spec d env os
    obtain ⟨hstay, more, hmore, hos'⟩ := ih (d.cleanup env os).2.2
    simp only [HostRunner.retryEach]
    refine ⟨fun e he => ?_, new ++ more, fun c hc => ?_, ?_⟩
    · have hold : e = (d.cleanup env os).2.1 ∨
          e ∈ (HostRunner.retryEach env ds (d.cleanup env os).2.2).1 := by
        rcases hres : (d.cleanup env os).1 with _ | _ <;> rw [hres] at he
        · exact List.mem_cons.mp he
        · exact .inr he
      rcases hold with rfl | hold
      · exact ⟨d, List.mem_cons_self, hpath⟩
      · obtain ⟨d', hd', heq⟩ := hstay e hold
        exact ⟨d', List.mem_cons_of_mem _ hd', heq⟩
    · rcases List.mem_append.mp hc with hc | hc
      · exact ⟨d, List.mem_cons_self, hnew c hc⟩
      · obtain ⟨d', hd', heq⟩ := hmore c hc
        exact ⟨d', List.mem_cons_of_mem _ hd', heq⟩
    · rw [hos', hos, List.append_assoc]

/-- The stop of a container is not reported as failed. -/
def HostRunner.Confirms (r : HostRunner) : Event → Prop
  | .stopped task generation (.error _) => ∀ t name, r.tasks.get? task = some t →
      t.body = .docker name → t.generation ≠ generation
  | _ => True

/-- A message changes at most the start that it is of. -/
theorem path_onEvent (r : HostRunner) (e : Event) (hD : D → r.Confirms e) :
    Path D r (r.onEvent e) := by
  rcases e with ⟨task, gen, text⟩ | ⟨task, gen⟩ | ⟨task, gen, result⟩
  · exact .refl
  · simp only [HostRunner.onEvent]
    rcases ht : r.tasks.get? task with _ | t
    · exact .refl
    · simp only
      split_ifs
      · exact (Path.here ht).mark rfl rfl .inl rfl
      · exact .refl
  · simp only [HostRunner.onEvent]
    rcases ht : r.tasks.get? task with _ | t
    · exact .refl
    rcases hstop : t.stop with _ | st
    · simp only [hstop]
      exact .refl
    · simp only [hstop]
      split_ifs with hgen
      · have hgone : ({ t with stop := some { st with dockerDone := true } } : Task).isGone =
            t.isGone := by simp [Task.isGone, hstop]
        rcases result with why | ⟨⟨⟩⟩
        · refine .single (.unremoved (fun hd => ?_) ht rfl rfl hgone rfl)
          rcases hbody : t.body with p | name
          · exact ⟨p, rfl⟩
          · exact absurd hgen (hD hd t name ht hbody)
        · rw [← hgen]
          exact .single (.removed ht rfl rfl hgone rfl)
      · exact .refl

/-- A message changes neither which start a record is of nor its body. -/
theorem onEvent_same (r : HostRunner) (e : Event) {k : String} {t : Task}
    (ht : (r.onEvent e).tasks.get? k = some t) :
    ∃ u, r.tasks.get? k = some u ∧ u.generation = t.generation ∧ u.body = t.body := by
  have hput : ∀ (task : String) (u u' : Task) (os : Os), r.tasks.get? task = some u →
      u'.generation = u.generation → u'.body = u.body →
      (r.put task u' os).tasks.get? k = some t →
      ∃ u, r.tasks.get? k = some u ∧ u.generation = t.generation ∧ u.body = t.body := by
    intro task u u' os hu hgen hbody hput
    rw [HostRunner.get?_put] at hput
    split_ifs at hput with hk
    · rw [← Option.some.inj hput]
      exact ⟨u, hk ▸ hu, hgen.symm, hbody.symm⟩
    · exact ⟨t, hput, rfl, rfl⟩
  rcases e with ⟨task, gen, text⟩ | ⟨task, gen⟩ | ⟨task, gen, result⟩
  · exact ⟨t, ht, rfl, rfl⟩
  · simp only [HostRunner.onEvent] at ht
    rcases hu : r.tasks.get? task with _ | u
    · rw [hu] at ht
      exact ⟨t, ht, rfl, rfl⟩
    · rw [hu] at ht
      dsimp only at ht
      split_ifs at ht
      · exact hput task u _ _ hu (by rfl) (by rfl) ht
      · exact ⟨t, ht, rfl, rfl⟩
  · simp only [HostRunner.onEvent] at ht
    rcases hu : r.tasks.get? task with _ | u
    · rw [hu] at ht
      exact ⟨t, ht, rfl, rfl⟩
    · rw [hu] at ht
      rcases hstop : u.stop with _ | st
      · simp only [hstop] at ht
        exact ⟨t, ht, rfl, rfl⟩
      · simp only [hstop] at ht
        split_ifs at ht
        · exact hput task u _ _ hu (by rfl) (by rfl) ht
        · exact ⟨t, ht, rfl, rfl⟩

theorem confirms_onEvent {r : HostRunner} {e : Event} (e' : Event) (h : r.Confirms e) :
    (r.onEvent e').Confirms e := by
  rcases e with ⟨task, gen, text⟩ | ⟨task, gen⟩ | ⟨task, gen, why | ⟨⟨⟩⟩⟩
  · trivial
  · trivial
  · intro t name ht hbody
    obtain ⟨u, hu, hgen, hbody'⟩ := onEvent_same r e' ht
    exact hgen ▸ h u name hu (hbody'.trans hbody)
  · trivial

theorem path_drain (r : HostRunner) (msgs : List Event) (hD : D → ∀ e ∈ msgs, r.Confirms e) :
    Path D r (r.drain msgs) := by
  induction msgs generalizing r with
  | nil => exact .refl
  | cons e msgs ih =>
    refine (path_onEvent r e fun hd => hD hd e List.mem_cons_self).trans (ih _ fun hd e' he => ?_)
    exact confirms_onEvent e (hD hd e' (List.mem_cons_of_mem _ he))

theorem path_tick (r : HostRunner) (now : ℕ) (msgs : List Event) (env : Env)
    (hD : D → ∀ e ∈ msgs, r.Confirms e) : Path D r (r.tick now msgs env) := by
  have hnote : Path D r { r with lastNow := now } := .single (.note rfl rfl rfl (le_refl _))
  have hdrain := hnote.trans (path_drain { r with lastNow := now } msgs hD)
  simp only [HostRunner.tick]
  generalize ({ r with lastNow := now } : HostRunner).drain msgs = q at hdrain ⊢
  obtain ⟨heach, hsub, -, hgone⟩ := path_tickEach (D := D) now env _ q.tasks.keys_nodup q
  have hfinish := path_finishEach (D := D) env _ (hsub.nodup q.tasks.keys_nodup) _ hgone
  refine (hdrain.trans (heach.trans hfinish)).tail ?_
  obtain ⟨hquar, new, hnew, hos⟩ := retryEach_spec env (List.foldl (fun r id => r.finish env id)
    (HostRunner.tickEach now env q.tasks.keys q).2 (HostRunner.tickEach now env q.tasks.keys q).1
      ).quarantine _
  exact .retry new rfl rfl hos hnew hquar

/-- A container that the runner stops itself is stopped and removed. -/
def GoodEnv (env : Env) : Prop := env.thread = false → env.stopAndRemove.isOk = true

theorem path_beginStop (r : HostRunner) (now : ℕ) (id : String) (env : Env)
    (hD : D → ∀ t name, r.tasks.get? id = some t → t.body = .docker name → GoodEnv env) :
    Path D r (r.beginStop now id env).2 := by
  rw [HostRunner.beginStop]
  rcases ht : r.tasks.get? id with _ | t
  · exact .refl
  rcases hstop : t.stop with _ | st
  · have hhere : Path D r (r.put id t r.os) := .here ht
    -- The stop begins with nothing known of the end.
    have hbegin : ∀ (b : Body) (exit : Option ℤ) (os : Os),
        Path D r (r.put id { t with body := b, exit := exit } os) →
        Path D r (r.put id { t with body := b, exit := exit, stop := some { since := now } } os) := by
      intro b exit os h
      refine h.mark rfl rfl (fun hg => absurd hg (by simp [Task.isGone])) ?_
      simp [Task.isRemoved, hstop]
    rcases hbody : t.body with p | name
    · simp only [hstop, hbody, Option.isSome_none, Bool.false_eq_true, if_false]
      have hreaped := hhere.reap hbody (reap p t.exit r.os).2.1
      exact hbegin _ _ _ (hreaped.signal rfl (waited_reap p t.exit r.os) env .term)
    · simp only [hstop, hbody, Option.isSome_none, Bool.false_eq_true, if_false]
      have hgone : ({ t with stop := some ({ since := now, dockerDone := true } : Stopping) } :
          Task).isGone = t.isGone := by simp [Task.isGone, hstop]
      split_ifs with hthread
      · refine hbegin (.docker name) t.exit r.os ?_
        rw [← hbody]
        exact hhere
      · rcases hres : env.stopAndRemove with why | ⟨⟨⟩⟩
        · refine .single (.unremoved (fun hd => ?_) ht rfl hbody.symm hgone rfl)
          have hgood := hD hd t name ht hbody (by simpa using hthread)
          simp [hres, Except.isOk, Except.toBool] at hgood
        · exact .single (.removed ht rfl hbody.symm hgone rfl)
  · simp only [hstop, Option.isSome_some, if_true]
    exact .refl

theorem path_status (r : HostRunner) (id : String) (env : Env) : Path D r (r.status id env).2 := by
  simp only [HostRunner.status]
  rcases ht : r.tasks.get? id with _ | t
  · exact .refl
  have hhere : Path D r (r.put id t r.os) := .here ht
  rcases hbody : t.body with p | name
  · simp only [hbody]
    have hreaped := hhere.reap hbody (reap p t.exit r.os).2.1
    split_ifs
    · exact hreaped.signal rfl (waited_reap p t.exit r.os) env .probe
    · exact hreaped
  · simp only [hbody]
    rcases env.inspect with why | _ | ⟨_ | _, code⟩
    · exact .refl
    · exact .refl
    · exact hhere.mark rfl hbody.symm .inl rfl
    · exact .refl

theorem path_stop (r : HostRunner) (now : ℕ) (id : String) (env : Env)
    (hD : D → ∀ t name, r.tasks.get? id = some t → t.body = .docker name → GoodEnv env) :
    Path D r (r.stop now id env).2 := by
  have hnote : Path D r { r with lastNow := now } := .single (.note rfl rfl rfl (le_refl _))
  exact hnote.trans (path_beginStop _ now id env hD)

theorem path_stopEach (now : ℕ) (env : Env) (hD : D → GoodEnv env) (ids : List String)
    (r : HostRunner) : Path D r (ids.foldl (fun r id => (r.stop now id env).2) r) := by
  induction ids generalizing r with
  | nil => exact .refl
  | cons id ids ih => exact (path_stop r now id env fun hd _ _ _ _ => hD hd).trans (ih _)

theorem path_shutdownTicks (env : Env) (base : ℕ) (ticks : List (ℕ × List Event))
    (hD : D → ∀ p ∈ ticks, ∀ e ∈ p.2, ∀ r : HostRunner, r.Confirms e) (r : HostRunner) :
    Path D r (HostRunner.shutdownTicks env base ticks r) := by
  induction ticks generalizing r with
  | nil => exact .refl
  | cons p ticks ih =>
    obtain ⟨elapsed, msgs⟩ := p
    have htick := path_tick r (satAdd u64Max base elapsed) msgs env fun hd e he =>
      hD hd (elapsed, msgs) List.mem_cons_self e he r
    simp only [HostRunner.shutdownTicks]
    split_ifs
    · exact htick
    · exact htick.trans (ih (fun hd p hp => hD hd p (List.mem_cons_of_mem _ hp)) _)

theorem path_shutdown (r : HostRunner) (ticks : List (ℕ × List Event)) (env : Env)
    (henv : D → GoodEnv env) (hD : D → ∀ p ∈ ticks, ∀ e ∈ p.2, ∀ r : HostRunner, r.Confirms e) :
    Path D r (r.shutdown ticks env) :=
  (path_stopEach r.lastNow env henv _ r).trans (path_shutdownTicks env r.lastNow ticks hD _)

/-! ### What holds along every path -/

/-- What the runner knows of a task is so. -/
structure TaskKept (os : Os) (id : String) (t : Task) (p : Proc) : Prop where
  owner : p.child.owner = t.generation
  pid : p.child.pid = p.pgid
  path : p.dir.path = id
  /-- The group of the task has the number that the runner knows. -/
  number : ∀ n g, os.groups.get? n = some g → g.owner = some t.generation → n = p.pgid
  /-- A child that is not reaped holds the number. -/
  held : p.reaped = false → ∃ g, os.groups.get? p.pgid = some g ∧
    g.owner = some t.generation ∧ g.leader ≠ .reaped
  reaped : p.reaped = true → .reaped t.generation ∈ os.seen
  gone : p.groupGone = true → [.reaped t.generation, .empty t.generation].Sublist os.seen ∧
    os.Extinct t.generation
  ended : t.isGone = true → p.reaped = true ∧ p.groupGone = true

/-- **The runner knows its tasks.** -/
structure Kept (r : HostRunner) : Prop where
  tasks : ∀ id t p, r.tasks.get? id = some t → t.body = .proc p → TaskKept r.os id t p
  removed : ∀ id t name, r.tasks.get? id = some t → t.body = .docker name → t.isGone = true →
    t.isRemoved = true
  generation : ∀ id t, r.tasks.get? id = some t → t.generation < r.nextGeneration
  distinct : ∀ id id' t t', r.tasks.get? id = some t → r.tasks.get? id' = some t' →
    t.generation = t'.generation → id = id'
  owners : ∀ n g a, r.os.groups.get? n = some g → g.owner = some a → a < r.nextGeneration

/-- The system as far as the other tasks see it. -/
structure Os.Frame (generation : ℕ) (os os' : Os) : Prop where
  /-- The groups of others are as they were. -/
  others : ∀ n g, g.owner ≠ some generation →
    (os'.groups.get? n = some g ↔ os.groups.get? n = some g)
  /-- The group of this start is where it was. -/
  own : ∀ n g, os'.groups.get? n = some g → g.owner = some generation →
    ∃ g', os.groups.get? n = some g' ∧ g'.owner = some generation
  seen : os.seen <+: os'.seen

namespace Os.Frame

variable {generation : ℕ} {os os' : Os}

theorem of_groups (h : os'.groups = os.groups) (hseen : os.seen <+: os'.seen) :
    Os.Frame generation os os' := by
  refine ⟨fun n g _ => by rw [h], fun n g hg hown => ⟨g, h ▸ hg, hown⟩, hseen⟩

/-- Whose group it is that has a number does not change. -/
theorem owner_of_get? (h : Os.Frame generation os os') {n : ℕ} {g : Group}
    (hg : os'.groups.get? n = some g) : ∃ g', os.groups.get? n = some g' ∧ g'.owner = g.owner := by
  by_cases hown : g.owner = some generation
  · obtain ⟨g', hg', hown'⟩ := h.own n g hg hown
    exact ⟨g', hg', hown'.trans hown.symm⟩
  · exact ⟨g, (h.others n g hown).mp hg, rfl⟩

theorem extinct (h : Os.Frame generation os os') {a : ℕ} (hx : os.Extinct a) : os'.Extinct a := by
  intro n g hg hown
  obtain ⟨g', hg', hown'⟩ := h.owner_of_get? hg
  exact hx n g' hg' (hown'.trans hown)

/-- What is known of another task stays so. -/
theorem taskKept (h : Os.Frame generation os os') {id : String} {t : Task} {p : Proc}
    (hne : t.generation ≠ generation) (hk : TaskKept os id t p) : TaskKept os' id t p where
  owner := hk.owner
  pid := hk.pid
  path := hk.path
  number n g hg hown := by
    obtain ⟨g', hg', hown'⟩ := h.owner_of_get? hg
    exact hk.number n g' hg' (hown'.trans hown)
  held hr := by
    obtain ⟨g, hg, hown, hleader⟩ := hk.held hr
    refine ⟨g, (h.others p.pgid g ?_).mpr hg, hown, hleader⟩
    rw [hown]
    exact fun heq => hne (Option.some.inj heq)
  reaped hr := h.seen.subset (hk.reaped hr)
  gone hg := ⟨(hk.gone hg).1.trans h.seen.sublist, h.extinct (hk.gone hg).2⟩
  ended := hk.ended

end Os.Frame

namespace Kept

/-- One task changes. -/
theorem put {w : Task} {os' : Os} (h : Kept r) (ht : r.tasks.get? id = some t)
    (hgen : w.generation = t.generation) (hframe : Os.Frame t.generation r.os os')
    (htask : ∀ p, w.body = .proc p → TaskKept os' id w p)
    (hdocker : ∀ name, w.body = .docker name → w.isGone = true → w.isRemoved = true) :
    Kept (r.put id w os') := by
  have hget : ∀ k u, (r.put id w os').tasks.get? k = some u →
      (k = id ∧ u = w) ∨ (k ≠ id ∧ r.tasks.get? k = some u) := by
    intro k u hu
    rw [HostRunner.get?_put] at hu
    split_ifs at hu with hk
    · exact .inl ⟨hk.symm, (Option.some.inj hu).symm⟩
    · exact .inr ⟨Ne.symm hk, hu⟩
  -- A record has the start that it had before.
  have hold : ∀ k u, (r.put id w os').tasks.get? k = some u →
      ∃ v, r.tasks.get? k = some v ∧ u.generation = v.generation := by
    intro k u hu
    rcases hget k u hu with ⟨rfl, rfl⟩ | ⟨-, hu⟩
    · exact ⟨t, ht, hgen⟩
    · exact ⟨u, hu, rfl⟩
  refine ⟨?_, ?_, ?_, ?_, ?_⟩
  · intro k u p hu hbody
    rcases hget k u hu with ⟨rfl, rfl⟩ | ⟨hk, hu⟩
    · exact htask p hbody
    · exact hframe.taskKept (fun heq => hk (h.distinct k id u t hu ht heq)) (h.tasks k u p hu hbody)
  · intro k u name hu hbody
    rcases hget k u hu with ⟨rfl, rfl⟩ | ⟨-, hu⟩
    · exact hdocker name hbody
    · exact h.removed k u name hu hbody
  · intro k u hu
    obtain ⟨v, hv, heq⟩ := hold k u hu
    exact heq ▸ h.generation k v hv
  · intro k k' u u' hu hu' heq
    obtain ⟨v, hv, hgv⟩ := hold k u hu
    obtain ⟨v', hv', hgv'⟩ := hold k' u' hu'
    exact h.distinct k k' v v' hv hv' (by omega)
  · intro n g a hg hown
    obtain ⟨g', hg', hown'⟩ := hframe.owner_of_get? hg
    exact h.owners n g' a hg' (hown'.trans hown)

/-- The record of a process is marked. -/
theorem task_of_eq {t' : Task} (hk : TaskKept os id t p) (hgen : t'.generation = t.generation)
    (hended : t'.isGone = true → p.reaped = true ∧ p.groupGone = true) : TaskKept os id t' p where
  owner := hgen ▸ hk.owner
  pid := hk.pid
  path := hk.path
  number := hgen ▸ hk.number
  held := hgen ▸ hk.held
  reaped := hgen ▸ hk.reaped
  gone := hgen ▸ hk.gone
  ended := hended

theorem mark {t' : Task} (h : Kept r) (ht : r.tasks.get? id = some t)
    (hgen : t'.generation = t.generation) (hbody : t'.body = t.body)
    (hgone : t'.isGone = true → t.isGone = true ∨ t.Ended)
    (hremoved : t.isRemoved = true → t'.isRemoved = true) {os' : Os}
    (hgroups : os'.groups = r.os.groups) (hseen : r.os.seen <+: os'.seen) :
    Kept (r.put id t' os') := by
  have hframe : Os.Frame t.generation r.os os' := .of_groups hgroups hseen
  refine h.put ht hgen hframe (fun p hp => ?_) fun name hname hg => ?_
  · have hk := h.tasks id t p ht (hbody ▸ hp)
    -- The frame is for the other tasks: of this one the groups are the same as well.
    have hk' : TaskKept os' id t p :=
      { owner := hk.owner
        pid := hk.pid
        path := hk.path
        number := hgroups ▸ hk.number
        held := hgroups ▸ hk.held
        reaped := fun hr => hseen.subset (hk.reaped hr)
        gone := fun hg => ⟨(hk.gone hg).1.trans hseen.sublist, hframe.extinct (hk.gone hg).2⟩
        ended := hk.ended }
    refine task_of_eq hk' hgen fun hg => ?_
    rcases hgone hg with hg | hended
    · exact hk.ended hg
    · simpa only [Task.Ended, ← hbody, hp] using hended
  · rcases hgone hg with hg | hended
    · exact hremoved (h.removed id t name ht (hbody ▸ hname) hg)
    · refine hremoved ?_
      simpa only [Task.Ended, ← hbody, hname] using hended

/-- The child is reaped, or it still runs. -/
theorem reap (h : Kept r) (ht : r.tasks.get? id = some t) (hbody : t.body = .proc p)
    (exit : Option ℤ) :
    Kept (r.put id { t with body := .proc (Host.reap p t.exit r.os).1, exit := exit }
      (Host.reap p t.exit r.os).2.2) := by
  have hk := h.tasks id t p ht hbody
  have hsame : p.reaped = true ∨ (∃ o others,
      r.os.groups.get? p.child.pid = some ⟨some o, .running, others⟩) →
      (Host.reap p t.exit r.os).1 = p ∧ (Host.reap p t.exit r.os).2.2 = r.os := by
    rintro (hr | ⟨o, others, hg⟩)
    · rw [Host.reap, if_pos hr]
      exact ⟨rfl, rfl⟩
    · by_cases hr : p.reaped = true
      · rw [Host.reap, if_pos hr]
        exact ⟨rfl, rfl⟩
      · rw [Host.reap, if_neg hr, Os.tryWait, hg]
        exact ⟨rfl, rfl⟩
  by_cases hquiet : p.reaped = true ∨ ∃ o others,
      r.os.groups.get? p.child.pid = some ⟨some o, .running, others⟩
  · obtain ⟨hp, hos⟩ := hsame hquiet
    rw [hp, hos]
    refine h.put (w := { t with body := .proc p, exit := exit }) ht rfl
      (.of_groups rfl (List.prefix_refl _)) (fun q hq => ?_) (fun name hname => by cases hname)
    obtain rfl : p = q := Body.proc.inj hq
    exact task_of_eq hk rfl hk.ended
  · -- The child ended, and nobody asked for that yet.
    obtain ⟨hr, hrun⟩ := not_or.mp hquiet
    obtain ⟨g, hg, hown, hleader⟩ := hk.held (by simpa using hr)
    obtain ⟨code, others, rfl⟩ : ∃ code others, g = ⟨some t.generation, .zombie code, others⟩ := by
      obtain ⟨o, leader, others⟩ := g
      obtain rfl : o = some t.generation := hown
      rcases leader with _ | code | _
      · exact absurd ⟨_, others, hk.pid ▸ hg⟩ hrun
      · exact ⟨code, others, rfl⟩
      · exact absurd rfl hleader
    have hres : Host.reap p t.exit r.os = ({ p with reaped := true }, code,
        { r.os.settle p.pgid ⟨some t.generation, .reaped, others⟩ with
          seen := r.os.seen ++ [.reaped t.generation] }) := by
      rw [Host.reap, if_neg hr, Os.tryWait, hk.pid, hg, hk.owner]
      simp only [(settle_same _ _ _).1]
    rw [hres]
    have hgroups : ∀ n, (r.os.settle p.pgid ⟨some t.generation, .reaped, others⟩).groups.get? n =
        if p.pgid = n then (if others = 0 then none else some ⟨some t.generation, .reaped, others⟩)
        else r.os.groups.get? n := by
      intro n
      simp only [get?_settle, true_and]
    have hback : ∀ n g', (r.os.settle p.pgid ⟨some t.generation, .reaped, others⟩).groups.get? n =
        some g' → g'.owner = some t.generation → n = p.pgid := by
      intro n g' hg' hown'
      rw [hgroups] at hg'
      split_ifs at hg' with hn hothers
      · exact hn.symm
      · exact hk.number n g' hg' hown'
    refine h.put (w := { t with body := .proc { p with reaped := true }, exit := exit }) ht rfl
      ⟨fun n g' hne => ?_, fun n g' hg' hown' => ?_, List.prefix_append _ _⟩
      (fun q hq => ?_) (fun name hname => by cases hname)
    · simp only [hgroups]
      by_cases hn : p.pgid = n
      · -- At this number there is the group of the task, before and after.
        subst hn
        rw [hg, if_pos rfl]
        constructor
        · intro hg'
          split_ifs at hg' with hothers
          rw [← Option.some.inj hg'] at hne
          exact absurd rfl hne
        · intro hg'
          rw [← Option.some.inj hg'] at hne
          exact absurd rfl hne
      · simp only [hn, if_false]
    · have hn := hback n g' hg' hown'
      subst hn
      exact ⟨_, hg, rfl⟩
    · obtain rfl : { p with reaped := true } = q := Body.proc.inj hq
      refine ⟨hk.owner, hk.pid, hk.path, hback, by simp, fun _ => by simp, fun hgone => ?_, fun hgone => ?_⟩
      · obtain ⟨hsub, hextinct⟩ := hk.gone hgone
        exact absurd rfl (hextinct p.pgid _ hg)
      · exact absurd (hk.ended hgone).1 hr

/-- The group of a task gets a signal, or is found empty. -/
theorem signal (h : Kept r) (ht : r.tasks.get? id = some t) (hbody : t.body = .proc p)
    (hwaited : p.Waited r.os) (env : Env) (sig : Sig) :
    Kept (r.put id { t with body := .proc (p.signal env r.os sig).2.1 }
      (p.signal env r.os sig).2.2) := by
  have hk := h.tasks id t p ht hbody
  have hkeep : ∀ os', os'.groups = r.os.groups → os'.seen = r.os.seen →
      Kept (r.put id { t with body := .proc p } os') := by
    intro os' hgroups hseen
    rw [← hbody]
    exact h.mark ht rfl rfl .inl (fun hr => hr) hgroups (hseen ▸ List.prefix_refl _)
  rcases signal_cases p env r.os sig with hs | ⟨-, hnone, hs⟩ | ⟨-, g, -, hs⟩ <;> rw [hs]
  · exact hkeep r.os rfl rfl
  · -- There is no such group: then the child is reaped, for otherwise it would hold the number.
    have hreaped : p.reaped = true := by
      rcases hwaited with hr | ⟨o, others, hg⟩
      · exact hr
      · rw [hk.pid, hnone] at hg
        cases hg
    refine h.put (w := { t with body := .proc { p with groupGone := true } }) ht rfl
      (.of_groups rfl (List.prefix_append _ _)) (fun q hq => ?_) (fun name hname => by cases hname)
    obtain rfl : { p with groupGone := true } = q := Body.proc.inj hq
    refine ⟨hk.owner, hk.pid, hk.path, hk.number, hk.held,
      fun hr => List.mem_append_left _ (hk.reaped hr), fun _ => ⟨?_, ?_⟩, fun _ => ⟨hreaped, rfl⟩⟩
    · rw [hk.owner]
      exact (List.singleton_sublist.mpr (hk.reaped hreaped)).append (List.Sublist.refl _)
    · intro n g hg hown
      rw [hk.number n g hg hown, hnone] at hg
      cases hg
  · exact hkeep _ rfl rfl

/-- At most a task is forgotten. -/
theorem congr (h : Kept r) (hget : ∀ k u, q.tasks.get? k = some u → r.tasks.get? k = some u)
    (hgen : r.nextGeneration ≤ q.nextGeneration) (hgroups : q.os.groups = r.os.groups)
    (hseen : q.os.seen = r.os.seen) : Kept q := by
  refine ⟨fun k u p hu hb => ?_, fun k u name hu => h.removed k u name (hget k u hu),
    fun k u hu => (h.generation k u (hget k u hu)).trans_le hgen,
    fun k k' u u' hu hu' => h.distinct k k' u u' (hget k u hu) (hget k' u' hu'), ?_⟩
  · have hk := h.tasks k u p (hget k u hu) hb
    exact ⟨hk.owner, hk.pid, hk.path, hgroups ▸ hk.number, hgroups ▸ hk.held, hseen ▸ hk.reaped,
      fun hg => ⟨hseen ▸ (hk.gone hg).1, fun n g hn => (hk.gone hg).2 n g (hgroups ▸ hn)⟩, hk.ended⟩
  · rw [hgroups]
    exact fun n g a hg hown => (h.owners n g a hg hown).trans_le hgen

/-- **Every move keeps it.** -/
theorem move (h : Kept r) (hm : Move D r q) : Kept q := by
  cases hm with
  | note hos htasks hquar hgen =>
    exact h.congr (fun k u hu => htasks ▸ hu) hgen (by rw [hos]) (by rw [hos])
  | mark ht hgen hbody hgone hremoved =>
    exact h.mark ht hgen hbody hgone (fun hr => hremoved.trans hr) rfl (List.prefix_refl _)
  | reap ht hbody exit => exact h.reap ht hbody exit
  | signal ht hbody hwaited env sig => exact h.signal ht hbody hwaited env sig
  | @killChild id t p ht hbody hreaped =>
    have hsame : (r.os.killChild p.child).groups = r.os.groups ∧
        (r.os.killChild p.child).seen = r.os.seen := by
      rw [Os.killChild]
      rcases r.os.groups.get? p.child.pid with _ | g <;> exact ⟨rfl, rfl⟩
    exact h.mark ht rfl rfl .inl (fun hr => hr) hsame.1 (hsame.2 ▸ List.prefix_refl _)
  | removed ht hgen hbody hgone hremoved =>
    exact h.mark ht hgen hbody (fun hg => .inl (hgone ▸ hg)) (fun _ => hremoved) rfl
      (List.prefix_append _ _)
  | unremoved hD ht hgen hbody hgone hremoved =>
    exact h.mark ht hgen hbody (fun hg => .inl (hgone ▸ hg)) (fun _ => hremoved) rfl
      (List.prefix_refl _)
  | finish new ht hgone htasks hgen hos hnew hquar =>
    exact h.congr (fun k u hu => (SortedMap.of_get?_erase (htasks ▸ hu)).2) hgen.ge (by rw [hos])
      (by rw [hos])
  | retry new htasks hgen hos hnew hquar =>
    exact h.congr (fun k u hu => htasks ▸ hu) hgen.ge (by rw [hos]) (by rw [hos])

theorem along (h : Kept r) (hp : Path D r q) : Kept q := by
  induction hp with
  | refl => exact h
  | tail _ hm ih => exact ih.move hm

end Kept

end Hop.Runner.Host
