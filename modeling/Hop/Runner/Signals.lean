import Hop.Lib.Machine
import Hop.Runner.Moves

/-!
# Whom the runner of a host signals

`signals_aimed`: every SIGTERM and SIGKILL goes to the group that the child of the task created, if a
number is given out again only after the runner saw the group of it empty. The runner sees that only
when it looks, and it does not look each time it reaps a child.
-/

namespace Hop.Runner.Host

/-! ### The system on its own -/

/-- What happens in the system between two calls of the runner. -/
inductive SystemEvent
  /-- The leader of a group ends. -/
  | exit (pgid : ℕ) (code : Option ℤ)
  /-- A member of a group starts another process. -/
  | fork (pgid : ℕ)
  /-- A member other than the leader ends. -/
  | leave (pgid : ℕ)
  /-- A stranger creates a group, with a number that is free. -/
  | stranger (pgid : ℕ)
  /-- The leader of a stranger's group is reaped. -/
  | reap (pgid : ℕ)

/-- The system after an event; `none` if it cannot happen. -/
def Os.step (os : Os) : SystemEvent → Option Os
  | .exit pgid code =>
    match os.groups.get? pgid with
    | some ⟨owner, .running, others⟩ => some (os.settle pgid ⟨owner, .zombie code, others⟩)
    | _ => none
  | .fork pgid =>
    match os.groups.get? pgid with
    | some ⟨owner, leader, others⟩ =>
      if leader = .running ∨ 0 < others then some (os.settle pgid ⟨owner, leader, others + 1⟩)
      else none
    | none => none
  | .leave pgid =>
    match os.groups.get? pgid with
    | some ⟨owner, leader, others + 1⟩ => some (os.settle pgid ⟨owner, leader, others⟩)
    | _ => none
  | .stranger pgid =>
    match os.groups.get? pgid with
    | none => some { os with groups := os.groups.insert pgid ⟨none, .running, 0⟩ }
    | some _ => none
  | .reap pgid =>
    match os.groups.get? pgid with
    | some ⟨none, .zombie _, others⟩ => some (os.settle pgid ⟨none, .reaped, others⟩)
    | _ => none

/-- What can happen: a call of the runner, or something in the system. -/
inductive HostEvent
  | launch (now : ℕ) (driver : Types.Driver) (spec : TaskSpec) (mounts : Option (List String))
      (le : LaunchEnv) (env : Env)
  | stop (now : ℕ) (id : String) (env : Env)
  | status (id : String) (env : Env)
  | tick (now : ℕ) (msgs : List Event) (env : Env)
  | shutdown (ticks : List (ℕ × List Event)) (env : Env)
  | system (e : SystemEvent)

/-- The number that a launch is given is free. -/
def LaunchEnv.free (le : LaunchEnv) (os : Os) : Bool :=
  match le.spawn with
  | .ok pid => (os.groups.get? pid).isNone
  | .error _ => true

namespace HostRunner

def step (r : HostRunner) : HostEvent → Option HostRunner
  | .launch now driver spec mounts le env =>
    if le.free r.os then
      -- The directory was made for this task: `TaskDir::create`.
      some (r.launch now driver spec (mounts.map fun m => { path := spec.taskId, mounts := m }) le
        env).2
    else none
  | .stop now id env => some (r.stop now id env).2
  | .status id env => some (r.status id env).2
  | .tick now msgs env => some (r.tick now msgs env)
  | .shutdown ticks env => some (r.shutdown ticks env)
  | .system e => (r.os.step e).map fun os => { r with os := os }

/-- The runner saw the group with this number empty. -/
def Clear (r : HostRunner) (pgid : ℕ) : Prop :=
  ∀ e ∈ r.tasks.entries, match e.2.body with
    | .proc p => p.pgid = pgid → p.groupGone = true
    | .docker _ => True

instance (r : HostRunner) (pgid : ℕ) : Decidable (r.Clear pgid) :=
  have : ∀ e : String × Task, Decidable (match e.2.body with
      | .proc p => p.pgid = pgid → p.groupGone = true
      | .docker _ => True) := fun e =>
    match e.2.body with
    | .proc _ => inferInstance
    | .docker _ => inferInstance
  inferInstanceAs (Decidable (∀ e ∈ r.tasks.entries, _))

/-- A number is given out again only after the runner saw the group of it empty. -/
def SeesEmpty (r : HostRunner) : HostEvent → Prop
  | .launch _ _ _ _ le _ =>
    match le.spawn with
    | .ok pid => r.Clear pid
    | .error _ => True
  | .system (.stranger pgid) => r.Clear pgid
  | _ => True

instance (r : HostRunner) (e : HostEvent) : Decidable (r.SeesEmpty e) := by
  rcases e with ⟨_, _, _, _, ⟨_, _, _ | _, _, _, _, _, _⟩, _⟩ | _ | _ | _ | _ | ⟨_ | _ | _ | _ | _⟩ <;>
    unfold SeesEmpty <;> infer_instance

/-- **Every signal goes to the group that the child of the task created.** -/
def Aimed (r : HostRunner) : Prop := ∀ s ∈ r.os.sent, s.got = some s.meant

end HostRunner

/-- The runner of a host on its system, as a machine. -/
def hostMachine : Machine HostRunner HostEvent where
  Init r := r = .new
  step := HostRunner.step

/-! ### A launch -/

/-- What a launch leaves: a directory that is cleaned up again, a process, or a container. -/
theorem launch_cases (r : HostRunner) (now : ℕ) (driver : Types.Driver) (spec : TaskSpec)
    (mounts : Option (List String)) (le : LaunchEnv) (env : Env) :
    let q := (r.launch now driver spec (mounts.map fun m => { path := spec.taskId, mounts := m }) le
      env).2
    (∃ new, q.tasks = r.tasks ∧ q.quarantine = r.quarantine ∧
      r.nextGeneration ≤ q.nextGeneration ∧ q.os = { r.os with cleaned := r.os.cleaned ++ new } ∧
      ∀ c ∈ new, r.tasks.get? c = none) ∨
    (r.tasks.get? spec.taskId = none ∧ q.quarantine = r.quarantine ∧
      q.nextGeneration = r.nextGeneration + 1 ∧
      ((∃ pid p t, le.spawn = .ok pid ∧ t.body = .proc p ∧ t.generation = r.nextGeneration ∧
        t.stop = none ∧ p.child = ⟨pid, r.nextGeneration⟩ ∧ p.pgid = pid ∧
        p.dir.path = spec.taskId ∧ p.reaped = false ∧ p.groupGone = false ∧
        q.tasks = r.tasks.insert spec.taskId t ∧
        q.os = { r.os with
          groups := r.os.groups.insert pid ⟨some r.nextGeneration, .running, 0⟩ }) ∨
      ∃ name t, t.body = .docker name ∧ t.generation = r.nextGeneration ∧ t.stop = none ∧
        q.tasks = r.tasks.insert spec.taskId t ∧ q.os = r.os)) := by
  dsimp only
  rw [HostRunner.launch]
  dsimp only
  rcases hnone : r.tasks.get? spec.taskId with _ | t
  swap
  · exact .inl ⟨[], rfl, rfl, le_refl _, by simp, by simp⟩
  simp only [Option.isSome_none, Bool.false_eq_true, if_false]
  -- A directory that falls away is that of a task that never was.
  have hdrop : ∀ (q : HostRunner) (d : TaskDir) (new : List String), d.path = spec.taskId →
      q.tasks = r.tasks → q.quarantine = r.quarantine → q.nextGeneration = r.nextGeneration + 1 →
      q.os = { r.os with cleaned := r.os.cleaned ++ new } → (∀ c ∈ new, c = spec.taskId) →
      ∃ new, (q.dropDir d env).tasks = r.tasks ∧ (q.dropDir d env).quarantine = r.quarantine ∧
        r.nextGeneration ≤ (q.dropDir d env).nextGeneration ∧
        (q.dropDir d env).os = { r.os with cleaned := r.os.cleaned ++ new } ∧
        ∀ c ∈ new, r.tasks.get? c = none := by
    intro q d new hpath htasks hquar hgen hos hnew
    obtain ⟨-, more, hmore, hos'⟩ := cleanup_spec d env q.os
    refine ⟨new ++ more, htasks, hquar, hgen ▸ Nat.le_succ _, ?_, fun c hc => ?_⟩
    · rw [HostRunner.dropDir, hos', hos, List.append_assoc]
    · rcases List.mem_append.mp hc with hc | hc
      · rw [hnew c hc, hnone]
      · rw [hmore c hc, hpath, hnone]
  rcases driver with _ | _ | _
  · rcases mounts with _ | m
    · exact .inl ⟨[], rfl, rfl, Nat.le_succ _, by simp, by simp⟩
    · simp only [Option.map_some, HostRunner.launchProc]
      rcases le.plan with _ | why
      · rcases hspawn : le.spawn with why | pid
        · left
          simp only
          split_ifs
          · exact hdrop _ _ [spec.taskId] rfl rfl rfl rfl rfl (by simp)
          · exact hdrop _ _ [] rfl rfl rfl rfl (by simp) (by simp)
        · exact .inr ⟨trivial, rfl, rfl, .inl ⟨pid, _, _, rfl, rfl, rfl, rfl, rfl, rfl, rfl, rfl, rfl, rfl,
            rfl⟩⟩
      · exact .inl (hdrop _ _ [] rfl rfl rfl rfl (by simp) (by simp))
  · simp only [HostRunner.launchDocker]
    by_cases himage : spec.image = ""
    · rw [if_pos himage]
      exact .inl ⟨[], rfl, rfl, Nat.le_succ _, by simp, by simp⟩
    rw [if_neg himage]
    rcases le.create with why | ⟨⟨⟩⟩
    · exact .inl ⟨[], rfl, rfl, Nat.le_succ _, by simp, by simp⟩
    rcases le.start with why | ⟨⟨⟩⟩
    · exact .inl ⟨[], rfl, rfl, Nat.le_succ _, by simp, by simp⟩
    · exact .inr ⟨trivial, rfl, rfl, .inr ⟨_, _, rfl, rfl, rfl, rfl, rfl⟩⟩
  · exact .inl ⟨[], rfl, rfl, Nat.le_succ _, by simp, by simp⟩

/-- What the system does to the groups: each keeps its owner, a new one is a stranger's, and the
leader of a group of ours stays until the runner reaps it. -/
structure KeepsGroups (os : Os) (e : SystemEvent) (os' : Os) : Prop where
  back : ∀ n g, os'.groups.get? n = some g →
    (∃ g', os.groups.get? n = some g' ∧ g'.owner = g.owner) ∨ g.owner = none ∧ e = .stranger n
  held : ∀ n g a, os.groups.get? n = some g → g.owner = some a → g.leader ≠ .reaped →
    ∃ g', os'.groups.get? n = some g' ∧ g'.owner = some a ∧ g'.leader ≠ .reaped
  same : os'.seen = os.seen ∧ os'.sent = os.sent ∧ os'.cleaned = os.cleaned

theorem step_groups {os os' : Os} {e : SystemEvent} (h : os.step e = some os') :
    KeepsGroups os e os' := by
  -- One group changes, and keeps its owner.
  have hsettle : ∀ pgid old new, os.groups.get? pgid = some old → some (os.settle pgid new) = some os' →
      new.owner = old.owner → (old.owner ≠ none → old.leader ≠ .reaped → new.leader ≠ .reaped) →
      KeepsGroups os e os' := by
    intro pgid old new hold hos hown hleader
    rw [← Option.some.inj hos]
    refine ⟨fun n g hg => ?_, fun n g a hg ha hl => ?_, settle_same _ _ _⟩
    · rw [get?_settle] at hg
      split_ifs at hg with hn hempty
      · rw [← Option.some.inj hg]
        exact .inl ⟨old, hn ▸ hold, hown.symm⟩
      · exact .inl ⟨g, hg, rfl⟩
    · rw [get?_settle]
      split_ifs with hn hempty
      · subst hn
        obtain rfl : old = g := Option.some.inj (hold.symm.trans hg)
        exact absurd hempty.1 (hleader (by simp [ha]) hl)
      · subst hn
        obtain rfl : old = g := Option.some.inj (hold.symm.trans hg)
        exact ⟨new, rfl, hown.trans ha, hleader (by simp [ha]) hl⟩
      · exact ⟨g, hg, ha, hl⟩
  rcases e with ⟨pgid, code⟩ | pgid | pgid | pgid | pgid
  · rcases hg : os.groups.get? pgid with _ | ⟨owner, _ | _ | _, others⟩ <;> simp only [Os.step, hg] at h
    · cases h
    · exact hsettle pgid _ _ hg h rfl (by simp)
    all_goals cases h
  · rcases hg : os.groups.get? pgid with _ | ⟨owner, leader, others⟩ <;> simp only [Os.step, hg] at h
    · cases h
    · split_ifs at h
      exact hsettle pgid _ _ hg h rfl fun _ hl => hl
  · rcases hg : os.groups.get? pgid with _ | ⟨owner, leader, _ | others⟩ <;>
      simp only [Os.step, hg] at h
    · cases h
    · cases h
    · exact hsettle pgid _ _ hg h rfl fun _ hl => hl
  · rcases hg : os.groups.get? pgid with _ | old <;> simp only [Os.step, hg] at h
    · rw [← Option.some.inj h]
      refine ⟨fun n g hn => ?_, fun n g a hn ha hl => ⟨g, ?_, ha, hl⟩, rfl, rfl, rfl⟩
      · rw [SortedMap.get?_insert] at hn
        split_ifs at hn with hnew
        · rw [← Option.some.inj hn, hnew]
          exact .inr ⟨rfl, rfl⟩
        · exact .inl ⟨g, hn, rfl⟩
      · rw [SortedMap.get?_insert, if_neg, hn]
        rintro rfl
        rw [hg] at hn
        cases hn
    · cases h
  · rcases hg : os.groups.get? pgid with _ | ⟨_ | owner, _ | _ | _, others⟩ <;>
      simp only [Os.step, hg] at h
    all_goals first | exact hsettle pgid _ _ hg h rfl (by simp) | cases h

namespace Kept

variable {r q : HostRunner} {id : String} {t : Task}

/-- A task is added. -/
theorem insert (h : Kept r) (hnone : r.tasks.get? id = none) (hgen : t.generation = r.nextGeneration)
    (hstop : t.stop = none) (htasks : q.tasks = r.tasks.insert id t)
    (hnext : q.nextGeneration = r.nextGeneration + 1)
    (hold : ∀ k u p, TaskKept r.os k u p → u.generation < r.nextGeneration → TaskKept q.os k u p)
    (hnew : ∀ p, t.body = .proc p → TaskKept q.os id t p)
    (howners : ∀ n g a, q.os.groups.get? n = some g → g.owner = some a → a < q.nextGeneration) :
    Kept q := by
  have hget : ∀ k u, q.tasks.get? k = some u → (k = id ∧ u = t) ∨ r.tasks.get? k = some u := by
    intro k u hu
    rw [htasks, SortedMap.get?_insert] at hu
    split_ifs at hu with hk
    · exact .inl ⟨hk.symm, (Option.some.inj hu).symm⟩
    · exact .inr hu
  refine ⟨?_, ?_, ?_, ?_, howners⟩
  · intro k u p hu hbody
    rcases hget k u hu with ⟨rfl, rfl⟩ | hu
    · exact hnew p hbody
    · exact hold k u p (h.tasks k u p hu hbody) (h.generation k u hu)
  · intro k u name hu hbody hgone
    rcases hget k u hu with ⟨rfl, rfl⟩ | hu
    · simp [Task.isGone, hstop] at hgone
    · exact h.removed k u name hu hbody hgone
  · intro k u hu
    rcases hget k u hu with ⟨rfl, rfl⟩ | hu
    · omega
    · have := h.generation k u hu
      omega
  · intro k k' u u' hu hu' heq
    rcases hget k u hu with ⟨rfl, rfl⟩ | hu <;> rcases hget k' u' hu' with ⟨rfl, rfl⟩ | hu'
    · rfl
    · have := h.generation k' u' hu'
      omega
    · have := h.generation k u hu
      omega
    · exact h.distinct k k' u u' hu hu' heq

theorem launch (h : Kept r) (now : ℕ) (driver : Types.Driver) (spec : TaskSpec)
    (mounts : Option (List String)) (le : LaunchEnv) (env : Env) (hfree : le.free r.os = true) :
    Kept (r.launch now driver spec (mounts.map fun m => { path := spec.taskId, mounts := m }) le
      env).2 := by
  rcases launch_cases r now driver spec mounts le env with
    ⟨new, htasks, -, hnext, hos, -⟩ | ⟨hnone, -, hnext, hbegun⟩
  · exact h.congr (fun k u hu => htasks ▸ hu) hnext (by rw [hos]) (by rw [hos])
  rcases hbegun with ⟨pid, p, t, hspawn, hbody, hgen, hstop, hchild, hpgid, hpath, hreaped, hgone,
    htasks, hos⟩ | ⟨name, t, hbody, hgen, hstop, htasks, hos⟩
  · have hpid : r.os.groups.get? pid = none := by
      simpa [LaunchEnv.free, hspawn] using hfree
    have hgroups : ∀ n, (r.os.groups.insert pid ⟨some r.nextGeneration, .running, 0⟩).get? n =
        if pid = n then some ⟨some r.nextGeneration, .running, 0⟩ else r.os.groups.get? n :=
      fun n => SortedMap.get?_insert _ _ _ _
    -- Another start has no part in the new group.
    have hback : ∀ n g a, a < r.nextGeneration →
        (r.os.groups.insert pid ⟨some r.nextGeneration, .running, 0⟩).get? n = some g →
        g.owner = some a → r.os.groups.get? n = some g := by
      intro n g a ha hg hown
      rw [hgroups] at hg
      split_ifs at hg with hn
      · rw [← Option.some.inj hg] at hown
        exact absurd (Option.some.inj hown) (by omega)
      · exact hg
    refine h.insert hnone hgen hstop htasks hnext ?_ ?_ ?_
    · intro k u p' hk hu
      rw [hos]
      refine ⟨hk.owner, hk.pid, hk.path, ?_, ?_, hk.reaped, ?_, hk.ended⟩
      · exact fun n g hg hown => hk.number n g (hback n g _ hu hg hown) hown
      · intro hr
        obtain ⟨g, hg, hown, hleader⟩ := hk.held hr
        refine ⟨g, ?_, hown, hleader⟩
        rw [hgroups, if_neg, hg]
        rintro rfl
        rw [hpid] at hg
        cases hg
      · intro hg
        refine ⟨(hk.gone hg).1, fun n g hn hown => ?_⟩
        exact (hk.gone hg).2 n g (hback n g _ hu hn hown) hown
    · intro p' hp'
      obtain rfl : p = p' := Body.proc.inj (hbody.symm.trans hp')
      rw [hos]
      refine ⟨by rw [hchild, hgen], by rw [hchild, hpgid], hpath, ?_, ?_, by simp [hreaped],
        by simp [hgone], by simp [Task.isGone, hstop]⟩
      · intro n g hg hown
        rw [hgroups] at hg
        split_ifs at hg with hn
        · rw [hpgid, hn]
        · have := h.owners n g _ hg (hgen ▸ hown)
          omega
      · intro _
        rw [hgroups, hpgid, if_pos rfl]
        exact ⟨_, rfl, by rw [hgen], by simp⟩
    · intro n g a hg hown
      rw [hos, hgroups] at hg
      split_ifs at hg with hn
      · rw [← Option.some.inj hg] at hown
        have := Option.some.inj hown
        omega
      · have := h.owners n g a hg hown
        omega
  · refine h.insert hnone hgen hstop htasks hnext ?_ ?_ ?_
    · exact fun k u p hk _ => hos ▸ hk
    · intro p hp
      rw [hbody] at hp
      cases hp
    · intro n g a hg hown
      have := h.owners n g a (hos ▸ hg) hown
      omega

/-- The system moves on: the groups of the tasks keep their numbers, and a leader that nobody reaped
stays one. -/
theorem system {os : Os} {e : SystemEvent} (h : Kept r) (hstep : r.os.step e = some os) :
    Kept { r with os := os } := by
  obtain ⟨hback, hheld, hseen, -, -⟩ := step_groups hstep
  refine ⟨fun k u p hu hb => ?_, h.removed, h.generation, h.distinct, ?_⟩
  · have hk := h.tasks k u p hu hb
    refine ⟨hk.owner, hk.pid, hk.path, ?_, ?_, hseen ▸ hk.reaped, ?_, hk.ended⟩
    · intro n g hg hown
      rcases hback n g hg with ⟨g', hg', hown'⟩ | ⟨hnone, -⟩
      · exact hk.number n g' hg' (hown'.trans hown)
      · rw [hnone] at hown
        cases hown
    · intro hr
      obtain ⟨g, hg, hown, hleader⟩ := hk.held hr
      exact hheld _ g _ hg hown hleader
    · intro hgone
      refine ⟨hseen ▸ (hk.gone hgone).1, fun n g hg hown => ?_⟩
      rcases hback n g hg with ⟨g', hg', hown'⟩ | ⟨hnone, -⟩
      · exact (hk.gone hgone).2 n g' hg' (hown'.trans hown)
      · rw [hnone] at hown
        cases hown
  · intro n g a hg hown
    rcases hback n g hg with ⟨g', hg', hown'⟩ | ⟨hnone, -⟩
    · exact h.owners n g' a hg' (hown'.trans hown)
    · rw [hnone] at hown
      cases hown

theorem new : Kept .new := by
  refine ⟨fun k u p hu => ?_, fun k u name hu => ?_, fun k u hu => ?_, fun k k' u u' hu => ?_,
    fun n g a hg => ?_⟩
  all_goals first | cases hu | cases hg

/-- **The runner knows its tasks along every run.** -/
theorem step {e : HostEvent} (h : Kept r) (hstep : r.step e = some q) : Kept q := by
  rcases e with ⟨now, driver, spec, mounts, le, env⟩ | ⟨now, id, env⟩ | ⟨id, env⟩ |
    ⟨now, msgs, env⟩ | ⟨ticks, env⟩ | e
  · simp only [HostRunner.step] at hstep
    split_ifs at hstep with hfree
    rw [← Option.some.inj hstep]
    exact h.launch now driver spec mounts le env hfree
  · rw [← Option.some.inj hstep]
    exact h.along (path_stop (D := False) r now id env (fun hf => hf.elim))
  · rw [← Option.some.inj hstep]
    exact h.along (path_status (D := False) r id env)
  · rw [← Option.some.inj hstep]
    exact h.along (path_tick (D := False) r now msgs env (fun hf => hf.elim))
  · rw [← Option.some.inj hstep]
    exact h.along (path_shutdown (D := False) r ticks env (fun hf => hf.elim) (fun hf => hf.elim))
  · obtain ⟨os, hos, rfl⟩ := Option.map_eq_some_iff.mp hstep
    exact h.system hos

end Kept

/-! ### The signals -/

/-- Every signal so far was right, and the next will be: a group with the number of a task is that of
the task, unless the runner saw it empty. -/
structure OnTarget (r : HostRunner) : Prop where
  sent : r.Aimed
  next : ∀ id t p, r.tasks.get? id = some t → t.body = .proc p → p.groupGone = false →
    ∀ g, r.os.groups.get? p.pgid = some g → g.owner = some t.generation

namespace OnTarget

variable {D : Prop} {r q : HostRunner} {id : String} {t t' w : Task} {p : Proc} {os' : Os}

/-- One task changes. -/
theorem put (h : OnTarget r) (ht : r.tasks.get? id = some t) (hgen : w.generation = t.generation)
    (hgroups : ∀ n g, os'.groups.get? n = some g →
      ∃ g', r.os.groups.get? n = some g' ∧ g'.owner = g.owner)
    (hbody : ∀ p', w.body = .proc p' → p'.groupGone = false →
      ∃ p, t.body = .proc p ∧ p.groupGone = false ∧ p'.pgid = p.pgid)
    (hsent : ∀ s ∈ os'.sent, s ∈ r.os.sent ∨ s.got = some s.meant) : OnTarget (r.put id w os') := by
  refine ⟨fun s hs => ?_, fun k u p' hu hp' hgone g hg => ?_⟩
  · rcases hsent s hs with hs | hs
    · exact h.sent s hs
    · exact hs
  · obtain ⟨g', hg', hown⟩ := hgroups p'.pgid g hg
    rw [← hown]
    rw [HostRunner.get?_put] at hu
    split_ifs at hu with hk
    · obtain rfl : w = u := Option.some.inj hu
      obtain ⟨p, hp, hpgone, hpgid⟩ := hbody p' hp' hgone
      rw [hgen]
      exact h.next id t p ht hp hpgone g' (hpgid ▸ hg')
    · exact h.next k u p' hu hp' hgone g' hg'

/-- A record is marked. -/
theorem mark (h : OnTarget r) (ht : r.tasks.get? id = some t) (hgen : t'.generation = t.generation)
    (hbody : t'.body = t.body) (hgroups : os'.groups = r.os.groups)
    (hsent : os'.sent = r.os.sent) : OnTarget (r.put id t' os') := by
  refine h.put ht hgen (fun n g hg => ⟨g, hgroups ▸ hg, rfl⟩) (fun p' hp' hgone => ?_)
    fun s hs => .inl (hsent ▸ hs)
  exact ⟨p', hbody ▸ hp', hgone, rfl⟩

theorem congr (h : OnTarget r) (htasks : ∀ k u, q.tasks.get? k = some u → r.tasks.get? k = some u)
    (hgroups : q.os.groups = r.os.groups) (hsent : q.os.sent = r.os.sent) : OnTarget q := by
  refine ⟨fun s hs => h.sent s (hsent ▸ hs), fun k u p hu hp hgone g hg => ?_⟩
  exact h.next k u p (htasks k u hu) hp hgone g (hgroups ▸ hg)

theorem reap (h : OnTarget r) (ht : r.tasks.get? id = some t) (hbody : t.body = .proc p)
    (exit : Option ℤ) :
    OnTarget (r.put id { t with body := .proc (Host.reap p t.exit r.os).1, exit := exit }
      (Host.reap p t.exit r.os).2.2) := by
  obtain ⟨-, hpgid, -, hgone⟩ := reap_child p t.exit r.os
  obtain ⟨hgroups, hsent, -, -⟩ := reap_os p t.exit r.os
  refine h.put (w := { t with body := .proc (Host.reap p t.exit r.os).1, exit := exit }) ht rfl
    hgroups (fun p' hp' hg => ?_) fun s hs => .inl (hsent ▸ hs)
  obtain rfl := Body.proc.inj hp'
  exact ⟨p, hbody, hgone ▸ hg, hpgid⟩

theorem signal (h : OnTarget r) (hk : Kept r) (ht : r.tasks.get? id = some t)
    (hbody : t.body = .proc p) (env : Env) (sig : Sig) :
    OnTarget (r.put id { t with body := .proc (p.signal env r.os sig).2.1 }
      (p.signal env r.os sig).2.2) := by
  have howner := (hk.tasks id t p ht hbody).owner
  rcases signal_cases p env r.os sig with hs | ⟨-, -, hs⟩ | ⟨hgone, g, hg, hs⟩ <;> rw [hs]
  · rw [← hbody]
    exact h.mark ht rfl rfl rfl rfl
  · refine h.put (w := { t with body := .proc { p with groupGone := true } }) ht rfl
      (fun n g hg => ⟨g, hg, rfl⟩) (fun p' hp' hfalse => ?_) fun s hs => .inl hs
    rw [← Body.proc.inj hp'] at hfalse
    cases hfalse
  · refine h.put (w := { t with body := .proc p }) ht rfl (fun n g hg => ⟨g, hg, rfl⟩)
      (fun p' hp' hfalse => ⟨p, hbody, hgone, Body.proc.inj hp' ▸ rfl⟩) fun s hs => ?_
    rcases List.mem_append.mp hs with hs | hs
    · exact .inl hs
    · rw [List.mem_singleton.mp hs, howner]
      exact .inr (h.next id t p ht hbody hgone g hg)

/-- SIGKILL to the child alone: it is not reaped, so it still has its number. -/
theorem killChild (h : OnTarget r) (hk : Kept r) (ht : r.tasks.get? id = some t)
    (hbody : t.body = .proc p) (hreaped : p.reaped = false) :
    OnTarget (r.put id t (r.os.killChild p.child)) := by
  have htask := hk.tasks id t p ht hbody
  obtain ⟨g, hg, hown, -⟩ := htask.held hreaped
  rw [Os.killChild, htask.pid, hg]
  refine h.put ht rfl (fun n g hg => ⟨g, hg, rfl⟩) (fun p' hp' hgone => ⟨p', hp', hgone, rfl⟩)
    fun s hs => ?_
  rcases List.mem_append.mp hs with hs | hs
  · exact .inl hs
  · rw [List.mem_singleton.mp hs, htask.owner]
    exact .inr hown

/-- **Every move keeps it.** -/
theorem move (h : OnTarget r) (hk : Kept r) (hm : Move D r q) : OnTarget q := by
  cases hm with
  | note hos htasks hquar hgen =>
    exact h.congr (fun k u hu => htasks ▸ hu) (by rw [hos]) (by rw [hos])
  | mark ht hgen hbody hgone hremoved => exact h.mark ht hgen hbody rfl rfl
  | reap ht hbody exit => exact h.reap ht hbody exit
  | signal ht hbody hwaited env sig => exact h.signal hk ht hbody env sig
  | killChild ht hbody hreaped => exact h.killChild hk ht hbody hreaped
  | removed ht hgen hbody hgone hremoved => exact h.mark ht hgen hbody rfl rfl
  | unremoved hD ht hgen hbody hgone hremoved => exact h.mark ht hgen hbody rfl rfl
  | finish new ht hgone htasks hgen hos hnew hquar =>
    exact h.congr (fun k u hu => (SortedMap.of_get?_erase (htasks ▸ hu)).2) (by rw [hos])
      (by rw [hos])
  | retry new htasks hgen hos hnew hquar =>
    exact h.congr (fun k u hu => htasks ▸ hu) (by rw [hos]) (by rw [hos])

theorem along (h : OnTarget r) (hk : Kept r) (hp : Path D r q) : OnTarget q := by
  induction hp with
  | refl => exact h
  | tail hpath hm ih => exact ih.move (hk.along hpath) hm

/-- A number that is given out again is of no task that may still signal it. -/
theorem clear {pgid : ℕ} (hclear : r.Clear pgid) (ht : r.tasks.get? id = some t)
    (hbody : t.body = .proc p) (hgone : p.groupGone = false) : p.pgid ≠ pgid := by
  intro heq
  have := hclear (id, t) (SortedMap.get?_eq_some_iff.mp ht)
  simp only [hbody] at this
  rw [this heq] at hgone
  cases hgone

theorem launch (h : OnTarget r) (now : ℕ) (driver : Types.Driver) (spec : TaskSpec)
    (mounts : Option (List String)) (le : LaunchEnv) (env : Env)
    (hsees : ∀ pid, le.spawn = .ok pid → r.Clear pid) :
    OnTarget (r.launch now driver spec (mounts.map fun m => { path := spec.taskId, mounts := m }) le
      env).2 := by
  rcases launch_cases r now driver spec mounts le env with
    ⟨new, htasks, -, -, hos, -⟩ | ⟨hnone, -, -, hbegun⟩
  · exact h.congr (fun k u hu => htasks ▸ hu) (by rw [hos]) (by rw [hos])
  rcases hbegun with ⟨pid, p, t, hspawn, hbody, hgen, -, -, hpgid, -, -, -, htasks, hos⟩ |
    ⟨name, t, hbody, -, -, htasks, hos⟩
  · refine ⟨fun s hs => h.sent s (by rw [hos] at hs; exact hs), fun k u p' hu hp' hgone g hg => ?_⟩
    rw [htasks, SortedMap.get?_insert] at hu
    rw [hos] at hg
    simp only [SortedMap.get?_insert] at hg
    split_ifs at hu with hk
    · obtain rfl : t = u := Option.some.inj hu
      obtain rfl : p = p' := Body.proc.inj (hbody.symm.trans hp')
      rw [hpgid, if_pos rfl] at hg
      rw [← Option.some.inj hg, hgen]
    · have hne := clear (hsees pid hspawn) hu hp' hgone
      rw [if_neg (Ne.symm hne)] at hg
      exact h.next k u p' hu hp' hgone g hg
  · refine ⟨fun s hs => h.sent s (by rw [hos] at hs; exact hs), fun k u p' hu hp' hgone g hg => ?_⟩
    rw [htasks, SortedMap.get?_insert] at hu
    split_ifs at hu with hk
    · obtain rfl : t = u := Option.some.inj hu
      rw [hbody] at hp'
      cases hp'
    · exact h.next k u p' hu hp' hgone g (hos ▸ hg)

theorem step {e : HostEvent} (h : OnTarget r) (hk : Kept r) (hstep : r.step e = some q)
    (hsees : r.SeesEmpty e) : OnTarget q := by
  rcases e with ⟨now, driver, spec, mounts, le, env⟩ | ⟨now, id, env⟩ | ⟨id, env⟩ |
    ⟨now, msgs, env⟩ | ⟨ticks, env⟩ | e
  · simp only [HostRunner.step] at hstep
    split_ifs at hstep with hfree
    rw [← Option.some.inj hstep]
    refine h.launch now driver spec mounts le env fun pid hspawn => ?_
    simpa only [HostRunner.SeesEmpty, hspawn] using hsees
  · rw [← Option.some.inj hstep]
    exact h.along hk (path_stop (D := False) r now id env (fun hf => hf.elim))
  · rw [← Option.some.inj hstep]
    exact h.along hk (path_status (D := False) r id env)
  · rw [← Option.some.inj hstep]
    exact h.along hk (path_tick (D := False) r now msgs env (fun hf => hf.elim))
  · rw [← Option.some.inj hstep]
    exact h.along hk (path_shutdown (D := False) r ticks env (fun hf => hf.elim) (fun hf => hf.elim))
  · obtain ⟨os, hos, rfl⟩ := Option.map_eq_some_iff.mp hstep
    obtain ⟨hback, -, -, hsent, -⟩ := step_groups hos
    refine ⟨fun s hs => h.sent s (hsent ▸ hs), fun k u p hu hp hgone g hg => ?_⟩
    rcases hback p.pgid g hg with ⟨g', hg', hown'⟩ | ⟨-, rfl⟩
    · exact hown' ▸ h.next k u p hu hp hgone g' hg'
    · exact absurd rfl (clear hsees hu hp hgone)

end OnTarget

/-- **The signals of the runner**: in every run in which a number is given out again only after the
runner saw the group of it empty, every SIGTERM and SIGKILL goes to the group that the child of the
task created. -/
theorem signals_aimed (r : HostRunner) (es : List HostEvent) (hinit : hostMachine.Init r)
    (hsees : hostMachine.Along HostRunner.SeesEmpty r es) :
    hostMachine.Always HostRunner.Aimed r es := by
  obtain rfl : r = .new := hinit
  refine hsees.always (K := fun r => Kept r ∧ OnTarget r) (fun r h => h.2.sent) ?_ ⟨.new, ?_⟩
  · rintro r e q ⟨hk, ht⟩ hstep hok
    exact ⟨hk.step hstep, ht.step hk hstep hok⟩
  · refine ⟨fun s hs => ?_, fun k u p hu => ?_⟩
    · cases hs
    · cases hu

/-- A task that ends on its own, and whose number is given to a stranger once it was asked for. -/
def statusFirst : List HostEvent :=
  [.launch 0 .exec { taskId := "web" } (some []) { spawn := .ok 100 } {},
    .system (.exit 100 (some 1)), .status "web" {}, .system (.stranger 100), .stop 20 "web" {},
    .tick 30 [] {}]

theorem signals_aimed_status_first :
    hostMachine.Init .new ∧ (hostMachine.run .new statusFirst).isSome = true ∧
      hostMachine.Always HostRunner.Aimed .new statusFirst :=
  ⟨rfl, by decide, signals_aimed .new statusFirst rfl (by decide)⟩

/-- The same, but a tick reaps the child: the runner does not look whether its group is there. -/
def tickFirst : List HostEvent :=
  [.launch 0 .exec { taskId := "web" } (some []) { spawn := .ok 100 } {},
    .system (.exit 100 (some 1)), .tick 10 [] {}, .system (.stranger 100), .stop 20 "web" {}]

/-- The stranger gets the SIGTERM. -/
theorem stranger_signalled :
    hostMachine.Init .new ∧
      (hostMachine.run .new tickFirst).map (fun r => r.os.sent) = some [⟨.term, 1, none⟩] ∧
      ¬ hostMachine.Always HostRunner.Aimed .new tickFirst := by
  have hsent : (hostMachine.run .new tickFirst).map (fun r => r.os.sent) =
      some [⟨.term, 1, none⟩] := by decide
  refine ⟨rfl, hsent, fun h => ?_⟩
  obtain ⟨r, hr, hs⟩ := Option.map_eq_some_iff.mp hsent
  have := h.last hr ⟨.term, 1, none⟩ (by rw [hs]; exact List.mem_singleton.mpr rfl)
  cases this

end Hop.Runner.Host
