import Hop.Runner.Signals

/-!
# When the runner of a host forgets

`forgets_only_gone`: a task is forgotten, and its directory is cleaned up, only when nothing of it
runs any more, if the containers are stopped when that is reported, and no task is started over a
directory that is still in quarantine.
-/

namespace Hop.Runner.Host

/-- Nothing of the start of a task runs any more, and the runner knows: its group was seen empty
after its child was reaped, or its container is stopped and removed. -/
def Over (os : Os) (t : Task) : Prop :=
  match t.body with
  | .proc _ => [.reaped t.generation, .empty t.generation].Sublist os.seen ∧
      os.Extinct t.generation
  | .docker _ => .removed t.generation ∈ os.seen

/-- A container counts as removed when it is, and no task has a directory that is in quarantine. -/
structure Clean (r : HostRunner) : Prop where
  removed : ∀ id t name, r.tasks.get? id = some t → t.body = .docker name → t.isRemoved = true →
    .removed t.generation ∈ r.os.seen
  quarantine : ∀ d ∈ r.quarantine, r.tasks.get? d.path = none

def Body.isProc : Body → Bool
  | .proc _ => true
  | .docker _ => false

/-- A record of the same start. -/
def Task.Same (t t' : Task) : Prop :=
  t'.generation = t.generation ∧ t'.body.isProc = t.body.isProc

namespace Move

variable {D : Prop} {r q : HostRunner}

/-- What a move does to the system: groups keep their owners, and what was seen stays seen. -/
theorem system (hm : Move D r q) :
    (∀ n g, q.os.groups.get? n = some g → ∃ g', r.os.groups.get? n = some g' ∧ g'.owner = g.owner) ∧
      r.os.seen <+: q.os.seen := by
  have hsame : ∀ os : Os, os.groups = r.os.groups → r.os.seen <+: os.seen →
      (∀ n g, os.groups.get? n = some g → ∃ g', r.os.groups.get? n = some g' ∧ g'.owner = g.owner) ∧
        r.os.seen <+: os.seen :=
    fun os hg hs => ⟨fun n g hn => ⟨g, hg ▸ hn, rfl⟩, hs⟩
  cases hm with
  | note hos => exact hsame _ (by rw [hos]) (hos.symm ▸ List.prefix_refl _)
  | mark ht => exact hsame _ rfl (List.prefix_refl _)
  | @reap id t p ht =>
    obtain ⟨hgroups, -, hseen, -⟩ := reap_os p t.exit r.os
    exact ⟨hgroups, hseen⟩
  | @signal id t p ht hbody hwaited env sig =>
    rcases signal_cases p env r.os sig with hs | ⟨-, -, hs⟩ | ⟨-, g, -, hs⟩ <;> rw [hs]
    · exact hsame _ rfl (List.prefix_refl _)
    · exact hsame _ rfl (List.prefix_append _ _)
    · exact hsame _ rfl (List.prefix_refl _)
  | @killChild id t p ht hbody hreaped =>
    rw [HostRunner.put_os, Os.killChild]
    rcases r.os.groups.get? p.child.pid with _ | g <;> exact hsame _ rfl (List.prefix_refl _)
  | removed ht => exact hsame _ rfl (List.prefix_append _ _)
  | unremoved hD ht => exact hsame _ rfl (List.prefix_refl _)
  | finish new ht hgone htasks hgen hos => exact hsame _ (by rw [hos]) (hos.symm ▸ List.prefix_refl _)
  | retry new htasks hgen hos => exact hsame _ (by rw [hos]) (hos.symm ▸ List.prefix_refl _)

theorem extinct (hm : Move D r q) {a : ℕ} (hx : r.os.Extinct a) : q.os.Extinct a := by
  intro n g hg hown
  obtain ⟨g', hg', hown'⟩ := hm.system.1 n g hg
  exact hx n g' hg' (hown'.trans hown)

/-- A move adds no task, and takes one away only at its end. -/
theorem tasks (hm : Move D r q) (k : String) :
    (∀ t', q.tasks.get? k = some t' → ∃ t, r.tasks.get? k = some t ∧ t.Same t') ∧
      ∀ t, r.tasks.get? k = some t →
        (∃ t', q.tasks.get? k = some t' ∧ t.Same t') ∨ (q.tasks.get? k = none ∧ t.isGone = true) := by
  have hput : ∀ {id : String} {t t' : Task} {os : Os}, r.tasks.get? id = some t → t.Same t' →
      (∀ u', (r.put id t' os).tasks.get? k = some u' → ∃ u, r.tasks.get? k = some u ∧ u.Same u') ∧
        ∀ u, r.tasks.get? k = some u →
          (∃ u', (r.put id t' os).tasks.get? k = some u' ∧ u.Same u') ∨
            ((r.put id t' os).tasks.get? k = none ∧ u.isGone = true) := by
    intro id t t' os ht hsame
    rw [HostRunner.get?_put]
    split_ifs with hk
    · subst hk
      refine ⟨fun u' hu' => ⟨t, ht, Option.some.inj hu' ▸ hsame⟩, fun u hu => .inl ⟨t', rfl, ?_⟩⟩
      rwa [← Option.some.inj (ht.symm.trans hu)]
    · exact ⟨fun u' hu' => ⟨u', hu', rfl, rfl⟩, fun u hu => .inl ⟨u, hu, rfl, rfl⟩⟩
  have hsame : q.tasks = r.tasks → (∀ t', q.tasks.get? k = some t' →
      ∃ t, r.tasks.get? k = some t ∧ t.Same t') ∧ ∀ t, r.tasks.get? k = some t →
        (∃ t', q.tasks.get? k = some t' ∧ t.Same t') ∨
          (q.tasks.get? k = none ∧ t.isGone = true) := by
    intro heq
    rw [heq]
    exact ⟨fun t' ht' => ⟨t', ht', rfl, rfl⟩, fun t ht => .inl ⟨t, ht, rfl, rfl⟩⟩
  cases hm with
  | note hos htasks => exact hsame htasks
  | mark ht hgen hbody => exact hput ht ⟨hgen, by rw [hbody]⟩
  | reap ht hbody exit => exact hput ht ⟨rfl, by rw [hbody]; rfl⟩
  | signal ht hbody hwaited env sig => exact hput ht ⟨rfl, by rw [hbody]; rfl⟩
  | killChild ht hbody hreaped => exact hput ht ⟨rfl, rfl⟩
  | removed ht hgen hbody => exact hput ht ⟨hgen, by rw [hbody]⟩
  | unremoved hD ht hgen hbody => exact hput ht ⟨hgen, by rw [hbody]⟩
  | @finish id t _ new ht hgone htasks =>
    rw [htasks, SortedMap.get?_erase]
    split_ifs with hk
    · subst hk
      refine ⟨fun u' hu' => (by cases hu'), fun u hu => .inr ⟨rfl, ?_⟩⟩
      rwa [← Option.some.inj (ht.symm.trans hu)]
    · exact ⟨fun u' hu' => ⟨u', hu', rfl, rfl⟩, fun u hu => .inl ⟨u, hu, rfl, rfl⟩⟩
  | retry new htasks => exact hsame htasks

/-- What is cleaned up is of no task that is held. -/
theorem cleaned (hm : Move D r q) (hk : Kept r) (hclean : Clean r) :
    ∃ new, q.os.cleaned = r.os.cleaned ++ new ∧ ∀ c ∈ new, q.tasks.get? c = none := by
  have hnone : q.os.cleaned = r.os.cleaned → ∃ new, q.os.cleaned = r.os.cleaned ++ new ∧
      ∀ c ∈ new, q.tasks.get? c = none := fun h => ⟨[], by simp [h], by simp⟩
  cases hm with
  | note hos => exact hnone (by rw [hos])
  | mark ht => exact hnone rfl
  | @reap id t p ht => exact hnone (reap_os p t.exit r.os).2.2.2
  | @signal id t p ht hbody hwaited env sig =>
    refine hnone ?_
    rcases signal_cases p env r.os sig with hs | ⟨-, -, hs⟩ | ⟨-, g, -, hs⟩ <;> rw [hs] <;> rfl
  | @killChild id t p ht hbody hreaped =>
    refine hnone ?_
    rw [HostRunner.put_os, Os.killChild]
    rcases r.os.groups.get? p.child.pid with _ | g <;> rfl
  | removed ht => exact hnone rfl
  | unremoved hD ht => exact hnone rfl
  | @finish id t _ new ht hgone htasks hgen hos hnew hquar =>
    refine ⟨new, by rw [hos], fun c hc => ?_⟩
    have hid : c = id := by
      rcases hnew c hc with rfl | ⟨p, hbody, rfl⟩
      · rfl
      · exact (hk.tasks id t p ht hbody).path
    rw [htasks, hid, SortedMap.get?_erase, if_pos rfl]
  | retry new htasks hgen hos hnew hquar =>
    refine ⟨new, by rw [hos], fun c hc => ?_⟩
    obtain ⟨d, hd, rfl⟩ := hnew c hc
    rw [htasks]
    exact hclean.quarantine d hd

/-- A name that no task has is not given by a move. -/
theorem get?_eq_none (hm : Move D r q) {k : String} (h : r.tasks.get? k = none) :
    q.tasks.get? k = none := by
  rcases hq : q.tasks.get? k with _ | t'
  · rfl
  · obtain ⟨t, ht, -⟩ := (hm.tasks k).1 t' hq
    rw [h] at ht
    cases ht

end Move

namespace Clean

variable {r q : HostRunner}

/-- **Every move keeps it**, if the containers are stopped when that is reported. -/
theorem move (hc : Clean r) (hk : Kept r) (hm : Move True r q) : Clean q := by
  have hseen := hm.system.2
  have hfree : ∀ d ∈ r.quarantine, q.tasks.get? d.path = none :=
    fun d hd => hm.get?_eq_none (hc.quarantine d hd)
  -- The record of one task changes: the others are as they were.
  have hput : ∀ {id : String} {t' : Task} {os : Os},
      (∀ name, t'.body = .docker name → t'.isRemoved = true → .removed t'.generation ∈ os.seen) →
      q = r.put id t' os → Clean q := by
    rintro id t' os hnew rfl
    refine ⟨fun k u name hu hname hremoved => ?_, hfree⟩
    rw [HostRunner.get?_put] at hu
    split_ifs at hu with hkey
    · rw [← Option.some.inj hu] at hname hremoved ⊢
      exact hnew name hname hremoved
    · exact hseen.subset (hc.removed k u name hu hname hremoved)
  have hold : q.tasks = r.tasks → (∀ d ∈ q.quarantine, q.tasks.get? d.path = none) → Clean q :=
    fun htasks hquar => ⟨fun k u name hu hname hremoved =>
      hseen.subset (hc.removed k u name (htasks ▸ hu) hname hremoved), hquar⟩
  cases hm with
  | note hos htasks hquar hgen => exact hold htasks (hquar ▸ hfree)
  | @mark id t t' ht hgen hbody hgone hremoved =>
    refine hput (fun name hname hr => ?_) rfl
    rw [hgen]
    exact hc.removed id t name ht (hbody ▸ hname) (hremoved ▸ hr)
  | reap ht hbody exit => exact hput (fun name hname => by cases hname) rfl
  | signal ht hbody hwaited env sig => exact hput (fun name hname => by cases hname) rfl
  | killChild ht hbody hreaped =>
    refine hput (fun name hname => ?_) rfl
    rw [hbody] at hname
    cases hname
  | removed ht hgen hbody hgone hremoved =>
    refine hput (fun name hname hr => ?_) rfl
    rw [hgen]
    exact List.mem_append_right _ (List.mem_singleton.mpr rfl)
  | unremoved hD ht hgen hbody hgone hremoved =>
    refine hput (fun name hname => ?_) rfl
    obtain ⟨p, hp⟩ := hD trivial
    rw [hbody, hp] at hname
    cases hname
  | @finish id t _ new ht hgone htasks hgen hos hnew hquar =>
    refine ⟨fun k u name hu hname hremoved => ?_, fun d hd => ?_⟩
    · rw [htasks, SortedMap.get?_erase] at hu
      split_ifs at hu
      exact hseen.subset (hc.removed k u name hu hname hremoved)
    · rcases hquar d hd with hd | ⟨p, hbody, hpath⟩
      · exact hfree d hd
      · rw [hpath, (hk.tasks id t p ht hbody).path, htasks, SortedMap.get?_erase, if_pos rfl]
  | retry new htasks hgen hos hnew hquar =>
    refine hold htasks fun d hd => ?_
    obtain ⟨d', hd', hpath⟩ := hquar d hd
    rw [hpath]
    exact hfree d' hd'

end Clean

/-- What a call of the runner does, on the way from `r` to `q`. -/
structure Safe (r q : HostRunner) : Prop where
  kept : Kept q
  clean : Clean q
  /-- What is cleaned up is of no task that is held. -/
  cleaned : ∃ new, q.os.cleaned = r.os.cleaned ++ new ∧ ∀ c ∈ new, q.tasks.get? c = none
  /-- A task is held on, or nothing of it runs any more. -/
  leaves : ∀ id t, r.tasks.get? id = some t →
    (∃ t', q.tasks.get? id = some t' ∧ t.Same t') ∨ Over q.os t

theorem Over.move {D : Prop} {r q : HostRunner} {t : Task} (h : Over r.os t) (hm : Move D r q) :
    Over q.os t := by
  rcases hbody : t.body with p | name <;> simp only [Over, hbody] at h ⊢
  · exact ⟨h.1.trans hm.system.2.sublist, hm.extinct h.2⟩
  · exact hm.system.2.subset h

/-- A task at its end is over. -/
theorem Over.of_gone {r : HostRunner} {id : String} {t : Task} (hk : Kept r) (hc : Clean r)
    (ht : r.tasks.get? id = some t) (hgone : t.isGone = true) : Over r.os t := by
  rw [Over]
  rcases hbody : t.body with p | name
  · have htask := hk.tasks id t p ht hbody
    exact htask.gone (htask.ended hgone).2
  · exact hc.removed id t name ht hbody (hk.removed id t name ht hbody hgone)

theorem Over.same {os : Os} {t t' : Task} (h : Over os t') (hsame : t.Same t') : Over os t := by
  obtain ⟨hgen, hkind⟩ := hsame
  rw [Over] at h ⊢
  rcases hb : t.body with p | name <;> rcases hb' : t'.body with p' | name' <;>
    simp only [hb, hb', Body.isProc, reduceCtorEq] at hkind
  · simpa only [hb', hgen] using h
  · simpa only [hb', hgen] using h

theorem Safe.along {r q : HostRunner} (hk : Kept r) (hc : Clean r) (hp : Path True r q) :
    Safe r q := by
  induction hp with
  | refl => exact ⟨hk, hc, ⟨[], by simp, by simp⟩, fun id t ht => .inl ⟨t, ht, rfl, rfl⟩⟩
  | @tail p q _ hm ih =>
    obtain ⟨new, hnew, hfree⟩ := ih.cleaned
    obtain ⟨more, hmore, hfree'⟩ := hm.cleaned ih.kept ih.clean
    refine ⟨ih.kept.move hm, ih.clean.move ih.kept hm, ⟨new ++ more, ?_, fun c hc => ?_⟩,
      fun id t ht => ?_⟩
    · rw [hmore, hnew, List.append_assoc]
    · rcases List.mem_append.mp hc with hc | hc
      · exact hm.get?_eq_none (hfree c hc)
      · exact hfree' c hc
    · rcases ih.leaves id t ht with ⟨t', ht', hsame⟩ | hover
      · rcases (hm.tasks id).2 t' ht' with ⟨u, hu, hgen, hkind⟩ | ⟨-, hgone⟩
        · exact .inl ⟨u, hu, hgen.trans hsame.1, hkind.trans hsame.2⟩
        · exact .inr (((Over.of_gone ih.kept ih.clean ht' hgone).move hm).same hsame)
      · exact .inr (hover.move hm)

/-! ### Runs -/

namespace HostRunner

/-- The stop of a container is not reported as failed. -/
def confirms (r : HostRunner) : Event → Bool
  | .stopped task generation (.error _) =>
    (r.tasks.get? task).all fun t => t.body.isProc || t.generation != generation
  | _ => true

theorem confirms_of {r : HostRunner} {e : Event} (h : r.confirms e = true) : r.Confirms e := by
  rcases e with ⟨task, gen, text⟩ | ⟨task, gen⟩ | ⟨task, gen, why | ⟨⟨⟩⟩⟩
  · trivial
  · trivial
  · intro t name ht hbody
    simpa [confirms, ht, hbody, Body.isProc] using h
  · trivial

/-- A container is stopped and removed when that is reported, and no task is started over a directory
that is still in quarantine. -/
def Confirmed (r : HostRunner) : HostEvent → Prop
  | .launch _ _ spec _ _ _ => ∀ d ∈ r.quarantine, d.path ≠ spec.taskId
  | .stop _ id env => (r.tasks.get? id).all (fun t => t.body.isProc) = true ∨
      env.thread = true ∨ env.stopAndRemove.isOk = true
  | .tick _ msgs _ => ∀ e ∈ msgs, r.confirms e = true
  | .shutdown ticks env => (env.thread = true ∨ env.stopAndRemove.isOk = true) ∧
      ∀ p ∈ ticks, ∀ e ∈ p.2, match e with
        | .stopped _ _ (.error _) => False
        | _ => True
  | _ => True

instance (r : HostRunner) (e : HostEvent) : Decidable (r.Confirmed e) := by
  have hmsg : ∀ e : Event, Decidable (match e with
      | .stopped _ _ (.error _) => False
      | _ => True) := fun e => by split <;> infer_instance
  unfold Confirmed
  split <;> infer_instance

/-- **Forgotten only when gone**: of a task that leaves nothing runs any more, and what is cleaned up
is of no task that is held. -/
def ForgetsGone (r : HostRunner) (e : HostEvent) : Prop :=
  ∀ q, r.step e = some q →
    (∀ id t, r.tasks.get? id = some t →
      (∃ t', q.tasks.get? id = some t' ∧ t.Same t') ∨ Over q.os t) ∧
    ∃ new, q.os.cleaned = r.os.cleaned ++ new ∧ ∀ c ∈ new, q.tasks.get? c = none

end HostRunner

/-- The task and the start that a message is of. -/
def Event.start : Event → String × ℕ
  | .line task generation _ | .eof task generation | .stopped task generation _ => (task, generation)

/-- A message of another start changes nothing. -/
theorem onEvent_of_ne (r : HostRunner) (e : Event)
    (h : ∀ t, r.tasks.get? e.start.1 = some t → t.generation ≠ e.start.2) : r.onEvent e = r := by
  rcases e with ⟨task, gen, text⟩ | ⟨task, gen⟩ | ⟨task, gen, result⟩
  · rfl
  · simp only [HostRunner.onEvent]
    rcases ht : r.tasks.get? task with _ | t
    · rfl
    · exact if_neg (h t ht)
  · simp only [HostRunner.onEvent]
    rcases ht : r.tasks.get? task with _ | t
    · rfl
    · rcases hstop : t.stop with _ | st
      · simp only [hstop]
      · simp only [hstop]
        exact if_neg (h t ht)

theorem safe_launch {r : HostRunner} {now : ℕ} {driver : Types.Driver} {spec : TaskSpec}
    {mounts : Option (List String)} {le : LaunchEnv} {env : Env} (hc : Clean r)
    (hkept : Kept (r.launch now driver spec
      (mounts.map fun m => { path := spec.taskId, mounts := m }) le env).2)
    (hquar : ∀ d ∈ r.quarantine, d.path ≠ spec.taskId) :
    Safe r (r.launch now driver spec (mounts.map fun m => { path := spec.taskId, mounts := m }) le
      env).2 := by
  have hcases := launch_cases r now driver spec mounts le env
  generalize (r.launch now driver spec
    (mounts.map fun m => { path := spec.taskId, mounts := m }) le env).2 = q at hkept hcases
  -- A task is added, under a name that is not in quarantine.
  have hadded : ∀ t : Task, r.tasks.get? spec.taskId = none → t.stop = none →
      q.quarantine = r.quarantine → q.tasks = r.tasks.insert spec.taskId t → q.os.seen = r.os.seen →
      q.os.cleaned = r.os.cleaned → Safe r q := by
    intro t hnone hstop hq htasks hseen hcleaned
    have hget : ∀ k, q.tasks.get? k =
        if spec.taskId = k then some t else r.tasks.get? k := by
      intro k
      rw [htasks, SortedMap.get?_insert]
    refine ⟨hkept, ⟨fun k u name hu hbody hr => ?_, fun d hd => ?_⟩, ⟨[], by simp [hcleaned], by simp⟩,
      fun k u hu => .inl ⟨u, ?_, rfl, rfl⟩⟩
    · rw [hget] at hu
      split_ifs at hu
      · rw [← Option.some.inj hu, Task.isRemoved, hstop] at hr
        cases hr
      · exact hseen ▸ hc.removed k u name hu hbody hr
    · rw [hq] at hd
      rw [hget, if_neg (Ne.symm (hquar d hd))]
      exact hc.quarantine d hd
    · rw [hget, if_neg, hu]
      rintro rfl
      rw [hnone] at hu
      cases hu
  rcases hcases with ⟨new, htasks, hq, -, hos, hnew⟩ | ⟨hnone, hq, -, hbegun⟩
  · refine ⟨hkept, ⟨fun k u name hu hbody hr => ?_, fun d hd => ?_⟩, ⟨new, by rw [hos], ?_⟩,
      fun k u hu => .inl ⟨u, htasks ▸ hu, rfl, rfl⟩⟩
    · rw [hos]
      exact hc.removed k u name (htasks ▸ hu) hbody hr
    · rw [htasks]
      exact hc.quarantine d (hq ▸ hd)
    · rw [htasks]
      exact hnew
  · rcases hbegun with ⟨pid, p, t, -, -, -, hstop, -, -, -, -, -, htasks, hos⟩ |
      ⟨name, t, -, -, hstop, htasks, hos⟩
    · exact hadded t hnone hstop hq htasks (by rw [hos]) (by rw [hos])
    · exact hadded t hnone hstop hq htasks (by rw [hos]) (by rw [hos])

/-- Under the condition, a call of the runner is a path, or the launch of a task. -/
theorem safe_step {r q : HostRunner} {e : HostEvent} (hk : Kept r) (hc : Clean r)
    (hstep : r.step e = some q) (hok : r.Confirmed e) : Safe r q := by
  have hgood : ∀ env : Env, env.thread = true ∨ env.stopAndRemove.isOk = true → GoodEnv env := by
    intro env h hthread
    rcases h with h | h
    · rw [hthread] at h
      cases h
    · exact h
  rcases e with ⟨now, driver, spec, mounts, le, env⟩ | ⟨now, id, env⟩ | ⟨id, env⟩ |
    ⟨now, msgs, env⟩ | ⟨ticks, env⟩ | e
  · have hkept := hk.step hstep
    simp only [HostRunner.step] at hstep
    split_ifs at hstep with hfree
    rw [← Option.some.inj hstep] at hkept ⊢
    exact safe_launch hc hkept hok
  · rw [← Option.some.inj hstep]
    refine .along hk hc (path_stop r now id env fun _ t name ht hbody => ?_)
    rcases hok with hproc | henv
    · simp [ht, hbody, Body.isProc] at hproc
    · exact hgood env henv
  · rw [← Option.some.inj hstep]
    exact .along hk hc (path_status r id env)
  · rw [← Option.some.inj hstep]
    exact .along hk hc (path_tick r now msgs env fun _ e he => HostRunner.confirms_of (hok e he))
  · rw [← Option.some.inj hstep]
    refine .along hk hc (path_shutdown r ticks env (fun _ => hgood env hok.1) fun _ p hp e he r => ?_)
    have hmsg := hok.2 p hp e he
    rcases e with ⟨task, gen, text⟩ | ⟨task, gen⟩ | ⟨task, gen, why | ⟨⟨⟩⟩⟩
    · trivial
    · trivial
    · exact hmsg.elim
    · trivial
  · have hkept := hk.step hstep
    obtain ⟨os, hos, rfl⟩ := Option.map_eq_some_iff.mp hstep
    obtain ⟨-, -, hseen, -, hcleaned⟩ := step_groups hos
    refine ⟨hkept, ⟨?_, hc.quarantine⟩, ⟨[], ?_, by simp⟩, fun id t ht => .inl ⟨t, ht, rfl, rfl⟩⟩
    · intro id t name ht hbody hr
      exact hseen ▸ hc.removed id t name ht hbody hr
    · rw [List.append_nil]
      exact hcleaned

/-- **The runner forgets a task only when nothing of it runs any more**, in every run in which a
container is stopped and removed when that is reported and no task is started over a directory in
quarantine. And a message of another start changes nothing. -/
theorem forgets_only_gone (r : HostRunner) (es : List HostEvent) (hinit : hostMachine.Init r)
    (hok : hostMachine.Along HostRunner.Confirmed r es) :
    hostMachine.Along HostRunner.ForgetsGone r es ∧
      ∀ (q : HostRunner) (e : Event),
        (∀ t, q.tasks.get? e.start.1 = some t → t.generation ≠ e.start.2) → q.onEvent e = q := by
  refine ⟨?_, onEvent_of_ne⟩
  obtain rfl : r = .new := hinit
  refine hok.imp_of_invariant (K := fun r => Kept r ∧ Clean r) ?_ ?_ ⟨.new, ?_⟩
  · rintro r e q ⟨hk, hc⟩ hstep hok
    exact ⟨hk.step hstep, (safe_step hk hc hstep hok).clean⟩
  · rintro r e ⟨hk, hc⟩ hok q hstep
    have hsafe := safe_step hk hc hstep hok
    exact ⟨hsafe.leaves, hsafe.cleaned⟩
  · refine ⟨fun id t name ht => ?_, fun d hd => ?_⟩
    · cases ht
    · cases hd

/-- A process that outlives SIGTERM, and a container; both end, and are forgotten. -/
def bothEnd : List HostEvent :=
  [.launch 0 .exec { taskId := "web" } (some []) { spawn := .ok 100 } {},
    .launch 0 .docker { taskId := "db", image := "img" } none { spawn := .error "" } {},
    .system (.fork 100), .stop 10 "web" {}, .stop 10 "db" {}, .system (.exit 100 (some 1)),
    .tick 20 [.stopped "db" 2 (.ok ()), .eof "db" 2] {}, .tick 20000 [] {}, .system (.leave 100),
    .tick 20010 [.eof "web" 1, .eof "web" 1] {}]

theorem forgets_only_gone_both :
    hostMachine.Init .new ∧
      (hostMachine.run .new bothEnd).map (fun r => (r.tasks.keys, r.os.cleaned)) =
        some ([], ["web"]) ∧
      hostMachine.Along HostRunner.ForgetsGone .new bothEnd :=
  ⟨rfl, by decide, (forgets_only_gone .new bothEnd rfl (by decide)).1⟩

/-- The container could not be stopped. -/
def stopFails : List HostEvent :=
  [.launch 0 .docker { taskId := "db", image := "img" } none { spawn := .error "" } {},
    .stop 10 "db" {}, .tick 20 [.stopped "db" 1 (.error "docker stop: timeout"), .eof "db" 1] {}]

/-- It is forgotten all the same. -/
theorem forgotten_container :
    hostMachine.Init .new ∧
      (hostMachine.run .new stopFails).map (fun r => (r.tasks.keys, r.os.seen)) = some ([], []) ∧
      ¬ hostMachine.Along HostRunner.ForgetsGone .new stopFails := by
  refine ⟨rfl, by decide, fun h => ?_⟩
  obtain ⟨hleaves, -⟩ := (((h _ rfl).2 _ rfl).2 _ rfl).1 _ rfl
  rcases hleaves "db" _ rfl with ⟨t', ht', -⟩ | hover
  · cases ht'
  · cases hover

end Hop.Runner.Host
