import Hop.Lead.Loading
import Hop.Lead.Steps

/-!
# What the snapshot may miss

The leader keeps a mark `dirty`: the store has changed since a snapshot was handed out. Everything
that changes the store sets it (`Marks`), but for the load of a committed state, which makes the
store a snapshot that is already kept. So as long as the mark is not set, the store is the last
snapshot that was handed out and not given up, the last one that was loaded, or empty
(`Diary`). And the mark is worked off: what else happens does not move the window that the first
poll opens.
-/

namespace Hop.Lead

open Hop.Types (Agent Job Map)

variable {N : Type}

open Leader

/-- **Every operation that changes the store marks it.** -/
theorem marks_apply [Transport N] (s : Sys N) (op : Op) : Marks s.leader (s.apply op).leader := by
  rcases walk_apply s (op.stores_true s.leader) with hwalk | ⟨now, -, hplaces, hwalk⟩ |
    ⟨agent, placed, now, -, -, hplaces⟩
  · exact hwalk.marks
  · exact hplaces.marks.trans hwalk.marks
  · have henter : Marks s.leader (s.leader.insertAgent { agent with lastSeen := now } placed) :=
      ⟨rfl, .inr ⟨rfl, rfl⟩⟩
    exact henter.trans hplaces.marks

theorem marks_settle (l : Leader) (delay now : Nanos) : Marks l (l.settle delay now) := by
  rw [settle]
  split_ifs
  · exact ⟨rfl, .inr ⟨rfl, rfl⟩⟩
  · exact ⟨rfl, .inr ⟨rfl, rfl⟩⟩

/-! ### Polling and loading -/

/-- What a poll does: nothing, begin or wait for the window, or hand out the snapshot. -/
theorem pollSnapshot_cases (l : Leader) (now : Nanos) :
    (l.dirty = false ∧ l.pollSnapshot now = (none, l)) ∨
    (l.dirty = true ∧ now - l.dirtySeen.getD now < persistDebounce ∧
      l.pollSnapshot now = (none, { l with dirtySeen := some (l.dirtySeen.getD now) })) ∨
    (l.dirty = true ∧ persistDebounce ≤ now - l.dirtySeen.getD now ∧
      l.pollSnapshot now =
        (some (l.snapshot now), { l with dirty := false, dirtySeen := none })) := by
  rw [pollSnapshot]
  rcases hdirty : l.dirty with _ | _
  · exact .inl ⟨rfl, if_pos rfl⟩
  · refine .inr ?_
    rw [if_neg (by simp)]
    dsimp only
    by_cases hearly : now - l.dirtySeen.getD now < persistDebounce
    · rw [if_pos hearly]
      exact .inl ⟨rfl, hearly, rfl⟩
    · rw [if_neg hearly]
      exact .inr ⟨rfl, not_lt.mp hearly, rfl⟩

/-- A load leaves the window, and takes no mark away. -/
theorem loadCommittedState_marks (l : Leader) (snapshot : Option Bytes) :
    (l.loadCommittedState snapshot).2.dirtySeen = l.dirtySeen ∧
      (l.dirty = true → (l.loadCommittedState snapshot).2.dirty = true) := by
  rcases snapshot with _ | data
  · exact ⟨rfl, id⟩
  rcases hread : readState data with e | ⟨updated, jobs⟩
  · rw [loadCommittedState, hread]
    exact ⟨rfl, id⟩
  · have hremove : ∀ (names : List String) (l : Leader),
        Marks l (names.foldl (fun l name => (l.storeRemove name).2) l) := by
      intro names
      induction names with
      | nil => exact fun l => .refl l
      | cons name rest ih => exact fun l => (marks_storeRemove l name).trans (ih _)
    obtain ⟨store, -, hload, -⟩ := loadCommittedState_ok (l := l) hread
    have hmarks := hremove (l.stale jobs) l
    rw [hload]
    exact ⟨hmarks.seen, hmarks.dirty⟩

/-! ### The diary of the snapshots -/

/-- A snapshot outside the leader: handed out, and perhaps given up since, or loaded. -/
inductive Kept
  | handed (data : Bytes) (failed : Bool)
  | loaded (data : Bytes)

namespace Kept

/-- The write of it is reported as failed. -/
def fail : Kept → Kept
  | .handed data _ => .handed data true
  | .loaded data => .loaded data

def stands : Kept → Bool
  | .handed _ failed => !failed
  | .loaded _ => true

/-- These are the jobs of the snapshot: the text says them, or they are the last ones of each name
that are read off it. -/
def Holds : Kept → List Job → Prop
  | .handed data _, jobs => ∃ now, data = Types.Json.write (.object
      [("updated", .string (Types.Time.writeRfc3339 now)), ("jobs", .array (jobs.map Job.toValue))])
  | .loaded data, jobs => ∃ updated js, readState data = .ok (updated, js) ∧
      ∀ j, j ∈ jobs ↔ lastNamed js j.name = some j

end Kept

/-- What a request adds to the diary. A failure is reported of the snapshot number `which`, from the
newest on. -/
def record (s : Sys N) (r : Request) (which : ℕ) (kept : List Kept) : List Kept :=
  match r with
  | .pollSnapshot now =>
    match (s.leader.pollSnapshot now).1 with
    | some data => .handed data false :: kept
    | none => kept
  | .loadCommittedState (some data) =>
    match (s.leader.loadCommittedState (some data)).1 with
    | .ok true => .loaded data :: kept
    | _ => kept
  | .snapshotFailed => kept.modify which Kept.fail
  | _ => kept

/-- The leader with its diary, the newest entry first. -/
def diary [Transport N] : Machine (Sys N × List Kept) (Request × ℕ) where
  Init s := requests.Init s.1 ∧ s.2 = []
  step s r := some (s.1.serve r.1, record s.1 r.1 r.2 s.2)

/-- As long as the mark is not set, no window is open and the newest entry holds the store. -/
def Agrees (l : Leader) (kept : List Kept) : Prop :=
  l.dirty = false → l.dirtySeen = none ∧
    ((kept = [] ∧ l.store.jobs = []) ∨
      ∃ k rest, kept = k :: rest ∧ k.stands = true ∧ k.Holds l.store.jobs)

namespace Agrees

variable {l l' : Leader} {kept : List Kept}

theorem marks (h : Agrees l kept) (hmarks : Marks l l') : Agrees l' kept := by
  intro hclean
  rcases hmarks.kept with hdirty | ⟨hdirty, hstore⟩
  · exact absurd (hclean.symm.trans hdirty) Bool.false_ne_true
  · rw [hmarks.seen, hstore]
    exact h (hdirty.symm.trans hclean)

theorem load (h : Agrees l kept) (net : Logged N) (data : Bytes) (which : ℕ) :
    Agrees (l.loadCommittedState (some data)).2
      (record ⟨l, net⟩ (.loadCommittedState (some data)) which kept) := by
  rw [record]
  rcases hread : readState data with e | ⟨updated, jobs⟩
  · rw [loadCommittedState, hread]
    exact h
  · obtain ⟨store, -, hload, hget⟩ := loadCommittedState_ok (l := l) hread
    have hmarks := loadCommittedState_marks l (some data)
    rw [hload] at hmarks
    rw [hload]
    intro hclean
    -- the mark was not set before
    have hbefore : l.dirty = false := by
      rcases hdirty : l.dirty with _ | _
      · rfl
      · exact absurd (hclean.symm.trans (hmarks.2 hdirty)) Bool.false_ne_true
    refine ⟨hmarks.1.trans (h hbefore).1, .inr ⟨_, kept, rfl, rfl, updated, jobs, hread, fun j => ?_⟩⟩
    rw [← hget]
    exact ⟨fun hj => MemStore.get_eq_some_iff.mpr ⟨hj, rfl⟩,
      fun hj => (MemStore.get_eq_some_iff.mp hj).1⟩

theorem poll (h : Agrees l kept) (net : Logged N) (now : Nanos) (which : ℕ) :
    Agrees (l.pollSnapshot now).2 (record ⟨l, net⟩ (.pollSnapshot now) which kept) := by
  rw [record]
  rcases pollSnapshot_cases l now with ⟨-, heq⟩ | ⟨hdirty, -, heq⟩ | ⟨-, -, heq⟩
  · rw [heq]
    exact h
  · rw [heq]
    exact fun hclean => absurd (hclean.symm.trans hdirty) Bool.false_ne_true
  · rw [heq]
    exact fun _ => ⟨rfl, .inr ⟨_, kept, rfl, rfl, now, rfl⟩⟩

theorem step [Transport N] (h : Agrees l kept) (net : Logged N) (r : Request) (which : ℕ) :
    Agrees ((⟨l, net⟩ : Sys N).serve r).leader (record ⟨l, net⟩ r which kept) := by
  rcases r with op | _ | now | _ | ⟨delay, now⟩ | d | _
  · exact h.marks (marks_apply ⟨l, net⟩ op)
  · rename_i snapshot
    rcases snapshot with _ | data
    · exact h
    · exact h.load net data which
  · exact h.poll net now which
  · exact fun hclean => absurd hclean.symm Bool.false_ne_true
  · exact h.marks (marks_settle l delay now)
  · exact h.marks ⟨rfl, .inr ⟨rfl, rfl⟩⟩
  · exact h.marks ⟨rfl, .inr ⟨rfl, rfl⟩⟩

end Agrees

variable [Transport N]

/-- Along every run, the diary agrees with the leader. -/
theorem agrees_of_reachable {s : Sys N × List Kept} (h : diary.Reachable s) :
    Agrees s.1.leader s.2 := by
  refine h.invariant (P := fun s => Agrees s.1.leader s.2) ?_ ?_
  · rintro ⟨s, kept⟩ ⟨⟨id, hl, -⟩, rfl⟩
    intro _
    dsimp only
    rw [hl]
    exact ⟨rfl, .inl ⟨rfl, rfl⟩⟩
  · rintro ⟨s, kept⟩ ⟨r, which⟩ s' hs hstep
    obtain rfl := (Option.some.inj hstep).symm
    exact hs.step s.net r which

/-! ### The window -/

/-- A request that is no poll leaves the window, and takes no mark away. -/
theorem serve_marks (s : Sys N) {r : Request} (hr : ∀ now, r ≠ .pollSnapshot now) :
    (s.serve r).leader.dirtySeen = s.leader.dirtySeen ∧
      (s.leader.dirty = true → (s.serve r).leader.dirty = true) := by
  rcases r with op | snapshot | now | _ | ⟨delay, now⟩ | d | _
  · exact ⟨(marks_apply s op).seen, (marks_apply s op).dirty⟩
  · exact loadCommittedState_marks s.leader snapshot
  · exact absurd rfl (hr now)
  · exact ⟨rfl, fun _ => rfl⟩
  · exact ⟨(marks_settle s.leader delay now).seen, (marks_settle s.leader delay now).dirty⟩
  · exact ⟨rfl, id⟩
  · exact ⟨rfl, id⟩

/-- The mark is set, and the window is open since the poll at `t₀`. -/
def Waiting (t₀ : Nanos) (l : Leader) : Prop := l.dirty = true ∧ l.dirtySeen = some t₀

theorem Waiting.serve {t₀ : Nanos} {s : Sys N} (h : Waiting t₀ s.leader) {r : Request}
    (hr : ∀ now, r = .pollSnapshot now → now - t₀ < persistDebounce) :
    Waiting t₀ (s.serve r).leader := by
  by_cases hpoll : ∃ now, r = .pollSnapshot now
  · obtain ⟨now, rfl⟩ := hpoll
    have hearly := hr now rfl
    rcases pollSnapshot_cases s.leader now with ⟨hclean, -⟩ | ⟨-, -, heq⟩ | ⟨-, hlate, -⟩
    · exact absurd (hclean.symm.trans h.1) Bool.false_ne_true
    · rw [Sys.serve, heq, h.2]
      exact ⟨h.1, rfl⟩
    · rw [h.2, Option.getD_some] at hlate
      exact absurd hearly hlate.not_gt
  · obtain ⟨hseen, hdirty⟩ := serve_marks s fun now heq => hpoll ⟨now, heq⟩
    exact ⟨hdirty h.1, hseen.trans h.2⟩

theorem Waiting.run {t₀ : Nanos} {s s' : Sys N} {rs : List Request} (h : Waiting t₀ s.leader)
    (hrs : ∀ now, Request.pollSnapshot now ∈ rs → now - t₀ < persistDebounce)
    (hrun : requests.run s rs = some s') : Waiting t₀ s'.leader := by
  induction rs generalizing s with
  | nil =>
    obtain rfl := Option.some.inj hrun
    exact h
  | cons r rest ih =>
    exact ih (h.serve fun now heq => hrs now (heq ▸ List.mem_cons_self))
      (fun now hmem => hrs now (List.mem_cons_of_mem r hmem)) hrun

/-- Without polls no window is opened. -/
theorem dirtySeen_run {s s' : Sys N} {rs : List Request}
    (hrs : ∀ now, Request.pollSnapshot now ∉ rs) (hrun : requests.run s rs = some s') :
    s'.leader.dirtySeen = s.leader.dirtySeen := by
  induction rs generalizing s with
  | nil =>
    obtain rfl := Option.some.inj hrun
    rfl
  | cons r rest ih =>
    have hr : ∀ now, r ≠ .pollSnapshot now := fun now heq => hrs now (heq ▸ List.mem_cons_self)
    exact (ih (fun now hmem => hrs now (List.mem_cons_of_mem r hmem)) hrun).trans
      (serve_marks s hr).1

/-- A run of the requests is one of the diary. -/
theorem exists_diary {s₀ s : Sys N} {rs : List Request} (h : requests.run s₀ rs = some s)
    (kept₀ : List Kept) :
    ∃ kept, diary.run (s₀, kept₀) (rs.map fun r => (r, 0)) = some (s, kept) := by
  induction rs generalizing s₀ kept₀ with
  | nil =>
    obtain rfl := Option.some.inj h
    exact ⟨kept₀, rfl⟩
  | cons r rest ih => exact ih h _

/-- As long as the mark is not set, no window is open. -/
theorem dirtySeen_of_clean {s : Sys N} (h : requests.Reachable s) (hclean : s.leader.dirty = false) :
    s.leader.dirtySeen = none := by
  obtain ⟨s₀, rs, hinit, hrun⟩ := h
  obtain ⟨kept, hdiary⟩ := exists_diary hrun []
  exact (agrees_of_reachable ⟨(s₀, []), _, ⟨hinit, rfl⟩, hdiary⟩ hclean).1

/-- **No change is lost for the snapshot.** While the mark is not set, the store is what the last
snapshot that stands holds, or empty if there is none. Once it is set, the first poll that is far
enough behind the first poll that saw it hands out the store of that moment, whatever is asked of
the leader in between. -/
theorem nothing_lost :
    (∀ (s : Sys N) (kept : List Kept), diary.Reachable (s, kept) → s.leader.dirty = false →
      (kept.find? Kept.stands = none ∧ s.leader.store.jobs = []) ∨
        ∃ k, kept.find? Kept.stands = some k ∧ k.Holds s.leader.store.jobs) ∧
    ∀ s₁ s₂ s₃ : Sys N, ∀ before between : List Request, ∀ t₀ t : Nanos,
      requests.Reachable s₁ → s₁.leader.dirty = false →
      (∀ now, Request.pollSnapshot now ∉ before) → requests.run s₁ before = some s₂ →
      s₂.leader.dirty = true →
      (∀ now, Request.pollSnapshot now ∈ between → now - t₀ < persistDebounce) →
      requests.run s₂ (.pollSnapshot t₀ :: between) = some s₃ → persistDebounce ≤ t - t₀ →
      (s₃.leader.pollSnapshot t).1 = some (s₃.leader.snapshot t) := by
  constructor
  · intro s kept hreach hclean
    obtain ⟨-, ⟨rfl, hjobs⟩ | ⟨k, rest, rfl, hstands, hholds⟩⟩ := agrees_of_reachable hreach hclean
    · exact .inl ⟨rfl, hjobs⟩
    · exact .inr ⟨k, List.find?_cons_of_pos hstands, hholds⟩
  · intro s₁ s₂ s₃ before between t₀ t hreach hclean hbefore hrun hdirty hbetween hrun' hlate
    have hnone : s₂.leader.dirtySeen = none :=
      (dirtySeen_run hbefore hrun).trans (dirtySeen_of_clean hreach hclean)
    -- the poll at `t₀` opens the window
    have hopen : Waiting t₀ (s₂.serve (.pollSnapshot t₀)).leader := by
      rcases pollSnapshot_cases s₂.leader t₀ with ⟨hclean', -⟩ | ⟨-, -, heq⟩ | ⟨-, hlate', -⟩
      · exact absurd (hclean'.symm.trans hdirty) Bool.false_ne_true
      · rw [Sys.serve, heq, hnone]
        exact ⟨hdirty, rfl⟩
      · rw [hnone, Option.getD_none, Nat.sub_self] at hlate'
        exact absurd hlate' (by decide)
    obtain ⟨hdirty', hseen⟩ := hopen.run hbetween hrun'
    rcases pollSnapshot_cases s₃.leader t with ⟨hclean', -⟩ | ⟨-, hearly, -⟩ | ⟨-, -, heq⟩
    · exact absurd (hclean'.symm.trans hdirty') Bool.false_ne_true
    · rw [hseen, Option.getD_some] at hearly
      exact absurd hearly hlate.not_gt
    · rw [heq]

/-- A job is dispatched, the window opens, another one comes, and one second after the first poll the
snapshot of both is handed out. -/
theorem nothing_lost_twoJobs :
    ∃ s : Sys WillingAgents, s.leader.store.jobs = [{ name := "x" }, { name := "y" }] ∧
      (s.leader.pollSnapshot (5 + persistDebounce)).1 =
        some (s.leader.snapshot (5 + persistDebounce)) := by
  refine ⟨⟨_, _⟩, ?_, nothing_lost.2 emptyLeader _ _ [.op (.dispatchJob { name := "x" })]
    [.op (.dispatchJob { name := "y" }), .pollSnapshot 9] 5 _ (.init ⟨"a", rfl, rfl⟩) rfl ?_ rfl ?_ ?_
    rfl ?_⟩
  · rfl
  · exact fun now h => nomatch List.mem_singleton.mp h
  · rfl
  · intro now h
    rcases List.mem_cons.mp h with h | h
    · exact nomatch h
    · obtain rfl := Request.pollSnapshot.inj (List.mem_singleton.mp h)
      decide
  · decide

end Hop.Lead
