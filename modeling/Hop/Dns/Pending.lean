import Hop.Dns.Watcher

/-!
# What waits in the watcher

An event about a job waits in the watcher until a refresh covers it, and a refresh that failed until
a full one is asked for (`Waits`). No call but `lost` takes it away (`Waits.call`), and none sets
its time back: the first `next` at or after that time answers with the refresh (`Waits.next_due`).

The time is `debounce` after the event, unless a full refresh failed and its retry is already set
for later: then the event goes with the retry (`waits_for_retry`).
-/

namespace Hop.Dns

open Hop.Types

/-- A call of the driver. -/
inductive Call
  | event (ev : Hoplib.Event)
  | next
  | refreshFailed (what : Refresh)
  | lost
  | discovered (name : String)
  | discoverFailed

namespace Watcher

/-- The watcher behind a call. -/
def call (w : Watcher) (now : Nanos) : Call → Watcher
  | .event ev => w.event now ev
  | .next => (w.next now).2
  | .refreshFailed what => w.refreshFailed now what
  | .lost => w.lost
  | .discovered name => w.discovered now name
  | .discoverFailed => w.discoverFailed now

/-- The watcher behind calls with their times. -/
def run (w : Watcher) (cs : List (Nanos × Call)) : Watcher :=
  cs.foldl (fun w c => w.call c.1 c.2) w

theorem run_append (w : Watcher) (cs ds : List (Nanos × Call)) :
    w.run (cs ++ ds) = (w.run cs).run ds := List.foldl_append

theorem run_snoc (w : Watcher) (cs : List (Nanos × Call)) (c : Nanos × Call) :
    w.run (cs ++ [c]) = (w.run cs).call c.1 c.2 := run_append w cs [c]

/-! ### What the calls do -/

theorem arm_due (w : Watcher) (now : Nanos) :
    (w.arm now).due = some (w.due.getD (satAdd u64Max now w.debounce)) := rfl

/-- What an event does: nothing, everything at once, or it arms the watcher. -/
theorem event_cases (w : Watcher) (now : Nanos) (ev : Hoplib.Event) :
    w.event now ev = w ∨
      w.event now ev = { w with full := true, jobs := [], due := some now } ∨
      w.event now ev = w.pendFull now ∨
      ∃ jobs, (w.full = false ∧ ∀ j ∈ w.jobs, j ∈ jobs) ∧
        w.event now ev = { w with jobs := jobs }.arm now := by
  rw [event]
  rcases classify ev with _ | _ | name | _
  · exact .inr (.inl rfl)
  · exact .inr (.inr (.inl rfl))
  · dsimp only
    split_ifs with hfull hmem hmany
    · exact .inl rfl
    · exact .inr (.inr (.inr ⟨w.jobs, ⟨by simpa using hfull, fun j hj => hj⟩, rfl⟩))
    · exact .inr (.inr (.inl rfl))
    · exact .inr (.inr (.inr ⟨w.jobs ++ [lowerText name], ⟨by simpa using hfull,
        fun j hj => List.mem_append_left _ hj⟩, rfl⟩))
  · exact .inl rfl

/-- What `next` does once the cluster is known: the refresh that is due, or nothing. -/
theorem next_cases {w : Watcher} (hknown : w.cluster.isSome = true) (now : Nanos) :
    (∃ d, w.due = some d ∧ d ≤ now ∧
      w.next now = (.refresh (if w.full then .full else .jobs w.jobs),
        { w with due := none, jobs := [], full := false })) ∨
    (∀ d, w.due = some d → now < d) ∧ w.next now = (.wait w.due, w) := by
  have hsome : ¬ w.cluster.isNone = true := by
    rw [Option.isNone_iff_eq_none]
    intro hnone
    rw [hnone] at hknown
    cases hknown
  rw [next, if_neg hsome]
  rcases hdue : w.due with _ | d
  · exact .inr ⟨fun d hd => (nomatch hd), rfl⟩
  · dsimp only
    by_cases hle : d ≤ now
    · rw [if_pos hle]
      exact .inl ⟨d, rfl, hle, rfl⟩
    · rw [if_neg hle]
      refine .inr ⟨?_, rfl⟩
      rintro _ ⟨⟩
      exact Nat.lt_of_not_le hle

/-- When a refresh that failed is tried again. -/
def retryTime (w : Watcher) (now : Nanos) : Refresh → Nanos
  | .full => satAdd u64Max now w.interval
  | .jobs _ => now

theorem refreshFailed_due (w : Watcher) (now : Nanos) (failed : Refresh) :
    (w.refreshFailed now failed).due =
      some ((w.due.map fun d => min d (w.retryTime now failed)).getD (w.retryTime now failed)) := by
  cases failed with
  | full => rfl
  | jobs names => rfl

/-! ### What waits -/

/-- What a refresh has to be about: a job, or everything. -/
def Covers : Option String → Refresh → Prop
  | _, .full => True
  | some job, .jobs names => lowerText job ∈ names
  | none, .jobs _ => False

/-- Something waits in the watcher, until this time at most. -/
structure Waits (what : Option String) (w : Watcher) (until' : Nanos) : Prop where
  known : w.cluster.isSome = true
  kept : w.full = true ∨ ∃ job, what = some job ∧ lowerText job ∈ w.jobs
  due : ∃ d, w.due = some d ∧ d ≤ until'

variable {what : Option String} {w : Watcher} {until' now : Nanos}

theorem Waits.mono (h : Waits what w until') {later : Nanos} (hle : until' ≤ later) :
    Waits what w later := by
  obtain ⟨d, hd, hdle⟩ := h.due
  exact ⟨h.known, h.kept, d, hd, hdle.trans hle⟩

/-- Whatever refresh `next` answers with, it is about what waits. -/
theorem Waits.next_refresh (h : Waits what w until') {r : Refresh}
    (hr : (w.next now).1 = .refresh r) : Covers what r := by
  rcases next_cases h.known now with ⟨d, -, -, heq⟩ | ⟨-, heq⟩
  · rw [heq] at hr
    obtain rfl : _ = r := Action.refresh.inj hr
    rcases h.kept with hfull | ⟨job, rfl, hjob⟩
    · rw [if_pos hfull]
      exact trivial
    · split_ifs
      · exact trivial
      · exact hjob
  · rw [heq] at hr
    cases hr

/-- **At its time, `next` answers with a refresh.** -/
theorem Waits.next_due (h : Waits what w until') (hnow : until' ≤ now) :
    ∃ r, (w.next now).1 = .refresh r ∧ Covers what r := by
  obtain ⟨d, hd, hle⟩ := h.due
  rcases next_cases h.known now with ⟨d, -, -, heq⟩ | ⟨hlt, -⟩
  · have hr : (w.next now).1 = .refresh (if w.full then .full else .jobs w.jobs) := by rw [heq]
    exact ⟨_, hr, h.next_refresh hr⟩
  · exact absurd (hle.trans hnow) (Nat.not_le.mpr (hlt d hd))

/-- An event sets no time back. -/
theorem Waits.event (h : Waits what w until') (now : Nanos) (ev : Hoplib.Event) :
    Waits what (w.event now ev) (max until' now) := by
  obtain ⟨d, hd, hle⟩ := h.due
  have hkeep : (w.due.getD (satAdd u64Max now w.debounce)) = d := by rw [hd, Option.getD_some]
  rcases event_cases w now ev with heq | heq | heq | ⟨jobs, ⟨-, hjobs⟩, heq⟩
  · rw [heq]
    exact h.mono (le_max_left _ _)
  · rw [heq]
    exact ⟨h.known, .inl rfl, now, rfl, le_max_right _ _⟩
  · rw [heq]
    exact ⟨h.known, .inl rfl, d, congrArg some hkeep, hle.trans (le_max_left _ _)⟩
  · rw [heq]
    refine ⟨h.known, ?_, d, congrArg some hkeep, hle.trans (le_max_left _ _)⟩
    exact h.kept.imp id fun ⟨job, hwhat, hjob⟩ => ⟨job, hwhat, hjobs _ hjob⟩

/-- A refresh that fails keeps what waits. -/
theorem Waits.refreshFailed (h : Waits what w until') (now : Nanos) (failed : Refresh) :
    Waits what (w.refreshFailed now failed) until' := by
  obtain ⟨d, hd, hle⟩ := h.due
  refine ⟨h.known, .inl rfl, _, rfl, ?_⟩
  rw [hd]
  exact (min_le_left _ _).trans hle

/-- **No call takes away what waits, but `lost` and the refresh.** -/
theorem Waits.call (h : Waits what w until') {now : Nanos} {c : Call} (hlost : c ≠ .lost)
    (hnext : c = .next → ∀ r, (w.next now).1 = .refresh r → ¬ Covers what r) :
    Waits what (w.call now c) (max until' now) := by
  cases c with
  | event ev => exact h.event now ev
  | next =>
    rcases next_cases h.known now with ⟨d, -, -, heq⟩ | ⟨-, heq⟩
    · have hr : (w.next now).1 = .refresh (if w.full then .full else .jobs w.jobs) := by rw [heq]
      exact absurd (h.next_refresh hr) (hnext rfl _ hr)
    · rw [Watcher.call, heq]
      exact h.mono (le_max_left _ _)
  | refreshFailed failed => exact (h.refreshFailed now failed).mono (le_max_left _ _)
  | lost => exact absurd rfl hlost
  | discovered name =>
    have hmono := h.mono (le_max_left until' now)
    rw [Watcher.call, discovered]
    split_ifs
    · exact ⟨hmono.known, hmono.kept, hmono.due⟩
    · exact ⟨rfl, hmono.kept, hmono.due⟩
  | discoverFailed =>
    have hmono := h.mono (le_max_left until' now)
    exact ⟨hmono.known, hmono.kept, hmono.due⟩

/-- Calls among which nothing takes away what waits: no `lost`, and no refresh that covers it. -/
def Quiet (what : Option String) : Watcher → List (Nanos × Call) → Prop
  | _, [] => True
  | w, c :: cs => c.2 ≠ .lost ∧
      (c.2 = .next → ∀ r, (w.next c.1).1 = .refresh r → ¬ Covers what r) ∧
      Quiet what (w.call c.1 c.2) cs

/-- What waits along a run. -/
theorem Waits.run (h : Waits what w until') {cs : List (Nanos × Call)} (hquiet : Quiet what w cs)
    (hcs : ∀ c ∈ cs, c.1 ≤ now) (hnow : until' ≤ now) : Waits what (w.run cs) now := by
  induction cs generalizing w until' with
  | nil => exact h.mono hnow
  | cons c cs ih =>
    obtain ⟨hlost, hnext, hrest⟩ := hquiet
    have hc := hcs c List.mem_cons_self
    exact ih (h.call hlost hnext) hrest (fun d hd => hcs d (List.mem_cons_of_mem c hd))
      (max_le hnow hc)

/-- An event about a job waits: `debounce` at most, or until what is already due. -/
theorem waits_event (hknown : w.cluster.isSome = true) (hfull : w.full = true → w.due.isSome = true)
    {t : Nanos} {ev : Hoplib.Event} {job : String} (hev : classify ev = .job job) {until' : Nanos}
    (hdeb : t + w.debounce ≤ until') (hdue : ∀ d, w.due = some d → d ≤ until') :
    Waits (some job) (w.event t ev) until' := by
  have harm : ∀ w' : Watcher, w'.due = w.due → w'.debounce = w.debounce →
      ∃ d, (w'.arm t).due = some d ∧ d ≤ until' := by
    intro w' hd hb
    refine ⟨_, arm_due w' t, ?_⟩
    rw [hd, hb]
    rcases hw : w.due with _ | d
    · exact (satAdd_le_add _ _ _).trans hdeb
    · exact hdue d hw
  rw [event, hev]
  dsimp only
  split_ifs with h hmem hmany
  · obtain ⟨d, hd⟩ := Option.isSome_iff_exists.mp (hfull h)
    exact ⟨hknown, .inl h, d, hd, hdue d hd⟩
  · exact ⟨hknown, .inr ⟨job, rfl, hmem⟩, harm w rfl rfl⟩
  · exact ⟨hknown, .inl rfl, harm { w with full := true, jobs := [] } rfl rfl⟩
  · exact ⟨hknown, .inr ⟨job, rfl, List.mem_append_right _ List.mem_cons_self⟩,
      harm { w with jobs := w.jobs ++ [lowerText job] } rfl rfl⟩

/-! ### Runs from the start -/

/-- What holds of the watcher behind these calls. -/
structure Sound (interval : Nanos) (cs : List (Nanos × Call)) (w : Watcher) : Prop where
  interval_eq : w.interval = interval
  debounce_eq : w.debounce = Dns.debounce
  /-- There is no full refresh without a time. -/
  due_of_full : w.full = true → w.due.isSome = true
  /-- A time that is far off is that of a retry. -/
  due_cases : ∀ d, w.due = some d → (∃ c ∈ cs, d ≤ c.1 + Dns.debounce) ∨
    w.full = true ∧ ∃ f, (f, .refreshFailed .full) ∈ cs ∧ d = satAdd u64Max f interval

variable {interval : Nanos} {cs : List (Nanos × Call)}

theorem Sound.mono (h : Sound interval cs w) (c : Nanos × Call) : Sound interval (cs ++ [c]) w := by
  refine ⟨h.interval_eq, h.debounce_eq, h.due_of_full, fun d hd => ?_⟩
  refine (h.due_cases d hd).imp ?_ ?_
  · exact fun ⟨e, he, hle⟩ => ⟨e, List.mem_append_left _ he, hle⟩
  · exact fun ⟨hfull, f, hf, heq⟩ => ⟨hfull, f, List.mem_append_left _ hf, heq⟩

theorem Sound.arm (h : Sound interval cs w) (w' : Watcher) (hdue : w'.due = w.due)
    (hint : w'.interval = w.interval) (hdeb : w'.debounce = w.debounce)
    (hfull : w.full = true → w'.full = true) (c : Nanos × Call) :
    Sound interval (cs ++ [c]) (w'.arm c.1) := by
  refine ⟨hint.trans h.interval_eq, hdeb.trans h.debounce_eq, fun _ => rfl, fun d hd => ?_⟩
  rw [arm_due, hdue, hdeb, h.debounce_eq, Option.some.injEq] at hd
  rcases hw : w.due with _ | e
  · rw [hw, Option.getD_none] at hd
    exact .inl ⟨c, List.mem_append_right _ List.mem_cons_self, hd ▸ satAdd_le_add _ _ _⟩
  · rw [hw, Option.getD_some] at hd
    subst hd
    rcases (h.mono c).due_cases e hw with hnear | ⟨hf, hretry⟩
    · exact .inl hnear
    · exact .inr ⟨hfull hf, hretry⟩

theorem Sound.call (h : Sound interval cs w) (c : Nanos × Call) :
    Sound interval (cs ++ [c]) (w.call c.1 c.2) := by
  have hmono := h.mono c
  have hmem : c ∈ cs ++ [c] := List.mem_append_right _ List.mem_cons_self
  obtain ⟨now, c⟩ := c
  cases c with
  | event ev =>
    rcases event_cases w now ev with heq | heq | heq | ⟨jobs, ⟨hfull, -⟩, heq⟩
    · rw [Watcher.call, heq]
      exact hmono
    · rw [Watcher.call, heq]
      refine ⟨h.interval_eq, h.debounce_eq, fun _ => rfl, ?_⟩
      rintro d ⟨⟩
      exact .inl ⟨_, hmem, Nat.le_add_right _ _⟩
    · rw [Watcher.call, heq]
      exact h.arm { w with full := true, jobs := [] } rfl rfl rfl (fun _ => rfl) (now, .event ev)
    · rw [Watcher.call, heq]
      exact h.arm { w with jobs := jobs } rfl rfl rfl id (now, .event ev)
  | next =>
    have hnext : (w.next now).2 = w ∨
        (w.next now).2 = { w with due := none, jobs := [], full := false } := by
      rw [next]
      split
      · exact .inl rfl
      · split
        · split
          · exact .inr rfl
          · exact .inl rfl
        · exact .inl rfl
    rw [Watcher.call]
    rcases hnext with heq | heq
    · rw [heq]
      exact hmono
    · rw [heq]
      exact ⟨h.interval_eq, h.debounce_eq, nofun, nofun⟩
  | refreshFailed failed =>
    refine ⟨h.interval_eq, h.debounce_eq, fun _ => rfl, fun d hd => ?_⟩
    -- the time is that of before, or the one of this retry
    have hcases : w.due = some d ∨ d = w.retryTime now failed := by
      rw [Watcher.call, refreshFailed_due, Option.some.injEq] at hd
      rcases hw : w.due with _ | e
      · rw [hw] at hd
        exact .inr hd.symm
      · rw [hw] at hd
        have hmin : min e (w.retryTime now failed) = d := hd
        rcases min_choice e (w.retryTime now failed) with heq | heq
        · exact .inl (congrArg some (heq.symm.trans hmin))
        · exact .inr (hmin.symm.trans heq)
    rcases hcases with hold | hnew
    · exact (hmono.due_cases d hold).imp id fun h => ⟨rfl, h.2⟩
    · cases failed with
      | full => exact .inr ⟨rfl, now, hmem, by rw [hnew, retryTime, h.interval_eq]⟩
      | jobs names =>
        refine .inl ⟨_, hmem, ?_⟩
        rw [hnew]
        exact Nat.le_add_right _ _
  | lost => exact ⟨h.interval_eq, h.debounce_eq, nofun, nofun⟩
  | discovered name =>
    rw [Watcher.call, discovered]
    split_ifs
    · exact ⟨hmono.interval_eq, hmono.debounce_eq, hmono.due_of_full, hmono.due_cases⟩
    · exact ⟨hmono.interval_eq, hmono.debounce_eq, hmono.due_of_full, hmono.due_cases⟩
  | discoverFailed =>
    exact ⟨hmono.interval_eq, hmono.debounce_eq, hmono.due_of_full, hmono.due_cases⟩

theorem sound_run (interval : Nanos) (cs : List (Nanos × Call)) :
    Sound interval cs (run { interval := interval } cs) := by
  induction cs using List.reverseRecOn with
  | nil => exact ⟨rfl, rfl, nofun, nofun⟩
  | append_singleton cs c ih =>
    rw [run_snoc]
    exact ih.call c

/-- **No event is lost, and none starves.** In a run from the start, a job event is answered by the
first `next` at or after `debounce`, and at or after what was already due: `lost` apart, a refresh
that covers it is the only thing that takes it away. Only the retry of a full refresh that failed is
due later than `debounce`. A refresh that fails is tried again as a full one, and a full refresh
never waits without a time. -/
theorem no_event_lost (interval : Nanos) (cs : List (Nanos × Call)) :
    let w := run { interval := interval } cs
    (w.full = true → w.due.isSome = true) ∧
      (∀ t, (∀ c ∈ cs, c.1 ≤ t) → ∀ d, w.due = some d → t + Dns.debounce < d →
        ∃ f, (f, .refreshFailed .full) ∈ cs ∧ d = satAdd u64Max f interval) ∧
      (∀ t ev job more now, classify ev = .job job → w.cluster.isSome = true →
        ((t :: more.map Prod.fst) ++ [now]).Pairwise (· ≤ ·) →
        Quiet (some job) (w.event t ev) more →
        t + Dns.debounce ≤ now → (∀ d, w.due = some d → d ≤ now) →
        ∃ r, (((w.event t ev).run more).next now).1 = .refresh r ∧ Covers (some job) r) ∧
      ∀ t failed more now, w.cluster.isSome = true →
        ((t :: more.map Prod.fst) ++ [now]).Pairwise (· ≤ ·) →
        Quiet none (w.refreshFailed t failed) more →
        (∀ r, (((w.refreshFailed t failed).run more).next now).1 = .refresh r → r = .full) ∧
          (w.retryTime t failed ≤ now →
            (((w.refreshFailed t failed).run more).next now).1 = .refresh .full) := by
  intro w
  have hsound : Sound interval cs w := sound_run interval cs
  have hbefore : ∀ {t now : Nanos} {more : List (Nanos × Call)},
      ((t :: more.map Prod.fst) ++ [now]).Pairwise (· ≤ ·) → ∀ c ∈ more, c.1 ≤ now := by
    intro t now more hmore c hc
    exact (List.pairwise_append.mp hmore).2.2 c.1
      (List.mem_cons_of_mem _ (List.mem_map_of_mem hc)) now List.mem_cons_self
  refine ⟨hsound.due_of_full, fun t ht d hd hlate => ?_, ?_, ?_⟩
  · rcases hsound.due_cases d hd with ⟨c, hc, hle⟩ | ⟨-, hretry⟩
    · exact absurd (hle.trans (Nat.add_le_add_right (ht c hc) _)) (Nat.not_le.mpr hlate)
    · exact hretry
  · intro t ev job more now hev hknown htimes hquiet hdeb hdue
    rw [← hsound.debounce_eq] at hdeb
    have hwaits := waits_event hknown hsound.due_of_full hev hdeb hdue
    exact (hwaits.run hquiet (hbefore htimes) (le_refl _)).next_due (le_refl _)
  · intro t failed more now hknown htimes hquiet
    have hwaits : Waits none (w.refreshFailed t failed) (w.retryTime t failed) := by
      refine ⟨hknown, .inl rfl, _, refreshFailed_due w t failed, ?_⟩
      rcases w.due with _ | d
      · exact le_refl _
      · exact min_le_right _ _
    have hfull : ∀ r, Covers none r → r = .full := by
      rintro (_ | names) hr
      · rfl
      · exact hr.elim
    refine ⟨fun r hr => ?_, fun hnow => ?_⟩
    · have hlater := hwaits.run hquiet
        (fun c hc => (hbefore htimes c hc).trans (le_max_left now (w.retryTime t failed)))
        (le_max_right _ _)
      exact hfull r (hlater.next_refresh hr)
    · obtain ⟨r, hr, hcovers⟩ :=
        (hwaits.run hquiet (hbefore htimes) hnow).next_due (le_refl now)
      rw [hr, hfull r hcovers]

/-- A job event of the topic `job`. -/
def webEvent : Hoplib.Event :=
  ⟨utf8 "job", utf8 "\x7b\"name\":\"web\"\x7d"⟩

/-- One about another job. -/
def apiEvent : Hoplib.Event :=
  ⟨utf8 "job", utf8 "\x7b\"name\":\"api\"\x7d"⟩

/-- The first full refresh was handed out. -/
def refreshedOnce : List (Nanos × Call) := [(0, .discovered "prod"), (0, .next)]

/-- Between the event and its refresh, `next` is asked too early and another job changes. -/
theorem no_event_lost_web : ∃ r, ((((run {} refreshedOnce).event 0 webEvent).run
    [(1, .next), (2, .event apiEvent)]).next Dns.debounce).1 = .refresh r ∧ Covers (some "web") r := by
  refine (no_event_lost reconnect refreshedOnce).2.2.1 0 webEvent "web" _ Dns.debounce rfl rfl
    (by decide) ⟨?_, fun _ r hr => ?_, ?_, ?_, trivial⟩ (by decide) fun d hd => ?_
  · intro h
    cases h
  · cases hr
  · intro h
    cases h
  · intro h
    cases h
  · cases hd

/-- A run whose first full refresh fails. -/
def failedOnce : List (Nanos × Call) :=
  [(0, .discovered "prod"), (0, .event ⟨utf8 "ping", []⟩), (0, .next), (0, .refreshFailed .full)]

/-- An event that comes while the retry of a failed full refresh is set for later goes with that
retry: `debounce` after the event, `next` still waits. -/
theorem waits_for_retry :
    let w := run {} failedOnce
    classify webEvent = .job "web" ∧ w.cluster.isSome = true ∧ w.due = some reconnect ∧
      ((w.event 0 webEvent).next Dns.debounce).1 = .wait (some reconnect) := by
  have hjob : classify webEvent = .job "web" := rfl
  exact ⟨hjob, rfl, rfl, rfl⟩

end Watcher

end Hop.Dns
