import Hop.HopOS.Post

/-!
# The state task over its backend

`state_task` of `agentd-hopos/src/lease.rs` takes a snapshot out of its queue and looks for more
before it writes. Of the snapshots it finds only the last one is written. A load that it finds on the
way is served at once, before the snapshot it holds: it overtakes the snapshots of that round.

`StateDesk` is the task with its queue and its backend. Orders may be put in the queue between any
two steps of the task. `loads_overtake` compares every answer, and what is in the backend when the
task rests, with the orders carried out one by one: a load reads what the orders before it leave, or,
if the task held a snapshot, what the orders before the first snapshot of that round leave.
-/

namespace Hop.HopOS

/-- What is in the backend after an order that is carried out by itself. -/
def StateOp.apply : Option Bytes → StateOp → Option Bytes
  | blob, .load => blob
  | _, .save s => some s

/-- What is in the backend after these orders, carried out one by one: the last snapshot, or what
was there at the start. -/
def committed (start : Option Bytes) (ops : List StateOp) : Option Bytes :=
  ops.foldl StateOp.apply start

theorem committed_append (start : Option Bytes) (ops : List StateOp) (op : StateOp) :
    committed start (ops ++ [op]) = op.apply (committed start ops) := List.foldl_append

/-- The `Mail::Loaded` that answers a load. -/
structure Loaded where
  /-- The number of the load among all orders. -/
  load : ℕ
  /-- The number of the snapshot that began the round in which the load was taken, if the task held
  one. -/
  round : Option ℕ
  got : Option Bytes
deriving DecidableEq

/-- The state task with its queue and a backend that always succeeds. -/
structure StateDesk where
  /-- The orders that wait, each with its number. -/
  queue : List (StateOp × ℕ)
  /-- What the task does; the orders it works on go by their numbers. -/
  task : StateTask
  /-- The number of the snapshot that began the round the task is in. -/
  round : Option ℕ
  /-- What is in the backend. -/
  blob : Option Bytes
  /-- The answers so far. -/
  loaded : List Loaded
  /-- All orders that were put in the queue. -/
  queued : List StateOp

namespace StateDesk

/-- The next order comes in, or the task takes the oldest order, delivers what it has read, finds no
further order and begins to write, or has written. -/
inductive Event
  | put (op : StateOp)
  | take
  | read
  | write
  | wrote

def step (d : StateDesk) : Event → Option StateDesk
  | .put op =>
    if d.queue.length < stateQ then
      some { d with queue := d.queue ++ [(op, d.queued.length)], queued := d.queued ++ [op] }
    else none
  | .take =>
    match d.queue with
    | (op, i) :: rest =>
      (d.task.take true op i).map fun task =>
        { d with
          queue := rest
          task := task
          round := d.round.or (if op = .load then none else some i) }
    | [] => none
  | .read =>
    match d.task with
    | .reads i held =>
      some { d with task := .resume held, loaded := d.loaded ++ [⟨i, d.round, d.blob⟩] }
    | _ => none
  | .write =>
    match d.task, d.queue with
    | .holds s i, [] => some { d with task := .writes s i }
    | _, _ => none
  | .wrote =>
    match d.task with
    | .writes s _ => some { d with task := .idle, round := none, blob := some s }
    | _ => none

/-- The task at its start, over what is in the backend then. -/
def fresh (start : Option Bytes) : StateDesk := ⟨[], .idle, none, start, [], []⟩

/-- The state task, from a given content of the backend on. -/
def machine (start : Option Bytes) : Machine StateDesk Event where
  Init d := d = fresh start
  step := step

/-- The task has carried out all orders. -/
def Rests (d : StateDesk) : Prop := d.queue = [] ∧ d.task = .idle

/-- The numbers of the loads among the first `n` orders. -/
def loads (ops : List StateOp) (n : ℕ) : List ℕ :=
  (List.range n).filter fun i => ops[i]? = some .load

/-! ### What holds between two steps -/

/-- An answer that fits the orders: it is what the orders before the load leave, or, if the task held
a snapshot, what those before the first snapshot of the round leave. -/
structure Fits (start : Option Bytes) (ops : List StateOp) (a : Loaded) : Prop where
  load : ops[a.load]? = some .load
  round : ∀ j, a.round = some j → j < a.load ∧ ∃ s, ops[j]? = some (.save s)
  got : a.got = committed start (ops.take (a.round.getD a.load))

/-- The task holds `s` in the round that order `j` began: nothing of this round is written yet, and
`s` is what the first `n` orders leave. -/
structure InRound (start : Option Bytes) (d : StateDesk) (n : ℕ) (s : Bytes) (j : ℕ) : Prop where
  round : d.round = some j
  lt : j < n
  began : ∃ first, d.queued[j]? = some (.save first)
  blob : d.blob = committed start (d.queued.take j)
  last : committed start (d.queued.take n) = some s

/-- What the task does with the first `n` orders taken. -/
def Works (start : Option Bytes) (d : StateDesk) (n : ℕ) : StateTask → Prop
  | .idle => d.round = none ∧ d.blob = committed start (d.queued.take n) ∧
      d.loaded.map Loaded.load = loads d.queued n
  | .holds s _ => (∃ j, InRound start d n s j) ∧ d.loaded.map Loaded.load = loads d.queued n
  | .reads i none => n = i + 1 ∧ d.queued[i]? = some .load ∧ d.round = none ∧
      d.blob = committed start (d.queued.take i) ∧ d.loaded.map Loaded.load = loads d.queued i
  | .reads i (some (s, _)) => n = i + 1 ∧ d.queued[i]? = some .load ∧
      (∃ j, InRound start d i s j) ∧ d.loaded.map Loaded.load = loads d.queued i
  | .writes s _ => committed start (d.queued.take n) = some s ∧
      d.loaded.map Loaded.load = loads d.queued n

/-- The invariant, with the first `n` orders taken. -/
structure Kept (start : Option Bytes) (d : StateDesk) (n : ℕ) : Prop where
  le : n ≤ d.queued.length
  queue : d.queue = (d.queued.drop n).zipIdx n
  works : Works start d n d.task
  fits : ∀ a ∈ d.loaded, Fits start d.queued a

/-! ### One order more -/

variable {start : Option Bytes} {ops : List StateOp} {op : StateOp} {n i : ℕ} {d d' : StateDesk}

theorem committed_take (h : ops[n]? = some op) :
    committed start (ops.take (n + 1)) = op.apply (committed start (ops.take n)) := by
  rw [List.take_add_one, h]
  exact committed_append start _ op

theorem loads_load (h : ops[n]? = some .load) : loads ops (n + 1) = loads ops n ++ [n] := by
  rw [loads, List.range_succ, List.filter_append, List.filter_singleton]
  simp [h, loads]

theorem loads_save {s : Bytes} (h : ops[n]? = some (.save s)) : loads ops (n + 1) = loads ops n := by
  rw [loads, List.range_succ, List.filter_append, List.filter_singleton]
  simp [h, loads]

/-- An order that is put in leaves the earlier ones in their places. -/
theorem getElem?_put {x : StateOp} (h : ops[i]? = some x) : (ops ++ [op])[i]? = some x := by
  obtain ⟨hi, -⟩ := List.getElem?_eq_some_iff.mp h
  rw [List.getElem?_append_left hi, h]

theorem loads_put (h : n ≤ ops.length) : loads (ops ++ [op]) n = loads ops n := by
  refine List.filter_congr fun i hi => ?_
  rw [List.getElem?_append_left (by rw [List.mem_range] at hi; omega)]

theorem committed_put (h : n ≤ ops.length) :
    committed start ((ops ++ [op]).take n) = committed start (ops.take n) := by
  rw [List.take_append_of_le_length h]

theorem Fits.put {a : Loaded} (h : Fits start ops a) : Fits start (ops ++ [op]) a := by
  obtain ⟨hlt, -⟩ := List.getElem?_eq_some_iff.mp h.load
  refine ⟨getElem?_put h.load, fun j hj => ?_, ?_⟩
  · obtain ⟨hjlt, s, hs⟩ := h.round j hj
    exact ⟨hjlt, s, getElem?_put hs⟩
  · rw [h.got, committed_put]
    rcases hround : a.round with _ | j
    · exact hlt.le
    · exact ((h.round j hround).1.trans hlt).le

theorem InRound.put {s : Bytes} {j : ℕ} (h : InRound start d n s j) (hn : n ≤ d.queued.length)
    (queue : List (StateOp × ℕ)) (task : StateTask) :
    InRound start { d with queue := queue, task := task, queued := d.queued ++ [op] } n s j := by
  obtain ⟨first, hfirst⟩ := h.began
  have hj : j ≤ d.queued.length := h.lt.le.trans hn
  exact ⟨h.round, h.lt, ⟨first, getElem?_put hfirst⟩, h.blob.trans (committed_put hj).symm,
    (committed_put hn).trans h.last⟩

/-! ### The steps -/

theorem Kept.put (h : Kept start d n) : Kept start
    { d with queue := d.queue ++ [(op, d.queued.length)], queued := d.queued ++ [op] } n := by
  refine ⟨?_, ?_, ?_, fun a ha => (h.fits a ha).put⟩
  · rw [List.length_append]
    exact h.le.trans (Nat.le_add_right _ _)
  · -- the new order is the last one, under the number that comes next
    have hnext : n + (d.queued.length - n) = d.queued.length := Nat.add_sub_cancel' h.le
    dsimp only
    rw [List.drop_append_of_le_length h.le, List.zipIdx_append, List.length_drop, hnext, h.queue]
    rfl
  · have hle := h.le
    have hworks := h.works
    rcases htask : d.task with _ | ⟨s, t⟩ | ⟨i, _ | ⟨s, t⟩⟩ | ⟨s, t⟩ <;>
      rw [htask] at hworks <;> simp only [Works] at hworks ⊢
    · rw [committed_put hle, loads_put hle]
      exact hworks
    · obtain ⟨⟨j, hj⟩, hloaded⟩ := hworks
      rw [loads_put hle]
      exact ⟨⟨j, hj.put hle _ _⟩, hloaded⟩
    · obtain ⟨hn, hload, hround, hblob, hloaded⟩ := hworks
      rw [committed_put (by omega), loads_put (by omega)]
      exact ⟨hn, getElem?_put hload, hround, hblob, hloaded⟩
    · obtain ⟨hn, hload, ⟨j, hj⟩, hloaded⟩ := hworks
      rw [loads_put (by omega)]
      exact ⟨hn, getElem?_put hload, ⟨j, hj.put (by omega) _ _⟩, hloaded⟩
    · rw [committed_put hle, loads_put hle]
      exact hworks

/-- The oldest order in the queue is the next one. -/
theorem Kept.head (h : Kept start d n) {rest : List (StateOp × ℕ)}
    (hqueue : d.queue = (op, i) :: rest) :
    i = n ∧ d.queued[n]? = some op ∧ rest = (d.queued.drop (n + 1)).zipIdx (n + 1) := by
  rcases hdrop : d.queued.drop n with _ | ⟨x, xs⟩
  · rw [h.queue, hdrop] at hqueue
    cases hqueue
  · rw [h.queue, hdrop, List.zipIdx_cons] at hqueue
    obtain ⟨hhead, hrest⟩ := List.cons.inj hqueue
    obtain ⟨rfl, rfl⟩ := Prod.mk.inj hhead
    have hget : d.queued[n]? = some x := by
      have h0 : (d.queued.drop n)[0]? = some x := by rw [hdrop, List.getElem?_cons_zero]
      rwa [List.getElem?_drop, Nat.add_zero] at h0
    have htail : d.queued.drop (n + 1) = xs := by
      rw [← List.tail_drop, hdrop, List.tail_cons]
    exact ⟨rfl, hget, by rw [← hrest, htail]⟩

theorem Kept.take (h : Kept start d n) (hstep : d.step .take = some d') :
    Kept start d' (n + 1) := by
  rcases hqueue : d.queue with _ | ⟨⟨op, i⟩, rest⟩
  · simp [step, hqueue] at hstep
  obtain ⟨rfl, hget, hrest⟩ := h.head hqueue
  obtain ⟨hlt, -⟩ := List.getElem?_eq_some_iff.mp hget
  simp only [step, hqueue, Option.map_eq_some_iff] at hstep
  obtain ⟨task, htake, rfl⟩ := hstep
  refine ⟨hlt, hrest, ?_, h.fits⟩
  have hworks := h.works
  rcases htask : d.task with _ | ⟨s, t⟩ | ⟨i, held⟩ | ⟨s, t⟩ <;> rw [htask] at hworks htake <;>
    rcases op with _ | s' <;> simp only [StateTask.take, if_true, Option.some.injEq] at htake
  -- a task that reads or writes takes nothing
  all_goals first | cases htake
  all_goals simp only [Works] at hworks ⊢
  · -- a task that rests takes a load
    obtain ⟨hround, hblob, hloaded⟩ := hworks
    exact ⟨trivial, hget, by rw [hround]; rfl, hblob, hloaded⟩
  · -- it takes a snapshot: a round begins
    obtain ⟨hround, hblob, hloaded⟩ := hworks
    refine ⟨⟨i, ?_, Nat.lt_succ_self _, ⟨s', hget⟩, hblob, ?_⟩, ?_⟩
    · rw [hround]
      rfl
    · exact committed_take hget
    · rw [hloaded, loads_save hget]
  · -- a load overtakes what the task holds
    obtain ⟨⟨j, hj⟩, hloaded⟩ := hworks
    refine ⟨trivial, hget, ⟨j, ?_, hj.lt, hj.began, hj.blob, hj.last⟩, hloaded⟩
    rw [hj.round]
    rfl
  · -- a newer snapshot takes the place of the one it holds
    obtain ⟨⟨j, hj⟩, hloaded⟩ := hworks
    refine ⟨⟨j, ?_, hj.lt.trans (Nat.lt_succ_self _), hj.began, hj.blob, ?_⟩, ?_⟩
    · rw [hj.round]
      rfl
    · exact committed_take hget
    · rw [hloaded, loads_save hget]

theorem Kept.read (h : Kept start d n) (hstep : d.step .read = some d') : Kept start d' n := by
  have hworks := h.works
  simp only [step] at hstep
  rcases htask : d.task with _ | ⟨s, t⟩ | ⟨i, _ | ⟨s, t⟩⟩ | ⟨s, t⟩ <;>
    rw [htask] at hworks hstep <;> cases hstep <;> simp only [Works] at hworks
  · obtain ⟨rfl, hload, hround, hblob, hloaded⟩ := hworks
    refine ⟨h.le, h.queue, ⟨hround, ?_, ?_⟩, fun a ha => ?_⟩
    · exact hblob.trans (committed_take hload).symm
    · rw [loads_load hload, List.map_append, hloaded]
      rfl
    · rcases List.mem_append.mp ha with ha | ha
      · exact h.fits a ha
      · obtain rfl := List.mem_singleton.mp ha
        refine ⟨hload, fun j hj => ?_, ?_⟩
        · cases hround.symm.trans hj
        · rw [hround]
          exact hblob
  · obtain ⟨rfl, hload, ⟨j, hj⟩, hloaded⟩ := hworks
    refine ⟨h.le, h.queue, ⟨⟨j, hj.round, ?_, hj.began, hj.blob, ?_⟩, ?_⟩, fun a ha => ?_⟩
    · exact hj.lt.trans (Nat.lt_succ_self _)
    · exact (committed_take hload).trans hj.last
    · rw [loads_load hload, List.map_append, hloaded]
      rfl
    · rcases List.mem_append.mp ha with ha | ha
      · exact h.fits a ha
      · obtain rfl := List.mem_singleton.mp ha
        refine ⟨hload, fun k hk => ?_, ?_⟩
        · obtain rfl := Option.some.inj (hj.round.symm.trans hk)
          exact ⟨hj.lt, hj.began⟩
        · rw [hj.round]
          exact hj.blob

theorem Kept.write (h : Kept start d n) (hstep : d.step .write = some d') : Kept start d' n := by
  have hworks := h.works
  simp only [step] at hstep
  rcases htask : d.task with _ | ⟨s, t⟩ | ⟨i, held⟩ | ⟨s, t⟩ <;> rw [htask] at hworks hstep
  · cases hstep
  · rcases hqueue : d.queue with _ | ⟨x, xs⟩ <;> rw [hqueue] at hstep
    · cases hstep
      obtain ⟨⟨j, hj⟩, hloaded⟩ := hworks
      exact ⟨h.le, hqueue ▸ h.queue, ⟨hj.last, hloaded⟩, h.fits⟩
    · cases hstep
  · cases hstep
  · cases hstep

theorem Kept.wrote (h : Kept start d n) (hstep : d.step .wrote = some d') : Kept start d' n := by
  have hworks := h.works
  simp only [step] at hstep
  rcases htask : d.task with _ | ⟨s, t⟩ | ⟨i, held⟩ | ⟨s, t⟩ <;> rw [htask] at hworks hstep <;>
    cases hstep
  obtain ⟨hlast, hloaded⟩ := hworks
  exact ⟨h.le, h.queue, ⟨rfl, hlast.symm, hloaded⟩, h.fits⟩

theorem Kept.step (h : Kept start d n) {e : Event} (hstep : d.step e = some d') :
    ∃ m, Kept start d' m := by
  rcases e with op | _ | _ | _ | _
  · simp only [StateDesk.step] at hstep
    split_ifs at hstep
    cases hstep
    exact ⟨n, h.put⟩
  · exact ⟨n + 1, h.take hstep⟩
  · exact ⟨n, h.read hstep⟩
  · exact ⟨n, h.write hstep⟩
  · exact ⟨n, h.wrote hstep⟩

theorem kept_of_reachable (h : (machine start).Reachable d) : ∃ n, Kept start d n := by
  refine h.invariant (P := fun d => ∃ n, Kept start d n) ?_ fun s e s' ⟨n, hs⟩ hstep =>
    hs.step hstep
  rintro _ rfl
  exact ⟨0, ⟨le_rfl, rfl, ⟨rfl, rfl, rfl⟩, fun a ha => by cases ha⟩⟩

/-- **What the loads read.** Whenever orders come in, an answer is what the orders before its load
leave, carried out one by one; if the task held a snapshot when it took the load, it is what the
orders before the first snapshot of that round leave. When the task rests, the backend holds what all
orders leave, and every load was answered once, in the order of the loads. -/
theorem loads_overtake (start : Option Bytes) (d : StateDesk) (h : (machine start).Reachable d) :
    (∀ a ∈ d.loaded, Fits start d.queued a) ∧
      (d.Rests → d.blob = committed start d.queued ∧
        d.loaded.map Loaded.load = loads d.queued d.queued.length) := by
  obtain ⟨n, hkept⟩ := kept_of_reachable h
  refine ⟨hkept.fits, fun ⟨hqueue, htask⟩ => ?_⟩
  have hworks := hkept.works
  rw [htask] at hworks
  obtain ⟨-, hblob, hloaded⟩ := hworks
  -- nothing waits, so all orders were taken
  have hdrop : d.queued.drop n = [] := by
    rw [← List.zipIdx_eq_nil_iff (i := n), ← hkept.queue, hqueue]
  have hall : n = d.queued.length := hkept.le.antisymm (List.drop_eq_nil_iff.mp hdrop)
  rw [hall] at hloaded
  rw [hall, List.take_length] at hblob
  exact ⟨hblob, hloaded⟩

/-- Two snapshots and two loads, put in while the task works. -/
def busyMorning : List Event :=
  [.put (.save [1]), .put .load, .take, .put (.save [2]), .take, .read, .take, .write, .wrote,
    .put .load, .take, .read]

theorem loads_overtake_busyMorning : ∃ d, (machine none).Reachable d ∧
    d.loaded = [⟨1, some 0, none⟩, ⟨3, none, some [2]⟩] ∧
    (∀ a ∈ d.loaded, Fits none d.queued a) ∧ d.blob = committed none d.queued := by
  have hrun : ∃ d, (machine none).run (fresh none) busyMorning = some d ∧
      d.loaded = [⟨1, some 0, none⟩, ⟨3, none, some [2]⟩] ∧ d.Rests :=
    ⟨_, rfl, rfl, rfl, rfl⟩
  obtain ⟨d, hd, hloaded, hrests⟩ := hrun
  have hreach : (machine none).Reachable d := ⟨fresh none, busyMorning, rfl, hd⟩
  obtain ⟨hfits, hrest⟩ := loads_overtake none d hreach
  exact ⟨d, hreach, hloaded, hfits, (hrest hrests).1⟩

/-- A load that was queued after a snapshot does not see it: both were in the queue when the task
looked, and the load goes first. -/
theorem load_misses_snapshot : ∃ d, (machine none).Reachable d ∧ ∃ a ∈ d.loaded,
    a.got ≠ committed none (d.queued.take a.load) := by
  have hrun : ∃ d, (machine none).run (fresh none)
      [.put (.save [1]), .put .load, .take, .take, .read] = some d ∧
      d.loaded = [⟨1, some 0, none⟩] ∧ d.queued = [.save [1], .load] := ⟨_, rfl, rfl, rfl⟩
  obtain ⟨d, hd, hloaded, hqueued⟩ := hrun
  refine ⟨d, ⟨fresh none, _, rfl, hd⟩, ⟨1, some 0, none⟩, ?_, ?_⟩
  · rw [hloaded]
    exact List.mem_singleton_self _
  · rw [hqueued]
    decide

end StateDesk

end Hop.HopOS
