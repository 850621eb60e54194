import Hop.Lib.Ring
import Hop.Types.Prim

/-!
# The last lines of a task

`runner/src/logs.rs`: a ring of lines with the number of lines ever written, from which the place of
a follower is computed back. A ring holds the end of its history (`Holds`), so a follower that
remembers the number after each reading gets at the next one the end of what came in between
(`Follows.run`), and misses nothing as long as that fits into the ring.
-/

namespace Hop.Runner

open Ring

/-- How much a runner keeps of the output. -/
structure LogPolicy where
  tailLines : ℕ
  keepMs : ℕ
deriving DecidableEq, Repr

/-- `LogPolicy::DEFAULT`: 50 lines, five minutes. -/
def LogPolicy.default : LogPolicy := ⟨50, 5 * 60 * 1000⟩

/-- The last lines of one stream; `seq` is how many were ever written. -/
structure LogRing where
  lines : List String
  cap : ℕ
  seq : ℕ
  closed : Bool
  cap_pos : 0 < cap
  len_le : lines.length ≤ cap

namespace LogRing

/-- An empty ring; a capacity of 0 is the default. -/
def new (cap : ℕ) : LogRing where
  lines := []
  cap := if cap = 0 then LogPolicy.default.tailLines else cap
  seq := 0
  closed := false
  cap_pos := by
    split_ifs with h
    · exact Nat.succ_pos 49
    · exact Nat.pos_of_ne_zero h
  len_le := Nat.zero_le _

/-- Puts a line behind the lines that stay, if there is room for its text. -/
def push (r : LogRing) (kept : List String) (h : kept.length < r.cap) (text : Bool)
    (line : String) : LogRing :=
  if text then
    { r with
      lines := kept ++ [line]
      seq := (r.seq + 1) % 2 ^ 64
      len_le := by
        rw [List.length_append]
        exact h }
  else { r with lines := kept, len_le := h.le }

/-- A line more; the oldest one goes if the ring is full. After `close` the line is dropped, and
where there is no room for one line more (`row`) or for its text (`text`). -/
def write (r : LogRing) (row text : Bool) (line : String) : LogRing :=
  if r.closed then r
  else if h : r.cap ≤ r.lines.length then
    r.push (r.lines.drop 1) (by
      have hle := r.len_le
      have hpos := r.cap_pos
      rw [List.length_drop]
      omega) text line
  else if row then r.push r.lines (Nat.not_le.mp h) text line
  else r

/-- The lines after the number `seq` that are still in the ring. -/
def since (r : LogRing) (seq : ℕ) : List String := r.lines.drop (r.lines.length - (r.seq - seq))

/-- Closes the ring. -/
def close (r : LogRing) : LogRing := { r with closed := true }

/-! ### A ring holds the end of its history -/

/-- All that was ever written. -/
structure Holds (r : LogRing) (history : List String) : Prop where
  lines : r.lines = history.rtake r.cap
  seq : r.seq = history.length % 2 ^ 64

variable {r : LogRing} {history : List String}

@[simp] theorem cap_push (kept : List String) (h : kept.length < r.cap) (text : Bool)
    (line : String) : (r.push kept h text line).cap = r.cap := by
  rw [push]
  split_ifs
  · rfl
  · rfl

@[simp] theorem cap_write (r : LogRing) (row text : Bool) (line : String) :
    (r.write row text line).cap = r.cap := by
  rw [write]
  split_ifs
  · rfl
  · exact cap_push _ _ _ _
  · exact cap_push _ _ _ _
  · rfl

@[simp] theorem closed_write (r : LogRing) (row text : Bool) (line : String) :
    (r.write row text line).closed = r.closed := by
  have hpush : ∀ kept h, (r.push kept h text line).closed = r.closed := fun kept h => by
    rw [push]
    split_ifs
    · rfl
    · rfl
  rw [write]
  split_ifs
  · rfl
  · exact hpush _ _
  · exact hpush _ _
  · rfl

theorem holds_new (cap : ℕ) : (new cap).Holds [] := ⟨(List.rtake_nil _).symm, rfl⟩

/-- **A line more.** -/
theorem Holds.write (h : r.Holds history) (line : String) :
    (r.write true true line).Holds (if r.closed then history else history ++ [line]) := by
  have hpos := r.cap_pos
  have hpush : ∀ (kept : List String) (hlt : kept.length < r.cap),
      kept = history.rtake (r.cap - 1) → (r.push kept hlt true line).Holds (history ++ [line]) := by
    rintro kept hlt rfl
    refine ⟨(rtake_concat hpos history line).symm, ?_⟩
    show (r.seq + 1) % 2 ^ 64 = _
    rw [h.seq, List.length_append, List.length_singleton, Nat.mod_add_mod]
  have hlen := congrArg List.length h.lines
  rw [length_rtake] at hlen
  rw [LogRing.write]
  rcases hclosed : r.closed with - | -
  · rw [if_neg Bool.false_ne_true, if_neg Bool.false_ne_true]
    by_cases hfull : r.cap ≤ r.lines.length
    -- the ring is full: of the last lines, one less
    · rw [dif_pos hfull]
      refine hpush _ _ ?_
      rw [h.lines, List.rtake, List.rtake, List.drop_drop]
      congr 1
      omega
    -- the ring has all there is
    · rw [dif_neg hfull, if_pos rfl]
      refine hpush _ _ ?_
      rw [h.lines, rtake_of_length_le (by omega), rtake_of_length_le (by omega)]
  · rw [if_pos rfl, if_pos rfl]
    exact h

theorem Holds.close (h : r.Holds history) : r.close.Holds history := ⟨h.lines, h.seq⟩

/-- **What a follower gets**: of the lines after the number, those that are still there. -/
theorem Holds.since (h : r.Holds history) (hmax : history.length < 2 ^ 64) {before after : List String}
    (hcut : history = before ++ after) : r.since before.length = after.rtake r.cap := by
  have hlen : history.length = before.length + after.length := by
    rw [hcut, List.length_append]
  have hseq := h.seq
  rw [Nat.mod_eq_of_lt hmax] at hseq
  have hkept := congrArg List.length h.lines
  rw [length_rtake] at hkept
  have hskip : history.length - r.cap + (r.lines.length - (r.seq - before.length)) =
      before.length + (after.length - r.cap) := by omega
  calc r.lines.drop (r.lines.length - (r.seq - before.length))
      = (history.drop (history.length - r.cap)).drop
          (r.lines.length - (r.seq - before.length)) := congrArg (List.drop _) h.lines
    _ = (before ++ after).drop (before.length + (after.length - r.cap)) := by
        rw [List.drop_drop, hskip, hcut]
    _ = after.rtake r.cap := List.drop_length_add_append _

end LogRing

/-! ### Followers -/

/-- What happens to a ring that someone follows. Allocations succeed. -/
inductive LogEvent
  | write (line : String)
  | close
  | read

/-- A ring and someone who reads what is new and then remembers the number. -/
structure Follower where
  ring : LogRing
  seq : ℕ
  got : List (List String) := []

namespace Follower

def step (f : Follower) : LogEvent → Follower
  | .write line => { f with ring := f.ring.write true true line }
  | .close => { f with ring := f.ring.close }
  | .read => { f with seq := f.ring.seq, got := f.got ++ [f.ring.since f.seq] }

def run (f : Follower) (events : List LogEvent) : Follower := events.foldl step f

/-- One who begins now. -/
def start (ring : LogRing) : Follower := { ring := ring, seq := ring.seq }

end Follower

/-- The lines that are written to a ring, as long as it is open. -/
def written : Bool → List LogEvent → List String
  | _, [] => []
  | closed, .write line :: events =>
    if closed then written closed events else line :: written closed events
  | _, .close :: events => written true events
  | closed, .read :: events => written closed events

/-- The same lines, cut at the readings; `pending` are those since the last one. What comes after
the last reading is left out. -/
def batches : Bool → List String → List LogEvent → List (List String)
  | _, _, [] => []
  | closed, pending, .write line :: events =>
    batches closed (if closed then pending else pending ++ [line]) events
  | _, pending, .close :: events => batches true pending events
  | closed, pending, .read :: events => pending :: batches closed [] events

/-- With a reading at the end, nothing is left out. -/
theorem flatten_batches (closed : Bool) (pending : List String) (events : List LogEvent) :
    (batches closed pending (events ++ [.read])).flatten = pending ++ written closed events := by
  induction events generalizing closed pending with
  | nil => exact List.flatten_singleton.trans (List.append_nil _).symm
  | cons e events ih =>
    rcases e with line | - | -
    · rcases closed with - | -
      · exact (ih false (pending ++ [line])).trans (List.append_assoc _ _ _)
      · exact ih true pending
    · exact ih true pending
    · exact congrArg (pending ++ ·) (ih closed [])

namespace Follower

/-- The follower has seen `before`; `pending` came in since. -/
structure Follows (f : Follower) (before pending : List String) : Prop where
  holds : f.ring.Holds (before ++ pending)
  seq : f.seq = before.length

variable {f : Follower} {before pending : List String}

/-- **A run**: every reading is the end of what came in since the one before. -/
theorem Follows.run (h : f.Follows before pending) (events : List LogEvent)
    (hmax : before.length + (pending.length + (written f.ring.closed events).length) < 2 ^ 64) :
    (f.run events).got = f.got ++
      (batches f.ring.closed pending events).map (·.rtake f.ring.cap) ∧
    (f.run events).ring.Holds (before ++ (pending ++ written f.ring.closed events)) ∧
    (f.run events).ring.cap = f.ring.cap := by
  induction events generalizing f before pending with
  | nil => exact ⟨(List.append_nil _).symm, by rw [written, List.append_nil]; exact h.holds, rfl⟩
  | cons e events ih =>
    rcases e with line | - | -
    · have hcap := LogRing.cap_write f.ring true true line
      have hclosed := LogRing.closed_write f.ring true true line
      have hnext : (f.step (.write line)).Follows before
          (if f.ring.closed then pending else pending ++ [line]) := by
        refine ⟨?_, h.seq⟩
        have hwrite := h.holds.write line
        split_ifs at hwrite ⊢
        · exact hwrite
        · rwa [List.append_assoc] at hwrite
      have hrun := ih hnext (by
        show before.length + (_ + (written (f.ring.write true true line).closed events).length) < _
        rw [hclosed]
        rw [written] at hmax
        split_ifs at hmax ⊢
        · exact hmax
        · rw [List.length_append, List.length_singleton]
          rw [List.length_cons] at hmax
          omega)
      change _ = f.got ++ (batches (f.ring.write true true line).closed _ events).map
          (·.rtake (f.ring.write true true line).cap) ∧
        LogRing.Holds _ (before ++ (_ ++ written (f.ring.write true true line).closed events)) ∧
        _ = (f.ring.write true true line).cap at hrun
      rw [hcap, hclosed] at hrun
      refine ⟨hrun.1, ?_, hrun.2.2⟩
      rw [written]
      have hholds := hrun.2.1
      split_ifs at hholds ⊢
      · exact hholds
      · rwa [List.append_assoc, List.singleton_append] at hholds
    · exact ih (f := f.step .close) ⟨h.holds.close, h.seq⟩ hmax
    · have hlen : (before ++ pending).length < 2 ^ 64 := by
        rw [List.length_append]
        omega
      have hgot := h.holds.since hlen rfl
      have hseq := h.holds.seq
      rw [Nat.mod_eq_of_lt hlen] at hseq
      have hnext : (f.step .read).Follows (before ++ pending) [] :=
        ⟨by rw [List.append_nil]; exact h.holds, hseq⟩
      have hrun := ih hnext (by
        rw [List.length_append, List.length_nil, Nat.zero_add, Nat.add_assoc]
        exact hmax)
      refine ⟨hrun.1.trans ?_, ?_, hrun.2.2⟩
      · show f.got ++ [f.ring.since f.seq] ++ _ = f.got ++ (_ :: _)
        rw [h.seq, hgot, List.append_assoc]
        rfl
      · have hholds := hrun.2.1
        rwa [List.nil_append, List.append_assoc] at hholds

/-- What is written in the second part depends on whether the first one closes the ring. -/
theorem written_append (f : Follower) (events later : List LogEvent) :
    written f.ring.closed (events ++ later) =
      written f.ring.closed events ++ written (f.run events).ring.closed later := by
  induction events generalizing f with
  | nil => rfl
  | cons e events ih =>
    have hnext := ih (f.step e)
    rcases e with line | - | -
    · have hclosed : (f.step (.write line)).ring.closed = f.ring.closed :=
        LogRing.closed_write f.ring true true line
      rw [hclosed] at hnext
      rw [List.cons_append, written, written, hnext]
      split_ifs
      · rfl
      · rfl
    · exact hnext
    · exact hnext

/-- **A follower sees each line once.** Someone who begins at any time gets at each reading the last
lines of those since the reading before, as many as the ring holds; and if never more came in
between two readings, all of them together are the lines written since, each once and in order. The
ring never holds more than its capacity. -/
theorem each_line_once (cap : ℕ) (earlier events : List LogEvent)
    (hmax : (written false (earlier ++ events)).length < 2 ^ 64) :
    let ring := ((start (LogRing.new cap)).run earlier).ring
    let f := (start ring).run (events ++ [.read])
    f.got = (batches ring.closed [] (events ++ [.read])).map (·.rtake (LogRing.new cap).cap) ∧
    ((∀ b ∈ batches ring.closed [] (events ++ [.read]), b.length ≤ (LogRing.new cap).cap) →
      f.got.flatten = written ring.closed events) ∧
    ring.lines.length ≤ (LogRing.new cap).cap ∧ f.ring.lines.length ≤ (LogRing.new cap).cap := by
  intro ring f
  have hsplit : written false (earlier ++ events) =
      written false earlier ++ written ring.closed events :=
    written_append (start (LogRing.new cap)) earlier events
  rw [hsplit, List.length_append] at hmax
  have hnew : (start (LogRing.new cap)).Follows [] [] := ⟨LogRing.holds_new cap, rfl⟩
  obtain ⟨-, hholds, hcap⟩ := hnew.run earlier (by
    rw [List.length_nil, Nat.zero_add, Nat.zero_add]
    exact (Nat.le_add_right _ _).trans_lt hmax)
  change ring.Holds (written false earlier) at hholds
  change ring.cap = (LogRing.new cap).cap at hcap
  have hseq := hholds.seq
  rw [Nat.mod_eq_of_lt ((Nat.le_add_right _ _).trans_lt hmax)] at hseq
  have hstart : (start ring).Follows (written false earlier) [] :=
    ⟨by rw [List.append_nil]; exact hholds, hseq⟩
  have hread : written ring.closed (events ++ [.read]) = written ring.closed events :=
    (written_append (start ring) events [.read]).trans (List.append_nil _)
  obtain ⟨hgot, -, hcap'⟩ := hstart.run (events ++ [.read]) (by
    rw [List.length_nil, Nat.zero_add]
    exact (congrArg (fun l => _ + List.length l) hread).trans_lt hmax)
  change f.got = _ at hgot
  change f.ring.cap = ring.cap at hcap'
  refine ⟨hgot.trans ?_, fun hall => ?_, ?_, ?_⟩
  · rw [← hcap]
    rfl
  · have hkeep : (batches ring.closed [] (events ++ [.read])).map (·.rtake ring.cap) =
        batches ring.closed [] (events ++ [.read]) :=
      (List.map_congr_left fun b hb => rtake_of_length_le (hcap ▸ hall b hb)).trans
        (List.map_id _)
    exact (congrArg List.flatten (hgot.trans hkeep)).trans (flatten_batches _ _ _)
  · exact hcap ▸ ring.len_le
  · exact hcap ▸ hcap' ▸ f.ring.len_le

/-- A ring of two lines; the one before the follower began is not among its own. -/
theorem each_line_once_two :
    ((start ((start (LogRing.new 2)).run [.write "a"]).ring).run
      [.write "b", .read, .write "c", .write "d", .read]).got.flatten = ["b", "c", "d"] := by
  have hall := (each_line_once 2 [.write "a"] [.write "b", .read, .write "c", .write "d"]
    (by decide)).2.1
  exact hall (by decide)

end Follower

end Hop.Runner
