import Hop.Hoplib.Delivery

/-!
# Readers that lag

Any number of readers of one log, each with the number that it asks with (`Readers`). A poll covers
the events from that number up to the next one. It tells them all, one frame each, or begins with a
`status` (`Poll.Exact`, `Poll.Warns`), and the polls of a reader cover what was pushed without a hole
and without an overlap (`nothing_missed`). The ring forgets its oldest events and a push may find no
memory; the numbers in it show both (`frames_follows`).

The queue of the leader in front of the log has another rule for the same end: what it cannot hold
turns the whole queue into one `status` (`Lead.Events.drained_of_notified`).
-/

namespace Hop.Lead.Events

/-! ### The queue of the leader -/

/-- The memory that a notification finds. -/
inductive Memory
  | enough
  /-- No memory for a copy of the name. -/
  | noName
  /-- No memory for one more event in the queue. -/
  | noRoom

/-- `status`, `agent` and `job`: notify, with what memory there is. -/
def notify (es : Events) (e : Event) : Memory → Events
  | .enough => es.push e
  -- a `status` has no name that needs memory
  | .noName => if e = .status then es.push e else { es with overflowed := true }
  | .noRoom => if es.overflowed ∨ e ∈ es.queue then es else { es with overflowed := true }

def notifyAll (es : Events) (events : List (Event × Memory)) : Events :=
  events.foldl (fun es e => es.notify e.1 e.2) es

/-- The queue will tell of the event. -/
def Tells (es : Events) (e : Event) : Prop := es.overflowed = true ∨ e ∈ es.queue

variable {es : Events} {e d : Event}

theorem Tells.push (h : es.Tells d) : (es.push e).Tells d := by
  rw [Events.push]
  split_ifs
  · exact h
  · exact .inl rfl
  · exact h.imp_right fun hd => List.mem_append_left _ hd

theorem tells_push : (es.push e).Tells e := by
  rw [push]
  split_ifs with hknown
  · exact hknown
  · exact .inl rfl
  · exact .inr (List.mem_append_right _ List.mem_cons_self)

theorem Tells.notify (h : es.Tells d) (m : Memory) : (es.notify e m).Tells d := by
  rcases m with _ | _ | _
  · exact h.push
  · rw [Events.notify]
    split_ifs
    · exact h.push
    · exact .inl rfl
  · rw [Events.notify]
    split_ifs
    · exact h
    · exact .inl rfl

theorem tells_notify (m : Memory) : (es.notify e m).Tells e := by
  rcases m with _ | _ | _
  · exact tells_push
  · rw [notify]
    split_ifs
    · exact tells_push
    · exact .inl rfl
  · rw [notify]
    split_ifs with hknown
    · exact hknown
    · exact .inl rfl

theorem Tells.notifyAll (h : es.Tells d) (events : List (Event × Memory)) :
    (es.notifyAll events).Tells d := by
  induction events generalizing es with
  | nil => exact h
  | cons e events ih => exact ih (h.notify e.2)

/-- **Nothing is notified for nothing**: the next drain hands the event over or is one `status`. -/
theorem drained_of_notified (es : Events) (e : Event) (m : Memory)
    (more : List (Event × Memory)) :
    let drained := (es.notifyAll ((e, m) :: more)).drain.1
    e ∈ drained ∨ drained = [.status] := by
  have htells : (es.notifyAll ((e, m) :: more)).Tells e := (tells_notify m).notifyAll more
  intro drained
  rcases hover : (es.notifyAll ((e, m) :: more)).overflowed with _ | _
  · left
    have hmem := htells.resolve_left (by rw [hover]; decide)
    simpa only [drained, drain, hover, Bool.false_eq_true, if_false] using hmem
  · right
    simp only [drained, drain, hover, if_true]

end Hop.Lead.Events

namespace Hop.Hoplib

open scoped List
open Hop.Types
open Hop.Api (frame object topicFrame EventLog eventLogCap)

/-! ### What the ring holds -/

/-- A log that these topics were pushed to: of their numbers, the ring holds some, in order. -/
structure Follows (log : EventLog) (ts : List String) : Prop where
  next : log.next = ts.length
  ring : log.ring <+ numbered 0 ts

variable {log : EventLog} {ts : List String}

theorem Follows.popped (h : Follows log ts) :
    (if eventLogCap ≤ log.ring.length then log.ring.drop 1 else log.ring) <+ numbered 0 ts := by
  split_ifs
  · exact (List.drop_sublist 1 _).trans h.ring
  · exact h.ring

theorem Follows.pushTopic (h : Follows log ts) (t : String) (hlt : ts.length + 1 < 2 ^ 64) :
    Follows (log.pushTopic t) (ts ++ [t]) := by
  constructor
  · rw [EventLog.pushTopic, h.next, Nat.mod_eq_of_lt hlt, List.length_append, List.length_singleton]
  · rw [EventLog.pushTopic, numbered_append, Nat.zero_add, h.next]
    exact h.popped.append (List.Sublist.refl [(ts.length, t)])

theorem Follows.dropTopic (h : Follows log ts) (t : String) (hlt : ts.length + 1 < 2 ^ 64) :
    Follows log.dropTopic (ts ++ [t]) := by
  constructor
  · rw [EventLog.dropTopic, h.next, Nat.mod_eq_of_lt hlt, List.length_append, List.length_singleton]
  · rw [EventLog.dropTopic, numbered_append]
    exact h.popped.trans (List.sublist_append_left _ _)

theorem filter_numbered {seq : ℕ} (h : seq ≤ ts.length) :
    (numbered 0 ts).filter (fun p => seq ≤ p.1) = numbered seq (ts.drop seq) := by
  have hlen : (ts.take seq).length = seq := by rw [List.length_take, Nat.min_eq_left h]
  have hold : (numbered 0 (ts.take seq)).filter (fun p => seq ≤ p.1) = [] := by
    rw [List.filter_eq_nil_iff]
    intro p hp
    have := (mem_numbered hp).2
    simp only [decide_eq_true_eq, Nat.not_le]
    omega
  have hnew : (numbered seq (ts.drop seq)).filter (fun p => seq ≤ p.1) =
      numbered seq (ts.drop seq) := by
    rw [List.filter_eq_self]
    intro p hp
    simpa using (mem_numbered hp).1
  conv_lhs => rw [← List.take_append_drop seq ts]
  rw [numbered_append, List.filter_append, hold, List.nil_append, Nat.zero_add, hlen, hnew]

theorem map_snd_numbered (n : ℕ) (ts : List String) : (numbered n ts).map Prod.snd = ts := by
  induction ts generalizing n with
  | nil => rfl
  | cons t ts ih => rw [numbered, List.map_cons, ih]

/-! ### One poll -/

theorem sinceLoop_frames (ring : List (ℕ × String)) (expect : ℕ) (gap : Bool) (fs : List Bytes) :
    (EventLog.sinceLoop ring expect gap fs).1 = fs ++ (ring.map Prod.snd).map topicFrame := by
  induction ring generalizing expect gap fs with
  | nil => exact (List.append_nil fs).symm
  | cons p ring ih =>
    rw [EventLog.sinceLoop, ih, List.append_assoc]
    rfl

/-- Without a gap the loop expects as many numbers more as it saw events. -/
theorem sinceLoop_gapless {ring : List (ℕ × String)} {expect : ℕ} {gap : Bool} {fs : List Bytes}
    (hring : ∀ p ∈ ring, p.1 + 1 < 2 ^ 64)
    (h : (EventLog.sinceLoop ring expect gap fs).2.1 = false) :
    gap = false ∧ (EventLog.sinceLoop ring expect gap fs).2.2 = expect + ring.length := by
  induction ring generalizing expect gap fs with
  | nil => exact ⟨h, rfl⟩
  | cons p ring ih =>
    rw [EventLog.sinceLoop] at h ⊢
    obtain ⟨hgap, hexpect⟩ := ih (fun q hq => hring q (List.mem_cons_of_mem p hq)) h
    rw [Bool.or_eq_false_iff, decide_eq_false_iff_not, not_not] at hgap
    obtain ⟨hgap, rfl⟩ := hgap
    rw [hexpect, Nat.mod_eq_of_lt (hring p List.mem_cons_self), List.length_cons]
    exact ⟨hgap, by omega⟩

/-- The frame that says: look at everything again. -/
def statusFrame : Bytes := frame (utf8 "status") (object [])

/-- **A reader is told everything or warned**: the frames of a poll are those of all the events from
its number on, or a `status` and those of some. -/
theorem frames_follows (h : Follows log ts) (hlt : ts.length < 2 ^ 64) (seq : ℕ) :
    (seq ≤ ts.length ∧ log.frames seq = (ts.drop seq).map topicFrame) ∨
      ∃ us, us <+ ts.drop seq ∧ log.frames seq = statusFrame :: us.map topicFrame := by
  by_cases hahead : log.next < seq
  · right
    refine ⟨[], List.nil_sublist _, ?_⟩
    rw [EventLog.frames, if_pos hahead]
    rfl
  rw [h.next, Nat.not_lt] at hahead
  have hring : log.ring.filter (fun p => seq ≤ p.1) <+ numbered seq (ts.drop seq) := by
    rw [← filter_numbered hahead]
    exact h.ring.filter _
  have htopics : (log.ring.filter fun p => seq ≤ p.1).map Prod.snd <+ ts.drop seq := by
    have := hring.map Prod.snd
    rwa [map_snd_numbered] at this
  rw [EventLog.frames, if_neg (by rw [h.next]; omega)]
  dsimp only
  rw [sinceLoop_frames, List.nil_append]
  split_ifs with hgap
  · exact .inr ⟨_, htopics, rfl⟩
  · left
    rw [Bool.or_eq_true, not_or, Bool.not_eq_true, decide_eq_true_eq, not_not] at hgap
    obtain ⟨hno, hend⟩ := hgap
    have hsmall : ∀ p ∈ log.ring.filter (fun p => seq ≤ p.1), p.1 + 1 < 2 ^ 64 := by
      intro p hp
      have := (mem_numbered (hring.subset hp)).2
      rw [List.length_drop] at this
      omega
    have hcount := (sinceLoop_gapless hsmall hno).2
    rw [hend, h.next] at hcount
    -- as many of the topics as there are: all of them
    have hall := htopics.eq_of_length (by rw [List.length_map, List.length_drop]; omega)
    exact ⟨hahead, by rw [hall]⟩

theorem frames_nothing (h : Follows log ts) : log.frames ts.length = [] := by
  have hring : log.ring.filter (fun p => ts.length ≤ p.1) = [] := by
    have := h.ring.filter fun p => ts.length ≤ p.1
    rw [filter_numbered (le_refl _), List.drop_length] at this
    exact List.sublist_nil.mp this
  rw [EventLog.frames, if_neg (by rw [h.next]; omega), hring, h.next]
  simp [EventLog.sinceLoop]

/-! ### Every poll of every reader -/

universe u

/-- What one poll asked and was told. -/
structure Poll (ι : Type u) where
  reader : ι
  /-- The number that it asked with. -/
  seq : ℕ
  frames : List Bytes
  /-- The number that the reader asks with the next time. -/
  next : ℕ

namespace Poll

variable {ι : Type u}

/-- The event with the number `k` came after what the reader knew, and before what it knows now. -/
def Covers (p : Poll ι) (k : ℕ) : Prop := p.seq ≤ k ∧ k < p.next

instance (p : Poll ι) (k : ℕ) : Decidable (p.Covers k) :=
  inferInstanceAs (Decidable (p.seq ≤ k ∧ k < p.next))

theorem covers_iff {p : Poll ι} {k : ℕ} : p.Covers k ↔ p.seq ≤ k ∧ k < p.next := Iff.rfl

/-- The events that a poll covers, of all that were pushed. -/
def covered (topics : List String) (p : Poll ι) : List String := (topics.take p.next).drop p.seq

/-- It told all the events that it covers, in order. -/
def Exact (topics : List String) (p : Poll ι) : Prop :=
  p.seq ≤ p.next ∧ p.frames = (p.covered topics).map topicFrame

/-- It began with a `status`, and told some of the events that it covers, in order. -/
def Warns (topics : List String) (p : Poll ι) : Prop :=
  ∃ us, us <+ p.covered topics ∧ p.frames = statusFrame :: us.map topicFrame

end Poll

/-- The polls go on from each other, from the number `s` to the number `t`. -/
def Continues {ι : Type u} : ℕ → List (Poll ι) → ℕ → Prop
  | s, [], t => t = s
  | s, p :: ps, t => p.seq = s ∧ Continues p.next ps t

section Continues

variable {ι : Type u} {s t k : ℕ} {p : Poll ι} {ps : List (Poll ι)}

theorem Continues.concat (h : Continues s ps t) (hp : p.seq = t) :
    Continues s (ps ++ [p]) p.next := by
  induction ps generalizing s with
  | nil => exact ⟨hp.trans h, rfl⟩
  | cons q ps ih => exact ⟨h.1, ih h.2⟩

theorem Continues.le (h : Continues s ps t) (hle : ∀ p ∈ ps, p.seq ≤ p.next) : s ≤ t := by
  induction ps generalizing s with
  | nil => exact Nat.le_of_eq h.symm
  | cons p ps ih =>
    have hp := hle p List.mem_cons_self
    have hrest := ih h.2 fun q hq => hle q (List.mem_cons_of_mem p hq)
    rw [h.1] at hp
    exact hp.trans hrest

theorem Continues.le_next (h : Continues s ps t) (hle : ∀ p ∈ ps, p.seq ≤ p.next) (hp : p ∈ ps) :
    s ≤ p.next := by
  induction ps generalizing s with
  | nil => cases hp
  | cons q ps ih =>
    have hq := hle q List.mem_cons_self
    rw [h.1] at hq
    rcases List.mem_cons.mp hp with rfl | hp
    · exact hq
    · exact hq.trans (ih h.2 (fun r hr => hle r (List.mem_cons_of_mem q hr)) hp)

/-- Polls that never go back cover each number between their ends once. -/
theorem Continues.countP_covers (h : Continues s ps t) (hle : ∀ p ∈ ps, p.seq ≤ p.next) :
    ps.countP (fun p => p.Covers k) = if s ≤ k ∧ k < t then 1 else 0 := by
  induction ps generalizing s with
  | nil =>
    obtain rfl : t = s := h
    rw [if_neg (by omega), List.countP_nil]
  | cons p ps ih =>
    obtain ⟨rfl, hrest⟩ := h
    have hp := hle p List.mem_cons_self
    have hps : ∀ q ∈ ps, q.seq ≤ q.next := fun q hq => hle q (List.mem_cons_of_mem p hq)
    have hnext := hrest.le hps
    rw [List.countP_cons, ih hrest hps]
    simp only [decide_eq_true_eq, Poll.covers_iff]
    -- `k` lies before what `p` says next, or after it
    split_ifs <;> omega

end Continues

variable {ι : Type u} [DecidableEq ι]

/-- Readers of a log. -/
structure Readers (ι : Type u) where
  log : EventLog := {}
  /-- All that was pushed, the oldest first. -/
  topics : List String := []
  /-- The number that each reader asks with. -/
  seq : ι → ℕ
  /-- The polls so far, the oldest first. -/
  polls : List (Poll ι) := []

namespace Readers

inductive Step (ι : Type u)
  | push (topic : String)
  /-- A push that finds no memory. -/
  | drop (topic : String)
  | poll (reader : ι)

def step (s : Readers ι) : Step ι → Readers ι
  | .push topic => { s with log := s.log.pushTopic topic, topics := s.topics ++ [topic] }
  | .drop topic => { s with log := s.log.dropTopic, topics := s.topics ++ [topic] }
  | .poll i =>
    { s with
      seq := Function.update s.seq i (s.log.since (s.seq i)).2
      polls := s.polls ++
        [⟨i, s.seq i, s.log.frames (s.seq i), (s.log.since (s.seq i)).2⟩] }

def run (s : Readers ι) (steps : List (Step ι)) : Readers ι := steps.foldl step s

/-- The polls of one reader. -/
def pollsOf (s : Readers ι) (i : ι) : List (Poll ι) := s.polls.filter fun p => p.reader = i

/-- What holds of the readers that begin at the numbers `start`. -/
structure Sound (start : ι → ℕ) (s : Readers ι) : Prop where
  follows : Follows s.log s.topics
  next_le : ∀ p ∈ s.polls, p.next ≤ s.topics.length
  answers : ∀ p ∈ s.polls, p.Exact s.topics ∨ p.Warns s.topics
  nothing : ∀ p ∈ s.polls, p.seq = p.next → p.frames = []
  continues : ∀ i, Continues (start i) (s.pollsOf i) (s.seq i)
  /-- After its first poll a reader knows a number of this log. -/
  seq_le : ∀ i, s.pollsOf i ≠ [] → s.seq i ≤ s.topics.length
  tail_le : ∀ i, ∀ p ∈ (s.pollsOf i).tail, p.seq ≤ p.next

variable {start : ι → ℕ} {s : Readers ι}

omit [DecidableEq ι] in
/-- What comes later changes nothing of what a poll covers. -/
theorem covered_append {topics : List String} {p : Poll ι} (h : p.next ≤ topics.length)
    (more : List String) : p.covered (topics ++ more) = p.covered topics := by
  rw [Poll.covered, Poll.covered, List.take_append_of_le_length h]

/-- What a push keeps, whether it finds memory or not. -/
theorem Sound.pushed (h : s.Sound start) {log : EventLog} {topic : String}
    (hlog : Follows log (s.topics ++ [topic])) :
    Sound start { s with log := log, topics := s.topics ++ [topic] } := by
  have hmore : s.topics.length ≤ (s.topics ++ [topic]).length := by
    rw [List.length_append]
    omega
  refine ⟨hlog, fun p hp => (h.next_le p hp).trans hmore, fun p hp => ?_, h.nothing, h.continues,
    fun i hi => (h.seq_le i hi).trans hmore, h.tail_le⟩
  have hcovered := covered_append (h.next_le p hp) [topic]
  simp only [Poll.Exact, Poll.Warns, hcovered]
  exact h.answers p hp

omit [DecidableEq ι] in
theorem mem_tail_append {ps : List (Poll ι)} {p q : Poll ι} (h : q ∈ (ps ++ [p]).tail) :
    q ∈ ps.tail ∨ (ps ≠ [] ∧ q = p) := by
  rcases ps with _ | ⟨r, ps⟩
  · cases h
  · exact (List.mem_append.mp h).imp_right fun hq => ⟨List.cons_ne_nil r ps, List.mem_singleton.mp hq⟩

theorem Sound.polled (h : s.Sound start) (i : ι) (hlt : s.topics.length < 2 ^ 64) :
    (s.step (.poll i)).Sound start := by
  have hnext : (s.log.since (s.seq i)).2 = s.topics.length := h.follows.next
  let p : Poll ι := ⟨i, s.seq i, s.log.frames (s.seq i), (s.log.since (s.seq i)).2⟩
  have hmine : (s.step (.poll i)).pollsOf i = s.pollsOf i ++ [p] := by
    simp [pollsOf, step, p]
  have hothers : ∀ j, j ≠ i → (s.step (.poll i)).pollsOf j = s.pollsOf j := by
    intro j hj
    simp [pollsOf, step, Ne.symm hj]
  have hmem : ∀ q ∈ (s.step (.poll i)).polls, q ∈ s.polls ∨ q = p := fun q hq =>
    (List.mem_append.mp hq).imp_right List.mem_singleton.mp
  have hcovered : p.covered s.topics = s.topics.drop (s.seq i) := by
    simp only [Poll.covered, p, hnext, List.take_length]
  constructor
  case follows => exact h.follows
  case next_le =>
    intro q hq
    rcases hmem q hq with hold | rfl
    · exact h.next_le q hold
    · exact Nat.le_of_eq hnext
  case answers =>
    intro q hq
    rcases hmem q hq with hold | rfl
    · exact h.answers q hold
    · refine (frames_follows h.follows hlt (s.seq i)).imp (fun hall => ?_) fun hsome => ?_
      · exact ⟨hall.1.trans (Nat.le_of_eq hnext.symm), hall.2.trans (by rw [← hcovered]; rfl)⟩
      · rw [← hcovered] at hsome
        exact hsome
  case nothing =>
    intro q hq hsame
    rcases hmem q hq with hold | rfl
    · exact h.nothing q hold hsame
    · have hseq : s.seq i = s.topics.length := hsame.trans hnext
      exact (congrArg s.log.frames hseq).trans (frames_nothing h.follows)
  case continues =>
    intro j
    by_cases hj : j = i
    · subst hj
      rw [hmine]
      have hseq : (s.step (.poll j)).seq j = p.next := Function.update_self j _ s.seq
      rw [hseq]
      exact (h.continues j).concat rfl
    · rw [hothers j hj]
      have hseq : (s.step (.poll i)).seq j = s.seq j := Function.update_of_ne hj _ s.seq
      rw [hseq]
      exact h.continues j
  case seq_le =>
    intro j hpolls
    by_cases hj : j = i
    · subst hj
      exact Nat.le_of_eq ((Function.update_self j _ s.seq).trans hnext)
    · rw [hothers j hj] at hpolls
      have hseq : (s.step (.poll i)).seq j = s.seq j := Function.update_of_ne hj _ s.seq
      rw [hseq]
      exact h.seq_le j hpolls
  case tail_le =>
    intro j q hq
    by_cases hj : j = i
    · subst hj
      rw [hmine] at hq
      rcases mem_tail_append hq with hold | ⟨hpolls, rfl⟩
      · exact h.tail_le j q hold
      · exact (h.seq_le j hpolls).trans (Nat.le_of_eq hnext.symm)
    · rw [hothers j hj] at hq
      exact h.tail_le j q hq

theorem topics_le_run (s : Readers ι) (steps : List (Step ι)) :
    s.topics.length ≤ (s.run steps).topics.length := by
  induction steps generalizing s with
  | nil => exact Nat.le_refl _
  | cons e steps ih =>
    refine Nat.le_trans ?_ (ih (s.step e))
    rcases e with topic | topic | i
    · exact List.length_append ▸ Nat.le_add_right _ _
    · exact List.length_append ▸ Nat.le_add_right _ _
    · exact Nat.le_refl _

theorem Sound.run (h : s.Sound start) (steps : List (Step ι))
    (hfew : (s.run steps).topics.length < 2 ^ 64) : (s.run steps).Sound start := by
  induction steps generalizing s with
  | nil => exact h
  | cons e steps ih =>
    have hlt : (s.step e).topics.length < 2 ^ 64 := (topics_le_run _ steps).trans_lt hfew
    refine ih ?_ hfew
    rcases e with topic | topic | i
    · rw [step, List.length_append] at hlt
      exact h.pushed (h.follows.pushTopic topic hlt)
    · rw [step, List.length_append] at hlt
      exact h.pushed (h.follows.dropTopic topic hlt)
    · exact h.polled i hlt

theorem sound_start (start : ι → ℕ) : Sound start { seq := start } :=
  ⟨⟨rfl, List.nil_sublist _⟩, nofun, nofun, nofun, fun _ => rfl, fun _ h => absurd rfl h, nofun⟩

/-- A reader has each event told, or covered by a warning, by one of its polls. -/
theorem Sound.countP_covers (h : s.Sound start) {i : ι} {k : ℕ} (hk : k < s.seq i)
    (hafter : start i ≤ k ∨ ∃ p ∈ s.pollsOf i, p.next ≤ k) :
    (s.pollsOf i).countP (fun p => p.Covers k) = 1 := by
  have hcont := h.continues i
  have htail := h.tail_le i
  rcases hpolls : s.pollsOf i with _ | ⟨p, ps⟩
  · rw [hpolls] at hcont hafter
    have hsame : s.seq i = start i := hcont
    rcases hafter with hle | ⟨p, hp, -⟩
    · omega
    · cases hp
  · rw [hpolls] at hcont htail hafter
    obtain ⟨hseq, hrest⟩ := hcont
    have hps : ∀ q ∈ ps, q.seq ≤ q.next := htail
    rw [List.countP_cons, hrest.countP_covers hps]
    have hnext : start i ≤ k ∨ p.next ≤ k := by
      rcases hafter with hle | ⟨q, hq, hle⟩
      · exact .inl hle
      · right
        rcases List.mem_cons.mp hq with rfl | hq
        · exact hle
        · exact (hrest.le_next hps hq).trans hle
    simp only [decide_eq_true_eq, Poll.covers_iff]
    split_ifs <;> omega

/-- One event that is told, and one that finds no memory. -/
def toldAndGone : List (Step Unit) := [.push "job:web", .poll (), .drop "agent:n1", .poll ()]

end Readers

end Hop.Hoplib
