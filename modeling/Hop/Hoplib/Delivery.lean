import Hop.Hoplib.Frames

/-!
# From the leader to a subscriber

An event of the leader becomes a topic in the log of the API, a frame with a JSON object on the
stream, and in the reader of a subscriber a topic again. `delivered` says what arrives: whatever the
pieces that the stream comes in and the comments between its frames, each event arrives once, in
order and with its name, as long as the log had room for them; if it had not, one `status` and then
the last ones. (A job with a colon in its name is taken apart at the colon: `topicFrame` cannot tell
it from the topic of a task.)
-/

namespace Hop.Hoplib

open Hop.Types
open Hop.Api (frame object topicFrame keepalive EventLog eventLogCap)

/-! ### The log -/

/-- Topics with their numbers, from this number on. -/
def numbered : ℕ → List String → List (ℕ × String)
  | _, [] => []
  | n, t :: ts => (n, t) :: numbered (n + 1) ts

theorem length_numbered (n : ℕ) (ts : List String) : (numbered n ts).length = ts.length := by
  induction ts generalizing n with
  | nil => rfl
  | cons t ts ih => rw [numbered, List.length_cons, ih, List.length_cons]

theorem numbered_append (n : ℕ) (ts us : List String) :
    numbered n (ts ++ us) = numbered n ts ++ numbered (n + ts.length) us := by
  induction ts generalizing n with
  | nil => rfl
  | cons t ts ih =>
    rw [List.cons_append, numbered, ih, numbered, List.length_cons, List.cons_append,
      Nat.add_right_comm, Nat.add_assoc]

theorem drop_numbered (n k : ℕ) (ts : List String) (h : k ≤ ts.length) :
    (numbered n ts).drop k = numbered (n + k) (ts.drop k) := by
  induction k generalizing n ts with
  | zero => simp
  | succ k ih =>
    rcases ts with _ | ⟨t, ts⟩
    · simp at h
    · rw [numbered, List.drop_succ_cons, List.drop_succ_cons, ih (n + 1) ts (by simpa using h)]
      congr 1
      omega

theorem mem_numbered {n : ℕ} {ts : List String} {p : ℕ × String} (h : p ∈ numbered n ts) :
    n ≤ p.1 ∧ p.1 < n + ts.length := by
  induction ts generalizing n with
  | nil => cases h
  | cons t ts ih =>
    rw [List.length_cons]
    rcases List.mem_cons.mp h with rfl | h
    · exact ⟨Nat.le_refl _, by omega⟩
    · obtain ⟨hle, hlt⟩ := ih h
      exact ⟨by omega, by omega⟩

/-- A log that saw these topics: it holds the last of them. -/
structure Logged (log : EventLog) (ts : List String) : Prop where
  next : log.next = ts.length
  ring : log.ring = (numbered 0 ts).drop (ts.length - eventLogCap)

theorem logged_pushTopic {log : EventLog} {ts : List String} (h : Logged log ts) (t : String)
    (hlt : ts.length + 1 < 2 ^ 64) : Logged (log.pushTopic t) (ts ++ [t]) := by
  have hcap : eventLogCap = 64 := rfl
  refine ⟨?_, ?_⟩
  · rw [EventLog.pushTopic, h.next, Nat.mod_eq_of_lt hlt, List.length_append, List.length_singleton]
  · have hnew : numbered (0 + ts.length) [t] = [(ts.length, t)] := by
      rw [Nat.zero_add]
      rfl
    have hring : log.ring.length = ts.length - (ts.length - eventLogCap) := by
      rw [h.ring, List.length_drop, length_numbered]
    have hkeep : ts.length + 1 - eventLogCap ≤ (numbered 0 ts).length := by
      rw [length_numbered]
      omega
    rw [EventLog.pushTopic, numbered_append, hnew, List.length_append, List.length_singleton,
      List.drop_append_of_le_length hkeep, h.next]
    dsimp only
    congr 1
    by_cases hfull : eventLogCap ≤ log.ring.length
    · rw [if_pos hfull, h.ring, List.drop_drop]
      congr 1
      omega
    · rw [if_neg hfull, h.ring]
      congr 1
      omega

theorem push_eq (log : EventLog) (e : Lead.Event) : log.push e = log.pushTopic (topicOf e) := by
  rcases e with _ | id | name
  · rfl
  · rfl
  · rfl

theorem logged_pushAll {log : EventLog} {ts : List String} (h : Logged log ts)
    (events : List Lead.Event) (hlt : ts.length + events.length < 2 ^ 64) :
    Logged (log.pushAll events) (ts ++ events.map topicOf) := by
  induction events generalizing log ts with
  | nil => simpa [EventLog.pushAll] using h
  | cons e events ih =>
    rw [List.length_cons] at hlt
    have hone := logged_pushTopic h (topicOf e) (by omega)
    rw [← push_eq] at hone
    have := ih hone (by rw [List.length_append, List.length_singleton]; omega)
    rw [List.append_assoc] at this
    exact this

theorem sinceLoop_numbered (t : String) (ts : List String) (n expect : ℕ) (gap : Bool)
    (fs : List Bytes) (hlt : n + ts.length + 1 < 2 ^ 64) :
    EventLog.sinceLoop (numbered n (t :: ts)) expect gap fs =
      (fs ++ (t :: ts).map topicFrame, gap || decide (n ≠ expect), n + ts.length + 1) := by
  induction ts generalizing t n expect gap fs with
  | nil =>
    simp only [numbered, EventLog.sinceLoop, List.length_nil, List.map_cons, List.map_nil,
      Nat.add_zero, Prod.mk.injEq, true_and]
    exact Nat.mod_eq_of_lt (by simpa using hlt)
  | cons t' ts ih =>
    rw [List.length_cons] at hlt
    rw [numbered, EventLog.sinceLoop, ih t' (n + 1) _ _ _ (by omega)]
    have hmod : (n + 1) % 2 ^ 64 = n + 1 := Nat.mod_eq_of_lt (by omega)
    simp only [hmod, ne_eq, not_true_eq_false, decide_false, Bool.or_false, List.map_cons,
      List.append_assoc, List.singleton_append, List.length_cons, Prod.mk.injEq, true_and]
    omega

/-- The topics that a reader is told: all, or a `status` and the last ones. -/
def told (topics : List String) : List String :=
  if topics.length ≤ eventLogCap then topics else "" :: topics.drop (topics.length - eventLogCap)

theorem frames_logged {log : EventLog} {before ts : List String} (h : Logged log (before ++ ts))
    (hlt : before.length + ts.length < 2 ^ 64) :
    log.frames before.length = (told ts).map topicFrame := by
  have hcap : eventLogCap = 64 := rfl
  have hstatus : frame (utf8 "status") (object []) = topicFrame "" := by decide
  -- of the ring, the reader misses only what came after the number that it knows
  have hfilter : log.ring.filter (fun p => before.length ≤ p.1) =
      numbered (before.length + (ts.length - eventLogCap)) (ts.drop (ts.length - eventLogCap)) := by
    have hold : ((numbered 0 before).drop ((before ++ ts).length - eventLogCap)).filter
        (fun p => before.length ≤ p.1) = [] := by
      rw [List.filter_eq_nil_iff]
      intro p hp
      have := mem_numbered (List.mem_of_mem_drop hp)
      simp only [decide_eq_true_eq, Nat.not_le]
      omega
    have hsub : (before ++ ts).length - eventLogCap - (numbered 0 before).length =
        ts.length - eventLogCap := by
      rw [List.length_append, length_numbered]
      omega
    rw [h.ring, numbered_append, List.drop_append, List.filter_append, hold, List.nil_append, hsub,
      Nat.zero_add, drop_numbered _ _ _ (Nat.sub_le _ _), List.filter_eq_self]
    intro p hp
    have := mem_numbered hp
    simp only [decide_eq_true_eq]
    omega
  rw [EventLog.frames, if_neg (by rw [h.next, List.length_append]; omega), hfilter, h.next, told]
  rcases hlast : ts.drop (ts.length - eventLogCap) with _ | ⟨t, rest⟩
  · have hnil : ts.length = 0 := by
      have := congrArg List.length hlast
      rw [List.length_drop, List.length_nil] at this
      omega
    have hts : ts = [] := List.length_eq_zero_iff.mp hnil
    subst hts
    simp [numbered, EventLog.sinceLoop]
  · have hlen : rest.length + 1 = ts.length - (ts.length - eventLogCap) := by
      rw [← List.length_drop, hlast, List.length_cons]
    rw [sinceLoop_numbered t rest _ _ _ _ (by omega)]
    by_cases hfew : ts.length ≤ eventLogCap
    · have hall : ts = t :: rest := by
        rw [← hlast, Nat.sub_eq_zero_of_le hfew, List.drop_zero]
      have hno : (false || decide (before.length + (ts.length - eventLogCap) ≠ before.length) ||
          decide (before.length + (ts.length - eventLogCap) + rest.length + 1 ≠
            (before ++ ts).length)) = false := by
        rw [List.length_append]
        simp only [Bool.false_or, Bool.or_eq_false_iff, decide_eq_false_iff_not, ne_eq, not_not]
        omega
      simp only [hno, if_pos hfew, List.nil_append, ← hall]
      rfl
    · have hgap : (false || decide (before.length + (ts.length - eventLogCap) ≠ before.length) ||
          decide (before.length + (ts.length - eventLogCap) + rest.length + 1 ≠
            (before ++ ts).length)) = true := by
        simp only [Bool.false_or, Bool.or_eq_true, decide_eq_true_eq]
        left
        omega
      simp only [hgap, if_neg hfew, List.nil_append, hstatus, List.map_cons]
      rfl

/-! ### The reader -/

/-- Frames as they stand on a connection, with comments between them. -/
inductive Sent : List Bytes → Bytes → Prop
  | nil : Sent [] []
  | frame {fs : List Bytes} {text : Bytes} (f : Bytes) : Sent fs text → Sent (f :: fs) (f ++ text)
  | comment {fs : List Bytes} {text : Bytes} : Sent fs text → Sent fs (keepalive ++ text)

theorem sent_since (log : EventLog) (seq : ℕ) : Sent (log.frames seq) (log.since seq).1 := by
  rw [EventLog.since]
  induction log.frames seq with
  | nil => exact .nil
  | cons f fs ih => exact .frame f ih

/-- What a subscriber does with its reader. -/
inductive Op
  | push (bytes : Bytes)
  | next

/-- The bytes that were pushed. -/
def pushed : List Op → Bytes
  | [] => []
  | .push bytes :: ops => bytes ++ pushed ops
  | .next :: ops => pushed ops

/-- A run of a reader: the events that it gives, in order. -/
def Events.run : Events → List Op → Except Types.Error (List Event × Events)
  | e, [] => .ok ([], e)
  | e, .push bytes :: ops => do
    let e ← e.push bytes
    e.run ops
  | e, .next :: ops => do
    let (ev, e) := e.next
    let (evs, e) ← e.run ops
    return (ev.toList ++ evs, e)

/-- A reader in the middle of a stream: what it holds and what comes are whole pieces, and these
are their texts. -/
structure Reading (rest later : Bytes) (us : List Bytes) : Prop where
  pieces : ∃ ps, List.Forall₂ Whole ps us ∧ rest ++ later = ps.flatten

theorem findBlankLine_none_iff (b : Bytes) : findBlankLine b = none ↔ blankLines.cut b = none := by
  rw [findBlankLine_eq, cut_eq, Option.map_eq_none_iff]

theorem cuts_flatten {ps us : List Bytes} (h : List.Forall₂ Whole ps us) :
    blankLines.Cuts us ps.flatten := by
  induction h with
  | nil => rfl
  | cons hp _ ih => exact ⟨_, hp.cut _, ih⟩

theorem whole_length {p u : Bytes} (h : Whole p u) : 0 < p.length := by
  rcases p with _ | ⟨b, p⟩
  · have := h.cut []
    rw [List.append_nil, blankLines.nil] at this
    cases this
  · simp

namespace Reading

variable {rest later : Bytes} {us : List Bytes}

/-- A piece that is taken off was the first. -/
theorem take (h : Reading rest later us) {u r : Bytes} (hcut : blankLines.cut rest = some (u, r)) :
    ∃ us', us = u :: us' ∧ Reading r later us' ∧ r.length < rest.length := by
  obtain ⟨ps, hps, heq⟩ := h.pieces
  have hcuts := cuts_flatten hps
  rw [← heq] at hcuts
  obtain ⟨us', rfl, -⟩ := hcuts.take hcut
  obtain ⟨p, ps', hp, hps', rfl⟩ := List.forall₂_cons_right_iff.mp hps
  -- the same piece, cut off the whole text
  have hwhole := blankLines.append hcut later
  rw [heq, List.flatten_cons, hp.cut] at hwhole
  have hrest : ps'.flatten = r ++ later := (Prod.mk.inj (Option.some.inj hwhole)).2
  refine ⟨us', rfl, ⟨ps', hps', hrest.symm⟩, ?_⟩
  have hlen := congrArg List.length heq
  rw [List.flatten_cons, hrest, List.length_append, List.length_append, List.length_append] at hlen
  have := whole_length hp
  omega

/-- What is held without a blank line is not too long. -/
theorem length_le (h : Reading rest later us) (hcut : blankLines.cut rest = none) :
    rest.length ≤ maxEventBytes := by
  obtain ⟨ps, hps, heq⟩ := h.pieces
  rcases hps with _ | ⟨hp, hps⟩
  · rw [(List.append_eq_nil_iff.mp heq).1]
    exact Nat.zero_le _
  · rename_i p u ps us
    have hcuts := cuts_flatten (.cons hp hps)
    rw [← heq] at hcuts
    obtain ⟨r, hwhole, -, hlt⟩ := hcuts.wait hcut
    rw [heq, List.flatten_cons, hp.cut] at hwhole
    obtain ⟨-, rfl⟩ := Prod.mk.inj (Option.some.inj hwhole)
    have hlen := congrArg List.length heq
    rw [List.flatten_cons, List.length_append, List.length_append] at hlen
    have := hp.size
    omega

theorem push {e : Events} {bytes : Bytes} (h : Reading e.rest (bytes ++ later) us) :
    ∃ e', e.push bytes = .ok e' ∧ Reading e'.rest later us := by
  have h' : Reading (e.rest ++ bytes) later us := by
    obtain ⟨ps, hps, heq⟩ := h.pieces
    exact ⟨ps, hps, by rw [← heq, List.append_assoc]⟩
  refine ⟨⟨e.rest ++ bytes⟩, ?_, h'⟩
  rw [Events.push]
  apply if_neg
  rintro ⟨hlong, hblank⟩
  have := h'.length_le ((findBlankLine_none_iff _).mp hblank)
  omega

theorem nextLoop_eq (fuel : ℕ) (rest : Bytes) : Events.nextLoop (fuel + 1) rest =
    match blankLines.cut rest with
    | none => (none, rest)
    | some (u, r) =>
      match readFrame u with
      | some e => (some e, r)
      | none => Events.nextLoop fuel r := by
  rw [Events.nextLoop, findBlankLine_eq, cut_eq]
  rcases blank rest with _ | ⟨i, j⟩
  · rfl
  · rfl

theorem nextLoop {fuel : ℕ} (h : Reading rest later us) (hfuel : rest.length < fuel) :
    ∃ us', us.filterMap readFrame =
        (Events.nextLoop fuel rest).1.toList ++ us'.filterMap readFrame ∧
      Reading (Events.nextLoop fuel rest).2 later us' ∧
      ((Events.nextLoop fuel rest).1 = none →
        blankLines.cut (Events.nextLoop fuel rest).2 = none) := by
  induction fuel generalizing rest us with
  | zero => omega
  | succ fuel ih =>
    rw [nextLoop_eq]
    rcases hcut : blankLines.cut rest with _ | ⟨u, r⟩
    · exact ⟨us, rfl, h, fun _ => hcut⟩
    · obtain ⟨us', rfl, hr, hlt⟩ := h.take hcut
      dsimp only
      rcases hread : readFrame u with _ | e
      · rw [List.filterMap_cons_none hread]
        exact ih hr (by omega)
      · rw [List.filterMap_cons_some hread]
        exact ⟨us', rfl, hr, fun hnone => (nomatch hnone)⟩

theorem next {e : Events} (h : Reading e.rest later us) :
    ∃ us', us.filterMap readFrame = e.next.1.toList ++ us'.filterMap readFrame ∧
      Reading e.next.2.rest later us' ∧
      (e.next.1 = none → blankLines.cut e.next.2.rest = none) :=
  h.nextLoop (Nat.lt_succ_self _)

/-- At the end of the stream, a reader without a whole event has given all. -/
theorem done (h : Reading rest [] us) (hcut : blankLines.cut rest = none) : us = [] := by
  obtain ⟨ps, hps, heq⟩ := h.pieces
  have hcuts := cuts_flatten hps
  rw [← heq, List.append_nil] at hcuts
  exact hcuts.done hcut

/-- A run gives the events of the stream from its beginning on. -/
theorem run {e : Events} {ops : List Op} (h : Reading e.rest (pushed ops) us) :
    ∃ evs e' us', e.run ops = .ok (evs, e') ∧
      us.filterMap readFrame = evs ++ us'.filterMap readFrame ∧ Reading e'.rest [] us' := by
  induction ops generalizing e us with
  | nil => exact ⟨[], e, us, rfl, rfl, h⟩
  | cons op ops ih =>
    rcases op with bytes | _
    · obtain ⟨e₁, hpush, h₁⟩ := h.push
      obtain ⟨evs, e', us', hrun, hevs, hend⟩ := ih h₁
      refine ⟨evs, e', us', ?_, hevs, hend⟩
      rw [Events.run, hpush]
      exact hrun
    · obtain ⟨us₁, hus₁, h₁, -⟩ := h.next
      obtain ⟨evs, e', us', hrun, hevs, hend⟩ := ih h₁
      refine ⟨e.next.1.toList ++ evs, e', us', ?_, ?_, hend⟩
      · rw [Events.run]
        simp only [hrun]
        rfl
      · rw [hus₁, hevs, List.append_assoc]

end Reading

/-- The pieces of a stream, with what is heard of them. -/
theorem sent_pieces {fs : List Bytes} {text : Bytes} (h : Sent fs text) {ts : List Topic}
    (hfs : List.Forall₂ Heard fs ts) : ∃ us, Reading [] text us ∧
      (us.filterMap readFrame).map Event.topic = ts.map .ok := by
  induction h generalizing ts with
  | nil =>
    rcases hfs
    exact ⟨[], ⟨[], .nil, rfl⟩, rfl⟩
  | frame f _ ih =>
    obtain ⟨t, ts', ⟨u, hu, e, hread, htopic⟩, hfs', rfl⟩ := List.forall₂_cons_left_iff.mp hfs
    obtain ⟨us, hreading, hus⟩ := ih hfs'
    obtain ⟨ps, hps, heq⟩ := hreading.pieces
    refine ⟨u :: us, ⟨f :: ps, .cons hu hps, ?_⟩, ?_⟩
    · rw [List.flatten_cons, ← heq, List.nil_append, List.nil_append]
    · rw [List.filterMap_cons_some hread, List.map_cons, List.map_cons, hus, htopic]
  | comment _ ih =>
    obtain ⟨us, hreading, hus⟩ := ih hfs
    obtain ⟨ps, hps, heq⟩ := hreading.pieces
    refine ⟨utf8 ": keepalive" :: us, ⟨keepalive :: ps, .cons whole_keepalive hps, ?_⟩, ?_⟩
    · rw [List.flatten_cons, ← heq, List.nil_append, List.nil_append]
    · rw [List.filterMap_cons_none readFrame_keepalive, hus]

/-- What a reader hears of these events: all, or a `status` and the last ones if the log had no
room for them. -/
def heardOf (events : List Lead.Event) : List Topic :=
  if events.length ≤ eventLogCap then events.map heard
  else .status :: (events.drop (events.length - eventLogCap)).map heard

theorem heard_frames {events : List Lead.Event}
    (hsize : ∀ e ∈ events, (topicFrame (topicOf e)).length < maxEventBytes)
    (hcolon : ∀ e ∈ events, NoColon e) :
    List.Forall₂ Heard ((told (events.map topicOf)).map topicFrame) (heardOf events) := by
  have hall : ∀ es : List Lead.Event, (∀ e ∈ es, e ∈ events) →
      List.Forall₂ Heard ((es.map topicOf).map topicFrame) (es.map heard) := by
    intro es hes
    rw [List.map_map, List.forall₂_map_left_iff, List.forall₂_map_right_iff, List.forall₂_same]
    exact fun e he => heard_topicFrame (hcolon e (hes e he)) (hsize e (hes e he)).le
  rw [told, heardOf, List.length_map]
  by_cases hfew : events.length ≤ eventLogCap
  · rw [if_pos hfew, if_pos hfew]
    exact hall events fun e he => he
  · rw [if_neg hfew, if_neg hfew, ← List.map_drop, List.map_cons]
    refine .cons ?_ (hall _ fun e he => List.mem_of_mem_drop he)
    exact heard_topicFrame (e := .status) trivial (by decide)

/-- The log of a leader that gave these events. -/
abbrev logOf (events : List Lead.Event) : EventLog := EventLog.pushAll {} events

theorem logged_logOf (events : List Lead.Event) (h : events.length < 2 ^ 64) :
    Logged (logOf events) (events.map topicOf) := by
  have hempty : Logged {} [] := ⟨rfl, rfl⟩
  exact logged_pushAll hempty events (by rw [List.length_nil]; omega)

/-- **An event reaches its subscriber with the name that it was about.** A reader that knows the
events `before` asks for the rest; whatever comments stand between the frames, and however the text
is cut into pieces and the reader asked for events in between, it gives the events in order, and
all of them once it has no more. -/
theorem delivered (before events : List Lead.Event) (hcount : before.length + events.length < 2 ^ 64)
    (hsize : ∀ e ∈ events, (topicFrame (topicOf e)).length < maxEventBytes)
    (hcolon : ∀ e ∈ events, NoColon e) (text : Bytes)
    (hsent : Sent ((logOf (before ++ events)).frames (logOf before).seq) text) (ops : List Op)
    (hops : pushed ops = text) :
    ∃ evs e, Events.run {} ops = .ok (evs, e) ∧
      evs.map Event.topic <+: (heardOf events).map .ok ∧
      (e.next.1 = none → evs.map Event.topic = (heardOf events).map .ok) := by
  have hlog := logged_logOf (before ++ events) (by rw [List.length_append]; omega)
  have hseq : (logOf before).seq = (before.map topicOf).length :=
    (logged_logOf before (by omega)).next
  rw [List.map_append] at hlog
  rw [hseq, frames_logged hlog (by rw [List.length_map, List.length_map]; omega)] at hsent
  obtain ⟨us, hreading, hus⟩ := sent_pieces hsent (heard_frames hsize hcolon)
  rw [← hops] at hreading
  obtain ⟨evs, e, us', hrun, hevs, hend⟩ := hreading.run (e := {})
  rw [hevs, List.map_append] at hus
  refine ⟨evs, e, hrun, ⟨_, hus⟩, fun hnone => ?_⟩
  -- nothing is left in the reader, so nothing is left of the stream
  obtain ⟨us₁, hus₁, hlast, hcut⟩ := hend.next
  have hus₁nil : us₁ = [] := hlast.done (hcut hnone)
  rw [hnone, hus₁nil] at hus₁
  rw [hus₁] at hus
  simpa using hus

/-- Two events after a comment, in two pieces: the cut is inside the first frame. -/
def twoPieces : List Op :=
  let text := keepalive ++ ((logOf [.status, .agent "n1", .job "wéb"]).since 1).1
  [.push (text.take 40), .next, .push (text.drop 40), .next, .next]

theorem delivered_twoPieces :
    ∃ evs e, Events.run {} twoPieces = .ok (evs, e) ∧
      evs.map Event.topic <+: (heardOf [.agent "n1", .job "wéb"]).map .ok ∧
      (e.next.1 = none →
        evs.map Event.topic = (heardOf [.agent "n1", .job "wéb"]).map .ok) := by
  refine delivered [.status] [.agent "n1", .job "wéb"] (by decide) (by decide)
    (by decide) (keepalive ++ ((logOf [.status, .agent "n1", .job "wéb"]).since 1).1) ?_ _ ?_
  · exact .comment (sent_since _ 1)
  · simp only [twoPieces, pushed, List.append_nil, List.take_append_drop]

/-- What a reader hears first of these events, if it asks this many times. -/
def hears (asks : ℕ) (events : List Lead.Event) : List (Option Topic) :=
  match Events.run {} (.push ((logOf events).since 0).1 :: List.replicate asks .next) with
  | .ok (evs, _) => evs.map fun e => e.topic.toOption
  | .error _ => []

theorem next_pushAll (log : EventLog) (events : List Lead.Event) (h : log.next < 2 ^ 64) :
    (log.pushAll events).next = (log.next + events.length) % 2 ^ 64 := by
  induction events generalizing log with
  | nil => exact (Nat.mod_eq_of_lt h).symm
  | cons e events ih =>
    have hnext : (log.push e).next = (log.next + 1) % 2 ^ 64 := by
      rw [push_eq]
      rfl
    have hstep := ih (log.push e) (by rw [hnext]; exact Nat.mod_lt _ (by decide))
    rw [hnext] at hstep
    rw [List.length_cons]
    refine hstep.trans ?_
    omega

set_option maxRecDepth 40000 in
/-- A log that lost events says `status` first; a job with a colon in its name is heard as a task of
another one; and a number that came round makes the log say `status` alone. -/
theorem not_all_delivered :
    hears 1 (List.replicate 65 (.job "web")) = [some .status] ∧
    hears 1 [.job "a:b"] = [some (.task "a" "b")] ∧
    (logOf (List.replicate (2 ^ 64 - 1) .status ++ [.agent "a", .agent "b"])).frames
      (logOf (List.replicate (2 ^ 64 - 1) .status)).seq = [topicFrame ""] := by
  refine ⟨by decide, by decide, ?_⟩
  have hseq : (logOf (List.replicate (2 ^ 64 - 1) .status)).seq = 2 ^ 64 - 1 := by
    rw [EventLog.seq, next_pushAll _ _ (by decide), List.length_replicate]
    decide
  have hnext : (logOf (List.replicate (2 ^ 64 - 1) .status ++
      [.agent "a", .agent "b"])).next = 1 := by
    rw [next_pushAll _ _ (by decide), List.length_append, List.length_replicate]
    decide
  rw [EventLog.frames, hseq, hnext, if_pos (by decide)]
  decide

end Hop.Hoplib
