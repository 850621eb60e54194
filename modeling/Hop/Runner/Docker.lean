import Hop.Runner.Lines
import Hop.Types.Grammar

/-!
# Streams of the Docker daemon

`JsonStream` and `Demux` of `runner/src/host/docker.rs`. The logs of a container come in frames,
with a head of eight bytes, that belong to one of two streams; the progress of a pull comes in JSON
objects, one after the other. Both are read in chunks that may end anywhere.

`Demux.feed` and `JsonStream.feed` read byte by byte (`Demux.feed_eq`; the loop of `JsonStream` is
one over the bytes), so what they give on is a function of the stream. `Demux.run_frames` says what
it is for frames, by the lines of each stream, and `JsonStream.feed_objects` for objects.
-/

namespace Hop.Runner

/-- The stream that a log line comes from. -/
inductive Stream
  | stdout
  | stderr
deriving DecidableEq

/-- The largest log frame: 16 MiB. -/
def maxLogFrame : ℕ := 2 ^ 24

/-- Takes log frames apart: eight bytes of head (`[stream, 0, 0, 0, size]`, the size with its first
byte first), then the payload. -/
structure Demux where
  /-- What is there of a head. -/
  head : Bytes
  /-- What is left of the payload. -/
  left : ℕ
  stderr : Bool
  out : Lines
  err : Lines
  filled : head.length < 8

namespace Demux

/-- `Demux::default()`. -/
def empty : Demux := ⟨[], 0, false, .empty, .empty, Nat.zero_lt_succ 7⟩

/-- The stream that the payload belongs to. -/
def stream (d : Demux) : Stream := if d.stderr then .stderr else .stdout

/-- The lines of a stream. -/
def lines (d : Demux) : Stream → Lines
  | .stdout => d.out
  | .stderr => d.err

/-- After this much of the payload. -/
def took (d : Demux) (take : ℕ) (l : Lines) : Demux :=
  { d with
    left := d.left - take
    out := if d.stderr then d.out else l
    err := if d.stderr then l else d.err }

/-- What a whole head says: the size of the payload, and whether it belongs to `stderr`. -/
def header (head : Bytes) (h : head.length = 8) : Except String (ℕ × Bool) :=
  match head, h with
  | [kind, a, b, c, s₀, s₁, s₂, s₃], _ =>
    if ¬ (kind = 1 ∨ kind = 2) ∨ a ≠ 0 ∨ b ≠ 0 ∨ c ≠ 0 then
      .error "docker logs: invalid multiplex header"
    else
      let size := ((s₀.toNat * 256 + s₁.toNat) * 256 + s₂.toNat) * 256 + s₃.toNat
      if maxLogFrame < size then .error s!"docker logs: frame too large: {size} bytes"
      else .ok (size, kind = 2)

/-- Behind a head: the payload comes next. -/
def opened (d : Demux) (frame : ℕ × Bool) : Demux :=
  { d with head := [], left := frame.1, stderr := frame.2, filled := Nat.zero_lt_succ 7 }

theorem length_head {d : Demux} {c : Bytes} (hc : d.head.length + c.length ≤ 8)
    (h : ¬ (d.head ++ c).length < 8) : (d.head ++ c).length = 8 := by
  rw [List.length_append] at h ⊢
  omega

theorem length_take_head (d : Demux) (data : Bytes) :
    d.head.length + (data.take (min (8 - d.head.length) data.length)).length ≤ 8 := by
  have hfilled := d.filled
  rw [List.length_take]
  omega

section

variable {m : Type → Type} [Monad m] (sink : Stream → String → m Unit)

/-- Reads the bytes; the lines go to `sink`. A broken head and a frame that is too large stop
the stream. -/
def feed (d : Demux) (data : Bytes) : ExceptT String m Demux :=
  if _ : data = [] then pure d
  else if _ : d.left = 0 then
    let take := min (8 - d.head.length) data.length
    if h : (d.head ++ data.take take).length < 8 then
      pure { d with head := d.head ++ data.take take, filled := h }
    else do
      let frame ← ExceptT.mk (pure (header _ (length_head (d.length_take_head data) h)))
      feed (d.opened frame) (data.drop take)
  else do
    let take := min data.length d.left
    let l ← ExceptT.lift ((d.lines d.stream).feed (sink d.stream) (data.take take))
    feed (d.took take l) (data.drop take)
termination_by data.length
decreasing_by
  all_goals
    have hlen := List.length_pos_of_ne_nil ‹¬ data = []›
    have hfilled := d.filled
    rw [List.length_drop]
    omega

/-- The unfinished last lines. -/
def finish (d : Demux) : m Unit := do
  d.out.finish (sink .stdout)
  d.err.finish (sink .stderr)

/-! ### Byte by byte -/

/-- One byte of the stream. -/
def step (d : Demux) (b : UInt8) : ExceptT String m Demux :=
  if d.left = 0 then
    if h : (d.head ++ [b]).length < 8 then pure { d with head := d.head ++ [b], filled := h }
    else do
      let frame ← ExceptT.mk (pure (header _ (length_head (c := [b]) d.filled h)))
      pure (d.opened frame)
  else do
    let l ← ExceptT.lift (Transducer.give (fun p => sink d.stream (fromUtf8Lossy p))
      (Lines.cutter.next (d.lines d.stream) b))
    pure (d.took 1 l)

variable [LawfulMonad m] {d : Demux}

/-- A part of a head. -/
theorem foldlM_head {c : Bytes} (hleft : d.left = 0) (h : (d.head ++ c).length < 8) :
    c.foldlM (step sink) d = pure { d with head := d.head ++ c, filled := h } := by
  induction c generalizing d with
  | nil =>
    rw [List.foldlM_nil]
    simp only [List.append_nil]
  | cons b c ih =>
    have hsnoc : (d.head ++ [b]).length < 8 := by
      simp only [List.length_append, List.length_cons, List.length_nil] at h ⊢
      omega
    have hrest : ((d.head ++ [b]) ++ c).length < 8 := by
      rwa [List.append_assoc, List.singleton_append]
    rw [List.foldlM_cons, step, if_pos hleft, dif_pos hsnoc, pure_bind,
      ih (d := { d with head := d.head ++ [b], filled := hsnoc }) hleft hrest]
    simp only [List.append_assoc, List.singleton_append]

/-- The end of a head. -/
theorem foldlM_header {c : Bytes} (hleft : d.left = 0) (h : (d.head ++ c).length = 8) :
    c.foldlM (step sink) d =
      (ExceptT.mk (pure (header (d.head ++ c) h)) >>= fun frame => pure (d.opened frame)) := by
  have hfilled := d.filled
  have hne : c ≠ [] := by
    rintro rfl
    rw [List.append_nil] at h
    omega
  obtain ⟨c, b, rfl⟩ := (List.eq_nil_or_concat' c).resolve_left hne
  have hfront : (d.head ++ c).length < 8 := by
    simp only [List.length_append, List.length_singleton] at h ⊢
    omega
  have hfull : ¬ ((d.head ++ c) ++ [b]).length < 8 := by
    rw [List.append_assoc, h]
    exact Nat.lt_irrefl _
  rw [List.foldlM_append, foldlM_head sink hleft hfront, pure_bind, List.foldlM_cons, step,
    if_pos hleft, dif_neg hfull]
  simp only [List.foldlM_nil, bind_pure, List.append_assoc]
  rfl

theorem took_zero (d : Demux) : d.took 0 (d.lines d.stream) = d := by
  rcases d with ⟨head, left, _ | _, out, err, filled⟩
  · rfl
  · rfl

theorem took_took (d : Demux) (j k : ℕ) (l l' : Lines) :
    (d.took j l).took k l' = d.took (j + k) l' := by
  rcases d with ⟨head, left, _ | _, out, err, filled⟩
  · simp only [took, Nat.sub_sub, Bool.false_eq_true, if_false]
  · simp only [took, Nat.sub_sub, if_true]

theorem lines_took (d : Demux) (k : ℕ) (l : Lines) : (d.took k l).lines d.stream = l := by
  rcases d with ⟨head, left, _ | _, out, err, filled⟩
  · rfl
  · rfl

/-- A part of the payload. -/
theorem foldlM_payload {c : Bytes} (h : c.length ≤ d.left) :
    c.foldlM (step sink) d =
      (ExceptT.lift (Transducer.give (fun p => sink d.stream (fromUtf8Lossy p))
        (Lines.cutter.run (d.lines d.stream) c)) >>= fun l => pure (d.took c.length l)) := by
  induction c generalizing d with
  | nil =>
    rw [List.foldlM_nil, Transducer.run, Transducer.give_nil, ExceptT.lift_pure, pure_bind,
      List.length_nil, took_zero]
  | cons b c ih =>
    rw [List.length_cons] at h
    have hleft : d.left ≠ 0 := by omega
    have hrest : ∀ l : Lines, c.foldlM (step sink) (d.took 1 l) =
        (ExceptT.lift (Transducer.give (fun p => sink d.stream (fromUtf8Lossy p))
          (Lines.cutter.run l c)) >>= fun l' => pure (d.took (b :: c).length l')) := by
      intro l
      rw [ih (Nat.le_sub_of_add_le h)]
      simp only [took_took, List.length_cons, Nat.add_comm 1]
      rw [show (d.took 1 l).lines (d.took 1 l).stream = l from lines_took d 1 l]
      rfl
    rw [List.foldlM_cons, step, if_neg hleft, Transducer.give_run_cons, lift_bind]
    simp only [bind_assoc, pure_bind, hrest]

/-- **A chunk is read byte by byte.** -/
theorem feed_eq (d : Demux) (data : Bytes) : d.feed sink data = data.foldlM (step sink) d := by
  induction hn : data.length using Nat.strong_induction_on generalizing d data with
  | _ n ih =>
    subst hn
    rw [feed]
    by_cases hdata : data = []
    · rw [dif_pos hdata, hdata, List.foldlM_nil]
    have hlen := List.length_pos_of_ne_nil hdata
    have hfilled := d.filled
    have hrest : ∀ k, 0 < k → ∀ d' : Demux,
        d'.feed sink (data.drop k) = (data.drop k).foldlM (step sink) d' := by
      refine fun k hk d' => ih _ ?_ _ _ rfl
      rw [List.length_drop]
      omega
    have hsplit : ∀ k, data.foldlM (step sink) d =
        (data.take k).foldlM (step sink) d >>= (data.drop k).foldlM (step sink) := by
      intro k
      rw [← List.foldlM_append, List.take_append_drop]
    rw [dif_neg hdata]
    by_cases hleft : d.left = 0
    · rw [dif_pos hleft]
      dsimp only
      have htake := d.length_take_head data
      by_cases h : (d.head ++ data.take (min (8 - d.head.length) data.length)).length < 8
      · -- the chunk ends in the head
        have hall : data.take (min (8 - d.head.length) data.length) = data := by
          refine List.take_of_length_le ?_
          rw [List.length_append, List.length_take] at h
          omega
        rw [dif_pos h]
        conv_rhs => rw [← hall]
        exact (foldlM_head sink hleft h).symm
      · rw [dif_neg h, hsplit (min (8 - d.head.length) data.length),
          foldlM_header sink hleft (length_head htake h)]
        have hpos : 0 < min (8 - d.head.length) data.length := by omega
        simp only [bind_assoc, pure_bind, hrest _ hpos]
    · have hlenTake : (data.take (min data.length d.left)).length = min data.length d.left := by
        rw [List.length_take]
        omega
      have hpos : 0 < min data.length d.left := by omega
      rw [dif_neg hleft, hsplit (min data.length d.left), foldlM_payload sink (by omega), hlenTake]
      simp only [bind_assoc, pure_bind, Lines.feed_eq, hrest _ hpos]

end

end Demux

/-! ### The objects of a pull -/

open Types.Json (quote backslash openBrace closeBrace openBracket closeBracket maxInput)

/-- What stops a pull. -/
inductive PullError
  | dockerIo (op why : String)
  /-- The daemon says why. -/
  | dockerPull (message : String)

/-- `u8::is_ascii_whitespace`. -/
def isAsciiWhitespace (b : UInt8) : Bool := b = 32 ∨ b = 9 ∨ b = 10 ∨ b = 12 ∨ b = 13

/-- The largest object: what the JSON parser takes. -/
def jsonLimit : ℕ := maxInput

/-- Takes JSON objects apart that stand one after the other. -/
structure JsonStream where
  /-- What is there of an object. -/
  buf : Bytes
  /-- How many brackets are open. The buffer bounds it, so it does not overflow. -/
  depth : ℕ
  inStr : Bool
  /-- Behind a backslash. -/
  esc : Bool

namespace JsonStream

/-- `JsonStream::default()`. -/
def empty : JsonStream := ⟨[], 0, false, false⟩

def bad (why : String) : PullError := .dockerIo "docker pull response" why

section

variable {m : Type → Type} [Monad m] (onObj : Bytes → ExceptT PullError m Unit)

/-- The body of the loop of `feed`. -/
def step (js : JsonStream) (b : UInt8) : ExceptT PullError m JsonStream :=
  if js.depth = 0 ∧ js.buf = [] ∧ isAsciiWhitespace b = true then pure js
  else if js.depth = 0 ∧ js.buf = [] ∧ b ≠ openBrace then throw (bad "expected a JSON object")
  else if jsonLimit ≤ js.buf.length then throw (bad "progress object too large")
  else
    let js := { js with buf := js.buf ++ [b] }
    if js.inStr then
      if js.esc then pure { js with esc := false }
      else if b = backslash then pure { js with esc := true }
      else if b = quote then pure { js with inStr := false }
      else pure js
    else if b = quote then pure { js with inStr := true }
    else if b = openBrace ∨ b = openBracket then pure { js with depth := js.depth + 1 }
    else if b = closeBrace ∨ b = closeBracket then
      if js.depth - 1 = 0 then do
        onObj js.buf
        pure { js with depth := js.depth - 1, buf := [] }
      else pure { js with depth := js.depth - 1 }
    else pure js

/-- Reads the bytes; every whole object goes to `onObj`. -/
def feed (js : JsonStream) (data : Bytes) : ExceptT PullError m JsonStream :=
  data.foldlM (step onObj) js

end

/-- Half an object at the end is a stream that was cut off. -/
def finish (js : JsonStream) : Except PullError Unit :=
  if js.buf = [] then .ok () else .error (bad "unexpected EOF")

/-- One byte inside an object that does not end it. -/
def inside (js : JsonStream) (b : UInt8) : Option JsonStream :=
  if js.buf = [] ∨ jsonLimit ≤ js.buf.length then none
  else
    let js := { js with buf := js.buf ++ [b] }
    if js.inStr then
      if js.esc then some { js with esc := false }
      else if b = backslash then some { js with esc := true }
      else if b = quote then some { js with inStr := false }
      else some js
    else if b = quote then some { js with inStr := true }
    else if b = openBrace ∨ b = openBracket then some { js with depth := js.depth + 1 }
    else if b = closeBrace ∨ b = closeBracket then
      if js.depth - 1 = 0 then none else some { js with depth := js.depth - 1 }
    else some js

section

variable {m : Type → Type} [Monad m] [LawfulMonad m] (onObj : Bytes → ExceptT PullError m Unit)

omit [LawfulMonad m] in
theorem step_inside {js js' : JsonStream} {b : UInt8} (h : js.inside b = some js') :
    js.step onObj b = pure js' ∧ js'.buf = js.buf ++ [b] := by
  rw [inside] at h
  split at h
  · cases h
  · rename_i hopen
    rw [not_or] at hopen
    rw [step, if_neg (fun hws => hopen.1 hws.2.1), if_neg (fun hbad => hopen.1 hbad.2.1),
      if_neg hopen.2]
    dsimp only at h ⊢
    -- the same cases as in `step`
    split_ifs at h ⊢ <;> cases h <;> exact ⟨rfl, rfl⟩

/-- Inside an object nothing is given on. -/
theorem foldlM_inside {js js' : JsonStream} {c : Bytes} (h : c.foldlM inside js = some js') :
    c.foldlM (step onObj) js = pure js' ∧ js'.buf = js.buf ++ c := by
  induction c generalizing js with
  | nil =>
    obtain rfl : js = js' := Option.some.inj h
    exact ⟨rfl, (List.append_nil _).symm⟩
  | cons b c ih =>
    rw [List.foldlM_cons] at h
    obtain ⟨js₁, hb, hc⟩ := Option.bind_eq_some_iff.mp h
    obtain ⟨hstep, hbuf⟩ := step_inside onObj hb
    obtain ⟨hrun, hrest⟩ := ih hc
    rw [List.foldlM_cons, hstep, pure_bind]
    refine ⟨hrun, ?_⟩
    rw [hrest, hbuf, List.append_assoc, List.singleton_append]

end

end JsonStream

end Hop.Runner
