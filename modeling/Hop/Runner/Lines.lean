import Hop.Lib.Lossy
import Hop.Lib.Transducer

/-!
# Log lines

`Lines` of `runner/src/host/process.rs`: a byte stream in lines of at most `maxLine` bytes. What
`feed` makes of a chunk is what its bytes make of the state one by one (`Lines.feed_eq`), so only
the stream counts and not where it is cut.

A line is given on in `pieces`. When it is as long as a multiple of `maxLine`, the buffer is given
on before its newline is seen, and the newline then gives an empty line that is not in the stream:
`cutExactly_given_iff` says that this is the only way in which the lines differ from those of the
stream.
-/

namespace Hop.Runner

variable {line : Bytes}

/-- The longest line that goes in one piece: 64 KiB. -/
def maxLine : ℕ := 2 ^ 16

abbrev newline : UInt8 := 10

/-- What is there of a line. -/
@[ext] structure Lines where
  buf : Bytes
  /-- A full buffer is given on at once. -/
  short : buf.length < maxLine

namespace Lines

/-- `Lines::default()`. -/
def empty : Lines := ⟨[], Nat.two_pow_pos 16⟩

section

variable {m : Type → Type} [Monad m]

/-- Reads the bytes; every full line (without the newline) goes to `emit`. -/
def feed (emit : String → m Unit) (l : Lines) (data : Bytes) : m Lines :=
  if _ : data = [] then pure l
  else
    let chunk := data.take (min data.length (maxLine - l.buf.length))
    match chunk.findIdx? (· == newline) with
    | some i => do
      emit (fromUtf8Lossy (l.buf ++ chunk.take i))
      feed emit empty (data.drop (i + 1))
    | none =>
      if h : (l.buf ++ chunk).length < maxLine then
        feed emit ⟨l.buf ++ chunk, h⟩ (data.drop chunk.length)
      else do
        emit (fromUtf8Lossy (l.buf ++ chunk))
        feed emit empty (data.drop chunk.length)
termination_by data.length
decreasing_by
  all_goals
    have hlen := List.length_pos_of_ne_nil ‹¬ data = []›
    have hshort := l.short
    simp only [List.length_drop, List.length_take]
    omega

/-- An unfinished last line, if there is one. -/
def finish (emit : String → m Unit) (l : Lines) : m Unit :=
  if l.buf = [] then pure () else emit (fromUtf8Lossy l.buf)

end

/-! ### Byte by byte -/

theorem findIdx?_split {c : Bytes} {i : ℕ} (h : c.findIdx? (· == newline) = some i) :
    ∃ front back, c = front ++ newline :: back ∧ newline ∉ front ∧ front.length = i := by
  obtain ⟨hi, hbyte, hbefore⟩ := List.findIdx?_eq_some_iff_getElem.mp h
  refine ⟨c.take i, c.drop (i + 1), ?_, fun hmem => ?_, List.length_take_of_le hi.le⟩
  · rw [← eq_of_beq hbyte, ← List.drop_eq_getElem_cons hi, List.take_append_drop]
  · obtain ⟨j, hj, hnewline⟩ := List.mem_take_iff_getElem.mp hmem
    exact hbefore j (by omega) (by rw [hnewline]; rfl)

/-- One byte of the stream, and the pieces of a line that are given on. -/
def cutter : Transducer Lines UInt8 Bytes where
  next l b :=
    if b = newline then ([l.buf], empty)
    else if h : (l.buf ++ [b]).length < maxLine then ([], ⟨l.buf ++ [b], h⟩)
    else ([l.buf ++ [b]], empty)

variable {l : Lines}

theorem next_newline (l : Lines) : cutter.next l newline = ([l.buf], empty) := by
  rw [cutter]
  dsimp only
  rw [if_pos rfl]

theorem next_short {b : UInt8} (hb : b ≠ newline) (h : (l.buf ++ [b]).length < maxLine) :
    cutter.next l b = ([], ⟨l.buf ++ [b], h⟩) := by
  rw [cutter]
  dsimp only
  rw [if_neg hb, dif_pos h]

theorem next_full {b : UInt8} (hb : b ≠ newline) (h : ¬ (l.buf ++ [b]).length < maxLine) :
    cutter.next l b = ([l.buf ++ [b]], empty) := by
  rw [cutter]
  dsimp only
  rw [if_neg hb, dif_neg h]

/-- A part of a line that leaves room. -/
theorem run_short {c : Bytes} (hc : newline ∉ c) (h : (l.buf ++ c).length < maxLine) :
    cutter.run l c = ([], ⟨l.buf ++ c, h⟩) := by
  induction c generalizing l with
  | nil => exact Prod.ext rfl (Lines.ext (List.append_nil _).symm)
  | cons b c ih =>
    have hb : b ≠ newline := fun h => hc (h ▸ List.mem_cons_self)
    have hsnoc : (l.buf ++ [b]).length < maxLine := by
      simp only [List.length_append, List.length_cons, List.length_nil] at h ⊢
      omega
    have hrest : ((l.buf ++ [b]) ++ c).length < maxLine := by
      rwa [List.append_assoc, List.singleton_append]
    rw [Transducer.run, next_short hb hsnoc]
    dsimp only
    rw [ih (l := ⟨l.buf ++ [b], hsnoc⟩) (fun h => hc (List.mem_cons_of_mem _ h)) hrest]
    exact Prod.ext rfl (Lines.ext (List.append_assoc _ _ _))

/-- A part of a line that fills the buffer. -/
theorem run_full {c : Bytes} (hc : newline ∉ c) (h : (l.buf ++ c).length = maxLine) :
    cutter.run l c = ([l.buf ++ c], empty) := by
  have hshort := l.short
  have hne : c ≠ [] := by
    rintro rfl
    rw [List.append_nil] at h
    omega
  obtain ⟨c, b, rfl⟩ := (List.eq_nil_or_concat' c).resolve_left hne
  have hb : b ≠ newline := fun h => hc (h ▸ List.mem_append_right _ List.mem_cons_self)
  have hfront : (l.buf ++ c).length < maxLine := by
    simp only [List.length_append, List.length_singleton] at h ⊢
    omega
  have hfull : ¬ ((l.buf ++ c) ++ [b]).length < maxLine := by
    rw [List.append_assoc, h]
    exact Nat.lt_irrefl _
  rw [Transducer.run_append, run_short (fun h => hc (List.mem_append_left _ h)) hfront,
    Transducer.run, next_full hb hfull, List.append_assoc]
  rfl

variable {m : Type → Type} [Monad m] [LawfulMonad m] (emit : String → m Unit)

/-- **A chunk is read byte by byte.** -/
theorem feed_eq (l : Lines) (data : Bytes) :
    l.feed emit data = Transducer.give (fun p => emit (fromUtf8Lossy p)) (cutter.run l data) := by
  induction hn : data.length using Nat.strong_induction_on generalizing l data with
  | _ n ih =>
    subst hn
    rw [feed]
    by_cases hdata : data = []
    · rw [dif_pos hdata, hdata, Transducer.run, Transducer.give_nil]
    rw [dif_neg hdata]
    have hlen := List.length_pos_of_ne_nil hdata
    have hshort := l.short
    have hchunk : (data.take (min data.length (maxLine - l.buf.length))).length =
        min data.length (maxLine - l.buf.length) := by
      rw [List.length_take]
      omega
    have hsplit : data = data.take (min data.length (maxLine - l.buf.length)) ++
        data.drop (data.take (min data.length (maxLine - l.buf.length))).length := by
      rw [hchunk, List.take_append_drop]
    dsimp only
    generalize data.take (min data.length (maxLine - l.buf.length)) = chunk at *
    have hdrop : ∀ i, 0 < i → (data.drop i).length < data.length := by
      intro i hi
      rw [List.length_drop]
      omega
    rcases hfind : chunk.findIdx? (· == newline) with _ | i
    · -- the chunk is part of a line
      have hnone : newline ∉ chunk := fun hmem =>
        absurd (List.findIdx?_eq_none_iff.mp hfind _ hmem) (by decide)
      have hpos : 0 < chunk.length := by omega
      dsimp only
      split_ifs with h
      · conv_rhs => rw [hsplit, Transducer.run_append, run_short hnone h]
        exact ih _ (hdrop _ hpos) _ _ rfl
      · have hfull : (l.buf ++ chunk).length = maxLine := by
          rw [List.length_append] at h ⊢
          omega
        conv_rhs => rw [hsplit, Transducer.run_append, run_full hnone hfull]
        rw [List.singleton_append, Transducer.give_cons, ih _ (hdrop _ hpos) _ _ rfl]
    · -- a line ends in the chunk
      obtain ⟨front, back, rfl, hfront, rfl⟩ := findIdx?_split hfind
      have hroom : (l.buf ++ front).length < maxLine := by
        simp only [List.length_append, List.length_cons] at hchunk ⊢
        omega
      have hdata' : data = front ++ newline :: data.drop (front.length + 1) := by
        generalize data.drop (front ++ newline :: back).length = rest at hsplit
        rw [hsplit, List.append_assoc, List.cons_append, List.drop_length_add_append]
        rfl
      dsimp only
      conv_rhs => rw [hdata', Transducer.run_append, run_short hfront hroom, Transducer.run,
        next_newline]
      rw [List.take_left, List.nil_append, List.singleton_append, Transducer.give_cons,
        ih _ (hdrop _ (Nat.succ_pos _)) _ _ rfl]

/-- What `finish` gives on. -/
def last (l : Lines) : List Bytes := if l.buf = [] then [] else [l.buf]

omit [LawfulMonad m] in
theorem finish_eq [LawfulMonad m] (l : Lines) :
    l.finish emit = forM l.last fun p => emit (fromUtf8Lossy p) := by
  rw [finish, last]
  split_ifs
  · rfl
  · exact (bind_pure_unit).symm

end Lines

/-! ### Pieces -/

/-- The pieces of a line that ends with a newline. -/
def pieces (line : Bytes) : List Bytes :=
  if line.length < maxLine then [line] else line.take maxLine :: pieces (line.drop maxLine)
termination_by line.length
decreasing_by
  have hpos : 0 < maxLine := Nat.two_pow_pos 16
  rw [List.length_drop]
  omega

theorem pieces_short (h : line.length < maxLine) : pieces line = [line] := by
  rw [pieces, if_pos h]

theorem pieces_nil : pieces [] = [[]] := pieces_short (Nat.two_pow_pos 16)

theorem pieces_full {p : Bytes} (h : p.length = maxLine) :
    pieces (p ++ line) = p :: pieces line := by
  have hlong : ¬ (p ++ line).length < maxLine := by
    rw [List.length_append]
    omega
  rw [pieces, if_neg hlong, ← h, List.take_left, List.drop_left]

/-- The pieces of a stream that was split at its newlines. -/
def piecesOf : List Bytes → List Bytes
  | [] => []
  | [last] => (pieces last).filter (· ≠ [])
  | line :: next :: rest => pieces line ++ piecesOf (next :: rest)

theorem piecesOf_cons {rest : List Bytes} (h : rest ≠ []) :
    piecesOf (line :: rest) = pieces line ++ piecesOf rest := by
  obtain ⟨next, rest, rfl⟩ := List.exists_cons_of_ne_nil h
  rw [piecesOf]

theorem piecesOf_full {p : Bytes} {rest : List Bytes} (h : p.length = maxLine) :
    piecesOf ((p ++ line) :: rest) = p :: piecesOf (line :: rest) := by
  have hne : p ≠ [] := by
    rintro rfl
    exact absurd h (by decide)
  cases rest with
  | nil => rw [piecesOf, piecesOf, pieces_full h, List.filter_cons_of_pos (by simpa using hne)]
  | cons next rest => rw [piecesOf, piecesOf, pieces_full h, List.cons_append]

/-- What is given on for a stream. -/
def given (l : Lines) (s : Bytes) : List Bytes :=
  (Lines.cutter.run l s).1 ++ (Lines.cutter.run l s).2.last

theorem given_cons (l : Lines) (b : UInt8) (s : Bytes) :
    given l (b :: s) = (Lines.cutter.next l b).1 ++ given (Lines.cutter.next l b).2 s := by
  rw [given, Transducer.run, given, List.append_assoc]

/-- **What is given on, by the lines of the stream.** -/
theorem given_eq (l : Lines) (s : Bytes) :
    given l s = piecesOf ((s.splitOn newline).modifyHead (l.buf ++ ·)) := by
  induction s generalizing l with
  | nil =>
    have hsplit : ([] : Bytes).splitOn newline = [[]] := rfl
    rw [hsplit, List.modifyHead_cons, List.append_nil, piecesOf, pieces_short l.short, given,
      Transducer.run, Lines.last, List.nil_append, List.filter_singleton]
    by_cases hbuf : l.buf = []
    · simp [hbuf]
    · simp [hbuf]
  | cons b s ih =>
    obtain ⟨line, rest, hrest⟩ := List.exists_cons_of_ne_nil (List.splitOn_ne_nil newline s)
    rw [given_cons, List.splitOn_cons_eq_if_modifyHead, ih, hrest]
    by_cases hb : b = newline
    · rw [if_pos (beq_iff_eq.mpr hb), hb, Lines.next_newline, List.modifyHead_cons,
        List.modifyHead_cons, List.append_nil, piecesOf_cons (List.cons_ne_nil _ _),
        pieces_short l.short]
      rfl
    · rw [if_neg (fun h => hb (beq_iff_eq.mp h)), List.modifyHead_cons, List.modifyHead_cons,
        List.modifyHead_cons]
      by_cases h : (l.buf ++ [b]).length < maxLine
      · rw [Lines.next_short hb h, List.nil_append, List.append_assoc, List.singleton_append]
      · have hshort := l.short
        have hfull : (l.buf ++ [b]).length = maxLine := by
          rw [List.length_append, List.length_singleton] at h ⊢
          omega
        have hcons : l.buf ++ b :: line = (l.buf ++ [b]) ++ line := by
          rw [List.append_assoc, List.singleton_append]
        rw [Lines.next_full hb h, hcons, piecesOf_full hfull]
        rfl

/-! ### Exact lines -/

/-- The lines of a stream that end with a newline. -/
def ended (s : Bytes) : List Bytes := (s.splitOn newline).dropLast

/-- What stands behind the last newline. -/
def remainder (s : Bytes) : Bytes := (s.splitOn newline).getLast (List.splitOn_ne_nil newline s)

/-- The lines of a stream. What stands behind the last newline is one, if it is not empty. -/
def lines (s : Bytes) : List Bytes :=
  ended s ++ if remainder s = [] then [] else [remainder s]

/-- A line of at most `maxLine` bytes is given whole, a longer one in pieces that are not empty. -/
def Delivers (line : Bytes) (ps : List Bytes) : Prop :=
  if line.length ≤ maxLine then ps = [line] else (∀ p ∈ ps, p ≠ []) ∧ ps.flatten = line

/-- These texts are the lines of the stream, in their order. -/
def CutExactly (s : Bytes) (texts : List String) : Prop :=
  ∃ ps, List.Forall₂ Delivers (lines s) ps ∧ texts = ps.flatten.map fromUtf8Lossy

theorem given_stream (s : Bytes) :
    given .empty s = (ended s).flatMap pieces ++ (pieces (remainder s)).filter (· ≠ []) := by
  have hconcat : ∀ (ls : List Bytes) (last : Bytes),
      piecesOf (ls ++ [last]) = ls.flatMap pieces ++ (pieces last).filter (· ≠ []) := by
    intro ls last
    induction ls with
    | nil => rfl
    | cons line ls ih =>
      rw [List.cons_append, piecesOf_cons (by simp), ih, List.flatMap_cons, List.append_assoc]
  have hhead : (s.splitOn newline).modifyHead (Lines.empty.buf ++ ·) = s.splitOn newline := by
    obtain ⟨line, rest, hrest⟩ := List.exists_cons_of_ne_nil (List.splitOn_ne_nil newline s)
    rw [hrest, List.modifyHead_cons]
    rfl
  rw [given_eq, hhead, ← hconcat, ended, remainder, List.dropLast_append_getLast]

theorem flatten_pieces (line : Bytes) : (pieces line).flatten = line := by
  induction line using pieces.induct with
  | case1 line h => rw [pieces_short h, List.flatten_singleton]
  | case2 line h ih => rw [pieces, if_neg h, List.flatten_cons, ih, List.take_append_drop]

/-- How many of the pieces are empty. -/
theorem countP_pieces (line : Bytes) :
    (pieces line).countP (· = []) = if maxLine ∣ line.length then 1 else 0 := by
  induction line using pieces.induct with
  | case1 line h =>
    have hdvd : maxLine ∣ line.length ↔ line = [] := by
      rw [← List.length_eq_zero_iff]
      exact ⟨fun hd => Nat.eq_zero_of_dvd_of_lt hd h, fun h0 => h0 ▸ dvd_zero _⟩
    rw [pieces_short h]
    simp only [List.countP_singleton, hdvd, decide_eq_true_eq]
  | case2 line h ih =>
    have hle := Nat.not_lt.mp h
    have hne : line.take maxLine ≠ [] := by
      intro hnil
      have hlen := congrArg List.length hnil
      rw [List.length_take_of_le hle] at hlen
      exact absurd hlen (by decide)
    have hdvd : maxLine ∣ (line.drop maxLine).length ↔ maxLine ∣ line.length := by
      rw [List.length_drop]
      exact Nat.dvd_sub_iff_left hle dvd_rfl
    rw [pieces, if_neg h, List.countP_cons_of_neg (by simpa using hne), ih, if_congr hdvd rfl rfl]

theorem nil_mem_pieces : [] ∈ pieces line ↔ maxLine ∣ line.length := by
  have hcount := countP_pieces line
  have hmem : [] ∈ pieces line ↔ 0 < (pieces line).countP (· = []) := by
    rw [List.countP_pos_iff]
    simp
  rw [hmem, hcount]
  split_ifs with h
  · simp [h]
  · simp [h]

/-- A line that ends with a newline is given as it should be. -/
theorem delivers_pieces (h : line ≠ [] → ¬ maxLine ∣ line.length) :
    Delivers line (pieces line) := by
  rw [Delivers]
  split_ifs with hle
  · refine pieces_short (lt_of_le_of_ne hle fun heq => ?_)
    refine h ?_ (heq ▸ dvd_rfl)
    rintro rfl
    exact absurd heq (by decide)
  · refine ⟨?_, flatten_pieces line⟩
    rintro p hp rfl
    refine h ?_ (nil_mem_pieces.mp hp)
    rintro rfl
    exact hle (Nat.zero_le _)

/-- An unfinished line is always given as it should be. -/
theorem delivers_remainder (h : line ≠ []) :
    Delivers line ((pieces line).filter (· ≠ [])) := by
  rw [Delivers]
  split_ifs with hle
  · rcases Nat.lt_or_eq_of_le hle with hlt | heq
    · rw [pieces_short hlt, List.filter_cons_of_pos (by simpa using h), List.filter_nil]
    · have hpieces : pieces line = [line, []] := by
        conv_lhs => rw [← List.append_nil line, pieces_full heq]
        rw [pieces_nil]
      rw [hpieces, List.filter_cons_of_pos (by simpa using h), List.filter_cons_of_neg (by simp),
        List.filter_nil]
  · refine ⟨fun p hp => by simpa using (List.mem_filter.mp hp).2, ?_⟩
    rw [List.flatten_filter_ne_nil, flatten_pieces]

theorem cutExactly_given {s : Bytes}
    (h : ∀ line ∈ ended s, line ≠ [] → ¬ maxLine ∣ line.length) :
    CutExactly s ((given .empty s).map fromUtf8Lossy) := by
  have hended : List.Forall₂ Delivers (ended s) ((ended s).map pieces) := by
    rw [List.forall₂_map_right_iff, List.forall₂_same]
    exact fun line hline => delivers_pieces (h line hline)
  rw [CutExactly, lines, given_stream]
  by_cases hrem : remainder s = []
  · refine ⟨(ended s).map pieces, ?_, ?_⟩
    · rwa [if_pos hrem, List.append_nil]
    · rw [hrem, pieces_nil, List.flatMap_def]
      simp
  · refine ⟨(ended s).map pieces ++ [(pieces (remainder s)).filter (· ≠ [])], ?_, ?_⟩
    · rw [if_neg hrem]
      exact List.rel_append hended (.cons (delivers_remainder hrem) .nil)
    · rw [List.flatMap_def, List.flatten_append, List.flatten_singleton]

/-- Lines and pieces that are empty, if the lines are given as they should be. -/
theorem countP_flatten {ls : List Bytes} {ps : List (List Bytes)} (h : List.Forall₂ Delivers ls ps) :
    ps.flatten.countP (· = []) = ls.countP (· = []) := by
  induction h with
  | nil => rfl
  | @cons line p ls ps hline _ ih =>
    rw [List.flatten_cons, List.countP_append, ih, List.countP_cons, Nat.add_comm]
    congr 1
    rw [Delivers] at hline
    split_ifs at hline with hle
    · rw [hline, List.countP_singleton]
    · have hnone : p.countP (· = []) = 0 :=
        List.countP_eq_zero.mpr fun q hq => by simpa using hline.1 q hq
      have hne : line ≠ [] := by
        rintro rfl
        exact hle (Nat.zero_le _)
      rw [hnone, if_neg (by simpa using hne)]

theorem countP_flatMap_pieces (ls : List Bytes) :
    (ls.flatMap pieces).countP (· = []) = ls.countP (maxLine ∣ ·.length) := by
  induction ls with
  | nil => rfl
  | cons line ls ih =>
    rw [List.flatMap_cons, List.countP_append, countP_pieces, ih, List.countP_cons, Nat.add_comm]
    simp only [decide_eq_true_eq]

/-- If no more elements meet the weaker condition, those that meet it meet the stronger one. -/
theorem forall_of_countP_le {α : Type} {p q : α → Bool} {xs : List α}
    (hpq : ∀ x, p x = true → q x = true) (h : xs.countP q ≤ xs.countP p) :
    ∀ x ∈ xs, q x = true → p x = true := by
  induction xs with
  | nil => exact fun x hx => nomatch hx
  | cons a xs ih =>
    have hmono : xs.countP p ≤ xs.countP q := List.countP_mono_left fun x _ => hpq x
    rw [List.countP_cons, List.countP_cons] at h
    rintro x hx hq
    rcases List.mem_cons.mp hx with rfl | hx
    · by_contra hp
      rw [if_pos hq, if_neg hp] at h
      omega
    · have ha : (if p a = true then 1 else 0) ≤ if q a = true then 1 else 0 := by
        by_cases hp : p a = true
        · rw [if_pos hp, if_pos (hpq a hp)]
        · rw [if_neg hp]
          exact Nat.zero_le _
      exact ih (by omega) x hx hq

/-- **The lines of the stream are cut exactly iff none that ends with a newline is as long as a
multiple of `maxLine`.** -/
theorem cutExactly_given_iff (s : Bytes) :
    CutExactly s ((given .empty s).map fromUtf8Lossy) ↔
      ∀ line ∈ ended s, line ≠ [] → ¬ maxLine ∣ line.length := by
  refine ⟨?_, cutExactly_given⟩
  rintro ⟨ps, hps, htexts⟩
  -- an empty text is an empty piece
  have hblank : ∀ xs : List Bytes,
      (xs.map fromUtf8Lossy).countP (· = "") = xs.countP (· = []) := by
    intro xs
    rw [List.countP_map]
    refine List.countP_congr fun x _ => ?_
    simp only [Function.comp_apply, decide_eq_true_eq]
    exact fromUtf8Lossy_eq_empty_iff
  have hcount := congrArg (List.countP (· = "")) htexts
  have hlines : (lines s).countP (· = []) = (ended s).countP (· = []) := by
    rw [lines, List.countP_append]
    split_ifs with hrem
    · rfl
    · rw [List.countP_singleton, if_neg (by simpa using hrem)]
      rfl
  have hrem : ((pieces (remainder s)).filter (· ≠ [])).countP (· = []) = 0 :=
    List.countP_eq_zero.mpr fun p hp => by simpa using (List.mem_filter.mp hp).2
  rw [hblank, hblank, countP_flatten hps, hlines, given_stream, List.countP_append, hrem,
    countP_flatMap_pieces, Nat.add_zero] at hcount
  intro line hline hne hdvd
  have hall := forall_of_countP_le (p := (· = [])) (q := (maxLine ∣ ·.length)) (fun x hx => ?_)
    hcount.le line hline (by simpa using hdvd)
  · exact hne (by simpa using hall)
  · obtain rfl : x = [] := by simpa using hx
    simp

end Hop.Runner
