import Mathlib

/-!
# Lexical paths

What a path with `/`, `.` and `..` says without looking at any file: it goes from a directory, the
list of names below the top, to another one, segment by segment.
-/

namespace Hop.Path

abbrev Segment : Type := List Char

def dot : Segment := ['.']

def dotdot : Segment := ['.', '.']

/-- `str::split('/')`. -/
def segments (p : List Char) : List Segment := p.splitOn '/'

def join (segs : List Segment) : List Char := ['/'].intercalate segs

/-- A name of a file or a directory. -/
structure Plain (seg : Segment) : Prop where
  ne_nil : seg ≠ []
  ne_dot : seg ≠ dot
  ne_dotdot : seg ≠ dotdot
  not_mem : '/' ∉ seg

/-- One segment further; above the top is the top. -/
def enter (dir : List Segment) (seg : Segment) : List Segment :=
  if seg = [] ∨ seg = dot then dir else if seg = dotdot then dir.dropLast else dir ++ [seg]

/-- Where a path leads from a directory; a path that begins with a slash begins at the top. -/
def resolve (dir : List Segment) (p : List Char) : List Segment :=
  (segments p).foldl enter (if p.head? = some '/' then [] else dir)

/-- Inside a directory, and not the directory itself. -/
def StrictlyBelow (dir p : List Segment) : Prop := ∃ rest, rest ≠ [] ∧ p = dir ++ rest

/-! ### Segments -/

theorem segments_append (p q : List Char) : segments (p ++ '/' :: q) = segments p ++ segments q :=
  List.splitOn_append_cons_self p q

theorem segments_join {names : List Segment} (hne : names ≠ []) (h : ∀ n ∈ names, Plain n) :
    segments (join names) = names :=
  List.splitOn_intercalate '/' (fun n hn => (h n hn).not_mem) hne

theorem join_segments (p : List Char) : join (segments p) = p := List.intercalate_splitOn '/'

theorem join_cons (seg : Segment) (segs : List Segment) :
    ∃ t, join (seg :: segs) = seg ++ t := by
  cases segs with
  | nil => exact ⟨[], by rw [join, List.intercalate_singleton, List.append_nil]⟩
  | cons next segs =>
    refine ⟨'/' :: join (next :: segs), ?_⟩
    rw [join, List.intercalate_cons_cons, List.append_assoc]
    rfl

theorem mem_join {c : Char} {segs : List Segment} (h : c ∈ join segs) :
    c = '/' ∨ ∃ seg ∈ segs, c ∈ seg := by
  induction segs with
  | nil => exact absurd h List.not_mem_nil
  | cons seg segs ih =>
    cases segs with
    | nil =>
      rw [join, List.intercalate_singleton] at h
      exact .inr ⟨seg, List.mem_cons_self, h⟩
    | cons next segs =>
      rw [join, List.intercalate_cons_cons, List.append_assoc, List.mem_append] at h
      rcases h with h | h
      · exact .inr ⟨seg, List.mem_cons_self, h⟩
      · rcases List.mem_cons.mp h with h | h
        · exact .inl h
        · obtain h | ⟨s, hs, hc⟩ := ih h
          · exact .inl h
          · exact .inr ⟨s, List.mem_cons_of_mem _ hs, hc⟩

theorem mem_join_of_mem {c : Char} {segs : List Segment} {seg : Segment} (hseg : seg ∈ segs)
    (h : c ∈ seg) : c ∈ join segs := by
  induction segs with
  | nil => exact absurd hseg List.not_mem_nil
  | cons first segs ih =>
    cases segs with
    | nil =>
      rw [List.mem_singleton] at hseg
      rw [join, List.intercalate_singleton, ← hseg]
      exact h
    | cons next segs =>
      rw [join, List.intercalate_cons_cons, List.append_assoc, List.mem_append]
      rcases List.mem_cons.mp hseg with rfl | hseg
      · exact .inl h
      · exact .inr (List.mem_cons_of_mem _ (ih hseg))

theorem not_mem_of_mem_segments {p : List Char} {seg : Segment} (h : seg ∈ segments p) :
    '/' ∉ seg := by
  induction p generalizing seg with
  | nil =>
    have hseg : seg = [] := by simpa [segments] using h
    rw [hseg]
    exact List.not_mem_nil
  | cons c p ih =>
    obtain ⟨first, rest, hsplit⟩ := List.exists_cons_of_ne_nil (List.splitOn_ne_nil '/' p)
    rw [segments, List.splitOn_cons_eq_if_modifyHead, hsplit] at h
    split_ifs at h with hc
    · rcases List.mem_cons.mp h with rfl | h
      · exact List.not_mem_nil
      · exact ih (by rw [segments, hsplit]; exact h)
    · have hne : '/' ≠ c := by
        rintro rfl
        exact hc rfl
      rcases List.mem_cons.mp h with rfl | h
      · exact List.not_mem_cons_of_ne_of_not_mem hne
          (ih (by rw [segments, hsplit]; exact List.mem_cons_self))
      · exact ih (by rw [segments, hsplit]; exact List.mem_cons_of_mem _ h)

theorem join_eq_nil {parts : List Segment} (h : ∀ n ∈ parts, Plain n) :
    join parts = [] ↔ parts = [] := by
  constructor
  · intro hj
    by_contra hne
    have hs := segments_join hne h
    rw [hj] at hs
    refine (h [] ?_).ne_nil rfl
    rw [← hs]
    exact List.mem_singleton_self []
  · rintro rfl
    rfl

theorem join_concat {parts : List Segment} (hne : parts ≠ []) (part : Segment) :
    join (parts ++ [part]) = join parts ++ '/' :: part := by
  induction parts with
  | nil => exact absurd rfl hne
  | cons first parts ih =>
    cases parts with
    | nil =>
      rw [List.cons_append, List.nil_append, join, join, List.intercalate_cons_cons,
        List.intercalate_singleton, List.intercalate_singleton, List.append_assoc]
      rfl
    | cons next parts =>
      have hrest := ih (List.cons_ne_nil next parts)
      rw [join, join, List.cons_append] at hrest
      rw [List.cons_append, List.cons_append, join, join, List.intercalate_cons_cons, hrest,
        List.intercalate_cons_cons]
      simp only [List.append_assoc]

/-! ### Where a path leads -/

theorem foldl_enter (dir : List Segment) {names : List Segment} (h : ∀ n ∈ names, Plain n) :
    names.foldl enter dir = dir ++ names := by
  induction names generalizing dir with
  | nil => exact (List.append_nil dir).symm
  | cons n names ih =>
    obtain ⟨hnil, hdot, hdotdot, -⟩ := h n List.mem_cons_self
    have hstep : enter dir n = dir ++ [n] := by
      rw [enter, if_neg (not_or.mpr ⟨hnil, hdot⟩), if_neg hdotdot]
    rw [List.foldl_cons, hstep, ih _ fun m hm => h m (List.mem_cons_of_mem n hm),
      List.append_assoc, List.singleton_append]

/-- A path below a directory: first the directory, then the rest. -/
theorem resolve_append (dir : List Segment) (root p : List Char) :
    resolve dir (root ++ '/' :: p) = (segments p).foldl enter (resolve dir (root ++ ['/'])) := by
  have hhead : (root ++ '/' :: p).head? = (root ++ ['/']).head? := by
    cases root with
    | nil => rfl
    | cons c root => rfl
  have hlast : segments [] = [[]] := rfl
  rw [resolve, resolve, segments_append, segments_append, hhead, hlast, List.foldl_append,
    List.foldl_append]
  rfl

end Hop.Path
