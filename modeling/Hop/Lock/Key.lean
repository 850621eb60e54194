import Hop.Lib.Fallible
import Hop.Lib.Path
import Hop.Lock.Volume

/-!
# The keys of the lock server

`apps/hoplockserver/src/key.rs`. A key is a relative path, cleaned as Go does: empty segments and
`.` fall out, `..` takes the name before it along and stays if there is none. What begins with `..`
after that is refused, and so is `.`.

A key that is let through is a list of plain names (`exists_names`), so it cannot leave the
directory of the store, and it has one spelling (`parse_confined`).
-/

namespace Hop.Lock

open Path

/-- One segment of a path that is being cleaned. -/
def cleanStep (segs : List Segment) (seg : Segment) : List Segment :=
  if seg = [] ∨ seg = dot then segs
  else if seg = dotdot then
    match segs.getLast? with
    | some last => if last ≠ dotdot then segs.dropLast else segs ++ [dotdot]
    | none => segs ++ [dotdot]
  else segs ++ [seg]

/-- Go's `path.Clean` on a relative path. -/
def clean (p : List Char) : List Char :=
  let out := join ((segments p).foldl cleanStep [])
  if out = [] then dot else out

namespace Key

/-- Check and clean a key. -/
def parse (raw : String) : Except Error Key :=
  if raw = "" ∨ '\x00' ∈ raw.toList ∨ raw.toList.head? = some '/' then .error .badKey
  else
    let clean := clean raw.toList
    if clean = dot ∨ dotdot <+: clean ∨ dotdot ++ ['/'] <:+: clean then .error .badKey
    else .ok ⟨String.ofList clean⟩

/-- The form of a key. -/
structure Clean (k : Key) : Prop where
  ne_empty : k.text ≠ ""
  no_nul : '\x00' ∉ k.text.toList
  no_leading : k.text.toList.head? ≠ some '/'
  no_trailing : k.text.toList.getLast? ≠ some '/'
  plain : ∀ seg ∈ segments k.text.toList, seg ≠ [] ∧ seg ≠ dot ∧ seg ≠ dotdot

end Key

/-! ### Cleaning -/

/-- **What the stack of segments is**: as many `..` as could not be taken back, and names; without
any `..` the names are where the path leads. -/
theorem foldl_cleanStep {segs : List Segment} (h : ∀ s ∈ segs, '/' ∉ s) :
    ∃ u names, segs.foldl cleanStep [] = List.replicate u dotdot ++ names ∧
      (∀ n ∈ names, Plain n) ∧ (∀ n ∈ names, n ∈ segs) ∧
      (u = 0 → ∀ dir, segs.foldl enter dir = dir ++ names) := by
  induction segs using List.reverseRecOn with
  | nil => exact ⟨0, [], rfl, by simp, by simp, fun _ dir => (List.append_nil dir).symm⟩
  | append_singleton segs seg ih =>
    obtain ⟨u, names, hstack, hplain, hmem, hpath⟩ := ih fun s hs => h s (List.mem_append_left _ hs)
    have hmem' : ∀ n ∈ names, n ∈ segs ++ [seg] := fun n hn => List.mem_append_left _ (hmem n hn)
    simp only [List.foldl_append, List.foldl_cons, List.foldl_nil, hstack]
    by_cases hskip : seg = [] ∨ seg = dot
    · refine ⟨u, names, ?_, hplain, hmem', fun hu dir => ?_⟩
      · rw [cleanStep, if_pos hskip]
      · rw [enter, if_pos hskip, hpath hu]
    by_cases hup : seg = dotdot
    · rcases List.eq_nil_or_concat names with rfl | ⟨names, last, rfl⟩
      · -- nothing to take back
        refine ⟨u + 1, [], ?_, by simp, by simp, fun hu => absurd hu (Nat.succ_ne_zero u)⟩
        rw [cleanStep, if_neg hskip, if_pos hup, List.append_nil, List.append_nil,
          List.replicate_succ']
        cases u with
        | zero => rfl
        | succ u =>
          rw [List.replicate_succ', List.getLast?_concat]
          exact if_neg (not_not_intro rfl)
      · rw [List.concat_eq_append] at hplain hmem hmem' hpath hstack ⊢
        have hlast : last ≠ dotdot := (hplain last (by simp)).ne_dotdot
        refine ⟨u, names, ?_, fun n hn => hplain n (List.mem_append_left _ hn),
          fun n hn => hmem' n (List.mem_append_left _ hn), fun hu dir => ?_⟩
        · rw [cleanStep, if_neg hskip, if_pos hup, ← List.append_assoc, List.getLast?_concat]
          dsimp only
          rw [if_pos hlast, List.dropLast_concat]
        · rw [enter, if_neg hskip, if_pos hup, hpath hu, ← List.append_assoc, List.dropLast_concat]
    · have hseg : Plain seg := by
        obtain ⟨hnil, hdot⟩ := not_or.mp hskip
        exact ⟨hnil, hdot, hup, h seg (by simp)⟩
      refine ⟨u, names ++ [seg], ?_, ?_, ?_, fun hu dir => ?_⟩
      · rw [cleanStep, if_neg hskip, if_neg hup, List.append_assoc]
      · intro n hn
        rcases List.mem_append.mp hn with hn | hn
        · exact hplain n hn
        · rw [List.mem_singleton.mp hn]
          exact hseg
      · intro n hn
        rcases List.mem_append.mp hn with hn | hn
        · exact hmem' n hn
        · exact List.mem_append_right _ hn
      · rw [enter, if_neg hskip, if_neg hup, hpath hu, List.append_assoc]

/-- Names are clean. -/
theorem foldl_cleanStep_names (acc : List Segment) {names : List Segment}
    (h : ∀ n ∈ names, Plain n) : names.foldl cleanStep acc = acc ++ names := by
  induction names generalizing acc with
  | nil => exact (List.append_nil acc).symm
  | cons n names ih =>
    obtain ⟨hnil, hdot, hdotdot, -⟩ := h n List.mem_cons_self
    have hstep : cleanStep acc n = acc ++ [n] := by
      rw [cleanStep, if_neg (not_or.mpr ⟨hnil, hdot⟩), if_neg hdotdot]
    rw [List.foldl_cons, hstep, ih _ fun m hm => h m (List.mem_cons_of_mem n hm),
      List.append_assoc, List.singleton_append]

theorem join_ne_nil {names : List Segment} (hne : names ≠ []) (h : ∀ n ∈ names, Plain n) :
    join names ≠ [] := by
  obtain ⟨n, names, rfl⟩ := List.exists_cons_of_ne_nil hne
  obtain ⟨t, ht⟩ := join_cons n names
  rw [ht]
  exact fun hnil => (h n List.mem_cons_self).ne_nil (List.append_eq_nil_iff.mp hnil).1

theorem clean_join {names : List Segment} (hne : names ≠ []) (h : ∀ n ∈ names, Plain n) :
    clean (join names) = join names := by
  rw [clean, segments_join hne h, foldl_cleanStep_names [] h, List.nil_append]
  exact if_neg (join_ne_nil hne h)

/-! ### Keys -/

namespace Key

/-- **What is let through**: a list of plain names, which is where the path leads. -/
theorem exists_names {raw : String} {k : Key} (h : parse raw = .ok k) :
    ∃ names, names ≠ [] ∧ (∀ n ∈ names, Plain n) ∧ k.text.toList = join names ∧
      '\x00' ∉ join names ∧ (¬ dotdot <+: join names ∧ ¬ dotdot ++ ['/'] <:+: join names) ∧
      ∀ dir, resolve dir raw.toList = dir ++ names := by
  rw [parse] at h
  obtain ⟨hraw, h⟩ := guard_eq_ok h
  obtain ⟨hclean, h⟩ := guard_eq_ok h
  obtain rfl := Except.ok.inj h
  simp only [not_or] at hraw hclean
  obtain ⟨-, hnul, hrel⟩ := hraw
  obtain ⟨hdot, hup, hin⟩ := hclean
  obtain ⟨u, names, hstack, hplain, hmem, hpath⟩ :=
    foldl_cleanStep fun s hs => not_mem_of_mem_segments (p := raw.toList) hs
  have hu : u = 0 := by
    by_contra hu
    obtain ⟨v, rfl⟩ := Nat.exists_eq_succ_of_ne_zero hu
    obtain ⟨t, ht⟩ := join_cons dotdot (List.replicate v dotdot ++ names)
    refine hup ?_
    rw [clean, hstack, List.replicate_succ, List.cons_append, ht]
    exact ⟨t, rfl⟩
  subst hu
  rw [List.replicate_zero, List.nil_append] at hstack
  have hne : names ≠ [] := by
    rintro rfl
    refine hdot ?_
    rw [clean, hstack]
    rfl
  have hout : clean raw.toList = join names := by
    rw [clean, hstack]
    exact if_neg (join_ne_nil hne hplain)
  rw [hout] at hup hin
  refine ⟨names, hne, hplain, by rw [hout, String.toList_ofList], ?_, ⟨hup, hin⟩, fun dir => ?_⟩
  · intro hc
    rcases mem_join hc with hc | ⟨n, hn, hc⟩
    · exact absurd hc (by decide)
    · exact hnul (join_segments raw.toList ▸ mem_join_of_mem (hmem n hn) hc)
  · rw [resolve, if_neg hrel, hpath rfl]

variable {raw raw' : String} {k k' : Key}

theorem clean_of_parse (h : parse raw = .ok k) : k.Clean := by
  obtain ⟨names, hne, hplain, htext, hnul, -, -⟩ := exists_names h
  have hsegs : segments k.text.toList = names := by rw [htext, segments_join hne hplain]
  have hempty : [] ∉ segments k.text.toList := by
    rw [hsegs]
    exact fun hmem => (hplain [] hmem).ne_nil rfl
  refine ⟨?_, htext ▸ hnul, ?_, ?_, ?_⟩
  · intro hnil
    rw [hnil] at htext
    exact join_ne_nil hne hplain htext.symm
  · intro hhead
    obtain ⟨t, ht⟩ := List.head?_eq_some_iff.mp hhead
    refine hempty ?_
    rw [ht, ← List.nil_append ('/' :: t), segments_append]
    exact List.mem_append_left _ (by simp [segments])
  · intro hlast
    obtain ⟨t, ht⟩ := List.getLast?_eq_some_iff.mp hlast
    refine hempty ?_
    rw [ht, segments_append]
    exact List.mem_append_right _ (by simp [segments])
  · rw [hsegs]
    exact fun n hn => ⟨(hplain n hn).ne_nil, (hplain n hn).ne_dot, (hplain n hn).ne_dotdot⟩

/-- A key is its own spelling. -/
theorem parse_text (h : parse raw = .ok k) : parse k.text = .ok k := by
  obtain ⟨names, hne, hplain, htext, -, ⟨hup, hin⟩, -⟩ := exists_names h
  obtain ⟨hempty, hnul, hlead, -, -⟩ := clean_of_parse h
  have hdot : join names ≠ dot := by
    intro hdot
    have hsegs := segments_join hne hplain
    rw [hdot] at hsegs
    have hsingle : segments dot = [dot] := List.splitOn_eq_singleton (by decide)
    exact (hplain dot (hsegs ▸ hsingle ▸ List.mem_singleton_self dot)).ne_dot rfl
  rw [parse, if_neg (not_or.mpr ⟨hempty, not_or.mpr ⟨hnul, hlead⟩⟩), htext, clean_join hne hplain,
    if_neg (not_or.mpr ⟨hdot, not_or.mpr ⟨hup, hin⟩⟩), ← htext, String.ofList_toList]

/-- A key leads strictly below any directory, and where the text it was read from leads. -/
theorem resolve_text (h : parse raw = .ok k) (dir : List Segment) :
    StrictlyBelow dir (resolve dir k.text.toList) ∧
      resolve dir k.text.toList = resolve dir raw.toList := by
  obtain ⟨names, hne, hplain, htext, -, -, hpath⟩ := exists_names h
  have hself : resolve dir k.text.toList = dir ++ names := by
    rw [resolve, if_neg (clean_of_parse h).no_leading, htext, segments_join hne hplain,
      foldl_enter dir hplain]
  exact ⟨⟨names, hne, hself⟩, hself.trans (hpath dir).symm⟩

theorem eq_iff_resolve (h : parse raw = .ok k) (h' : parse raw' = .ok k') (dir : List Segment) :
    k = k' ↔ resolve dir raw.toList = resolve dir raw'.toList := by
  obtain ⟨names, hne, hplain, htext, -, -, hpath⟩ := exists_names h
  obtain ⟨names', hne', hplain', htext', -, -, hpath'⟩ := exists_names h'
  rw [hpath, hpath', List.append_cancel_left_eq]
  constructor
  · rintro rfl
    rw [← segments_join hne hplain, ← htext, htext', segments_join hne' hplain']
  · rintro rfl
    exact Key.ext (String.toList_injective (htext.trans htext'.symm))

/-- **A key cannot leave its directory and has one spelling**: whatever directory the store has. -/
theorem parse_confined (dir : List Segment) :
    (∀ raw k, parse raw = .ok k → k.Clean ∧ parse k.text = .ok k ∧
      StrictlyBelow dir (resolve dir k.text.toList) ∧
      ∀ {V : Type} (s : VolumeStore V),
        StrictlyBelow (resolve dir (s.root.toList ++ ['/'])) (resolve dir (s.path k).toList)) ∧
    (∀ raw raw' k k', parse raw = .ok k → parse raw' = .ok k' →
      (k = k' ↔ resolve dir raw.toList = resolve dir raw'.toList)) ∧
    ∀ raw, ¬ StrictlyBelow dir (resolve dir raw.toList) → parse raw = .error .badKey := by
  refine ⟨fun raw k h => ⟨clean_of_parse h, parse_text h, (resolve_text h dir).1, fun s => ?_⟩,
    fun raw raw' k k' h h' => eq_iff_resolve h h' dir, fun raw hout => ?_⟩
  · obtain ⟨names, hne, hplain, htext, -, -, -⟩ := exists_names h
    refine ⟨names, hne, ?_⟩
    have hpath : (s.path k).toList = s.root.toList ++ '/' :: join names := by
      rw [VolumeStore.path, String.toList_append, String.toList_append, htext, List.append_assoc]
      rfl
    rw [hpath, resolve_append, segments_join hne hplain, foldl_enter _ hplain]
  · rcases hparse : parse raw with e | k
    · rw [parse] at hparse
      dsimp only at hparse
      split_ifs at hparse
      · exact hparse.symm
      · exact hparse.symm
    · obtain ⟨hbelow, hpath⟩ := resolve_text hparse dir
      exact absurd (hpath ▸ hbelow) hout

theorem parse_confined_sample : (⟨"a/b/c"⟩ : Key).Clean :=
  ((parse_confined []).1 "a//b/./x/../c/" ⟨"a/b/c"⟩ (by decide)).1

end Key

end Hop.Lock
