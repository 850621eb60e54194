import Hop.Cli.Image

/-!
# A config that is refused

`replace` and `fip_fix` of `cli/src/image.rs` again, with the medium that they leave behind when they
fail. The window is written before the FIP is looked for, so what is refused because of the FIP is
on the medium, and its checksums are the old ones. `refused_unchanged_iff` says when that is so.
-/

namespace Hop.Cli.Image

/-- `Medium::write_at` on the medium. -/
def put (m : Medium) (off : ℕ) (data : Bytes) : Except String Unit × Medium :=
  match writeAt m off data with
  | .error e => (.error e, m)
  | .ok m' => (.ok (), m')

/-- `fip_fix` on the medium. -/
def fixOn (m : Medium) (win size : ℕ) : Except String Unit × Medium :=
  match readFip m with
  | .error e => (.error e, m)
  | .ok none => (.ok (), m)
  | .ok (some f) =>
    if f.Holds win size then
      let monitor := readAt m f.mon f.monSize
      if monitor.length ≠ f.monSize then (.error "the monitor runs past the end", m)
      else if f.param2.length < 64 then (.error "param2 is cut short", m)
      else put m (f.p2 + 8) (((f.sums monitor).drop 8).take 44)
    else (.ok (), m)

/-- `replace` on the medium. -/
def replaceOn (m : Medium) (at_ : ℕ) (h : Head) (cfg : Bytes) : Except String ℕ × Medium :=
  match makeWindow cfg h.size with
  | .error e => (.error e, m)
  | .ok w =>
    let len := ((parseHead w).map Head.len).getD 0
    match put m at_ w with
    | (.error e, m) => (.error e, m)
    | (.ok (), m) =>
      match fixOn m at_ h.size with
      | (.error e, m) => (.error s!"fip: {e}", m)
      | (.ok (), m) => (.ok len, m)

/-! ### Without an error, they are the same -/

section

variable {m : Medium} {at_ : ℕ} {h : Head} {cfg : Bytes}

theorem put_eq (m : Medium) (off : ℕ) (data : Bytes) : put m off data =
    if m.length < off + data.length then (.error "write past the end", m)
    else (.ok (), overwrite m off data) := by
  rw [put, writeAt]
  split_ifs
  · rfl
  · rfl

/-- An error of `fip_fix` comes before it writes. -/
theorem fixOn_error {win size : ℕ} {e : String} (h : (fixOn m win size).1 = .error e) :
    (fixOn m win size).2 = m := by
  rw [fixOn] at h ⊢
  rcases hfip : readFip m with e | - | f
  · rfl
  · rfl
  · rw [hfip] at h
    dsimp only at h ⊢
    split_ifs at h ⊢
    · rfl
    · rfl
    · rw [put_eq] at h ⊢
      split_ifs at h ⊢
      rfl

end

/-! ### What there must be of a FIP -/

/-- A param2 block that the search comes by. -/
def Param2At (m : Medium) (p : ℕ) : Prop := p < reached m ∧ accepted param2Magic isParam2 m p = true

/-- A FIP header that the search comes by. -/
def FipAt (m : Medium) (p : ℕ) : Prop := p < reached m ∧ fipMagic <+: m.drop p

/-- There is no FIP; or there is one param2 block with a header before it, and if the window is in the
monitor, the medium has all of the monitor. -/
inductive Fixable (m : Medium) (win size : ℕ) : Prop
  | none (h : ∀ p, ¬ Param2At m p)
  | one (p2 start : ℕ) (hp2 : Param2At m p2) (honly : ∀ p, Param2At m p → p = p2)
    (hstart : FipAt m start) (hle : start ≤ p2) (hlast : ∀ s, FipAt m s → s ≤ p2 → s ≤ start)
    (hmon : start + le32 (readAt m p2 4096) 52 ≤ win →
      win + size ≤ start + le32 (readAt m p2 4096) 52 + le32 (readAt m p2 4096) 56 →
      start + le32 (readAt m p2 4096) 52 + le32 (readAt m p2 4096) 56 ≤ m.length)

/-- The config is one that the kernel reads, and small enough. -/
def Accepts (cfg : Bytes) (size : ℕ) : Prop :=
  (0 : UInt8) ∉ strip cfg ∧ (fromUtf8 (strip cfg)).isSome = true ∧
    (headText size (body cfg).length).length + (body cfg).length ≤ size

section

variable {m : Medium} {at_ win size p : ℕ} {h : Head} {cfg : Bytes}

theorem mem_hits {needle : Bytes} {ok : Bytes → Bool} (hne : needle ≠ []) :
    p ∈ hits needle ok m (reached m) ↔ p < reached m ∧ accepted needle ok m p = true := by
  rw [hits, List.mem_filter, List.mem_range, lt_min_iff]
  refine and_congr_left fun hacc => and_iff_left_of_imp fun _ => ?_
  by_contra hlt
  rw [accepted, List.drop_eq_nil_of_le (Nat.not_lt.mp hlt), Bool.and_eq_true,
    List.isPrefixOf_iff_prefix, List.prefix_nil] at hacc
  exact hne hacc.1

theorem hits_nodup (needle : Bytes) (ok : Bytes → Bool) (m : Medium) (n : ℕ) :
    (hits needle ok m n).Nodup := List.nodup_range.filter _

theorem scan_param2 (m : Medium) :
    (scan param2Magic isParam2 m).getD [] = hits param2Magic isParam2 m (reached m) := by
  rw [scan_eq (by decide) (by decide) looksAt_isParam2, Option.getD_some]

theorem mem_scan_fip :
    p ∈ (scan fipMagic (fun _ => true) m).getD [] ↔ FipAt m p := by
  rw [scan_eq (by decide) (by decide) fun _ => rfl, Option.getD_some,
    mem_hits (by decide), accepted, Bool.and_true, List.isPrefixOf_iff_prefix, FipAt]

/-- A param2 block has at least the bytes that are read of it. -/
theorem le_param2 (hp : Param2At m p) :
    64 ≤ (readAt m p 4096).length ∧ p + 64 ≤ m.length := by
  have hacc := hp.2
  rw [accepted, Bool.and_eq_true, isParam2, Bool.and_eq_true, decide_eq_true_eq] at hacc
  have hlen := hacc.2.1
  have hdrop := hlen
  rw [List.length_drop] at hdrop
  rw [readAt, List.length_take]
  exact ⟨le_min (by decide) hlen, by omega⟩

/-- What `fip_fix` finds. -/
theorem readFip_cases (m : Medium) :
    (readFip m = .ok none ∧ ∀ p, ¬ Param2At m p) ∨
    (∃ e p, readFip m = .error e ∧ Param2At m p ∧
      ((∃ q, Param2At m q ∧ q ≠ p) ∨ ∀ s, FipAt m s → ¬ s ≤ p)) ∨
    ∃ p2 start, Param2At m p2 ∧ (∀ p, Param2At m p → p = p2) ∧ FipAt m start ∧ start ≤ p2 ∧
      (∀ s, FipAt m s → s ≤ p2 → s ≤ start) ∧
      readFip m = .ok (some ⟨p2, readAt m p2 4096, start + le32 (readAt m p2 4096) 52,
        le32 (readAt m p2 4096) 56⟩) := by
  have hmem : ∀ p, p ∈ hits param2Magic isParam2 m (reached m) ↔ Param2At m p := fun p =>
    mem_hits (by decide)
  have hnodup := hits_nodup param2Magic isParam2 m (reached m)
  rw [readFip, scan_param2]
  rcases hfound : hits param2Magic isParam2 m (reached m) with - | ⟨p, - | ⟨q, rest⟩⟩
  · rw [hfound] at hmem
    exact .inl ⟨rfl, fun p hp => List.not_mem_nil ((hmem p).mpr hp)⟩
  · rw [hfound] at hmem
    have hp := (hmem p).mp List.mem_cons_self
    have honly : ∀ q, Param2At m q → q = p := fun q hq => List.mem_singleton.mp ((hmem q).mpr hq)
    dsimp only
    rcases hmax : (((scan fipMagic (fun _ => true) m).getD []).filter (· ≤ p)).max? with - | start
    · refine .inr (.inl ⟨_, p, rfl, hp, .inr fun s hs hle => ?_⟩)
      rw [List.max?_eq_none_iff] at hmax
      have hin : s ∈ ((scan fipMagic (fun _ => true) m).getD []).filter (· ≤ p) :=
        List.mem_filter.mpr ⟨mem_scan_fip.mpr hs, decide_eq_true hle⟩
      rw [hmax] at hin
      exact List.not_mem_nil hin
    · obtain ⟨hin, hlast⟩ := List.max?_eq_some_iff.mp hmax
      obtain ⟨hstart, hle⟩ := List.mem_filter.mp hin
      refine .inr (.inr ⟨p, start, hp, honly, mem_scan_fip.mp hstart, of_decide_eq_true hle,
        fun s hs hle => ?_, rfl⟩)
      exact hlast s (List.mem_filter.mpr ⟨mem_scan_fip.mpr hs, decide_eq_true hle⟩)
  · rw [hfound] at hmem hnodup
    have hp := (hmem p).mp List.mem_cons_self
    have hq := (hmem q).mp (List.mem_cons_of_mem p List.mem_cons_self)
    refine .inr (.inl ⟨_, p, rfl, hp, .inl ⟨q, hq, ?_⟩⟩)
    rintro rfl
    exact (List.nodup_cons.mp hnodup).1 List.mem_cons_self

/-- **`fip_fix` has no error** if there is nothing to be refused. -/
theorem fixOn_ok_iff (hsize : 0 < size) : (fixOn m win size).1 = .ok () ↔ Fixable m win size := by
  rcases readFip_cases m with ⟨hread, hnone⟩ | ⟨e, p, hread, hp, hrefused⟩ |
    ⟨p2, start, hp2, honly, hstart, hle, hlast, hread⟩
  · rw [fixOn, hread]
    exact iff_of_true rfl (.none hnone)
  · rw [fixOn, hread]
    refine iff_of_false (fun hok => by cases hok) fun hfix => ?_
    rcases hfix with hnone | ⟨p2, start, -, honly, hstart, hle, -, -⟩
    · exact hnone p hp
    · rcases hrefused with ⟨q, hq, hne⟩ | hno
      · exact hne ((honly q hq).trans (honly p hp).symm)
      · exact hno start hstart (honly p hp ▸ hle)
  · obtain ⟨hlong, hend⟩ := le_param2 hp2
    have hshort : ¬ (readAt m p2 4096).length < 64 := Nat.not_lt.mpr hlong
    have hput : ∀ data : Bytes, data.length ≤ 44 → (put m (p2 + 8) data).1 = .ok () := by
      intro data hdata
      rw [put_eq, if_neg (by omega)]
    rw [fixOn, hread]
    dsimp only
    by_cases hholds : Fip.Holds ⟨p2, readAt m p2 4096, start + le32 (readAt m p2 4096) 52,
      le32 (readAt m p2 4096) 56⟩ win size
    · obtain ⟨hwin, hwin'⟩ := hholds
      dsimp only at hwin hwin'
      rw [if_pos ⟨hwin, hwin'⟩]
      by_cases hmon : start + le32 (readAt m p2 4096) 52 + le32 (readAt m p2 4096) 56 ≤ m.length
      · have hall : (readAt m (start + le32 (readAt m p2 4096) 52)
            (le32 (readAt m p2 4096) 56)).length = le32 (readAt m p2 4096) 56 := by
          rw [readAt, List.length_take, List.length_drop]
          omega
        rw [if_neg (not_not.mpr hall), if_neg hshort]
        refine iff_of_true (hput _ ?_) (.one p2 start hp2 honly hstart hle hlast fun _ _ => hmon)
        exact List.length_take_le _ _
      · have hcut : (readAt m (start + le32 (readAt m p2 4096) 52)
            (le32 (readAt m p2 4096) 56)).length ≠ le32 (readAt m p2 4096) 56 := by
          rw [readAt, List.length_take, List.length_drop]
          omega
        rw [if_pos hcut]
        refine iff_of_false (fun hok => by cases hok) fun hfix => ?_
        rcases hfix with hnone | ⟨q, s, hq, -, hs, hsle, hslast, hsmon⟩
        · exact hnone p2 hp2
        · obtain rfl := honly q hq
          obtain rfl : s = start := Nat.le_antisymm (hlast s hs hsle) (hslast start hstart hle)
          exact hmon (hsmon hwin hwin')
    · rw [if_neg hholds]
      exact iff_of_true rfl (.one p2 start hp2 honly hstart hle hlast fun hwin hwin' =>
        absurd ⟨hwin, hwin'⟩ hholds)

/-! ### What is left of a config that is refused -/

theorem makeWindow_of_accepts (hacc : Accepts cfg size) :
    makeWindow cfg size = .ok (windowOf cfg size) := by
  obtain ⟨hnul, hutf8, hfit⟩ := hacc
  rw [makeWindow, if_neg hnul, if_neg (Option.ne_none_iff_isSome.mpr hutf8)]
  dsimp only
  exact if_neg (Nat.not_lt.mpr hfit)

theorem makeWindow_of_not (hno : ¬ Accepts cfg size) : ∃ e, makeWindow cfg size = .error e := by
  rw [makeWindow]
  dsimp only
  split_ifs with hnul hutf8 hfit
  · exact ⟨_, rfl⟩
  · exact ⟨_, rfl⟩
  · exact ⟨_, rfl⟩
  · exact absurd ⟨hnul, Option.ne_none_iff_isSome.mp hutf8, Nat.not_lt.mp hfit⟩ hno

/-- What is refused because of the config or of the window is not written. -/
theorem replaceOn_early (hno : ¬ (Accepts cfg h.size ∧ at_ + h.size ≤ m.length)) :
    (replaceOn m at_ h cfg).2 = m := by
  rw [replaceOn]
  by_cases hacc : Accepts cfg h.size
  · rw [makeWindow_of_accepts hacc]
    dsimp only
    rw [put_eq, length_windowOf hacc.2.2, if_pos (Nat.not_le.mp fun hend => hno ⟨hacc, hend⟩)]
  · obtain ⟨e, he⟩ := makeWindow_of_not hacc
    rw [he]

/-- What is refused because of the FIP is, and else there is no error. -/
theorem replaceOn_late (hacc : Accepts cfg h.size) (hend : at_ + h.size ≤ m.length)
    (hsize : 0 < h.size) :
    (Fixable (written m at_ h cfg) at_ h.size → ∀ e, (replaceOn m at_ h cfg).1 ≠ .error e) ∧
    (¬ Fixable (written m at_ h cfg) at_ h.size →
      (∃ e, (replaceOn m at_ h cfg).1 = .error e) ∧
        (replaceOn m at_ h cfg).2 = written m at_ h cfg) := by
  have hput : put m at_ (windowOf cfg h.size) = (.ok (), written m at_ h cfg) := by
    rw [put_eq, length_windowOf hacc.2.2, if_neg (Nat.not_lt.mpr hend), written]
  rw [replaceOn, makeWindow_of_accepts hacc]
  dsimp only
  rw [hput]
  dsimp only
  rw [← fixOn_ok_iff hsize]
  rcases hfix : fixOn (written m at_ h cfg) at_ h.size with ⟨e | u, m'⟩
  · refine ⟨fun hok => (by cases hok), fun _ => ⟨⟨_, rfl⟩, ?_⟩⟩
    have hkept := fixOn_error (congrArg Prod.fst hfix)
    rw [hfix] at hkept
    exact hkept
  · exact ⟨fun _ _ he => (by cases he), fun hno => absurd rfl hno⟩

/-- **A config that is refused leaves the medium as it was** if and only if it is refused before the
window is written, or there is nothing to be refused afterwards, or the window has had these bytes
before. -/
theorem refused_unchanged_iff (hfind : find m = .ok (at_, h)) (cfg : Bytes) :
    (∀ e, (replaceOn m at_ h cfg).1 = .error e → (replaceOn m at_ h cfg).2 = m) ↔
      (Accepts cfg h.size ∧ at_ + h.size ≤ m.length → written m at_ h cfg ≠ m →
        Fixable (written m at_ h cfg) at_ h.size) := by
  have hsize : 0 < h.size := by
    obtain ⟨hhead, -, -⟩ := find_eq_ok.mp hfind
    obtain ⟨ds, ls, hline, -⟩ := exists_line hhead
    have hlong := (headlike hline).length
    have hle := hline.le_size
    rw [hline.eq_head] at hle ⊢
    dsimp only at hle ⊢
    omega
  by_cases hfits : Accepts cfg h.size ∧ at_ + h.size ≤ m.length
  · obtain ⟨hgood, hbad⟩ := replaceOn_late hfits.1 hfits.2 hsize
    constructor
    · intro hkept _ hne
      by_contra hno
      obtain ⟨⟨e, he⟩, hafter⟩ := hbad hno
      exact hne (hafter.symm.trans (hkept e he))
    · intro hfix e he
      by_cases hsame : written m at_ h cfg = m
      · by_cases hgo : Fixable (written m at_ h cfg) at_ h.size
        · exact absurd he (hgood hgo e)
        · exact (hbad hgo).2.trans hsame
      · exact absurd he (hgood (hfix hfits hsame) e)
  · exact iff_of_true (fun _ _ => replaceOn_early hfits) fun h => absurd h hfits

end

/-- A config with a NUL is not written. -/
theorem refused_unchanged_nul : (replaceOn oneSector 0 (headOf 512 0) [0]).1 =
      .error "the config contains a NUL byte" ∧
    (replaceOn oneSector 0 (headOf 512 0) [0]).2 = oneSector := by
  have herror : (replaceOn oneSector 0 (headOf 512 0) [0]).1 =
      .error "the config contains a NUL byte" := by decide
  refine ⟨herror, (refused_unchanged_iff find_oneSector [0]).mpr (fun hfits => ?_) _ herror⟩
  exact absurd hfits.1.1 (by decide)

/-- A window, and behind it a param2 block without a FIP. -/
def strayParam2 : Medium := oneSector ++ (param2Magic ++ List.replicate 56 0)

theorem length_strayParam2 : strayParam2.length = 576 := by
  have hone : oneSector.length = 512 := length_windowOf (by decide)
  rw [strayParam2, List.length_append, hone]
  rfl

theorem reached_strayParam2 {m : Medium} (h : m.length = 576) : reached m = chunk := by
  rw [reached, h]
  decide

/-- A needle that no suffix begins with is nowhere. -/
theorem not_prefix_drop {needle m : Bytes} (h : m.tails.all (fun b => !needle.isPrefixOf b) = true)
    (p : ℕ) : ¬ needle <+: m.drop p := by
  intro hp
  have hno := List.all_eq_true.mp h _ ((List.mem_tails _ _).mpr (List.drop_suffix p m))
  rw [List.isPrefixOf_iff_prefix.mpr hp] at hno
  cases hno

set_option maxRecDepth 8000 in
theorem find_strayParam2 : find strayParam2 = .ok (0, headOf 512 0) := by
  have hnone : strayParam2.tail.tails.all
    (fun b => !magic.isPrefixOf b) = true := by with_unfolding_all decide
  refine find_eq_ok.mpr ⟨by decide, ?_, fun p _ hhead => ?_⟩
  · rw [reached_strayParam2 length_strayParam2]
    decide
  · cases p with
    | zero => rfl
    | succ p =>
      rw [← accepted_isHead, accepted, Bool.and_eq_true, List.isPrefixOf_iff_prefix,
        ← List.drop_tail] at hhead
      exact absurd hhead.1 (not_prefix_drop hnone p)

set_option maxRecDepth 8000 in
/-- The window is written, and then the block is refused. -/
theorem refused_changed : find strayParam2 = .ok (0, headOf 512 0) ∧
    (∃ e, (replaceOn strayParam2 0 (headOf 512 0) (utf8 "a=b")).1 = .error e) ∧
    (replaceOn strayParam2 0 (headOf 512 0) (utf8 "a=b")).2 ≠ strayParam2 := by
  have hacc : Accepts (utf8 "a=b") 512 := ⟨by decide, by decide, by decide⟩
  have hfit : 0 + (windowOf (utf8 "a=b") 512).length ≤ strayParam2.length := by
    rw [length_windowOf hacc.2.2, length_strayParam2]
    decide
  have hlen : (written strayParam2 0 (headOf 512 0) (utf8 "a=b")).length = 576 :=
    (length_overwrite hfit).trans length_strayParam2
  have hblock : Param2At (written strayParam2 0 (headOf 512 0) (utf8 "a=b")) 512 :=
    ⟨by rw [reached_strayParam2 hlen]; decide, by with_unfolding_all decide⟩
  have hnone : (written strayParam2 0 (headOf 512 0) (utf8 "a=b")).tails.all
      (fun b => !fipMagic.isPrefixOf b) = true := by with_unfolding_all decide
  have hbad : ¬ Fixable (written strayParam2 0 (headOf 512 0) (utf8 "a=b")) 0 512 := by
    rintro (hno | ⟨p2, start, -, -, hstart, -⟩)
    · exact hno 512 hblock
    · exact not_prefix_drop hnone start hstart.2
  obtain ⟨herror, hafter⟩ := (replaceOn_late (h := headOf 512 0) hacc (by
    rw [length_strayParam2]
    decide) (by decide)).2 hbad
  refine ⟨find_strayParam2, herror, ?_⟩
  rw [hafter]
  decide

end Hop.Cli.Image
