import Hop.Hoplb.Metrics
import Hop.Lib.Ring

/-!
# No request is lost

What the metrics say about the requests so far (`Counted`): each series tells of the requests whose
pair has it, the series of `overflowDomain` also of those whose pair has none (`home`). A new series
is made while there is room, and then every request before has one of its own; that is what keeps a
pair that was once counted under `overflowDomain` there (`Counted.full`).
-/

namespace Hop.Hoplb

variable {i : ℕ}

/-- A call of `record_request`. -/
structure Call where
  domain : String
  backend : String
  code : ℕ
  nanos : ℕ

def Call.key (c : Call) : Bytes ×ₗ Bytes := pairKey c.domain c.backend

/-- What the series of the pairs beyond the bound has as its key. -/
def overflowKey : Bytes ×ₗ Bytes := pairKey overflowDomain ""

theorem pairKey_inj {d b d' b' : String} : pairKey d b = pairKey d' b' ↔ d = d' ∧ b = b' := by
  constructor
  · intro h
    have hpair : (utf8 d, utf8 b) = (utf8 d', utf8 b') := h
    rw [Prod.mk.injEq] at hpair
    exact ⟨utf8_injective hpair.1, utf8_injective hpair.2⟩
  · rintro ⟨rfl, rfl⟩
    rfl

variable {F : Type} {ops : F64 F} {max : ℕ} {s : Series F} {cs calls : List Call} {c : Call}
  {k : Bytes ×ₗ Bytes}

/-! ### One series -/

/-- How many requests a series has counted. -/
def Series.weight (s : Series F) : ℕ := (s.codes.rows.map Prod.snd).sum

theorem count_ok {code : ℕ} (h : s.codes.find code = .ok i) :
    s.count code =
      { s with codes := s.codes.modifyAt i (fun p => (p.1, (p.2 + 1) % 2 ^ 64)) fun _ => rfl } := by
  rw [Series.count]
  split
  next j hj => rw [Except.ok.inj (h.symm.trans hj)]
  next j hj => cases h.symm.trans hj

theorem count_error {code : ℕ} (h : s.codes.find code = .error i) :
    s.count code = { s with codes := s.codes.insertAt (code, 1) i h } := by
  rw [Series.count]
  split
  next j hj => cases h.symm.trans hj
  next j hj =>
    obtain rfl := Except.error.inj (h.symm.trans hj)
    rfl

/-- The parts of a series that counting a code leaves alone. -/
theorem samples_count (s : Series F) (code : ℕ) :
    (s.count code).samples = s.samples ∧ (s.count code).head = s.head := by
  rw [Series.count]
  split
  · exact ⟨rfl, rfl⟩
  · exact ⟨rfl, rfl⟩

theorem codes_sample (ops : F64 F) (s : Series F) (secs : F) (max : ℕ) :
    (s.sample ops secs max).codes = s.codes ∧ (s.sample ops secs max).dirty = true := by
  rw [Series.sample]
  dsimp only
  split_ifs
  · exact ⟨rfl, rfl⟩
  · exact ⟨rfl, rfl⟩

theorem window_sample {l : List F} (h : Ring.Window max s.samples s.head l) (x : F) :
    Ring.Window max (s.sample ops x max).samples (s.sample ops x max).head (l ++ [x]) := by
  have hmax : Nat.max max 1 = max := Nat.max_eq_left (Nat.zero_lt_of_lt h.head_lt)
  rw [Series.sample]
  dsimp only
  rw [hmax]
  split_ifs with hroom
  · exact h.push hroom x
  · exact h.overwrite (Nat.le_of_not_lt hroom) x

theorem countP_concat (cs : List Call) (c : Call) (code : ℕ) :
    (cs ++ [c]).countP (fun c => c.code = code) =
      cs.countP (fun c => c.code = code) + if code = c.code then 1 else 0 := by
  rw [List.countP_append, List.countP_singleton]
  simp only [decide_eq_true_eq, eq_comm (a := code)]

/-- A series tells of these requests. -/
structure Tells [LinearOrder F] (ops : F64 F) (max : ℕ) (s : Series F) (cs : List Call) : Prop where
  codes : ∀ code, ((s.codes.get code).map Prod.snd).getD 0 = cs.countP fun c => c.code = code
  weight : s.weight = cs.length
  window : Ring.Window max s.samples s.head (cs.map fun c => ops.secs c.nanos)
  /-- The sorted copy is not stale. -/
  fresh : s.dirty = false → s.sorted = s.samples.mergeSort fun a b => decide (a ≤ b)

section
variable [LinearOrder F]

theorem tells_new (hmax : 0 < max) (domain backend : String) :
    Tells ops max (Series.new ops domain backend) [] where
  codes code := by
    rw [show (Series.new ops domain backend).codes = SortedVec.empty from rfl, SortedVec.get_empty]
    rfl
  weight := rfl
  window := Ring.Window.nil hmax
  fresh _ := List.mergeSort_nil.symm

/-- A code is counted once more. -/
theorem Tells.codes_count (h : Tells ops max s cs) (hlen : cs.length + 1 < 2 ^ 64) (c : Call) (code : ℕ) :
    (((s.count c.code).codes.get code).map Prod.snd).getD 0 =
      (cs ++ [c]).countP fun c => c.code = code := by
  have hold := h.codes code
  have hle : cs.countP (fun c => c.code = code) ≤ cs.length := List.countP_le_length
  rw [countP_concat, ← hold]
  rcases hfind : s.codes.find c.code with i | i
  · rw [count_error hfind]
    dsimp only
    rw [SortedVec.get_insertAt]
    split_ifs with hcode
    · have hnone := SortedVec.find_error hfind
      rw [show code = c.code from hcode, hnone]
      rfl
    · rfl
  · rw [count_ok hfind]
    dsimp only
    rw [SortedVec.get_modifyAt _ hfind]
    split_ifs with hcode
    · obtain ⟨p, -, hp⟩ := SortedVec.find_ok hfind
      rw [hcode] at hold hle ⊢
      rw [hp] at hold ⊢
      have hn : p.2 = cs.countP fun c' => c'.code = c.code := hold
      exact Nat.mod_eq_of_lt (by omega)
    · rfl

theorem Tells.weight_count (h : Tells ops max s cs) (hlen : cs.length + 1 < 2 ^ 64) (c : Call) :
    (s.count c.code).weight = (cs ++ [c]).length := by
  have hold := h.weight
  rw [Series.weight] at hold
  rw [Series.weight, List.length_append, List.length_singleton, ← hold]
  rcases hfind : s.codes.find c.code with i | i
  · rw [count_error hfind]
    exact SortedVec.sum_insertAt (h := hfind) Prod.snd
  · obtain ⟨p, -, hp⟩ := SortedVec.find_ok hfind
    have hle : p.2 ≤ cs.length := by
      have hn := h.codes c.code
      rw [hp, Option.map_some, Option.getD_some] at hn
      exact hn ▸ List.countP_le_length
    have hsum := SortedVec.sum_modifyAt (fun p : ℕ × ℕ => (p.1, (p.2 + 1) % 2 ^ 64))
      (fun _ => rfl) hfind hp Prod.snd
    rw [count_ok hfind]
    dsimp only at hsum ⊢
    rw [Nat.mod_eq_of_lt (by omega)] at hsum
    omega

/-- **One request more** for a series. -/
theorem Tells.record (h : Tells ops max s cs) (hlen : cs.length + 1 < 2 ^ 64) (c : Call) :
    Tells ops max ((s.count c.code).sample ops (ops.secs c.nanos) max) (cs ++ [c]) := by
  obtain ⟨hcodes, hdirty⟩ := codes_sample ops (s.count c.code) (ops.secs c.nanos) max
  obtain ⟨hsamples, hhead⟩ := samples_count s c.code
  refine ⟨fun code => ?_, ?_, ?_, fun hfresh => ?_⟩
  · rw [hcodes]
    exact h.codes_count hlen c code
  · rw [Series.weight, hcodes]
    exact h.weight_count hlen c
  · have hwindow := h.window
    rw [← hsamples, ← hhead] at hwindow
    rw [List.map_append, List.map_singleton]
    exact window_sample hwindow _
  · cases hdirty.symm.trans hfresh

/-- What is read is the window, sorted. -/
theorem Tells.sortedCopy_fst (h : Tells ops max s cs) :
    s.sortedCopy.1 = s.samples.mergeSort fun a b => decide (a ≤ b) := by
  rw [Series.sortedCopy]
  split_ifs with hold
  · rfl
  · exact h.fresh (Bool.eq_false_iff.mpr fun hd => hold (.inl hd))

theorem Tells.sortedCopy (h : Tells ops max s cs) : Tells ops max s.sortedCopy.2 cs := by
  rw [Series.sortedCopy]
  split_ifs
  · exact ⟨h.codes, h.weight, h.window, fun _ => rfl⟩
  · exact h

theorem weight_sortedCopy (s : Series F) : s.sortedCopy.2.weight = s.weight := by
  rw [Series.sortedCopy]
  split_ifs
  · rfl
  · rfl

/-- Writing the lines of a series only reads it. -/
theorem renderSeries_snd (ops : F64 F) (s : Series F) :
    (renderSeries ops s).2 = s ∨ (renderSeries ops s).2 = s.sortedCopy.2 := by
  rw [renderSeries]
  dsimp only
  split_ifs
  · exact .inl rfl
  · exact .inr rfl
  · exact .inr rfl

end

/-! ### All series -/

/-- Where the requests of a pair are counted: in its own series, or with those beyond the bound. -/
def home (v : SortedVec (Series.key (F := F))) (k : Bytes ×ₗ Bytes) : Bytes ×ₗ Bytes :=
  if (v.get k).isSome then k else overflowKey

/-- The requests that the series with this key counts. -/
def under (v : SortedVec (Series.key (F := F))) (calls : List Call) (k : Bytes ×ₗ Bytes) : List Call :=
  calls.filter fun c => home v c.key = k

theorem home_of_get {v : SortedVec (Series.key (F := F))} (h : v.get k = some s) : home v k = k := by
  rw [home, h]
  rfl

theorem home_of_none {v : SortedVec (Series.key (F := F))} (h : v.get k = none) :
    home v k = overflowKey := by
  rw [home, h]
  rfl

/-- The homes are known by the keys that have a series. -/
theorem home_congr {v w : SortedVec (Series.key (F := F))}
    (h : ∀ k, (w.get k).isSome = (v.get k).isSome) (k : Bytes ×ₗ Bytes) : home w k = home v k := by
  rw [home, home, h]

section
variable [LinearOrder F]

/-- What the metrics say about the requests so far. -/
structure Counted (ops : F64 F) (m : Metrics F) (calls : List Call) : Prop where
  tells : ∀ k s, m.series.get k = some s → Tells ops m.maxSamples s (under m.series calls k)
  housed : ∀ c ∈ calls, (m.series.get (home m.series c.key)).isSome
  /-- Who has no series came when there was no room. -/
  full : ∀ c ∈ calls, m.series.get c.key = none → m.maxSeries ≤ m.series.rows.length
  bound : m.series.rows.length ≤
    m.maxSeries + if (m.series.get overflowKey).isSome then 1 else 0
  total : (m.series.rows.map Series.weight).sum = calls.length
  window : 0 < m.maxSamples

variable {m m' : Metrics F}

theorem counted_withLimits (ops : F64 F) (maxSamples maxSeries : ℕ) :
    Counted ops (Metrics.withLimits maxSamples maxSeries) [] where
  tells k s h := by
    have hnone : (Metrics.withLimits (F := F) maxSamples maxSeries).series.get k = none :=
      SortedVec.get_empty k
    cases hnone.symm.trans h
  housed _ hc := absurd hc List.not_mem_nil
  full _ hc := absurd hc List.not_mem_nil
  bound := Nat.zero_le _
  total := rfl
  window := Nat.lt_of_lt_of_le Nat.one_pos (Nat.le_max_right _ _)

/-- Metrics with the same keys, whose series tell the same. -/
theorem Counted.congr (h : Counted ops m calls) (hmax : m'.maxSamples = m.maxSamples)
    (hseries : m'.maxSeries = m.maxSeries) (hsame : ∀ k, (m'.series.get k).isSome = (m.series.get k).isSome)
    (htells : ∀ k s', m'.series.get k = some s' → ∃ s, m.series.get k = some s ∧
      ∀ cs, Tells ops m.maxSamples s cs → Tells ops m.maxSamples s' cs)
    (hlen : m'.series.rows.length = m.series.rows.length)
    (hsum : (m'.series.rows.map Series.weight).sum = (m.series.rows.map Series.weight).sum) :
    Counted ops m' calls := by
  have hhome := home_congr hsame
  refine ⟨fun k s' hs' => ?_, fun c hc => ?_, fun c hc hnone => ?_, ?_, hsum.trans h.total, ?_⟩
  · obtain ⟨s, hs, hmap⟩ := htells k s' hs'
    have hunder : under m'.series calls k = under m.series calls k := by
      rw [under, under]
      simp only [hhome]
    rw [hmax, hunder]
    exact hmap _ (h.tells k s hs)
  · rw [hhome, hsame]
    exact h.housed c hc
  · rw [hseries, hlen]
    refine h.full c hc (Option.not_isSome_iff_eq_none.mp ?_)
    rw [← hsame, hnone]
    exact Bool.false_ne_true
  · rw [hlen, hseries, hsame]
    exact h.bound
  · rw [hmax]
    exact h.window

/-- A series of its own for a pair that has none, while every request has one. -/
theorem Counted.insert (h : Counted ops m calls) {domain backend : String}
    (hown : ∀ c ∈ calls, (m.series.get c.key).isSome)
    (hfind : m.series.find (pairKey domain backend) = .error i)
    (hroom : m.series.rows.length < m.maxSeries ∨ m.series.get overflowKey = none ∧
      pairKey domain backend = overflowKey) :
    Counted ops { m with series := m.series.insertAt (Series.new ops domain backend) i hfind } calls := by
  have hget := SortedVec.get_insertAt (x := Series.new ops domain backend) (h := hfind)
  have hnone := SortedVec.find_error hfind
  have hkept : ∀ c ∈ calls, (m.series.insertAt (Series.new ops domain backend) i hfind).get c.key =
      m.series.get c.key := by
    intro c hc
    rw [hget, if_neg]
    intro hkey
    have hsome := hown c hc
    rw [show c.key = pairKey domain backend from hkey, hnone] at hsome
    cases hsome
  have hhome : ∀ c ∈ calls, home (m.series.insertAt (Series.new ops domain backend) i hfind) c.key =
      home m.series c.key := by
    intro c hc
    rw [home, home, hkept c hc]
  have hstay : ∀ c ∈ calls, home m.series c.key = c.key := fun c hc => if_pos (hown c hc)
  refine ⟨fun k s hs => ?_, fun c hc => ?_, fun c hc hno => ?_, ?_, ?_, h.window⟩
  · have hunder : under (m.series.insertAt (Series.new ops domain backend) i hfind) calls k =
        under m.series calls k :=
      List.filter_congr fun c hc => by rw [hhome c hc]
    dsimp only at hs ⊢
    rw [hunder]
    rw [hget] at hs
    split_ifs at hs with hk
    · -- nobody has this pair yet
      have hempty : under m.series calls k = [] := by
        refine List.filter_eq_nil_iff.mpr fun c hc hck => ?_
        have hkey : c.key = k := (hstay c hc).symm.trans (of_decide_eq_true hck)
        have hsome := hown c hc
        rw [hkey, show k = pairKey domain backend from hk, hnone] at hsome
        cases hsome
      rw [hempty, ← Option.some.inj hs]
      exact tells_new h.window domain backend
    · exact h.tells k s hs
  · rw [hhome c hc, hstay c hc, hkept c hc]
    exact hown c hc
  · have hsome := hown c hc
    rw [← hkept c hc, hno] at hsome
    cases hsome
  · have hbound := h.bound
    have hlen : (m.series.insertAt (Series.new ops domain backend) i hfind).rows.length =
        m.series.rows.length + 1 :=
      SortedVec.length_insertAt (x := Series.new ops domain backend) hfind
    dsimp only
    rw [hlen]
    rcases hroom with hroom | ⟨hover, hkey⟩
    · omega
    · rw [hover] at hbound
      rw [hget, if_pos (show overflowKey = (Series.new ops domain backend).key from hkey.symm)]
      exact Nat.succ_le_succ hbound
  · have hsum := SortedVec.sum_insertAt (x := Series.new ops domain backend) (h := hfind) Series.weight
    exact hsum.trans h.total

/-- A request is counted at its home. -/
theorem Counted.modify (h : Counted ops m calls) (hcalls : calls.length + 1 < 2 ^ 64) (c : Call)
    (hfind : m.series.find (home m.series c.key) = .ok i)
    (hfull : m.series.get c.key = none → m.maxSeries ≤ m.series.rows.length) :
    Counted ops
      { m with
        series := m.series.modifyAt i
          (fun s => (s.count c.code).sample ops (ops.secs c.nanos) m.maxSamples)
          fun s => (Series.key_sample ops _ _ _).trans (Series.key_count s c.code) }
      (calls ++ [c]) := by
  have hget := SortedVec.get_modifyAt (fun s : Series F =>
    (Series.key_sample ops (s.count c.code) (ops.secs c.nanos) m.maxSamples).trans
      (Series.key_count s c.code)) hfind
  obtain ⟨s, -, hs⟩ := SortedVec.find_ok hfind
  have hsame : ∀ k, ((m.series.modifyAt i
      (fun s => (s.count c.code).sample ops (ops.secs c.nanos) m.maxSamples)
      fun s => (Series.key_sample ops _ _ _).trans (Series.key_count s c.code)).get k).isSome =
      (m.series.get k).isSome := by
    intro k
    rw [hget]
    split_ifs
    · exact Option.isSome_map
    · rfl
  have hhome := home_congr hsame
  refine ⟨fun k s' hs' => ?_, fun c' hc' => ?_, fun c' hc' hnone => ?_, ?_, ?_, h.window⟩
  · have hunder : under (m.series.modifyAt i
        (fun s => (s.count c.code).sample ops (ops.secs c.nanos) m.maxSamples)
        fun s => (Series.key_sample ops _ _ _).trans (Series.key_count s c.code)) (calls ++ [c]) k =
        under m.series calls k ++ if home m.series c.key = k then [c] else [] := by
      rw [under, under, List.filter_append, List.filter_cons, List.filter_nil]
      simp only [hhome, decide_eq_true_eq]
    dsimp only at hs' ⊢
    rw [hunder]
    rw [hget] at hs'
    split_ifs at hs' with hk
    · rw [if_pos hk.symm]
      obtain ⟨s, hs, rfl⟩ := Option.map_eq_some_iff.mp hs'
      have hle : (under m.series calls k).length ≤ calls.length := List.length_filter_le _ _
      exact (h.tells k s hs).record (by omega) c
    · rw [if_neg (Ne.symm hk), List.append_nil]
      exact h.tells k s' hs'
  · rw [hhome, hsame]
    rcases List.mem_append.mp hc' with hold | hnew
    · exact h.housed c' hold
    · rw [List.mem_singleton.mp hnew, hs]
      rfl
  · have hnone' : m.series.get c'.key = none := by
      refine Option.not_isSome_iff_eq_none.mp ?_
      rw [← hsame, hnone]
      exact Bool.false_ne_true
    dsimp only
    rw [SortedVec.length_modifyAt]
    rcases List.mem_append.mp hc' with hold | hnew
    · exact h.full c' hold hnone'
    · rw [List.mem_singleton.mp hnew] at hnone'
      exact hfull hnone'
  · dsimp only
    rw [SortedVec.length_modifyAt, hsame]
    exact h.bound
  · have hsum := SortedVec.sum_modifyAt
      (fun s : Series F => (s.count c.code).sample ops (ops.secs c.nanos) m.maxSamples)
      (fun s => (Series.key_sample ops _ _ _).trans (Series.key_count s c.code)) hfind hs Series.weight
    have htold := h.tells _ s hs
    have hle : (under m.series calls (home m.series c.key)).length ≤ calls.length :=
      List.length_filter_le _ _
    have hweight := (htold.record (by omega) c).weight
    have hbefore := htold.weight
    rw [List.length_append, List.length_singleton] at hweight
    have htotal := h.total
    dsimp only
    rw [List.length_append, List.length_singleton]
    omega

omit [LinearOrder F] in
theorem addSeries_ok {domain backend : String} (h : m.series.find (pairKey domain backend) = .ok i) :
    m.addSeries ops domain backend = (i, m) := by
  rw [Metrics.addSeries]
  split
  next j hj => rw [Except.ok.inj (h.symm.trans hj)]
  next j hj => cases h.symm.trans hj

omit [LinearOrder F] in
theorem addSeries_error {domain backend : String}
    (h : m.series.find (pairKey domain backend) = .error i) :
    m.addSeries ops domain backend =
      (i, { m with series := m.series.insertAt (Series.new ops domain backend) i h }) := by
  rw [Metrics.addSeries]
  split
  next j hj => cases h.symm.trans hj
  next j hj =>
    obtain rfl := Except.error.inj (h.symm.trans hj)
    rfl

/-- With no series for the pairs beyond the bound, every request has one of its own. -/
theorem Counted.own_of_no_overflow (h : Counted ops m calls) (hover : m.series.get overflowKey = none) :
    ∀ c ∈ calls, (m.series.get c.key).isSome := by
  intro c hc
  have hhoused := h.housed c hc
  rcases hget : m.series.get c.key with - | s
  · rw [home_of_none hget, hover] at hhoused
    cases hhoused
  · rfl

/-- **Where the request of a pair goes**, in metrics that still say the same. -/
theorem Counted.seriesMut (h : Counted ops m calls) (c : Call)
    (hmut : m.seriesMut ops c.domain c.backend = (i, m')) :
    Counted ops m' calls ∧ m'.maxSamples = m.maxSamples ∧
      m'.series.find (home m'.series c.key) = .ok i ∧
      (m'.series.get c.key = none → m'.maxSeries ≤ m'.series.rows.length) := by
  rw [Metrics.seriesMut, Metrics.index] at hmut
  rcases hfind : m.series.find (pairKey c.domain c.backend) with j | j
  · have hnone : m.series.get c.key = none := SortedVec.find_error hfind
    rw [hfind] at hmut
    dsimp only at hmut
    split_ifs at hmut with hfull
    · -- beyond the bound
      have hfolded : Counted ops { m with folded := (m.folded + 1) % 2 ^ 64 } calls :=
        h.congr rfl rfl (fun _ => rfl) (fun k s hs => ⟨s, hs, fun _ => id⟩) rfl rfl
      rcases hover : m.series.find (pairKey overflowDomain "") with l | l
      · have hget : m.series.get overflowKey = none := SortedVec.find_error hover
        have hinsert := hfolded.insert (h.own_of_no_overflow hget) hover (.inr ⟨hget, rfl⟩)
        rw [addSeries_error (m := { m with folded := (m.folded + 1) % 2 ^ 64 }) hover, Prod.mk.injEq] at hmut
        obtain ⟨rfl, rfl⟩ := hmut
        have hplace := SortedVec.find_insertAt (x := Series.new ops overflowDomain "") (h := hover)
        have hlen := SortedVec.length_insertAt (x := Series.new ops overflowDomain "") hover
        refine ⟨hinsert, rfl, ?_, fun _ => (Nat.le_succ_of_le hfull).trans hlen.ge⟩
        have hhome : home (m.series.insertAt (Series.new ops overflowDomain "") l hover) c.key =
            overflowKey := by
          rw [home]
          split_ifs with hsome
          · -- the request itself is for this pair
            rw [SortedVec.get_insertAt (x := Series.new ops overflowDomain "") (h := hover)] at hsome
            split_ifs at hsome with hkey
            · exact hkey
            · rw [hnone] at hsome
              cases hsome
          · rfl
        dsimp only
        rw [hhome]
        exact hplace
      · rw [addSeries_ok (m := { m with folded := (m.folded + 1) % 2 ^ 64 }) hover, Prod.mk.injEq] at hmut
        obtain ⟨rfl, rfl⟩ := hmut
        refine ⟨hfolded, rfl, ?_, fun _ => hfull⟩
        dsimp only
        rw [home_of_none hnone]
        exact hover
    · -- a series of its own
      have hown : ∀ c ∈ calls, (m.series.get c.key).isSome := by
        intro c hc
        by_contra hno
        exact hfull (h.full c hc (Option.not_isSome_iff_eq_none.mp hno))
      have hinsert := h.insert hown hfind (.inl (Nat.lt_of_not_le hfull))
      rw [addSeries_error hfind, Prod.mk.injEq] at hmut
      obtain ⟨rfl, rfl⟩ := hmut
      have hplace := SortedVec.find_insertAt (x := Series.new ops c.domain c.backend) (h := hfind)
      have hget : (m.series.insertAt (Series.new ops c.domain c.backend) j hfind).get c.key =
          some (Series.new ops c.domain c.backend) := (SortedVec.get_insertAt _).trans (if_pos rfl)
      refine ⟨hinsert, rfl, ?_, fun hno => ?_⟩
      · dsimp only
        rw [home_of_get hget]
        exact hplace
      · cases hno.symm.trans hget
  · rw [hfind, Prod.mk.injEq] at hmut
    obtain ⟨rfl, rfl⟩ := hmut
    obtain ⟨s, -, hs⟩ := SortedVec.find_ok hfind
    refine ⟨h, rfl, ?_, fun hno => ?_⟩
    · rw [home_of_get (show m.series.get c.key = some s from hs)]
      exact hfind
    · cases hno.symm.trans hs

/-- **One request more.** -/
theorem Counted.recordRequest (h : Counted ops m calls) (hcalls : calls.length + 1 < 2 ^ 64) (c : Call) :
    Counted ops (m.recordRequest ops c.domain c.backend c.code c.nanos) (calls ++ [c]) := by
  rcases hmut : m.seriesMut ops c.domain c.backend with ⟨i, ⟨series, maxSamples, maxSeries, folded⟩⟩
  obtain ⟨hcounted, hmax, hplace, hfull⟩ := h.seriesMut c hmut
  dsimp only at hmax
  subst hmax
  rw [Metrics.recordRequest, hmut]
  exact hcounted.modify hcalls c hplace hfull

/-- Reading percentiles renews a sorted copy. -/
theorem Counted.percentiles (h : Counted ops m calls) (domain backend : String) (ps : List F) :
    Counted ops (m.percentiles ops domain backend ps).2 calls := by
  rw [Metrics.percentiles, Metrics.index]
  rcases hfind : m.series.find (pairKey domain backend) with i | i
  · exact h
  · obtain ⟨s, hrow, hs⟩ := SortedVec.find_ok hfind
    have hget := SortedVec.get_modifyAt (Series.key_sortedCopy (F := F)) hfind
    have hnext : Counted ops
        { m with series := m.series.modifyAt i (fun s => s.sortedCopy.2) Series.key_sortedCopy }
        calls := by
      refine h.congr rfl rfl (fun k => ?_) (fun k s' hs' => ?_)
        (SortedVec.length_modifyAt _ _ _ Series.key_sortedCopy) ?_
      · dsimp only
        rw [hget]
        split_ifs
        · exact Option.isSome_map
        · rfl
      · dsimp only at hs'
        rw [hget] at hs'
        split_ifs at hs'
        · obtain ⟨s, hs, rfl⟩ := Option.map_eq_some_iff.mp hs'
          exact ⟨s, hs, fun _ htells => htells.sortedCopy⟩
        · exact ⟨s', hs', fun _ => id⟩
      · have hsum := SortedVec.sum_modifyAt (fun s : Series F => s.sortedCopy.2)
          Series.key_sortedCopy hfind hs Series.weight
        rw [weight_sortedCopy] at hsum
        exact Nat.add_right_cancel hsum
    dsimp only
    rw [hrow]
    dsimp only
    split_ifs
    · exact hnext
    · exact hnext

/-- Writing the text renews the sorted copies. -/
theorem Counted.render (h : Counted ops m calls) : Counted ops (m.render ops).2 calls := by
  have hget : ∀ k, (m.render ops).2.series.get k =
      (m.series.get k).map fun s => (renderSeries ops s).2 := by
    intro k
    rw [Metrics.render]
    dsimp only
    rw [SortedVec.get_filterMap]
    exact Option.map_eq_bind.symm
  have hrows : (m.render ops).2.series.rows = m.series.rows.map fun s => (renderSeries ops s).2 :=
    congrFun List.filterMap_eq_map' _
  refine h.congr rfl rfl (fun k => ?_) (fun k s' hs' => ?_) ?_ ?_
  · rw [hget]
    exact Option.isSome_map
  · rw [hget] at hs'
    obtain ⟨s, hs, rfl⟩ := Option.map_eq_some_iff.mp hs'
    refine ⟨s, hs, fun cs htells => ?_⟩
    rcases renderSeries_snd ops s with heq | heq
    · rw [heq]
      exact htells
    · rw [heq]
      exact htells.sortedCopy
  · rw [hrows, List.length_map]
  · rw [hrows, List.map_map]
    refine congrArg List.sum (List.map_congr_left fun s _ => ?_)
    rcases renderSeries_snd ops s with heq | heq
    · exact congrArg Series.weight heq
    · exact (congrArg Series.weight heq).trans (weight_sortedCopy s)

end

/-! ### Runs -/

/-- What is done with the metrics. -/
inductive Act (F : Type) where
  | record (c : Call)
  | percentiles (domain backend : String) (ps : List F)
  | render

/-- The requests that are recorded. -/
def recorded (acts : List (Act F)) : List Call :=
  acts.filterMap fun
    | .record c => some c
    | _ => none

namespace Metrics

variable {m : Metrics F}

theorem seriesOf_eq (m : Metrics F) (domain backend : String) :
    m.seriesOf domain backend = m.series.get (pairKey domain backend) := by
  rw [seriesOf, index]
  rcases hfind : m.series.find (pairKey domain backend) with i | i
  · exact (SortedVec.find_error hfind).symm
  · obtain ⟨s, hrow, hs⟩ := SortedVec.find_ok hfind
    exact hrow.trans hs.symm

theorem requestCount_of_get {domain backend : String}
    (h : m.series.get (pairKey domain backend) = some s) (code : ℕ) :
    m.requestCount domain backend code = ((s.codes.get code).map Prod.snd).getD 0 := by
  rw [requestCount, seriesOf_eq, h, SortedVec.get, Bisect.findKey_eq s.codes.sorted]

theorem requestCount_of_none {domain backend : String}
    (h : m.series.get (pairKey domain backend) = none) (code : ℕ) :
    m.requestCount domain backend code = 0 := by
  rw [requestCount, seriesOf_eq, h]

theorem sum_requestCounts (m : Metrics F) :
    (m.requestCounts.map fun row => row.2.2.2).sum = (m.series.rows.map Series.weight).sum := by
  rw [requestCounts, List.map_flatMap, List.flatMap_def, List.sum_flatten, List.map_map]
  refine congrArg List.sum (List.map_congr_left fun s _ => ?_)
  rw [Function.comp_apply, List.map_map]
  rfl

/-- The pair whose series counts a request. -/
def homeOf (m : Metrics F) (c : Call) : String × String :=
  if (m.seriesOf c.domain c.backend).isSome then (c.domain, c.backend) else (overflowDomain, "")

theorem homeOf_eq_iff (m : Metrics F) (c : Call) (domain backend : String) :
    m.homeOf c = (domain, backend) ↔ home m.series c.key = pairKey domain backend := by
  rw [homeOf, seriesOf_eq]
  rcases hget : m.series.get c.key with - | s
  · rw [home_of_none hget, show m.series.get (pairKey c.domain c.backend) = none from hget,
      Option.isSome_none, if_neg Bool.false_ne_true, Prod.mk.injEq]
    exact pairKey_inj.symm
  · rw [home_of_get hget, show m.series.get (pairKey c.domain c.backend) = some s from hget,
      Option.isSome_some, if_pos rfl, Prod.mk.injEq]
    exact pairKey_inj.symm

variable [LinearOrder F]

def step (ops : F64 F) (m : Metrics F) : Act F → Metrics F
  | .record c => m.recordRequest ops c.domain c.backend c.code c.nanos
  | .percentiles domain backend ps => (m.percentiles ops domain backend ps).2
  | .render => (m.render ops).2

def run (ops : F64 F) (m : Metrics F) (acts : List (Act F)) : Metrics F := acts.foldl (step ops) m

end Metrics

variable {m : Metrics F}

/-- Who has a series of its own is counted there. -/
theorem homeOf_own {domain backend : String} (hget : m.series.get (pairKey domain backend) = some s)
    (hpair : (domain, backend) ≠ (overflowDomain, "")) (c : Call) :
    m.homeOf c = (domain, backend) ↔ (c.domain, c.backend) = (domain, backend) := by
  rw [m.homeOf_eq_iff, Prod.mk.injEq]
  constructor
  · intro hhome
    rcases hown : m.series.get c.key with - | t
    · rw [home_of_none hown] at hhome
      obtain ⟨hd, hb⟩ := pairKey_inj.mp hhome
      exact absurd (Prod.mk.injEq _ _ _ _ ▸ ⟨hd.symm, hb.symm⟩) hpair
    · rw [home_of_get hown] at hhome
      exact pairKey_inj.mp hhome
  · rintro ⟨hd, hb⟩
    have hkey : c.key = pairKey domain backend := by rw [Call.key, hd, hb]
    rw [hkey]
    exact home_of_get hget

theorem limits_seriesMut (m : Metrics F) (domain backend : String) :
    (m.seriesMut ops domain backend).2.maxSamples = m.maxSamples ∧
      (m.seriesMut ops domain backend).2.maxSeries = m.maxSeries := by
  have hadd : ∀ (m : Metrics F) domain backend,
      (m.addSeries ops domain backend).2.maxSamples = m.maxSamples ∧
        (m.addSeries ops domain backend).2.maxSeries = m.maxSeries := by
    intro m domain backend
    rw [Metrics.addSeries]
    split
    · exact ⟨rfl, rfl⟩
    · exact ⟨rfl, rfl⟩
  rw [Metrics.seriesMut]
  split
  · exact ⟨rfl, rfl⟩
  · split_ifs
    · exact hadd { m with folded := (m.folded + 1) % 2 ^ 64 } overflowDomain ""
    · exact hadd m domain backend

theorem Counted.under_eq (m : Metrics F) (calls : List Call) (domain backend : String) :
    under m.series calls (pairKey domain backend) =
      calls.filter fun c => m.homeOf c = (domain, backend) :=
  List.filter_congr fun c _ => decide_eq_decide.mpr (m.homeOf_eq_iff c domain backend).symm

section
variable [LinearOrder F]

theorem limits_run (ops : F64 F) (m : Metrics F) (acts : List (Act F)) :
    (m.run ops acts).maxSamples = m.maxSamples ∧ (m.run ops acts).maxSeries = m.maxSeries := by
  induction acts generalizing m with
  | nil => exact ⟨rfl, rfl⟩
  | cons act acts ih =>
    obtain ⟨hsamples, hseries⟩ := ih (m.step ops act)
    have hstep : (m.step ops act).maxSamples = m.maxSamples ∧
        (m.step ops act).maxSeries = m.maxSeries := by
      rcases act with c | ⟨domain, backend, ps⟩ | _
      · exact limits_seriesMut m c.domain c.backend
      · rw [Metrics.step, Metrics.percentiles]
        split
        · exact ⟨rfl, rfl⟩
        · dsimp only
          split
          · exact ⟨rfl, rfl⟩
          · split_ifs
            · exact ⟨rfl, rfl⟩
            · exact ⟨rfl, rfl⟩
      · exact ⟨rfl, rfl⟩
    exact ⟨hsamples.trans hstep.1, hseries.trans hstep.2⟩

theorem counted_run (ops : F64 F) (maxSamples maxSeries : ℕ) (acts : List (Act F))
    (hcalls : (recorded acts).length < 2 ^ 64) :
    Counted ops ((Metrics.withLimits maxSamples maxSeries).run ops acts) (recorded acts) := by
  induction acts using List.reverseRecOn with
  | nil => exact counted_withLimits ops maxSamples maxSeries
  | append_singleton acts act ih =>
    have hsplit : recorded (acts ++ [act]) = recorded acts ++ recorded [act] :=
      List.filterMap_append
    rw [hsplit, List.length_append] at hcalls
    have hbefore := ih ((Nat.le_add_right _ _).trans_lt hcalls)
    rw [hsplit, Metrics.run, List.foldl_append]
    rcases act with c | ⟨domain, backend, ps⟩ | _
    · exact hbefore.recordRequest hcalls c
    · exact (List.append_nil (recorded acts)).symm ▸ hbefore.percentiles domain backend ps
    · exact (List.append_nil (recorded acts)).symm ▸ hbefore.render

/-- What the counter of a pair and a code says. -/
theorem Counted.requestCount_eq (h : Counted ops m calls) (domain backend : String) (code : ℕ) :
    m.requestCount domain backend code =
      calls.countP fun c => m.homeOf c = (domain, backend) ∧ c.code = code := by
  have hsplit : (calls.countP fun c => m.homeOf c = (domain, backend) ∧ c.code = code) =
      (under m.series calls (pairKey domain backend)).countP fun c => c.code = code := by
    rw [Counted.under_eq, List.countP_filter]
    refine List.countP_congr fun c _ => ?_
    rw [decide_eq_true_eq, Bool.and_eq_true, decide_eq_true_eq, decide_eq_true_eq]
    exact and_comm
  rw [hsplit]
  rcases hget : m.series.get (pairKey domain backend) with - | s
  · rw [Metrics.requestCount_of_none hget, eq_comm, List.countP_eq_zero]
    -- who is counted here has a series here
    intro c hc
    obtain ⟨hmem, hhome⟩ := List.mem_filter.mp hc
    have hhoused := h.housed c hmem
    rw [of_decide_eq_true hhome, hget] at hhoused
    cases hhoused
  · rw [Metrics.requestCount_of_get hget]
    exact (h.tells _ s hget).codes code

/-- **No request is lost**: after any run, all counts together are the number of requests, and each
pair's requests are under its own series, code by code, or all under the pairs beyond the bound.
The window of a series is the end of its latencies, and what is read of it is sorted. -/
theorem no_request_lost (ops : F64 F) (maxSamples maxSeries : ℕ) (acts : List (Act F))
    (hcalls : (recorded acts).length < 2 ^ 64) :
    let m := (Metrics.withLimits maxSamples maxSeries).run ops acts
    let calls := recorded acts
    (m.requestCounts.map fun row => row.2.2.2).sum = calls.length ∧
    (∀ domain backend code, m.requestCount domain backend code =
      calls.countP fun c => m.homeOf c = (domain, backend) ∧ c.code = code) ∧
    (∀ domain backend, (domain, backend) ≠ (overflowDomain, "") →
      ((m.seriesOf domain backend).isSome ∧ ∀ code, m.requestCount domain backend code =
        calls.countP fun c => (c.domain, c.backend) = (domain, backend) ∧ c.code = code) ∨
      (m.seriesOf domain backend = none ∧ ∀ c ∈ calls, (c.domain, c.backend) = (domain, backend) →
        m.homeOf c = (overflowDomain, "") ∧ (m.seriesOf overflowDomain "").isSome)) ∧
    (m.series.rows.Pairwise fun s t => pairKey s.domain s.backend < pairKey t.domain t.backend) ∧
    m.series.rows.length ≤ maxSeries + 1 ∧
    ∀ s ∈ m.series.rows,
      s.samples.Perm (((calls.filter fun c => m.homeOf c = (s.domain, s.backend)).map
        fun c => ops.secs c.nanos).rtake (Nat.max maxSamples 1)) ∧
      s.sortedCopy.1.Pairwise (· ≤ ·) ∧ s.sortedCopy.1.Perm s.samples := by
  intro m calls
  have hcounted : Counted ops m calls := counted_run ops maxSamples maxSeries acts hcalls
  have hlimits : m.maxSamples = Nat.max maxSamples 1 ∧ m.maxSeries = maxSeries :=
    limits_run ops (Metrics.withLimits maxSamples maxSeries) acts
  refine ⟨m.sum_requestCounts.trans hcounted.total, hcounted.requestCount_eq, ?_, m.series.sorted, ?_, ?_⟩
  · intro domain backend hpair
    rcases hget : m.series.get (pairKey domain backend) with - | s
    · refine .inr ⟨(m.seriesOf_eq domain backend).trans hget, fun c hc hkey => ?_⟩
      rw [Prod.mk.injEq] at hkey
      have hnone : m.series.get c.key = none := by
        rw [Call.key, hkey.1, hkey.2]
        exact hget
      have hhoused := hcounted.housed c hc
      rw [home_of_none hnone] at hhoused
      rw [Metrics.seriesOf_eq]
      exact ⟨(m.homeOf_eq_iff c _ _).mpr (home_of_none hnone), hhoused⟩
    · refine .inl ⟨?_, fun code => ?_⟩
      · rw [Metrics.seriesOf_eq, hget]
        rfl
      · rw [hcounted.requestCount_eq]
        refine List.countP_congr fun c _ => ?_
        rw [decide_eq_true_eq, decide_eq_true_eq]
        exact and_congr_left fun _ => homeOf_own hget hpair c
  · have hbound := hcounted.bound
    rw [hlimits.2] at hbound
    refine hbound.trans (Nat.add_le_add_left ?_ _)
    split_ifs
    · exact Nat.le_refl 1
    · exact Nat.zero_le 1
  · intro s hs
    have hget : m.series.get s.key = some s := SortedVec.get_eq_some_iff.mpr ⟨hs, rfl⟩
    have htells := hcounted.tells _ s hget
    rw [show s.key = pairKey s.domain s.backend from rfl, Counted.under_eq, hlimits.1] at htells
    rw [htells.sortedCopy_fst]
    exact ⟨htells.window.perm, List.pairwise_mergeSort' (· ≤ ·) _, List.mergeSort_perm _ _⟩

end

/-- Whole numbers of nanoseconds, as numbers. -/
def nanoseconds : F64 ℕ where
  zero := 0
  add := (· + ·)
  secs := id
  index n p := n * p
  quantiles := [1]
  fixed _ n := number n

set_option maxRecDepth 4000 in
theorem no_request_lost_two :
    ((Metrics.withLimits 2 1).run nanoseconds [.record ⟨"a", "b", 200, 7⟩, .render,
      .record ⟨"c", "d", 404, 5⟩, .percentiles "a" "b" [1]]).requestCount "_other" "" 404 = 1 ∧
    ((Metrics.withLimits 2 1).run nanoseconds [.record ⟨"a", "b", 200, 7⟩, .render,
      .record ⟨"c", "d", 404, 5⟩, .percentiles "a" "b" [1]]).series.rows.length ≤ 2 := by
  obtain ⟨-, hcount, -, -, hlen, -⟩ := no_request_lost nanoseconds 2 1
    [.record ⟨"a", "b", 200, 7⟩, .render, .record ⟨"c", "d", 404, 5⟩, .percentiles "a" "b" [1]]
    (by decide)
  exact ⟨(hcount "_other" "" 404).trans (by with_unfolding_all decide), hlen⟩

set_option maxRecDepth 4000 in
/-- A window for no latencies holds one. -/
theorem window_of_zero :
    ∃ s ∈ ((Metrics.withLimits 0 1).run nanoseconds [.record ⟨"a", "b", 200, 7⟩]).series.rows,
      ¬ s.samples.Perm ([nanoseconds.secs 7].rtake (min 1 0)) := by
  have hrows : (((Metrics.withLimits 0 1).run nanoseconds
      [.record ⟨"a", "b", 200, 7⟩]).series.rows.map Series.samples) = [[7]] := by with_unfolding_all decide
  obtain ⟨s, hs, hsamples⟩ := List.mem_map.mp (hrows ▸ List.mem_singleton_self [7])
  refine ⟨s, hs, ?_⟩
  rw [hsamples]
  decide

end Hop.Hoplb
