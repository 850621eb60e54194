import Mathlib

/-!
# Round robin with a counter that wraps

A counter of modulus `w` that goes up by one at every turn, reduced modulo the number `n` of those
that take turns. In every run of turns that does not wrap, each has its turn equally often, up to
one (`isEven_iff`), and any `n` turns give everyone one (`covers_iff`). Where the counter wraps that
holds if and only if `n` divides `w`, or the turns are too few to show it.
-/

namespace Hop.RoundRobin

variable {w n c k : ℕ}

/-- Whose turn is the turn `i` of a counter that starts at `c`. -/
def turn (w n c i : ℕ) : ℕ := (c + i) % w % n

theorem turn_lt (hn : 0 < n) (i : ℕ) : turn w n c i < n := Nat.mod_lt _ hn

theorem turn_of_lt {i : ℕ} (h : c + i < w) : turn w n c i = (c + i) % n := by
  rw [turn, Nat.mod_eq_of_lt h]

theorem turn_of_dvd (h : n ∣ w) (i : ℕ) : turn w n c i = (c + i) % n := Nat.mod_mod_of_dvd _ h

/-- The turns of `r` among `l` from the turn `a` on. -/
def turns (w n c a l r : ℕ) : ℕ := Nat.count (fun i => turn w n c (a + i) = r) l

/-- In each stretch of the first `k` turns, everyone has as many as the others, up to one. -/
def IsEven (w n c k : ℕ) : Prop :=
  ∀ a l, a + l ≤ k → ∀ r < n,
    l / n ≤ turns w n c a l r ∧ turns w n c a l r ≤ (l + n - 1) / n

/-! ### A counter that does not wrap -/

theorem add_mod_eq_iff {d r : ℕ} (hr : r < n) (i : ℕ) :
    (d + i) % n = r ↔ i ≡ r + (n - d % n) [MOD n] := by
  have hd : d % n < n := Nat.mod_lt _ (by omega)
  have hfull : r + (n - d % n) + d % n = r + n := by omega
  have hshift : (d + i) % n = r ↔ d + i ≡ r [MOD n] := by
    rw [Nat.ModEq, Nat.mod_eq_of_lt hr]
  have hmod : d + i ≡ d % n + i [MOD n] := (Nat.mod_modEq d n).symm.add_right i
  rw [hshift]
  constructor
  · intro h
    have hsum : i + d % n ≡ r + (n - d % n) + d % n [MOD n] := by
      rw [hfull, Nat.add_comm i]
      exact (hmod.symm.trans h).trans (Nat.add_modEq_right (n := n)).symm
    exact Nat.ModEq.add_right_cancel' _ hsum
  · intro h
    have hsum := h.add_right (d % n)
    rw [hfull, Nat.add_comm i] at hsum
    exact (hmod.trans hsum).trans (Nat.add_modEq_right (n := n))

theorem count_add_mod {d r : ℕ} (hr : r < n) (l : ℕ) :
    l / n ≤ Nat.count (fun i => (d + i) % n = r) l ∧
      Nat.count (fun i => (d + i) % n = r) l ≤ (l + n - 1) / n := by
  have hn : 0 < n := by omega
  have hcount : Nat.count (fun i => (d + i) % n = r) l =
      l / n + if (r + (n - d % n)) % n < l % n then 1 else 0 := by
    rw [← Nat.count_modEq_card l hn]
    simp only [add_mod_eq_iff hr]
  have hsplit : n * (l / n) + l % n = l := Nat.div_add_mod l n
  rw [hcount]
  refine ⟨Nat.le_add_right _ _, ?_⟩
  split_ifs with h
  · apply (Nat.le_div_iff_mul_le hn).mpr
    rw [Nat.add_mul, Nat.mul_comm]
    omega
  · exact Nat.div_le_div_right (by omega)

theorem count_congr {p q : ℕ → Prop} [DecidablePred p] [DecidablePred q] {l : ℕ}
    (h : ∀ i < l, (p i ↔ q i)) : Nat.count p l = Nat.count q l := by
  rw [Nat.count_eq_card_filter_range, Nat.count_eq_card_filter_range]
  congr 1
  exact Finset.filter_congr fun i hi => h i (Finset.mem_range.mp hi)

theorem isEven_of_eq (h : ∀ i < k, turn w n c i = (c + i) % n) : IsEven w n c k := by
  intro a l hle r hr
  have hcount : turns w n c a l r = Nat.count (fun i => (c + a + i) % n = r) l := by
    refine count_congr fun i hi => ?_
    rw [h (a + i) (by omega), Nat.add_assoc]
  rw [hcount]
  exact count_add_mod hr l

/-! ### A counter that wraps -/

/-- The turns before the wrap, backwards: they end with what is left of the range of the counter
after whole rounds. -/
theorem turn_before (hn : 0 < n) {m x : ℕ} (hm : c + m = w) (hx : x < m) (hq : x < w % n) :
    turn w n c (m - 1 - x) = w % n - 1 - x := by
  have hlt : w % n < n := Nat.mod_lt _ hn
  have hsplit : n * (w / n) + w % n = w := Nat.div_add_mod w n
  have hsum : c + (m - 1 - x) = w % n - 1 - x + n * (w / n) := by omega
  rw [turn_of_lt (by omega), hsum, Nat.add_mul_mod_self_left, Nat.mod_eq_of_lt (by omega)]

/-- The turns after the wrap start again. -/
theorem turn_after {m y : ℕ} (hm : c + m = w) (hw : y < w) (hy : y < n) :
    turn w n c (m + y) = y := by
  rw [turn, ← Nat.add_assoc, hm, Nat.add_mod_left, Nat.mod_eq_of_lt hw, Nat.mod_eq_of_lt hy]

/-- Where the counter wraps among enough turns, somebody has two turns out of `w % n + 1`. -/
theorem exists_turn_eq (hn : 0 < n) (hc : c < w) (hwrap : w < c + k) (hpos : 0 < w % n)
    (hk : w % n < k) : ∃ i j, i < j ∧ j < k ∧ j = i + w % n ∧ turn w n c i = turn w n c j := by
  have hlt : w % n < n := Nat.mod_lt _ hn
  have hle : w % n ≤ w := Nat.mod_le _ _
  obtain ⟨m, hm⟩ : ∃ m, c + m = w := ⟨w - c, by omega⟩
  -- `x` turns lie between the first of the two and the wrap, `y` between the wrap and the second
  obtain ⟨x, y, hxy, hx, hy⟩ : ∃ x y, x + y + 1 = w % n ∧ x < m ∧ m + y < k := by
    rcases le_or_gt (w % n) m with hmany | hfew
    · exact ⟨w % n - 1, 0, by omega, by omega, by omega⟩
    · exact ⟨m - 1, w % n - m, by omega, by omega, by omega⟩
  refine ⟨m - 1 - x, m + y, by omega, hy, by omega, ?_⟩
  rw [turn_before hn hm hx (by omega), turn_after hm (by omega) (by omega)]
  omega

/-- Fewer turns than `w % n` are all different, also where the counter wraps. -/
theorem turn_ne (hn : 0 < n) (hc : c < w) (hk : k ≤ w % n) {i j : ℕ} (hij : i < j) (hj : j < k) :
    turn w n c i ≠ turn w n c j := by
  have hlt : w % n < n := Nat.mod_lt _ hn
  have hle : w % n ≤ w := Nat.mod_le _ _
  obtain ⟨m, hm⟩ : ∃ m, c + m = w := ⟨w - c, by omega⟩
  intro heq
  rcases Nat.lt_or_ge j m with hbefore | hafter
  · -- both before the wrap
    rw [turn_of_lt (by omega), turn_of_lt (by omega)] at heq
    have hdvd : n ∣ c + j - (c + i) := (Nat.modEq_iff_dvd' (by omega)).mp heq
    have hgap := Nat.le_of_dvd (by omega) hdvd
    omega
  · rcases Nat.lt_or_ge i m with hi | hi
    · have hfirst := turn_before (x := m - 1 - i) hn hm (by omega) (by omega)
      have hsecond := turn_after (n := n) (y := j - m) hm (by omega) (by omega)
      rw [show m - 1 - (m - 1 - i) = i by omega] at hfirst
      rw [show m + (j - m) = j by omega] at hsecond
      omega
    · have hfirst := turn_after (n := n) (y := i - m) hm (by omega) (by omega)
      have hsecond := turn_after (n := n) (y := j - m) hm (by omega) (by omega)
      rw [show m + (i - m) = i by omega] at hfirst
      rw [show m + (j - m) = j by omega] at hsecond
      omega

theorem count_le_one {p : ℕ → Prop} [DecidablePred p] {l : ℕ}
    (h : ∀ i j, i < j → j < l → p i → ¬ p j) : Nat.count p l ≤ 1 := by
  induction l with
  | zero => exact Nat.zero_le _
  | succ l ih =>
    have hle := ih fun i j hij hj => h i j hij (by omega)
    rw [Nat.count_succ]
    split_ifs with hl
    · -- the last one counts, so none before it does
      have hzero : Nat.count p l = 0 := by
        rw [Nat.count_eq_card_filter_range, Finset.card_eq_zero, Finset.filter_eq_empty_iff]
        intro i hi hp
        exact h i l (Finset.mem_range.mp hi) (by omega) hp hl
      omega
    · omega

theorem two_le_count {p : ℕ → Prop} [DecidablePred p] {l i j : ℕ} (hij : i < j) (hj : j < l)
    (hi : p i) (hpj : p j) : 2 ≤ Nat.count p l := by
  have hfirst : Nat.count p (i + 1) = Nat.count p i + 1 := by rw [Nat.count_succ, if_pos hi]
  have hsecond : Nat.count p (j + 1) = Nat.count p j + 1 := by rw [Nat.count_succ, if_pos hpj]
  have hmid : Nat.count p (i + 1) ≤ Nat.count p j := Nat.count_monotone p hij
  have hlast : Nat.count p (j + 1) ≤ Nat.count p l := Nat.count_monotone p hj
  omega

/-- The turns are even if and only if the counter does not wrap among them, or `n` divides its
range, or there are at most as many turns as the range leaves over after whole rounds. -/
theorem isEven_iff (hn : 0 < n) (hc : c < w) :
    IsEven w n c k ↔ c + k ≤ w ∨ n ∣ w ∨ k ≤ w % n := by
  constructor
  · intro heven
    by_contra hnot
    obtain ⟨hwrap, hdvd, hk⟩ : w < c + k ∧ ¬ n ∣ w ∧ w % n < k := by omega
    have hpos : 0 < w % n := Nat.pos_of_ne_zero fun h0 => hdvd (Nat.dvd_of_mod_eq_zero h0)
    have hlt : w % n < n := Nat.mod_lt _ hn
    obtain ⟨i, j, hij, hj, hgap, heq⟩ := exists_turn_eq hn hc hwrap hpos hk
    -- the stretch from the first to the second of the two turns is shorter than a round
    obtain ⟨-, hle⟩ := heven i (w % n + 1) (by omega) (turn w n c i) (turn_lt hn i)
    have htwo : 2 ≤ turns w n c i (w % n + 1) (turn w n c i) := by
      refine two_le_count (i := 0) (j := w % n) hpos (by omega) rfl ?_
      rw [← hgap, heq]
    have hone : (w % n + 1 + n - 1) / n ≤ 1 := by
      apply Nat.le_of_lt_succ
      apply (Nat.div_lt_iff_lt_mul hn).mpr
      omega
    omega
  · rintro (hfit | hdvd | hfew)
    · exact isEven_of_eq fun i hi => turn_of_lt (by omega)
    · exact isEven_of_eq fun i _ => turn_of_dvd hdvd i
    · intro a l hle r _
      have hlt : w % n < n := Nat.mod_lt _ hn
      have hfloor : l / n = 0 := Nat.div_eq_of_lt (by omega)
      have hcount : turns w n c a l r ≤ 1 := by
        refine count_le_one fun i j hij hj hi hj' => ?_
        exact turn_ne hn hc hfew (show a + i < a + j by omega) (by omega) (hi.trans hj'.symm)
      refine ⟨hfloor ▸ Nat.zero_le _, ?_⟩
      rcases Nat.eq_zero_or_pos l with h0 | hpos
      · subst h0
        exact Nat.zero_le _
      · exact hcount.trans ((Nat.le_div_iff_mul_le hn).mpr (by omega))

/-- `n` turns give everyone one if and only if the counter does not wrap among them, or `n` divides
its range. -/
theorem covers_iff (hn : 0 < n) (hc : c < w) :
    (∀ r < n, ∃ i < n, turn w n c i = r) ↔ c + n ≤ w ∨ n ∣ w := by
  have hlt : w % n < n := Nat.mod_lt _ hn
  constructor
  · intro hcovers
    by_contra hnot
    obtain ⟨hwrap, hdvd⟩ : w < c + n ∧ ¬ n ∣ w := by omega
    have hpos : 0 < w % n := Nat.pos_of_ne_zero fun h0 => hdvd (Nat.dvd_of_mod_eq_zero h0)
    obtain ⟨i, j, hij, hj, -, heq⟩ := exists_turn_eq hn hc hwrap hpos hlt
    -- who has a turn for each of `n` has none twice
    have hsurj : Set.SurjOn (turn w n c) (Finset.range n) (Finset.range n) := by
      intro r hr
      obtain ⟨i, hi, hturn⟩ := hcovers r (Finset.mem_range.mp hr)
      exact ⟨i, Finset.mem_coe.mpr (Finset.mem_range.mpr hi), hturn⟩
    have hinj := Finset.injOn_of_surjOn_of_card_le (turn w n c)
      (fun i _ => Finset.mem_coe.mpr (Finset.mem_range.mpr (turn_lt hn i))) hsurj le_rfl
    have hmem : ∀ i < n, i ∈ (Finset.range n : Set ℕ) :=
      fun i hi => Finset.mem_coe.mpr (Finset.mem_range.mpr hi)
    exact hij.ne (hinj (hmem i (hij.trans hj)) (hmem j hj) heq)
  · intro h r hr
    have heven : IsEven w n c n := (isEven_iff hn hc).mpr (by omega)
    obtain ⟨hone, -⟩ := heven 0 n (by omega) r hr
    rw [Nat.div_self hn] at hone
    by_contra hnone
    have hzero : turns w n c 0 n r = 0 := by
      rw [turns, Nat.count_eq_card_filter_range, Finset.card_eq_zero, Finset.filter_eq_empty_iff]
      intro i hi hturn
      rw [Nat.zero_add] at hturn
      exact hnone ⟨i, Finset.mem_range.mp hi, hturn⟩
    omega

/-- In `n` turns without a wrap everyone has exactly one. -/
theorem map_turn_perm (hn : 0 < n) (hc : c < w) (h : c + n ≤ w) :
    ((List.range n).map (turn w n c)).Perm (List.range n) := by
  have hsub : List.range n ⊆ (List.range n).map (turn w n c) := by
    intro r hr
    obtain ⟨i, hi, hturn⟩ := (covers_iff hn hc).mpr (.inl h) r (List.mem_range.mp hr)
    exact List.mem_map.mpr ⟨i, List.mem_range.mpr hi, hturn⟩
  refine (List.Subperm.perm_of_length_le (List.subperm_of_subset List.nodup_range hsub) ?_).symm
  rw [List.length_map]

end Hop.RoundRobin
