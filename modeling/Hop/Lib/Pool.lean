import Mathlib

/-!
# Charges that pools share

A list of charges, some of which belong to a pool: a pool is charged once, by the first of its
members. The charges that count are added up one after the other, and every sum is clamped to an
interval. One more charge raises the sum by at most its own, whatever the order and the clamping
(`total_insert_le`), one more member of a pool that was charged before it raises nothing
(`firsts_insert_member`), and one that the pool is now charged by raises it by at most what it costs
more than the one before (`total_insert_first_le`), or by exactly that where no charge is negative
(`sum_insert_first`, `total_eq`).
-/

namespace Hop.Pool

universe u

/-- The nearest number between `lo` and `hi`. -/
def clamp (lo hi x : ℤ) : ℤ := max lo (min x hi)

/-- The sum of a list from `c` on, clamped at every step. -/
def total (lo hi c : ℤ) (xs : List ℤ) : ℤ := xs.foldl (fun c x => clamp lo hi (c + x)) c

section Total

variable {lo hi c c' d x : ℤ} {xs ys : List ℤ}

theorem clamp_mono (h : c ≤ c') : clamp lo hi c ≤ clamp lo hi c' :=
  max_le_max le_rfl (min_le_min h le_rfl)

theorem lo_le_clamp : lo ≤ clamp lo hi c := le_max_left _ _

theorem clamp_le_hi (h : lo ≤ hi) : clamp lo hi c ≤ hi := max_le h (min_le_right _ _)

theorem clamp_add_le (hd : 0 ≤ d) : clamp lo hi (c + d) ≤ clamp lo hi c + d := by
  unfold clamp
  omega

theorem clamp_of_mem (hlo : lo ≤ c) (hhi : c ≤ hi) : clamp lo hi c = c := by
  unfold clamp
  omega

theorem total_mono (h : c ≤ c') : total lo hi c xs ≤ total lo hi c' xs := by
  induction xs generalizing c c' with
  | nil => exact h
  | cons x xs ih => exact ih (clamp_mono (by omega))

/-- A larger start is felt by at most as much at the end. -/
theorem total_add_le (hd : 0 ≤ d) : total lo hi (c + d) xs ≤ total lo hi c xs + d := by
  induction xs generalizing c with
  | nil => exact le_refl _
  | cons x xs ih =>
    have hstep : clamp lo hi (c + d + x) ≤ clamp lo hi (c + x) + d := by
      rw [show c + d + x = c + x + d by omega]
      exact clamp_add_le hd
    calc total lo hi (c + d) (x :: xs) = total lo hi (clamp lo hi (c + d + x)) xs := rfl
      _ ≤ total lo hi (clamp lo hi (c + x) + d) xs := total_mono hstep
      _ ≤ total lo hi (clamp lo hi (c + x)) xs + d := ih

theorem lo_le_total (h : lo ≤ c) : lo ≤ total lo hi c xs := by
  induction xs generalizing c with
  | nil => exact h
  | cons x xs ih => exact ih lo_le_clamp

theorem total_le_hi (hlh : lo ≤ hi) (h : c ≤ hi) : total lo hi c xs ≤ hi := by
  induction xs generalizing c with
  | nil => exact h
  | cons x xs ih => exact ih (clamp_le_hi hlh)

theorem total_append : total lo hi c (xs ++ ys) = total lo hi (total lo hi c xs) ys :=
  List.foldl_append

theorem total_cons : total lo hi c (x :: xs) = total lo hi (clamp lo hi (c + x)) xs := rfl

/-- **One more charge** raises the sum by at most itself. -/
theorem total_insert_le (hlh : lo ≤ hi) (hlo : lo ≤ c) (hhi : c ≤ hi) (hx : 0 ≤ x) :
    total lo hi c (xs ++ x :: ys) ≤ clamp lo hi (total lo hi c (xs ++ ys) + x) := by
  rw [total_append, total_append, total_cons]
  generalize hm : total lo hi c xs = m
  have hmlo : lo ≤ m := hm ▸ lo_le_total hlo
  have hmhi : m ≤ hi := hm ▸ total_le_hi hlh hhi
  have hstep : clamp lo hi (m + x) ≤ m + x := by
    unfold clamp
    omega
  have hup : total lo hi (clamp lo hi (m + x)) ys ≤ total lo hi m ys + x :=
    (total_mono hstep).trans (total_add_le hx)
  have htop : total lo hi (clamp lo hi (m + x)) ys ≤ hi := total_le_hi hlh (clamp_le_hi hlh)
  unfold clamp at hup htop ⊢
  omega

/-- A charge that is not positive does not raise the sum. -/
theorem total_insert_le_of_nonpos (hlh : lo ≤ hi) (hlo : lo ≤ c) (hhi : c ≤ hi) (hx : x ≤ 0) :
    total lo hi c (xs ++ x :: ys) ≤ total lo hi c (xs ++ ys) := by
  rw [total_append, total_append, total_cons]
  refine total_mono ?_
  have hmlo : lo ≤ total lo hi c xs := lo_le_total hlo
  have hmhi : total lo hi c xs ≤ hi := total_le_hi hlh hhi
  unfold clamp
  omega

end Total

variable {γ : Type u} [DecidableEq γ]

/-- The charges that count: those without a pool, and the first of every pool. -/
def firsts : List γ → List (Option γ × ℤ) → List ℤ
  | _, [] => []
  | seen, (none, x) :: cs => x :: firsts seen cs
  | seen, (some g, x) :: cs => if g ∈ seen then firsts seen cs else x :: firsts (seen ++ [g]) cs

/-- The clamped sum of the charges that count. -/
def counted (lo hi : ℤ) (cs : List (Option γ × ℤ)) : ℤ := total lo hi 0 (firsts [] cs)

/-! ### One more charge -/

section Insert

variable {seen seen' : List γ} {cs ds : List (Option γ × ℤ)} {g : γ} {x : ℤ}

/-- Only the pools of the list matter. -/
theorem firsts_congr (h : ∀ g x, (some g, x) ∈ cs → (g ∈ seen ↔ g ∈ seen')) :
    firsts seen cs = firsts seen' cs := by
  induction cs generalizing seen seen' with
  | nil => rfl
  | cons c cs ih =>
    have hrest : ∀ g x, (some g, x) ∈ cs → (g ∈ seen ↔ g ∈ seen') := fun g x hmem =>
      h g x (List.mem_cons_of_mem _ hmem)
    match c with
    | (none, x) => exact congrArg (x :: ·) (ih hrest)
    | (some g, x) =>
      have hg := h g x List.mem_cons_self
      unfold firsts
      by_cases hseen : g ∈ seen
      · rw [if_pos hseen, if_pos (hg.mp hseen)]
        exact ih hrest
      · rw [if_neg hseen, if_neg (fun h' => hseen (hg.mpr h'))]
        refine congrArg (x :: ·) (ih fun g' y hmem => ?_)
        rw [List.mem_append, List.mem_append, hrest g' y hmem]

/-- A charge without a pool counts beside the others. -/
theorem firsts_insert_none (seen : List γ) (cs ds : List (Option γ × ℤ)) (x : ℤ) :
    ∃ xs ys, firsts seen (cs ++ (none, x) :: ds) = xs ++ x :: ys ∧
      firsts seen (cs ++ ds) = xs ++ ys := by
  induction cs generalizing seen with
  | nil => exact ⟨[], firsts seen ds, rfl, rfl⟩
  | cons c cs ih =>
    match c with
    | (none, y) =>
      obtain ⟨xs, ys, h, h'⟩ := ih seen
      exact ⟨y :: xs, ys, congrArg (y :: ·) h, congrArg (y :: ·) h'⟩
    | (some g, y) =>
      simp only [List.cons_append, firsts]
      split_ifs
      · exact ih seen
      · obtain ⟨xs, ys, h, h'⟩ := ih (seen ++ [g])
        exact ⟨y :: xs, ys, congrArg (y :: ·) h, congrArg (y :: ·) h'⟩

/-- So does the only member of a pool. -/
theorem firsts_insert_new (hseen : g ∉ seen) (hcs : ∀ y, (some g, y) ∉ cs) (hds : ∀ y, (some g, y) ∉ ds)
    (x : ℤ) : ∃ xs ys, firsts seen (cs ++ (some g, x) :: ds) = xs ++ x :: ys ∧
      firsts seen (cs ++ ds) = xs ++ ys := by
  induction cs generalizing seen with
  | nil =>
    refine ⟨[], firsts seen ds, ?_, rfl⟩
    simp only [List.nil_append, firsts, if_neg hseen]
    refine congrArg (x :: ·) (firsts_congr fun g' y hmem => ?_)
    rw [List.mem_append, List.mem_singleton, or_iff_left]
    rintro rfl
    exact hds y hmem
  | cons c cs ih =>
    have hrest : ∀ y, (some g, y) ∉ cs := fun y hmem => hcs y (List.mem_cons_of_mem _ hmem)
    match c, hcs with
    | (none, y), _ =>
      obtain ⟨xs, ys, h, h'⟩ := ih hseen hrest
      exact ⟨y :: xs, ys, congrArg (y :: ·) h, congrArg (y :: ·) h'⟩
    | (some g', y), hcs =>
      simp only [List.cons_append, firsts]
      split_ifs
      · exact ih hseen hrest
      · have hne : g ≠ g' := by
          rintro rfl
          exact hcs y List.mem_cons_self
        have hnew : g ∉ seen ++ [g'] := by simp [hseen, hne]
        obtain ⟨xs, ys, h, h'⟩ := ih hnew hrest
        exact ⟨y :: xs, ys, congrArg (y :: ·) h, congrArg (y :: ·) h'⟩

/-- A later member of a pool does not count. -/
theorem firsts_insert_member (h : g ∈ seen ∨ ∃ y, (some g, y) ∈ cs) (x : ℤ) :
    firsts seen (cs ++ (some g, x) :: ds) = firsts seen (cs ++ ds) := by
  induction cs generalizing seen with
  | nil =>
    obtain hseen := h.resolve_right fun ⟨y, hmem⟩ => absurd hmem List.not_mem_nil
    simp only [List.nil_append, firsts, if_pos hseen]
  | cons c cs ih =>
    match c, h with
    | (none, y), h =>
      refine congrArg (y :: ·) (ih (h.imp_right fun ⟨z, hz⟩ => ⟨z, ?_⟩))
      exact (List.mem_cons.mp hz).resolve_left fun heq => by cases heq
    | (some g', y), h =>
      simp only [List.cons_append, firsts]
      split_ifs with hseen
      · refine ih ?_
        rcases h with h | ⟨z, hz⟩
        · exact .inl h
        · rcases List.mem_cons.mp hz with heq | hz
          · cases heq
            exact .inl hseen
          · exact .inr ⟨z, hz⟩
      · refine congrArg (y :: ·) (ih ?_)
        rcases h with h | ⟨z, hz⟩
        · exact .inl (List.mem_append_left _ h)
        · rcases List.mem_cons.mp hz with heq | hz
          · cases heq
            exact .inl (List.mem_append_right _ (List.mem_singleton_self _))
          · exact .inr ⟨z, hz⟩

end Insert

/-! ### A new first member -/

section First

variable {seen seen' : List γ} {cs ds : List (Option γ × ℤ)} {g : γ} {lo hi c c' d k x : ℤ}

/-- What a pool is charged: the cost of its first member, or nothing. -/
def charge (g : γ) (cs : List (Option γ × ℤ)) : ℤ :=
  ((cs.find? fun c => c.1 = some g).map Prod.snd).getD 0

theorem charge_cons_of_ne {e : Option γ × ℤ} (h : e.1 ≠ some g) : charge g (e :: cs) = charge g cs := by
  unfold charge
  rw [List.find?_cons_of_neg (by simpa using h)]

theorem charge_cons_self : charge g ((some g, x) :: cs) = x := by
  unfold charge
  rw [List.find?_cons_of_pos (by simp)]
  rfl

theorem charge_append (h : ∀ y, (some g, y) ∉ cs) (ds : List (Option γ × ℤ)) :
    charge g (cs ++ ds) = charge g ds := by
  induction cs with
  | nil => rfl
  | cons e cs ih =>
    rw [List.cons_append, charge_cons_of_ne, ih fun y hmem => h y (List.mem_cons_of_mem _ hmem)]
    rintro heq
    exact h e.2 (List.mem_cons.mpr (.inl (Prod.ext heq.symm rfl)))

/-- A list whose pool `g` was charged before it, from a start that is larger by `d`. -/
theorem total_firsts_le (hk : 0 ≤ k) (hd : 0 ≤ d) (hlarge : d ≤ charge g ds + k) (hseen : g ∉ seen)
    (hseen' : ∀ h, h ∈ seen' ↔ h ∈ seen ∨ h = g) (hlh : lo ≤ hi) (hc : c' ≤ c + d) (hhi : c' ≤ hi) :
    total lo hi c' (firsts seen' ds) ≤ total lo hi c (firsts seen ds) + k := by
  induction ds generalizing c c' seen seen' with
  | nil =>
    have hzero : charge g ([] : List (Option γ × ℤ)) = 0 := rfl
    rw [hzero] at hlarge
    show c' ≤ c + k
    omega
  | cons e ds ih =>
    have hstep : ∀ z, clamp lo hi (c' + z) ≤ clamp lo hi (c + z) + d := by
      intro z
      unfold clamp
      omega
    obtain ⟨pool, z⟩ := e
    cases pool with
    | none =>
      rw [charge_cons_of_ne (by simp)] at hlarge
      exact ih hlarge hseen hseen' (hstep z) (clamp_le_hi hlh)
    | some g' =>
      by_cases hg : g' = g
      · -- the member that the pool was charged by
        subst hg
        rw [charge_cons_self] at hlarge
        rw [firsts, firsts, if_pos ((hseen' g').mpr (.inr rfl)), if_neg hseen, total_cons]
        have hsame : firsts seen' ds = firsts (seen ++ [g']) ds := firsts_congr fun h y _ => by
          rw [hseen', List.mem_append, List.mem_singleton]
        have hle : c' ≤ clamp lo hi (c + z) + k := by
          unfold clamp
          omega
        rw [hsame]
        exact (total_mono hle).trans (total_add_le hk)
      · rw [charge_cons_of_ne fun h => hg (Option.some.inj h)] at hlarge
        have hmem : g' ∈ seen' ↔ g' ∈ seen := (hseen' g').trans (or_iff_left hg)
        rw [firsts, firsts]
        by_cases hin : g' ∈ seen
        · rw [if_pos (hmem.mpr hin), if_pos hin]
          exact ih hlarge hseen hseen' hc hhi
        · rw [if_neg fun h => hin (hmem.mp h), if_neg hin]
          refine ih hlarge ?_ (fun h => ?_) (hstep z) (clamp_le_hi hlh)
          · simp [hseen, Ne.symm hg]
          · rw [List.mem_append, List.mem_append, hseen']
            exact or_right_comm

/-- **A new first member** raises the sum by at most what it costs more than the pool was charged. -/
theorem total_insert_first_le (hk : 0 ≤ k) (hx : max x 0 ≤ charge g ds + k) (hseen : g ∉ seen)
    (hcs : ∀ y, (some g, y) ∉ cs) (hlo : lo ≤ c) (hhi : c ≤ hi) :
    total lo hi c (firsts seen (cs ++ (some g, x) :: ds)) ≤
      total lo hi c (firsts seen (cs ++ ds)) + k := by
  have hlh := hlo.trans hhi
  induction cs generalizing c seen with
  | nil =>
    rw [List.nil_append, List.nil_append, firsts, if_neg hseen, total_cons]
    refine total_firsts_le hk (le_max_right x 0) hx hseen (fun h => ?_) hlh ?_ (clamp_le_hi hlh)
    · rw [List.mem_append, List.mem_singleton]
    · unfold clamp
      omega
  | cons e cs ih =>
    have hrest : ∀ y, (some g, y) ∉ cs := fun y hmem => hcs y (List.mem_cons_of_mem _ hmem)
    obtain ⟨pool, z⟩ := e
    cases pool with
    | none => exact ih hseen hrest lo_le_clamp (clamp_le_hi hlh)
    | some g' =>
      have hg : g ≠ g' := by
        rintro rfl
        exact hcs z List.mem_cons_self
      rw [List.cons_append, List.cons_append, firsts, firsts]
      split_ifs with hin
      · exact ih hseen hrest hlo hhi
      · exact ih (by simp [hseen, hg]) hrest lo_le_clamp (clamp_le_hi hlh)

/-- Charges that are not negative are clamped at the top only. -/
theorem total_eq {xs : List ℤ} (hx : ∀ x ∈ xs, 0 ≤ x) (hlo : lo ≤ c) (hhi : c ≤ hi) :
    total lo hi c xs = min hi (c + xs.sum) := by
  induction xs generalizing c with
  | nil =>
    show c = min hi (c + 0)
    omega
  | cons x xs ih =>
    rw [List.forall_mem_cons] at hx
    have hsum : 0 ≤ xs.sum := List.sum_nonneg hx.2
    rw [total_cons, ih hx.2 lo_le_clamp (clamp_le_hi (hlo.trans hhi)), List.sum_cons]
    have hpos := hx.1
    unfold clamp
    omega

theorem sum_firsts_seen (hseen : g ∉ seen) (hseen' : ∀ h, h ∈ seen' ↔ h ∈ seen ∨ h = g) :
    (firsts seen' ds).sum = (firsts seen ds).sum - charge g ds := by
  induction ds generalizing seen seen' with
  | nil => rfl
  | cons e ds ih =>
    obtain ⟨pool, z⟩ := e
    cases pool with
    | none =>
      have hrest := ih hseen hseen'
      rw [charge_cons_of_ne (by simp), firsts, firsts, List.sum_cons, List.sum_cons]
      omega
    | some g' =>
      by_cases hg : g' = g
      · subst hg
        have hsame : firsts seen' ds = firsts (seen ++ [g']) ds := firsts_congr fun h y _ => by
          rw [hseen', List.mem_append, List.mem_singleton]
        rw [charge_cons_self, firsts, firsts, if_pos ((hseen' g').mpr (.inr rfl)), if_neg hseen, hsame,
          List.sum_cons]
        omega
      · have hmem : g' ∈ seen' ↔ g' ∈ seen := (hseen' g').trans (or_iff_left hg)
        rw [charge_cons_of_ne fun h => hg (Option.some.inj h), firsts, firsts]
        by_cases hin : g' ∈ seen
        · rw [if_pos (hmem.mpr hin), if_pos hin]
          exact ih hseen hseen'
        · have hnew : g ∉ seen ++ [g'] := by simp [hseen, Ne.symm hg]
          have hnew' : ∀ h, h ∈ seen' ++ [g'] ↔ h ∈ seen ++ [g'] ∨ h = g := fun h => by
            rw [List.mem_append, List.mem_append, hseen']
            exact or_right_comm
          have hrest := ih hnew hnew'
          rw [if_neg fun h => hin (hmem.mp h), if_neg hin, List.sum_cons, List.sum_cons]
          omega

/-- What a new first member adds to the charges that count. -/
theorem sum_insert_first (hseen : g ∉ seen) (hcs : ∀ y, (some g, y) ∉ cs) (x : ℤ) :
    (firsts seen (cs ++ (some g, x) :: ds)).sum =
      (firsts seen (cs ++ ds)).sum + (x - charge g ds) := by
  induction cs generalizing seen with
  | nil =>
    have hds : (firsts (seen ++ [g]) ds).sum = (firsts seen ds).sum - charge g ds :=
      sum_firsts_seen hseen fun h => by rw [List.mem_append, List.mem_singleton]
    rw [List.nil_append, List.nil_append, firsts, if_neg hseen, List.sum_cons, hds]
    omega
  | cons e cs ih =>
    have hrest : ∀ y, (some g, y) ∉ cs := fun y hmem => hcs y (List.mem_cons_of_mem _ hmem)
    obtain ⟨pool, z⟩ := e
    cases pool with
    | none =>
      rw [List.cons_append, List.cons_append, firsts, firsts, List.sum_cons, List.sum_cons,
        ih hseen hrest]
      omega
    | some g' =>
      have hg : g ≠ g' := by
        rintro rfl
        exact hcs z List.mem_cons_self
      rw [List.cons_append, List.cons_append, firsts, firsts]
      split_ifs with hin
      · exact ih hseen hrest
      · rw [List.sum_cons, List.sum_cons, ih (by simp [hseen, hg]) hrest]
        omega

theorem firsts_subset (seen : List γ) (cs : List (Option γ × ℤ)) :
    ∀ x ∈ firsts seen cs, ∃ e ∈ cs, e.2 = x := by
  induction cs generalizing seen with
  | nil => exact fun x hx => absurd hx List.not_mem_nil
  | cons e cs ih =>
    have hrest : ∀ {seen' : List γ}, ∀ x ∈ firsts seen' cs, ∃ e' ∈ e :: cs, e'.2 = x :=
      fun x hx => (ih _ x hx).imp fun e' he' => ⟨List.mem_cons_of_mem _ he'.1, he'.2⟩
    obtain ⟨pool, z⟩ := e
    cases pool with
    | none =>
      intro x hx
      rcases List.mem_cons.mp hx with rfl | hx
      · exact ⟨_, List.mem_cons_self, rfl⟩
      · exact hrest x hx
    | some g =>
      intro x hx
      rw [firsts] at hx
      split_ifs at hx
      · exact hrest x hx
      · rcases List.mem_cons.mp hx with rfl | hx
        · exact ⟨_, List.mem_cons_self, rfl⟩
        · exact hrest x hx

end First

end Hop.Pool
