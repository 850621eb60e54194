import Hop.Cloudflared.Language

/-!
# The Pike machine

The threads at a position are the addresses that some way reaches there (`Reach`). `add` closes a
list of threads under the steps without a byte: an address on the stack was not looked at yet, and
what was looked at has all its targets in the list or on the stack (`Pending`). Each split that is
looked at leaves one more address on the stack, and there are fewer splits than `maxProg`: that is
why neither array is ever full.
-/

namespace Hop.Cloudflared

open Relation

variable {prog : List Inst} {s : Bytes} {pos len p q pc : ℕ} {t t' : Threads} {stack : List ℕ}

/-! ### Steps without a byte -/

/-- A step is one to a target at the same position, or one over a byte. -/
theorem step_iff {j : ℕ} : Step prog s (pc, pos) (p, j) ↔
    (p ∈ targets prog[pc]? pc pos s.length ∧ j = pos) ∨
      ∃ set x, prog[pc]? = some (.set set) ∧ s[pos]? = some x ∧ set.has x = true ∧ p = pc + 1 ∧
        j = pos + 1 := by
  rcases h : prog[pc]? with - | i
  · rw [show targets none pc pos s.length = [] from rfl]
    constructor
    · intro hstep
      cases hstep with
      | set ha | first ha | second ha | jmp ha | begin ha | endText ha => rw [h] at ha; cases ha
    · rintro (⟨hmem, -⟩ | ⟨_, _, hset, -⟩)
      · cases hmem
      · cases hset
  · rcases i with set | ⟨a, b⟩ | u | - | - | -
    · rw [step_set h, show targets (some (.set set)) pc pos s.length = [] from rfl]
      constructor
      · rintro ⟨rfl, ⟨x, hx, hset⟩, rfl⟩
        exact .inr ⟨set, x, rfl, hx, hset, rfl, rfl⟩
      · rintro (⟨hmem, -⟩ | ⟨set', x, hset', hx, hset, rfl, rfl⟩)
        · cases hmem
        · cases hset'
          exact ⟨rfl, ⟨x, hx, hset⟩, rfl⟩
    · rw [step_split h, targets, or_comm]
      simp only [List.mem_cons, List.not_mem_nil, or_false, Option.some.injEq, reduceCtorEq,
        false_and, exists_const]
    · rw [step_jmp h, targets]
      simp only [List.mem_singleton, Option.some.injEq, reduceCtorEq, false_and, exists_const,
        or_false]
    · rw [step_begin h, targets]
      by_cases h0 : pos = 0
      · simp [h0]
      · simp [h0]
    · rw [step_endText h, targets]
      by_cases h0 : pos = s.length
      · simp [h0]
      · simp [h0]
    · rw [show targets (some .found) pc pos s.length = [] from rfl]
      constructor
      · exact fun hstep => absurd hstep (not_step_found h)
      · rintro (⟨hmem, -⟩ | ⟨_, _, hset, -⟩)
        · cases hmem
        · cases hset

theorem le_of_way {c d : ℕ × ℕ} (h : ReflTransGen (Step prog s) c d) : c.2 ≤ d.2 := by
  induction h with
  | refl => exact le_rfl
  | @tail c d _ hstep ih =>
    obtain ⟨q, k⟩ := c
    obtain ⟨p, j⟩ := d
    rcases step_iff.mp hstep with ⟨-, rfl⟩ | ⟨_, _, -, -, -, -, rfl⟩
    · exact ih
    · exact ih.trans (Nat.le_succ k)

/-! ### The list of threads -/

/-- The list and the marks are of the same addresses, all of the program, and nothing was lost. -/
structure Threads.Tidy (t : Threads) (n : ℕ) : Prop where
  on_eq : t.on = t.pcs.toFinset
  nodup : t.pcs.Nodup
  lt : ∀ p ∈ t.on, p < n
  kept : t.lost = false

theorem Threads.tidy_empty (n : ℕ) : Threads.Tidy {} n where
  on_eq := rfl
  nodup := List.nodup_nil
  lt := nofun
  kept := rfl

theorem Threads.Tidy.clear {n : ℕ} (h : t.Tidy n) : t.clear = {} := by
  rw [Threads.clear, h.on_eq, Finset.sdiff_self, h.kept]

theorem Threads.Tidy.mem_pcs {n : ℕ} (h : t.Tidy n) : p ∈ t.pcs ↔ p ∈ t.on := by
  rw [h.on_eq, List.mem_toFinset]

/-- An address of the program is added unless it is there; there is room. -/
theorem Threads.Tidy.insert {n : ℕ} (h : t.Tidy n) (hn : n ≤ maxProg) (hp : p < n) :
    (p ∈ t.on ∧ t.insert p = (false, t)) ∨ (p ∉ t.on ∧ ∃ t', t.insert p = (true, t') ∧
      t'.on = Insert.insert p t.on ∧ t'.Tidy n) := by
  rw [Threads.insert, if_neg (by omega)]
  by_cases hmem : p ∈ t.on
  · rw [if_pos hmem]
    exact .inl ⟨hmem, rfl⟩
  · have hnot : p ∉ t.pcs := fun hin => hmem (h.mem_pcs.mp hin)
    have hroom : t.pcs.length < maxProg := by
      have hsub : t.on ⊂ Finset.range n := by
        rw [Finset.ssubset_iff_of_subset fun q hq => Finset.mem_range.mpr (h.lt q hq)]
        exact ⟨p, Finset.mem_range.mpr hp, hmem⟩
      have hcard := Finset.card_lt_card hsub
      rw [h.on_eq, List.toFinset_card_of_nodup h.nodup, Finset.card_range] at hcard
      omega
    rw [if_neg hmem, if_pos hroom]
    refine .inr ⟨hmem, _, rfl, rfl, ?_, ?_, ?_, h.kept⟩
    · dsimp only
      rw [h.on_eq, List.toFinset_append]
      ext q
      simp
    · exact List.nodup_append.mpr ⟨h.nodup, List.nodup_singleton p, fun a ha b hb => by
        rw [List.mem_singleton] at hb
        exact fun heq => hnot (hb ▸ heq ▸ ha)⟩
    · intro q hq
      rcases Finset.mem_insert.mp hq with rfl | hq
      · exact hp
      · exact h.lt q hq

/-! ### The closure -/

def Inst.isSplit : Inst → Bool
  | .split _ _ => true
  | _ => false

/-- The splits that were not looked at. -/
def freeSplits (prog : List Inst) (t : Threads) : Finset ℕ :=
  (Finset.range prog.length).filter fun p => (prog[p]?).any Inst.isSplit = true ∧ p ∉ t.on

/-- A program that no step leaves and that fits. -/
structure Sealed (prog : List Inst) : Prop where
  le : prog.length ≤ maxProg
  targets_lt : ∀ {pc pos len q}, pc < prog.length → q ∈ targets prog[pc]? pc pos len →
    q < prog.length
  set_lt : ∀ {pc set}, prog[pc]? = some (.set set) → pc + 1 < prog.length
  found : ∃ f < prog.length, prog[f]? = some .found

theorem Sealed.length_pos (h : Sealed prog) : 0 < prog.length := by
  obtain ⟨f, hf, -⟩ := h.found
  omega

/-- The threads so far, where the addresses on the stack were not looked at. -/
structure Pending (prog : List Inst) (pos len : ℕ) (stack : List ℕ) (t : Threads) : Prop where
  tidy : t.Tidy prog.length
  stack_lt : ∀ p ∈ stack, p < prog.length
  fits : stack.length + (freeSplits prog t).card ≤ maxProg
  closed : ∀ p ∈ t.on, ∀ q ∈ targets prog[p]? p pos len, q ∈ t.on ∨ q ∈ stack
  unfound : ∀ p ∈ t.on, (prog[p]?).any Inst.isFound = false

theorem pushAll_of_fits {pcs : List ℕ} (h : stack.length + pcs.length ≤ maxProg) :
    pushAll pcs (stack, t) = (pcs.reverse ++ stack, t) := by
  induction pcs generalizing stack with
  | nil => rfl
  | cons pc pcs ih =>
    rw [List.length_cons] at h
    have hpush : push pc (stack, t) = (pc :: stack, t) := if_pos (show stack.length < maxProg by omega)
    have hrest : pushAll pcs (pc :: stack, t) = (pcs.reverse ++ pc :: stack, t) :=
      ih (by rw [List.length_cons]; omega)
    rw [pushAll] at hrest ⊢
    rw [List.foldl_cons, hpush, hrest, List.reverse_cons, List.append_assoc]
    rfl

/-- What is pushed for an instruction is no more than what looking at it frees. -/
theorem freeSplits_insert (hpc : pc < prog.length) (hnot : pc ∉ t.on)
    (ht : t'.on = Insert.insert pc t.on) :
    (targets prog[pc]? pc pos len).length + (freeSplits prog t').card ≤
      1 + (freeSplits prog t).card := by
  have hsub : freeSplits prog t' ⊆ freeSplits prog t := by
    intro q hq
    rw [freeSplits, Finset.mem_filter] at hq ⊢
    rw [ht, Finset.mem_insert, not_or] at hq
    exact ⟨hq.1, hq.2.1, hq.2.2.2⟩
  by_cases hsplit : (prog[pc]?).any Inst.isSplit = true
  · -- a split: two more, and it is free no longer
    have hlt : (freeSplits prog t').card < (freeSplits prog t).card := by
      apply Finset.card_lt_card
      rw [Finset.ssubset_iff_of_subset hsub]
      refine ⟨pc, Finset.mem_filter.mpr ⟨Finset.mem_range.mpr hpc, hsplit, hnot⟩, fun hin => ?_⟩
      rw [freeSplits, Finset.mem_filter, ht] at hin
      exact hin.2.2 (Finset.mem_insert_self _ _)
    have htwo := targets_length_le prog[pc]? pc pos len
    omega
  · have hcard := Finset.card_le_card hsub
    have hone : (targets prog[pc]? pc pos len).length ≤ 1 := by
      have hif : ∀ p : Prop, [Decidable p] → (if p then [pc + 1] else []).length ≤ 1 := by
        intro p _
        split_ifs
        · exact le_rfl
        · exact Nat.zero_le 1
      rcases hi : prog[pc]? with - | i
      · exact Nat.zero_le 1
      · rw [hi] at hsplit
        rcases i with set | ⟨a, b⟩ | u | - | - | -
        · exact Nat.zero_le 1
        · exact absurd rfl hsplit
        · exact le_rfl
        · exact hif _
        · exact hif _
        · exact Nat.zero_le 1
    omega

namespace Pending

variable {pos len : ℕ}

/-- An address that is there already is taken off the stack. -/
theorem seen (h : Pending prog pos len (pc :: stack) t) (hin : pc ∈ t.on) :
    Pending prog pos len stack t where
  tidy := h.tidy
  stack_lt p hp := h.stack_lt p (List.mem_cons_of_mem _ hp)
  fits := by
    have := h.fits
    rw [List.length_cons] at this
    omega
  closed p hp q hq := by
    rcases h.closed p hp q hq with hon | hstack
    · exact .inl hon
    · rcases List.mem_cons.mp hstack with rfl | hstack
      · exact .inl hin
      · exact .inr hstack
  unfound := h.unfound

/-- A new one is added, and what it leads to comes on the stack. -/
theorem fresh (hprog : Sealed prog) (h : Pending prog pos len (pc :: stack) t) (hnot : pc ∉ t.on)
    (hon : t'.on = Insert.insert pc t.on) (htidy : t'.Tidy prog.length)
    (hfound : (prog[pc]?).any Inst.isFound = false) :
    pushAll (targets prog[pc]? pc pos len) (stack, t') =
        ((targets prog[pc]? pc pos len).reverse ++ stack, t') ∧
      Pending prog pos len ((targets prog[pc]? pc pos len).reverse ++ stack) t' := by
  have hpc : pc < prog.length := h.stack_lt pc List.mem_cons_self
  have hfree : (targets prog[pc]? pc pos len).length + (freeSplits prog t').card ≤
      1 + (freeSplits prog t).card := freeSplits_insert hpc hnot hon
  have hfits := h.fits
  rw [List.length_cons] at hfits
  refine ⟨pushAll_of_fits (by omega), htidy, ?_, ?_, ?_, ?_⟩
  · intro p hp
    rcases List.mem_append.mp hp with hp | hp
    · exact hprog.targets_lt hpc (List.mem_reverse.mp hp)
    · exact h.stack_lt p (List.mem_cons_of_mem _ hp)
  · rw [List.length_append, List.length_reverse]
    omega
  · intro p hp q hq
    rw [hon, Finset.mem_insert] at hp ⊢
    rw [List.mem_append, List.mem_reverse]
    rcases hp with rfl | hp
    · exact .inr (.inl hq)
    · rcases h.closed p hp q hq with hin | hstack
      · exact .inl (.inr hin)
      · rcases List.mem_cons.mp hstack with rfl | hstack
        · exact .inl (.inl rfl)
        · exact .inr (.inr hstack)
  · intro p hp
    rw [hon, Finset.mem_insert] at hp
    rcases hp with rfl | hp
    · exact hfound
    · exact h.unfound p hp

end Pending

/-- What the loop of `add` makes of threads and a stack: nothing is lost; if it finds nothing, all
that was on the stack was looked at; and what it adds is reached from there. -/
structure Closes (prog : List Inst) (pos len : ℕ) (stack : List ℕ) (t : Threads)
    (o : Bool × Threads) : Prop where
  tidy : o.2.Tidy prog.length
  mono : t.on ⊆ o.2.on
  pending : o.1 = false → Pending prog pos len [] o.2 ∧ ∀ p ∈ stack, p ∈ o.2.on
  found : o.1 = true → ∃ p ∈ o.2.on, (prog[p]?).any Inst.isFound = true
  sound : ∀ P : ℕ → Prop, (∀ p, P p → ∀ q ∈ targets prog[p]? p pos len, P q) →
    (∀ p ∈ t.on, P p) → (∀ p ∈ stack, P p) → ∀ p ∈ o.2.on, P p

theorem closes_addLoop (hprog : Sealed prog) (h : Pending prog pos len stack t) :
    Closes prog pos len stack t (addLoop prog pos len stack t) := by
  induction hn : 2 * t.room + stack.length using Nat.strongRecOn generalizing stack t with
  | ind n ih =>
    subst hn
    rcases stack with - | ⟨pc, stack⟩
    · rw [addLoop]
      exact ⟨h.tidy, le_rfl, fun _ => ⟨h, fun p hp => absurd hp List.not_mem_nil⟩,
        fun hfound => (by cases hfound), fun P _ ht _ => ht⟩
    · have hpc : pc < prog.length := h.stack_lt pc List.mem_cons_self
      rcases h.tidy.insert hprog.le hpc with ⟨hin, hins⟩ | ⟨hnot, t', hins, hon, htidy⟩
      · -- it is there
        have hrest := ih _ (by rw [List.length_cons]; omega) (h.seen hin) rfl
        have hloop : addLoop prog pos len (pc :: stack) t = addLoop prog pos len stack t := by
          rw [addLoop]
          split
          · rfl
          · rename_i heq
            rw [hins] at heq
            cases heq
        rw [hloop]
        refine ⟨hrest.tidy, hrest.mono, fun ho => ?_, hrest.found, fun P hP ht hs =>
          hrest.sound P hP ht fun p hp => hs p (List.mem_cons_of_mem _ hp)⟩
        obtain ⟨hpending, hstack⟩ := hrest.pending ho
        exact ⟨hpending, List.forall_mem_cons.mpr ⟨hrest.mono hin, hstack⟩⟩
      · have hself : pc ∈ t'.on := hon ▸ Finset.mem_insert_self _ _
        have hmono : t.on ⊆ t'.on := hon ▸ Finset.subset_insert _ _
        have hloop : addLoop prog pos len (pc :: stack) t =
            if (prog[pc]?).any Inst.isFound then (true, t')
            else addLoop prog pos len (pushAll (targets prog[pc]? pc pos len) (stack, t')).1
              (pushAll (targets prog[pc]? pc pos len) (stack, t')).2 := by
          conv_lhs => rw [addLoop]
          split
          · rename_i heq
            rw [hins] at heq
            cases heq
          · rename_i heq
            rw [hins] at heq
            cases heq
            rfl
        rw [hloop]
        split_ifs with hfound
        · refine ⟨htidy, hmono, fun ho => (by cases ho), fun _ => ⟨pc, hself, hfound⟩,
            fun P _ ht hs p hp => ?_⟩
          rw [hon, Finset.mem_insert] at hp
          rcases hp with rfl | hp
          · exact hs p List.mem_cons_self
          · exact ht p hp
        · obtain ⟨hpush, hpending⟩ := h.fresh hprog hnot hon htidy (Bool.eq_false_of_not_eq_true hfound)
          have hroom := Threads.room_insert hins
          have htwo := targets_length_le prog[pc]? pc pos len
          rw [hpush]
          have hrest := ih _ (by
            rw [List.length_append, List.length_reverse, List.length_cons]
            omega) hpending rfl
          refine ⟨hrest.tidy, hmono.trans hrest.mono, fun ho => ?_, hrest.found,
            fun P hP ht hs => hrest.sound P hP (fun p hp => ?_) fun p hp => ?_⟩
          · obtain ⟨hlast, hstack⟩ := hrest.pending ho
            refine ⟨hlast, List.forall_mem_cons.mpr ⟨hrest.mono hself, fun p hp => ?_⟩⟩
            exact hstack p (List.mem_append_right _ hp)
          · rw [hon, Finset.mem_insert] at hp
            rcases hp with rfl | hp
            · exact hs p List.mem_cons_self
            · exact ht p hp
          · rcases List.mem_append.mp hp with hp | hp
            · exact hP pc (hs pc List.mem_cons_self) p (List.mem_reverse.mp hp)
            · exact hs p (List.mem_cons_of_mem _ hp)

theorem freeSplits_lt (hprog : Sealed prog) (t : Threads) : (freeSplits prog t).card < maxProg := by
  obtain ⟨f, hf, hfound⟩ := hprog.found
  have hsub : freeSplits prog t ⊂ Finset.range prog.length := by
    refine Finset.ssubset_iff_subset_ne.mpr ⟨Finset.filter_subset _ _, fun heq => ?_⟩
    have hin : f ∈ freeSplits prog t := heq ▸ Finset.mem_range.mpr hf
    rw [freeSplits, Finset.mem_filter, hfound] at hin
    exact absurd hin.2.1 (by decide)
  have hcard := Finset.card_lt_card hsub
  rw [Finset.card_range] at hcard
  exact hcard.trans_le hprog.le

variable {r : Regex} {b : UInt8} {pcs : List ℕ}

theorem closes_add (hprog : Sealed r.prog) (h : Pending r.prog pos len [] t)
    (hpc : pc < r.prog.length) : Closes r.prog pos len [pc] t (r.add t pc pos len) := by
  have hpush : push pc ([], t) = ([pc], t) := if_pos (show [].length < maxProg by decide)
  rw [Regex.add, hpush]
  refine closes_addLoop hprog ⟨h.tidy, ?_, ?_, fun p hp q hq => ?_, h.unfound⟩
  · intro p hp
    rw [List.mem_singleton] at hp
    rwa [hp]
  · have := freeSplits_lt hprog t
    rw [List.length_singleton]
    omega
  · exact .inl ((h.closed p hp q hq).resolve_right List.not_mem_nil)

/-- What the threads `pcs` make of the byte `b`. -/
structure Advances (prog : List Inst) (pos len : ℕ) (b : UInt8) (pcs : List ℕ) (t : Threads)
    (o : Bool × Threads) : Prop where
  tidy : o.2.Tidy prog.length
  mono : t.on ⊆ o.2.on
  pending : o.1 = false → Pending prog pos len [] o.2 ∧ ∀ p ∈ pcs, ∀ set,
    prog[p]? = some (.set set) → set.has b = true → p + 1 ∈ o.2.on
  found : o.1 = true → ∃ p ∈ o.2.on, (prog[p]?).any Inst.isFound = true
  sound : ∀ P : ℕ → Prop, (∀ p, P p → ∀ q ∈ targets prog[p]? p pos len, P q) →
    (∀ p ∈ t.on, P p) →
    (∀ p ∈ pcs, ∀ set, prog[p]? = some (.set set) → set.has b = true → P (p + 1)) →
    ∀ p ∈ o.2.on, P p

theorem advances_advance (hprog : Sealed r.prog) (h : Pending r.prog (pos + 1) len [] t) :
    Advances r.prog (pos + 1) len b pcs t (r.advance b pos len pcs t) := by
  induction pcs generalizing t with
  | nil => exact ⟨h.tidy, le_rfl, fun _ => ⟨h, nofun⟩, nofun, fun P _ ht _ => ht⟩
  | cons pc pcs ih =>
    -- a thread that does not go on with this byte
    have hskip : (∀ set, r.prog[pc]? = some (.set set) → set.has b = false) →
        Advances r.prog (pos + 1) len b (pc :: pcs) t (r.advance b pos len pcs t) := by
      intro hno
      have hrest := ih h
      refine ⟨hrest.tidy, hrest.mono, fun ho => ?_, hrest.found, fun P hP ht hs =>
        hrest.sound P hP ht fun p hp => hs p (List.mem_cons_of_mem _ hp)⟩
      obtain ⟨hlast, hall⟩ := hrest.pending ho
      refine ⟨hlast, List.forall_mem_cons.mpr ⟨fun set hset hhas => ?_, hall⟩⟩
      rw [hno set hset] at hhas
      cases hhas
    rw [Regex.advance]
    split
    · rename_i set hset
      split_ifs with hhas
      · have hadd := closes_add hprog h (hprog.set_lt hset)
        rcases ho : r.add t (pc + 1) (pos + 1) len with ⟨- | -, next⟩
        · rw [ho] at hadd
          obtain ⟨hnext, hin⟩ := hadd.pending rfl
          have hrest := ih hnext
          refine ⟨hrest.tidy, hadd.mono.trans hrest.mono, fun ho' => ?_, hrest.found,
            fun P hP ht hs => ?_⟩
          · obtain ⟨hlast, hall⟩ := hrest.pending ho'
            refine ⟨hlast, List.forall_mem_cons.mpr ⟨fun _ _ _ => ?_, hall⟩⟩
            exact hrest.mono (hin _ (List.mem_singleton_self _))
          · rw [List.forall_mem_cons] at hs
            refine hrest.sound P hP (hadd.sound P hP ht fun p hp => ?_) hs.2
            rw [List.mem_singleton] at hp
            exact hp ▸ hs.1 set hset hhas
        · rw [ho] at hadd
          refine ⟨hadd.tidy, hadd.mono, nofun, fun _ => hadd.found rfl, fun P hP ht hs => ?_⟩
          refine hadd.sound P hP ht fun p hp => ?_
          rw [List.mem_singleton] at hp
          exact hp ▸ hs pc List.mem_cons_self set hset hhas
      · refine hskip fun set' hset' => ?_
        rw [hset] at hset'
        cases hset'
        exact Bool.eq_false_of_not_eq_true hhas
    · rename_i hnot
      exact hskip fun set hset => absurd hset (hnot set)

/-! ### The search -/

/-- Some way from the first address leads to `p` at this position. -/
def Reach (prog : List Inst) (s : Bytes) (pos p : ℕ) : Prop :=
  ∃ i ≤ pos, ReflTransGen (Step prog s) (0, i) (p, pos)

theorem Reach.targets (h : Reach prog s pos p) (hq : q ∈ targets prog[p]? p pos s.length) :
    Reach prog s pos q := by
  obtain ⟨i, hi, hway⟩ := h
  exact ⟨i, hi, hway.tail (step_iff.mpr (.inl ⟨hq, rfl⟩))⟩

/-- The threads have all that a byte leads to from the position before. -/
def Inherits (prog : List Inst) (s : Bytes) (pos : ℕ) (t : Threads) : Prop :=
  ∀ q i p, i + 1 = pos → Reach prog s i q → Step prog s (q, i) (p, pos) → p ∈ t.on

/-- Threads that are closed, have the first address and what the byte before leads to, are all that
is reached. -/
theorem Pending.complete (h : Pending prog pos s.length [] t) (h0 : 0 ∈ t.on)
    (hin : Inherits prog s pos t) (hp : Reach prog s pos p) : p ∈ t.on := by
  obtain ⟨i, hi, hway⟩ := hp
  have hall : ∀ c, ReflTransGen (Step prog s) (0, i) c → c.2 = pos → c.1 ∈ t.on := by
    intro c hc
    induction hc with
    | refl => exact fun _ => h0
    | @tail c d hc hstep ih =>
      obtain ⟨q, k⟩ := c
      obtain ⟨p, j⟩ := d
      rintro rfl
      rcases step_iff.mp hstep with ⟨hq, hj⟩ | ⟨set, x, -, -, -, -, hj⟩
      · have hk : k = j := hj.symm
        rw [hk] at hq
        exact (h.closed q (ih hk) p hq).resolve_right List.not_mem_nil
      · refine hin q k p hj.symm ⟨i, ?_, hc⟩ hstep
        exact le_of_way hc
  exact hall _ hway rfl

/-- The threads at `pos` once the first address is added: either `found` is reached here, or they
are all that is reached. -/
theorem add_first (hprog : Sealed r.prog) {cur : Threads}
    (hcur : Pending r.prog pos s.length [] cur) (hsound : ∀ p ∈ cur.on, Reach r.prog s pos p)
    (hin : Inherits r.prog s pos cur) :
    ((r.add cur 0 pos s.length).1 = true → ∃ p, Reach r.prog s pos p ∧
      (r.prog[p]?).any Inst.isFound = true) ∧
    (r.add cur 0 pos s.length).2.Tidy r.prog.length ∧
    ((r.add cur 0 pos s.length).1 = false →
      Pending r.prog pos s.length [] (r.add cur 0 pos s.length).2 ∧
      ∀ p, p ∈ (r.add cur 0 pos s.length).2.on ↔ Reach r.prog s pos p) := by
  have hadd := closes_add hprog hcur hprog.length_pos
  have hall : ∀ p ∈ (r.add cur 0 pos s.length).2.on, Reach r.prog s pos p := by
    refine hadd.sound _ (fun p hp q hq => hp.targets hq) hsound fun p hp => ?_
    rw [List.mem_singleton] at hp
    exact ⟨pos, le_rfl, hp ▸ .refl⟩
  refine ⟨fun ho => ?_, hadd.tidy, fun ho => ?_⟩
  · obtain ⟨p, hp, hfound⟩ := hadd.found ho
    exact ⟨p, hall p hp, hfound⟩
  · obtain ⟨hpending, hzero⟩ := hadd.pending ho
    refine ⟨hpending, fun p => ⟨hall p, fun hp => ?_⟩⟩
    exact hpending.complete (hzero 0 (List.mem_singleton_self 0))
      (fun q i p hi hq hstep => hadd.mono (hin q i p hi hq hstep)) hp

theorem pending_empty (hprog : Sealed prog) : Pending prog pos len [] {} where
  tidy := Threads.tidy_empty _
  stack_lt := nofun
  fits := by
    have := freeSplits_lt hprog {}
    rw [List.length_nil]
    omega
  closed := nofun
  unfound := nofun

/-- From the threads at `pos` on, the search finds exactly where `found` is reached, and nothing is
lost. -/
theorem search_iff (hprog : Sealed r.prog) {cur next : Threads} (rest : Bytes)
    (hrest : rest = s.drop pos) (hpos : pos ≤ s.length)
    (hcur : Pending r.prog pos s.length [] cur) (hnext : next.Tidy r.prog.length)
    (hsound : ∀ p ∈ cur.on, Reach r.prog s pos p) (hin : Inherits r.prog s pos cur) :
    ((r.search s.length rest pos cur next).1 = true ↔ ∃ j, pos ≤ j ∧ j ≤ s.length ∧
      ∃ p, Reach r.prog s j p ∧ (r.prog[p]?).any Inst.isFound = true) ∧
    (r.search s.length rest pos cur next).2.1.Tidy r.prog.length ∧
    (r.search s.length rest pos cur next).2.2.Tidy r.prog.length := by
  induction rest generalizing pos cur next with
  | nil =>
    obtain ⟨hyes, htidy, hno⟩ := add_first hprog hcur hsound hin
    have hend : pos = s.length := le_antisymm hpos (List.drop_eq_nil_iff.mp hrest.symm)
    rw [Regex.search]
    rcases ho : r.add cur 0 pos s.length with ⟨- | -, cur'⟩
    · rw [ho] at htidy hno
      obtain ⟨hpending, hall⟩ := hno rfl
      refine ⟨⟨nofun, ?_⟩, hnext.clear ▸ Threads.tidy_empty _, htidy⟩
      rintro ⟨j, hle, hj, p, hp, hfound⟩
      obtain rfl : j = pos := by omega
      have hunfound := hpending.unfound p ((hall p).mpr hp)
      rw [hfound] at hunfound
      cases hunfound
    · rw [ho] at htidy hyes
      obtain ⟨p, hp, hfound⟩ := hyes rfl
      exact ⟨⟨fun _ => ⟨pos, le_rfl, hpos, p, hp, hfound⟩, fun _ => rfl⟩, htidy, hnext⟩
  | cons b rest ih =>
    obtain ⟨hyes, htidy, hno⟩ := add_first hprog hcur hsound hin
    have hbyte : s[pos]? = some b := by
      rw [← List.head?_drop, ← hrest]
      rfl
    have hlt : pos < s.length := (List.getElem?_eq_some_iff.mp hbyte).1
    have htail : rest = s.drop (pos + 1) := by
      rw [← List.tail_drop, ← hrest]
      rfl
    rw [Regex.search]
    rcases ho : r.add cur 0 pos s.length with ⟨- | -, cur'⟩
    · rw [ho] at htidy hno
      obtain ⟨hpending, hall⟩ := hno rfl
      dsimp only at htidy hpending hall ⊢
      have hadv : Advances r.prog (pos + 1) s.length b cur'.pcs {}
          (r.advance b pos s.length cur'.pcs {}) := advances_advance hprog (pending_empty hprog)
      have hgo : ∀ p ∈ cur'.pcs, ∀ set, r.prog[p]? = some (.set set) → set.has b = true →
          Reach r.prog s (pos + 1) (p + 1) := by
        intro p hp set hset hhas
        obtain ⟨i, hi, hway⟩ := (hall p).mp (htidy.mem_pcs.mp hp)
        exact ⟨i, by omega, hway.tail (.set hset hbyte hhas)⟩
      have hreach := hadv.sound (Reach r.prog s (pos + 1)) (fun p hp q hq => hp.targets hq) nofun hgo
      rw [hnext.clear]
      rcases ho' : r.advance b pos s.length cur'.pcs {} with ⟨- | -, next'⟩
      · rw [ho'] at hadv hreach
        obtain ⟨hnew, hsets⟩ := hadv.pending rfl
        obtain ⟨hiff, hfirst, hsecond⟩ := ih htail hlt hnew htidy hreach (by
          intro q i p hi hq hstep
          obtain rfl : i = pos := by omega
          rcases step_iff.mp hstep with ⟨-, hj⟩ | ⟨set, x, hset, hx, hhas, rfl, -⟩
          · omega
          · rw [hbyte] at hx
            cases hx
            exact hsets q (htidy.mem_pcs.mpr ((hall q).mpr hq)) set hset hhas)
        refine ⟨hiff.trans ⟨?_, ?_⟩, hfirst, hsecond⟩
        · rintro ⟨j, hj, hle, hp⟩
          exact ⟨j, by omega, hle, hp⟩
        · rintro ⟨j, hj, hle, p, hp, hfound⟩
          rcases Nat.eq_or_lt_of_le hj with rfl | hj
          · have hunfound := hpending.unfound p ((hall p).mpr hp)
            rw [hfound] at hunfound
            cases hunfound
          · exact ⟨j, hj, hle, p, hp, hfound⟩
      · rw [ho'] at hadv hreach
        obtain ⟨p, hp, hfound⟩ := hadv.found rfl
        exact ⟨⟨fun _ => ⟨pos + 1, Nat.le_succ pos, hlt, p, hreach p hp, hfound⟩, fun _ => rfl⟩,
          htidy, hadv.tidy⟩
    · rw [ho] at htidy hyes
      obtain ⟨p, hp, hfound⟩ := hyes rfl
      exact ⟨⟨fun _ => ⟨pos, le_rfl, hpos, p, hp, hfound⟩, fun _ => rfl⟩, htidy, hnext⟩

/-! ### The program of a tree -/

variable {root : Node} {a e : ℕ}

theorem any_isFound_iff {o : Option Inst} : o.any Inst.isFound = true ↔ o = some .found := by
  rcases o with - | i
  · exact ⟨nofun, nofun⟩
  · rcases i with _ | _ | _ | _ | _ | _
    · exact ⟨nofun, nofun⟩
    · exact ⟨nofun, nofun⟩
    · exact ⟨nofun, nofun⟩
    · exact ⟨nofun, nofun⟩
    · exact ⟨nofun, nofun⟩
    · exact ⟨fun _ => rfl, fun _ => rfl⟩

/-- No step leaves the program of a tree: none leaves the code, and none leads on from `found`. -/
theorem sealed_of_code (hroot : root.Built) (hle : prog.length ≤ maxProg)
    (hlen : prog.length = e + 1) (hcode : Code prog root 0 e) (hfound : prog[e]? = some .found) :
    Sealed prog where
  le := hle
  targets_lt {pc pos len q} hpc hq := by
    have hstep : Step prog (List.replicate len 0) (pc, pos) (q, pos) := by
      refine step_iff.mpr (.inl ⟨?_, rfl⟩)
      rwa [List.length_replicate]
    rcases Nat.eq_or_lt_of_le (show pc ≤ e by omega) with rfl | hlt
    · exact absurd hstep (not_step_found hfound)
    · have hin := (runs_code hroot hcode).inside (Nat.zero_le pc) hlt hstep
      omega
  set_lt {pc set} hset := by
    have hpc := (List.getElem?_eq_some_iff.mp hset).1
    have hne : pc ≠ e := by
      rintro rfl
      rw [hfound] at hset
      cases hset
    omega
  found := ⟨e, by omega, hfound⟩

/-- `found` is reached where a match ends. -/
theorem reach_found_iff (hroot : root.Built) (hlen : prog.length = e + 1)
    (hcode : Code prog root 0 e) (hfound : prog[e]? = some .found) {j : ℕ} :
    (∃ p, Reach prog s j p ∧ (prog[p]?).any Inst.isFound = true) ↔
      ∃ i ≤ j, Matches s root i j := by
  have hruns := runs_code (s := s) hroot hcode
  constructor
  · rintro ⟨p, ⟨i, hi, hway⟩, hp⟩
    rw [any_isFound_iff] at hp
    have hlt := (List.getElem?_eq_some_iff.mp hp).1
    have hpe : p = e := by
      by_contra hne
      exact hruns.unfound (Nat.zero_le p) (by omega) hp
    obtain ⟨k, hk⟩ := reflTransGen_iff_times.mp hway
    obtain ⟨i', k', -, hmatch, hrest⟩ := hruns.exits hk (.inr hpe.ge)
    rcases k' with - | k'
    · cases hrest
      exact ⟨i, hi, hmatch⟩
    · obtain ⟨⟨q, m⟩, hstep, -⟩ := hrest
      exact absurd hstep (not_step_found hfound)
  · rintro ⟨i, hi, hmatch⟩
    exact ⟨e, ⟨i, hi, hruns.enters hmatch⟩, by rw [hfound]; rfl⟩

/-- The search with the program of a tree finds exactly the matches of the tree, and no thread is
lost. -/
theorem isMatch_compile {g : Codegen} (hroot : root.Built) (h : Regex.compile root {} = .ok () g)
    (src s : Bytes) :
    ((⟨g.prog, src⟩ : Regex).isMatch s = true ↔
      ∃ i j, i ≤ j ∧ j ≤ s.length ∧ Matches s root i j) ∧
    ((⟨g.prog, src⟩ : Regex).search s.length s 0 {} {}).2.1.lost = false ∧
    ((⟨g.prog, src⟩ : Regex).search s.length s 0 {} {}).2.2.lost = false := by
  obtain ⟨hle, e, hlen, hcode, hfound⟩ := code_compile hroot h
  have hprog := sealed_of_code hroot hle hlen hcode hfound
  obtain ⟨hiff, hfirst, hsecond⟩ := @search_iff s 0 ⟨g.prog, src⟩ hprog {} {} s List.drop_zero.symm
    (Nat.zero_le _) (pending_empty hprog) (Threads.tidy_empty _) nofun nofun
  refine ⟨hiff.trans ⟨?_, ?_⟩, hfirst.kept, hsecond.kept⟩
  · rintro ⟨j, -, hj, hreach⟩
    obtain ⟨i, hi, hmatch⟩ := (reach_found_iff hroot hlen hcode hfound).mp hreach
    exact ⟨i, j, hi, hj, hmatch⟩
  · rintro ⟨i, j, hi, hj, hmatch⟩
    exact ⟨j, Nat.zero_le j, hj, (reach_found_iff hroot hlen hcode hfound).mpr ⟨i, hi, hmatch⟩⟩

end Hop.Cloudflared
