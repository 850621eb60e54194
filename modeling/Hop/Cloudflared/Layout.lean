import Hop.Cloudflared.Regex
import Hop.Lib.Steps

/-!
# The layout of a program

`Code prog n a b`: the program has the code of the node `n` from the address `a` up to `b`.
`lays_emitNode`: that is what the code generator lays out.
-/

namespace Hop.Cloudflared

open Act

variable {R : List Inst → ℕ → ℕ → Prop}

/-! ### Code at an address -/

section Code

variable (prog : List Inst)

/-- The code up to `k` times; each split may jump to `e`. -/
def CodeOptions (R : ℕ → ℕ → Prop) : ℕ → ℕ → ℕ → ℕ → Prop
  | 0, a, b, _ => b = a
  | k + 1, a, b, e => ∃ m, prog[a]? = some (.split (a + 1) e) ∧ R (a + 1) m ∧
      CodeOptions R k m b e

/-- The code any number of times. -/
def CodeStar (R : ℕ → ℕ → Prop) (a b : ℕ) : Prop :=
  ∃ m, prog[a]? = some (.split (a + 1) b) ∧ R (a + 1) m ∧ prog[m]? = some (.jmp a) ∧ b = m + 1

mutual

/-- The code of a node, from `a` up to `b`. -/
def Code : Node → ℕ → ℕ → Prop
  | .empty, a, b => b = a
  | .set s, a, b => prog[a]? = some (.set s) ∧ b = a + 1
  | .begin, a, b => prog[a]? = some .begin ∧ b = a + 1
  | .endText, a, b => prog[a]? = some .endText ∧ b = a + 1
  | .concat items, a, b => CodeAll items a b
  | .alt arms, a, b => CodeArms arms a b b
  | .rep node min none, a, b =>
    ∃ m, Times (fun a b => Code node a b) min a m ∧ CodeStar prog (fun a b => Code node a b) m b
  | .rep node min (some max), a, b => ∃ m, Times (fun a b => Code node a b) min a m ∧
      CodeOptions prog (fun a b => Code node a b) (max - min) m b b

/-- The code of nodes one after the other. -/
def CodeAll : List Node → ℕ → ℕ → Prop
  | [], a, b => b = a
  | node :: nodes, a, b => ∃ m, Code node a m ∧ CodeAll nodes m b

/-- The code of arms; all but the last jump to `e`. -/
def CodeArms : List Node → ℕ → ℕ → ℕ → Prop
  | [], a, b, _ => b = a
  | [arm], a, b, _ => Code arm a b
  | arm :: arms, a, b, e => ∃ m, prog[a]? = some (.split (a + 1) (m + 1)) ∧ Code arm (a + 1) m ∧
      prog[m]? = some (.jmp e) ∧ CodeArms arms (m + 1) b e

end

end Code

/-! ### What the generator emits -/

/-- Two programs are the same from `a` up to `b`. -/
def Agree (p q : List Inst) (a b : ℕ) : Prop := ∀ i, a ≤ i → i < b → p[i]? = q[i]?

theorem getElem?_of_prefix {p q : List Inst} (h : p <+: q) {i : ℕ} (hi : i < p.length) :
    q[i]? = p[i]? := by
  obtain ⟨r, rfl⟩ := h
  exact List.getElem?_append_left hi

/-- A correction behind a prefix keeps it. -/
theorem prefix_set {p q : List Inst} (h : p <+: q) {a : ℕ} (ha : p.length ≤ a) (i : Inst) :
    p <+: q.set a i := by
  obtain ⟨r, rfl⟩ := h
  exact List.set_append_right _ _ ha ▸ List.prefix_append _ _

/-- The generator adds code with this layout behind what is there. -/
def Lays (R : List Inst → ℕ → ℕ → Prop) (m : Act Codegen Error Unit) : Prop :=
  ∀ g g', m g = .ok () g' → g.prog <+: g'.prog ∧
    ∀ p, Agree p g'.prog g.prog.length g'.prog.length → R p g.prog.length g'.prog.length

/-- One layout behind another. -/
theorem Lays.andThen {Q : List Inst → ℕ → ℕ → Prop} {m m' : Act Codegen Error Unit} (hm : Lays R m)
    (hm' : Lays Q m') :
    Lays (fun p a b => ∃ c, R p a c ∧ Q p c b) (do m; m') := by
  intro g g' h
  obtain ⟨_, g₁, hfirst, hsecond⟩ := Act.bind_eq_ok h
  obtain ⟨hpre, hR⟩ := hm g g₁ hfirst
  obtain ⟨hpre', hQ⟩ := hm' g₁ g' hsecond
  have hle := hpre.length_le
  have hle' := hpre'.length_le
  refine ⟨hpre.trans hpre', fun p hp => ⟨g₁.prog.length, hR p ?_, hQ p ?_⟩⟩
  · intro i hi hlt
    rw [hp i hi (by omega), getElem?_of_prefix hpre' hlt]
  · exact fun i hi hlt => hp i (by omega) hlt

namespace Codegen

variable {g g' : Codegen} {i : Inst} {a : ℕ}

theorem pc_eq_ok (h : pc g = .ok a g') :
    a = g.prog.length ∧ g' = g ∧ g.prog.length < maxProg := by
  rw [pc] at h
  split_ifs at h with hlt
  cases h
  exact ⟨rfl, rfl, hlt⟩

theorem emit_eq_ok (h : emit i g = .ok a g') : a = g.prog.length ∧
    g' = { g with prog := g.prog ++ [i] } ∧ g.prog.length < maxProg := by
  obtain ⟨b, g₁, hpc, h⟩ := Act.bind_eq_ok h
  obtain ⟨rfl, rfl, hlt⟩ := pc_eq_ok hpc
  obtain ⟨_, g₂, hmod, hrest⟩ := Act.bind_eq_ok h
  cases hmod
  cases hrest
  exact ⟨rfl, rfl, hlt⟩

theorem lays_emit (hR : ∀ (p : List Inst) a, p[a]? = some i → R p a (a + 1)) :
    Lays R (do let _ ← emit i) := by
  intro g g' h
  obtain ⟨b, g₁, hemit, h⟩ := Act.bind_eq_ok h
  obtain ⟨-, rfl, -⟩ := emit_eq_ok hemit
  cases h
  refine ⟨List.prefix_append _ _, fun p hp => ?_⟩
  rw [List.length_append, List.length_singleton] at hp ⊢
  apply hR
  rw [hp _ le_rfl (Nat.lt_succ_self _), List.getElem?_append_right le_rfl, Nat.sub_self]
  rfl

theorem lays_pure (hR : ∀ p a, R p a a) : Lays R (pure ()) := by
  intro g g' h
  cases h
  exact ⟨List.prefix_rfl, fun p _ => hR p _⟩

theorem lays_tick {m : Act Codegen Error Unit} (hm : Lays R m) :
    Lays R (do tick; m) := by
  intro g g' h
  obtain ⟨_, g₁, htick, hrest⟩ := Act.bind_eq_ok h
  cases htick
  exact hm { g with calls := g.calls + 1 } g' hrest

theorem lays_copies {body : Act Codegen Error Unit} (hbody : Lays R body) (k : ℕ) :
    Lays (fun p => Times (R p) k) (copies body k) := by
  induction k with
  | zero => exact lays_pure fun _ _ => rfl
  | succ k ih => exact hbody.andThen ih

theorem patchAll_eq_ok {f : ℕ → Inst} {pcs : List ℕ} (h : patchAll f pcs g = .ok () g') :
    g'.prog.length = g.prog.length ∧ (∀ k ∉ pcs, g'.prog[k]? = g.prog[k]?) ∧
      (∀ k ∈ pcs, k < g.prog.length → g'.prog[k]? = some (f k)) ∧
      ∀ p, p <+: g.prog → (∀ k ∈ pcs, p.length ≤ k) → p <+: g'.prog := by
  induction pcs generalizing g with
  | nil =>
    cases h
    exact ⟨rfl, fun _ _ => rfl, fun k hk => absurd hk List.not_mem_nil, fun p hp _ => hp⟩
  | cons pc pcs ih =>
    obtain ⟨_, g₁, hpatch, hrest⟩ := Act.bind_eq_ok h
    cases hpatch
    obtain ⟨hlen, hother, hin, hpre⟩ := ih hrest
    dsimp only at hlen hother hin hpre
    rw [List.length_set] at hlen hin
    refine ⟨hlen, fun k hk => ?_, fun k hk hlt => ?_, fun p hp hle => ?_⟩
    · rw [List.mem_cons, not_or] at hk
      rw [hother k hk.2, List.getElem?_set_ne (Ne.symm hk.1)]
    · by_cases hmem : k ∈ pcs
      · exact hin k hmem hlt
      · obtain rfl : k = pc := (List.mem_cons.mp hk).resolve_right hmem
        rw [hother k hmem, List.getElem?_set_self hlt]
    · rw [List.forall_mem_cons] at hle
      exact hpre p (prefix_set hp hle.1 _) hle.2

/-- What `options` lays out, once its splits are corrected. -/
theorem options_eq_ok {body : Act Codegen Error Unit} (hbody : Lays R body) {k : ℕ}
    {splits splits' : List ℕ} (h : options body k splits g = .ok splits' g') :
    g.prog <+: g'.prog ∧ ∃ new, splits' = splits ++ new ∧
      (∀ s ∈ new, g.prog.length ≤ s ∧ s < g'.prog.length) ∧
      ∀ p e, (∀ i, g.prog.length ≤ i → i < g'.prog.length → i ∉ new → p[i]? = g'.prog[i]?) →
        (∀ s ∈ new, p[s]? = some (.split (s + 1) e)) →
        CodeOptions p (R p) k g.prog.length g'.prog.length e := by
  induction k generalizing g splits with
  | zero =>
    cases h
    exact ⟨List.prefix_rfl, [], (List.append_nil _).symm, nofun, fun p e _ _ => rfl⟩
  | succ k ih =>
    obtain ⟨s, g₁, hemit, h⟩ := Act.bind_eq_ok h
    obtain ⟨rfl, rfl, -⟩ := emit_eq_ok hemit
    obtain ⟨_, g₂, hcode, hrest⟩ := Act.bind_eq_ok h
    obtain ⟨hpre, hR⟩ := hbody _ g₂ hcode
    obtain ⟨hpre', new, rfl, hin, hcodes⟩ := ih hrest
    have hle := hpre.length_le
    have hle' := hpre'.length_le
    dsimp only at hpre hR hle
    rw [List.length_append, List.length_singleton] at hR hle
    refine ⟨((List.prefix_append _ _).trans hpre).trans hpre', g.prog.length :: new, ?_, ?_, ?_⟩
    · rw [List.append_assoc]
      rfl
    · rw [List.forall_mem_cons]
      exact ⟨⟨le_rfl, by omega⟩, fun s hs => ⟨by have := (hin s hs).1; omega, (hin s hs).2⟩⟩
    · intro p e hp hsplits
      rw [List.forall_mem_cons] at hsplits
      have hnew : ∀ i < g₂.prog.length, i ∉ new := fun i hi hmem => by
        have := (hin i hmem).1
        omega
      refine ⟨g₂.prog.length, hsplits.1, hR p ?_, hcodes p e ?_ hsplits.2⟩
      · intro i hi hlt
        rw [hp i (by omega) (by omega) (by
          rw [List.mem_cons, not_or]
          exact ⟨by omega, hnew i hlt⟩), getElem?_of_prefix hpre' hlt]
      · intro i hi hlt hnot
        exact hp i (by omega) hlt (by
          rw [List.mem_cons, not_or]
          exact ⟨by omega, hnot⟩)

/-- The layout of a repetition, by that of its body. -/
theorem lays_rep {body : Act Codegen Error Unit} (hbody : Lays R body) (min : ℕ) :
    Lays (fun p a b => ∃ c, Times (R p) min a c ∧ CodeStar p (R p) c b) (rep body min none) ∧
      ∀ max, max - min ≤ maxRepeat →
        Lays (fun p a b => ∃ c, Times (R p) min a c ∧ CodeOptions p (R p) (max - min) c b b)
          (rep body min (some max)) := by
  constructor
  · refine Lays.andThen (lays_copies hbody min) fun g g' h => ?_
    obtain ⟨top, g₁, htop, h⟩ := Act.bind_eq_ok h
    obtain ⟨rfl, rfl, -⟩ := emit_eq_ok htop
    obtain ⟨_, g₂, hcode, h⟩ := Act.bind_eq_ok h
    obtain ⟨hpre, hR⟩ := hbody _ g₂ hcode
    obtain ⟨j, g₃, hjmp, h⟩ := Act.bind_eq_ok h
    obtain ⟨rfl, rfl, -⟩ := emit_eq_ok hjmp
    obtain ⟨e, g₄, hpc, h⟩ := Act.bind_eq_ok h
    obtain ⟨rfl, rfl, -⟩ := pc_eq_ok hpc
    cases h
    have hle := hpre.length_le
    dsimp only at hpre hR hle ⊢
    rw [List.length_append, List.length_singleton] at hR hle
    simp only [List.length_set, List.length_append, List.length_singleton]
    refine ⟨prefix_set (((List.prefix_append _ _).trans hpre).trans (List.prefix_append _ _)) le_rfl _,
      fun p hp => ⟨g₂.prog.length, ?_, hR p fun i hi hlt => ?_, ?_, rfl⟩⟩
    · rw [hp _ le_rfl (by omega), List.getElem?_set_self (by simp; omega)]
    · rw [hp i (by omega) (by omega), List.getElem?_set_ne (by omega),
        List.getElem?_append_left hlt]
    · rw [hp _ (by omega) (by omega), List.getElem?_set_ne (by omega),
        List.getElem?_append_right le_rfl, Nat.sub_self]
      rfl
  · intro max hmax
    refine Lays.andThen (lays_copies hbody min) fun g g' h => ?_
    obtain ⟨splits, g₁, hoptions, h⟩ := Act.bind_eq_ok h
    obtain ⟨hpre, new, hsplits, hin, hcode⟩ := options_eq_ok hbody hoptions
    rw [List.nil_append] at hsplits
    obtain ⟨e, g₂, hpc, h⟩ := Act.bind_eq_ok h
    obtain ⟨rfl, rfl, -⟩ := pc_eq_ok hpc
    obtain ⟨hlen, hother, hnew, hkeep⟩ := patchAll_eq_ok h
    rw [hsplits] at hother hnew hkeep
    rw [Nat.min_eq_left hmax] at hcode
    refine ⟨hkeep _ hpre fun s hs => (hin s hs).1, fun p hp => ?_⟩
    rw [hlen] at hp ⊢
    refine hcode p _ (fun i hi hlt hnot => ?_) fun s hs => ?_
    · rw [hp i hi hlt, hother i hnot]
    · rw [hp s (hin s hs).1 (hin s hs).2, hnew s hs (hin s hs).2]

/-- What `emitArms` lays out, once its jumps are corrected. -/
theorem emitArms_eq_ok {arms : List Node}
    (harms : ∀ n ∈ arms, Lays (fun p => Code p n) (emitNode n)) {jumps jumps' : List ℕ}
    (h : emitArms arms jumps g = .ok jumps' g') :
    g.prog <+: g'.prog ∧ ∃ new, jumps' = jumps ++ new ∧
      (∀ j ∈ new, g.prog.length ≤ j ∧ j < g'.prog.length) ∧
      ∀ p e, (∀ i, g.prog.length ≤ i → i < g'.prog.length → i ∉ new → p[i]? = g'.prog[i]?) →
        (∀ j ∈ new, p[j]? = some (.jmp e)) →
        CodeArms p arms g.prog.length g'.prog.length e := by
  induction arms generalizing g jumps with
  | nil =>
    rw [emitArms] at h
    cases h
    exact ⟨List.prefix_rfl, [], (List.append_nil _).symm, nofun, fun p e _ _ => rfl⟩
  | cons arm arms ih =>
    rw [List.forall_mem_cons] at harms
    rcases arms with - | ⟨second, arms⟩
    · rw [emitArms] at h
      obtain ⟨_, g₁, hcode, h⟩ := Act.bind_eq_ok h
      cases h
      obtain ⟨hpre, hR⟩ := harms.1 g g' hcode
      refine ⟨hpre, [], (List.append_nil _).symm, nofun, fun p e hp _ => hR p fun i hi hlt => ?_⟩
      exact hp i hi hlt List.not_mem_nil
    · rw [emitArms] at h
      · obtain ⟨split, g₁, hsplit, h⟩ := Act.bind_eq_ok h
        obtain ⟨rfl, rfl, -⟩ := emit_eq_ok hsplit
        obtain ⟨_, g₂, hcode, h⟩ := Act.bind_eq_ok h
        obtain ⟨hpre, hR⟩ := harms.1 _ g₂ hcode
        obtain ⟨j, g₃, hjmp, h⟩ := Act.bind_eq_ok h
        obtain ⟨rfl, rfl, -⟩ := emit_eq_ok hjmp
        obtain ⟨_, g₄, hroom, hrest⟩ := Act.bind_eq_ok h
        obtain ⟨-, rfl⟩ := ensure_eq_ok hroom
        obtain ⟨next, g₅, hpc, hlast⟩ := Act.bind_eq_ok hrest
        obtain ⟨rfl, rfl, -⟩ := pc_eq_ok hpc
        obtain ⟨_, g₆, hpatch, hend⟩ := Act.bind_eq_ok hlast
        cases hpatch
        obtain ⟨hpre', new, rfl, hin, hcodes⟩ := ih harms.2 hend
        have hle := hpre.length_le
        have hle' := hpre'.length_le
        dsimp only at hpre hR hle hpre' hin hcodes hle'
        rw [List.length_append, List.length_singleton] at hR hle
        simp only [List.length_set, List.length_append, List.length_singleton] at hin hcodes hpre'
        simp only [List.length_set, List.length_append, List.length_singleton] at hle'
        have hkeep : g.prog <+: (g₂.prog ++ [Inst.jmp 0]).set g.prog.length
            (.split (g.prog.length + 1) (g₂.prog.length + 1)) :=
          prefix_set (((List.prefix_append _ _).trans hpre).trans (List.prefix_append _ _)) le_rfl _
        have hbefore : ∀ i ≤ g₂.prog.length, i ∉ new := fun i hi hmem => by
          have := (hin i hmem).1
          omega
        have hlen : ((g₂.prog ++ [Inst.jmp 0]).set g.prog.length
            (.split (g.prog.length + 1) (g₂.prog.length + 1))).length = g₂.prog.length + 1 := by
          simp
        refine ⟨hkeep.trans hpre', g₂.prog.length :: new, ?_, ?_, ?_⟩
        · rw [List.append_assoc]
          rfl
        · rw [List.forall_mem_cons]
          exact ⟨⟨by omega, by omega⟩, fun s hs => ⟨by have := (hin s hs).1; omega, (hin s hs).2⟩⟩
        · intro p e hp hjumps
          rw [List.forall_mem_cons] at hjumps
          -- before the jump, the program is what it was when this arm was done
          have hold : ∀ i, g.prog.length ≤ i → i < g₂.prog.length →
              p[i]? = ((g₂.prog ++ [Inst.jmp 0]).set g.prog.length
                (.split (g.prog.length + 1) (g₂.prog.length + 1)))[i]? := by
            intro i hi hlt
            rw [hp i hi (by omega) (by
              rw [List.mem_cons, not_or]
              exact ⟨by omega, hbefore i hlt.le⟩), getElem?_of_prefix hpre' (by omega)]
          rw [CodeArms]
          · refine ⟨g₂.prog.length, ?_, hR p fun i hi hlt => ?_, hjumps.1, hcodes p e ?_ hjumps.2⟩
            · rw [hold _ le_rfl (by omega), List.getElem?_set_self (by simp; omega)]
            · rw [hold i (by omega) hlt, List.getElem?_set_ne (by omega),
                List.getElem?_append_left hlt]
            · intro i hi hlt hnot
              exact hp i (by omega) hlt (by
                rw [List.mem_cons, not_or]
                exact ⟨by omega, hnot⟩)
          · nofun
      · nofun

theorem lays_emitAll {items : List Node}
    (hitems : ∀ n ∈ items, Lays (fun p => Code p n) (emitNode n)) :
    Lays (fun p => CodeAll p items) (emitAll items) := by
  induction items with
  | nil =>
    rw [emitAll]
    exact lays_pure fun _ _ => rfl
  | cons item items ih =>
    rw [List.forall_mem_cons] at hitems
    rw [emitAll]
    exact hitems.1.andThen (ih hitems.2)

/-- The generator lays out the code of a node. -/
theorem lays_emitNode {n : Node} (hn : n.Built) : Lays (fun p => Code p n) (emitNode n) := by
  induction n using Node.induct with
  | empty =>
    rw [emitNode]
    exact lays_tick (lays_pure fun _ _ => rfl)
  | set s =>
    rw [emitNode]
    exact lays_tick (lays_emit fun p a h => ⟨h, rfl⟩)
  | begin =>
    rw [emitNode]
    exact lays_tick (lays_emit fun p a h => ⟨h, rfl⟩)
  | endText =>
    rw [emitNode]
    exact lays_tick (lays_emit fun p a h => ⟨h, rfl⟩)
  | concat items ih =>
    rw [Node.Built, builtAll_iff] at hn
    rw [emitNode]
    exact lays_tick (lays_emitAll fun n hmem => ih n hmem (hn n hmem))
  | alt arms ih =>
    rw [Node.Built, builtAll_iff] at hn
    rw [emitNode]
    refine lays_tick fun g g' h => ?_
    obtain ⟨jumps, g₁, harms, h⟩ := Act.bind_eq_ok h
    obtain ⟨hpre, new, hjumps, hin, hcode⟩ :=
      emitArms_eq_ok (fun n hmem => ih n hmem (hn.2 n hmem)) harms
    rw [List.nil_append] at hjumps
    obtain ⟨e, g₂, hpc, h⟩ := Act.bind_eq_ok h
    obtain ⟨rfl, rfl, -⟩ := pc_eq_ok hpc
    obtain ⟨hlen, hother, hnew, hkeep⟩ := patchAll_eq_ok h
    rw [hjumps] at hother hnew hkeep
    refine ⟨hkeep _ hpre fun j hj => (hin j hj).1, fun p hp => ?_⟩
    rw [hlen] at hp ⊢
    refine hcode p _ (fun i hi hlt hnot => ?_) fun j hj => ?_
    · rw [hp i hi hlt, hother i hnot]
    · rw [hp j (hin j hj).1 (hin j hj).2, hnew j hj (hin j hj).2]
  | rep node min max ih =>
    rw [Node.Built] at hn
    obtain ⟨hstar, hoptions⟩ := lays_rep (ih hn.1) min
    rw [emitNode]
    refine lays_tick ?_
    rcases max with - | max
    · exact hstar
    · exact hoptions max (by have := (hn.2.2 max rfl).2; omega)

end Codegen

/-- The program of a tree is its code, and `found` behind it. -/
theorem code_compile {root : Node} {g : Codegen} (hroot : root.Built)
    (h : Regex.compile root {} = .ok () g) : g.prog.length ≤ maxProg ∧
      ∃ b, g.prog.length = b + 1 ∧ Code g.prog root 0 b ∧ g.prog[b]? = some .found := by
  obtain ⟨_, g₁, hcode, h⟩ := Act.bind_eq_ok h
  obtain ⟨a, g₂, hemit, h⟩ := Act.bind_eq_ok h
  obtain ⟨rfl, rfl, hlt⟩ := Codegen.emit_eq_ok hemit
  cases h
  obtain ⟨-, hlays⟩ := Codegen.lays_emitNode hroot _ g₁ hcode
  dsimp only at hlays ⊢
  rw [List.length_append, List.length_singleton]
  refine ⟨hlt, g₁.prog.length, rfl, hlays _ fun i _ hi => List.getElem?_append_left hi, ?_⟩
  rw [List.getElem?_append_right le_rfl, Nat.sub_self]
  rfl

end Hop.Cloudflared
