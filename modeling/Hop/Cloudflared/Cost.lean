import Hop.Cloudflared.Decides

/-!
# What compiling a pattern costs

What the code generator does for a tree is a list of turns that the tree determines (`Node.turns`):
visits to nodes, instructions, and places where the program must have room for one more. The
generator takes them one after the other until the program is full (`reach`, `follows_emitNode`).
Each visit to a node that emits something is paid by an instruction of its own, up to the height of
the tree (`paid_turns`). What is not paid are the visits to nodes that compile to nothing
(`Node.wasted`), and the height itself is not bounded by the nesting of groups alone: both grow with
quantifiers that stand one behind the other.
-/

namespace Hop.Cloudflared

open Act

variable {root : Node}

/-! ### Turns -/

/-- A turn of the code generator. -/
inductive Turn
  /-- A node is visited, which may be one that compiles to nothing. -/
  | visit (silent : Bool)
  | inst
  /-- There must be room for one instruction more. -/
  | room
  /-- No arm more can be taken. -/
  | stuck
deriving DecidableEq

/-- How many instructions are among the turns. -/
def insts (ts : List Turn) : ℕ := ts.count .inst

/-- How many visits are to nodes that compile to nothing. -/
def silent (ts : List Turn) : ℕ := ts.count (.visit true)

/-- How many are to others. -/
def loud (ts : List Turn) : ℕ := ts.count (.visit false)

/-- The turns that are taken when the program has room for that many instructions. -/
def reach : ℕ → List Turn → List Turn
  | _, [] => []
  | room, .visit s :: ts => .visit s :: reach room ts
  | 0, .inst :: _ => []
  | room + 1, .inst :: ts => .inst :: reach room ts
  | 0, .room :: _ => []
  | room + 1, .room :: ts => .room :: reach (room + 1) ts
  | _, .stuck :: _ => []

/-- The turns of a repetition. -/
def turnsRep (body : List Turn) (min : ℕ) : Option ℕ → List Turn
  | none => (List.replicate min body).flatten ++ (.inst :: body ++ [.inst, .room])
  | some max => (List.replicate min body).flatten ++
      ((List.replicate (Min.min (max - min) maxRepeat) (.inst :: body)).flatten ++ [.room])

mutual

/-- What compiling a node takes, if nothing stops it. -/
def Node.turns : Node → List Turn
  | .empty => [.visit true]
  | .set _ => [.visit false, .inst]
  | .begin => [.visit false, .inst]
  | .endText => [.visit false, .inst]
  | .concat items => .visit (decide (sizeAll items = 0)) :: turnsAll items
  | .alt arms => .visit (decide ((Node.alt arms).size = 0)) :: (turnsArms 0 arms ++ [.room])
  | .rep node min max =>
    .visit (decide ((Node.rep node min max).size = 0)) :: turnsRep node.turns min max

/-- The same of nodes one after the other. -/
def turnsAll : List Node → List Turn
  | [] => []
  | node :: nodes => node.turns ++ turnsAll nodes

/-- The same of arms, of which there were `k` before. -/
def turnsArms : ℕ → List Node → List Turn
  | _, [] => []
  | _, [arm] => arm.turns
  | k, arm :: arms => .inst :: (arm.turns ++
      (.inst :: ((if k < 64 then [] else [.stuck]) ++ .room :: turnsArms (k + 1) arms)))

end

/-- **What is not paid**: how often compiling a tree comes to a node that compiles to nothing before
the program is full. -/
def Node.wasted (root : Node) : ℕ := silent (reach maxProg root.turns)

mutual

/-- No repetition makes several copies of something that compiles to nothing, or that holds such a
node. -/
def Node.Frugal : Node → Prop
  | .concat items => FrugalAll items
  | .alt arms => FrugalAll arms
  | .rep node min max => node.Frugal ∧ (copiesOf min max ≤ 1 ∨ node.quiet = 0)
  | _ => True

/-- The same of several trees. -/
def FrugalAll : List Node → Prop
  | [] => True
  | node :: nodes => node.Frugal ∧ FrugalAll nodes

end

theorem Node.size_rep (node : Node) (min : ℕ) (max : Option ℕ) : (Node.rep node min max).size =
    copiesOf min max * node.size + max.elim 2 fun m => m - min := by
  rcases max with - | max
  · rw [size, copiesOf, Option.elim]
  · rw [size, copiesOf, Option.elim]

/-! ### Turns one after the other -/

section Turns

variable {ts us p : List Turn} {room H : ℕ}

@[simp] theorem insts_visit (s : Bool) (ts : List Turn) : insts (.visit s :: ts) = insts ts := by
  simp [insts]

@[simp] theorem insts_inst (ts : List Turn) : insts (.inst :: ts) = insts ts + 1 := by
  simp [insts]

@[simp] theorem insts_room (ts : List Turn) : insts (.room :: ts) = insts ts := by
  simp [insts]

@[simp] theorem silent_inst (ts : List Turn) : silent (.inst :: ts) = silent ts := by
  simp [silent]

@[simp] theorem silent_room (ts : List Turn) : silent (.room :: ts) = silent ts := by
  simp [silent]

theorem silent_visit (s : Bool) (ts : List Turn) :
    silent (.visit s :: ts) = silent ts + if s = true then 1 else 0 := by
  cases s <;> simp [silent]

theorem loud_visit (s : Bool) (ts : List Turn) :
    loud (.visit s :: ts) = loud ts + if s = true then 0 else 1 := by
  cases s <;> simp [loud]

theorem insts_append (ts us : List Turn) : insts (ts ++ us) = insts ts + insts us :=
  List.count_append

theorem silent_append (ts us : List Turn) : silent (ts ++ us) = silent ts + silent us :=
  List.count_append

theorem loud_append (ts us : List Turn) : loud (ts ++ us) = loud ts + loud us :=
  List.count_append

theorem insts_copies (n : ℕ) (ts : List Turn) :
    insts (List.replicate n ts).flatten = n * insts ts := by
  rw [insts, List.count_flatten, List.map_replicate, List.sum_replicate_nat]
  rfl

theorem silent_copies (n : ℕ) (ts : List Turn) :
    silent (List.replicate n ts).flatten = n * silent ts := by
  rw [silent, List.count_flatten, List.map_replicate, List.sum_replicate_nat]
  rfl

theorem prefix_reach (room : ℕ) (ts : List Turn) : reach room ts <+: ts := by
  fun_induction reach room ts with
  | case1 => exact List.prefix_rfl
  | case2 room s ts ih => exact List.prefix_cons_inj _ |>.mpr ih
  | case3 => exact List.nil_prefix
  | case4 room ts ih => exact List.prefix_cons_inj _ |>.mpr ih
  | case5 => exact List.nil_prefix
  | case6 room ts ih => exact List.prefix_cons_inj _ |>.mpr ih
  | case7 => exact List.nil_prefix

theorem insts_reach_le (room : ℕ) (ts : List Turn) : insts (reach room ts) ≤ room := by
  fun_induction reach room ts with
  | case1 => exact Nat.zero_le _
  | case2 room s ts ih => simpa using ih
  | case3 => exact le_rfl
  | case4 room ts ih => simpa using ih
  | case5 => exact le_rfl
  | case6 room ts ih => simpa using ih
  | case7 => exact Nat.zero_le _

/-- What is taken whole leaves its room to the rest. -/
theorem reach_append_of_eq (h : reach room ts = ts) (us : List Turn) :
    reach room (ts ++ us) = ts ++ reach (room - insts ts) us := by
  fun_induction reach room ts with
  | case1 room => rfl
  | case2 room s ts ih =>
    rw [List.cons_append, reach, ih (List.tail_eq_of_cons_eq h), insts_visit, List.cons_append]
  | case3 => cases h
  | case4 room ts ih =>
    rw [List.cons_append, reach, ih (List.tail_eq_of_cons_eq h), insts_inst, List.cons_append,
      Nat.succ_eq_add_one, Nat.add_sub_add_right]
  | case5 => cases h
  | case6 room ts ih =>
    rw [List.cons_append, reach, ih (List.tail_eq_of_cons_eq h), insts_room, List.cons_append]
  | case7 => cases h

/-- What is not taken whole keeps the rest away. -/
theorem reach_append_of_ne (h : reach room ts ≠ ts) (us : List Turn) :
    reach room (ts ++ us) = reach room ts := by
  fun_induction reach room ts with
  | case1 room => exact absurd rfl h
  | case2 room s ts ih =>
    rw [List.cons_append, reach, ih fun heq => h (congrArg _ heq)]
  | case3 ts => rw [List.cons_append, reach]
  | case4 room ts ih =>
    rw [List.cons_append, reach, ih fun heq => h (congrArg _ heq)]
  | case5 ts => rw [List.cons_append, reach]
  | case6 room ts ih =>
    rw [List.cons_append, reach, ih fun heq => h (congrArg _ heq)]
  | case7 room ts => rw [List.cons_append, reach]

/-- What stops in a part stops in the whole. -/
theorem reach_ne_append (h : reach room ts ≠ ts) (us : List Turn) :
    reach room (ts ++ us) ≠ ts ++ us := by
  rw [reach_append_of_ne h]
  intro heq
  have hlen := (prefix_reach room ts).length_le
  have hwhole : us = [] := by
    have hsum := congrArg List.length heq
    rw [List.length_append] at hsum
    exact List.length_eq_zero_iff.mp (by omega)
  rw [hwhole, List.append_nil] at heq
  exact h heq

/-- A prefix of two lists ends in the first or in the second. -/
theorem prefix_append_cases (h : p <+: ts ++ us) : p <+: ts ∨ ∃ q, p = ts ++ q ∧ q <+: us := by
  rcases List.prefix_or_prefix_of_prefix h (List.prefix_append ts us) with hp | ⟨q, rfl⟩
  · exact .inl hp
  · exact .inr ⟨q, rfl, (List.prefix_append_right_inj ts).mp h⟩

/-! ### What is paid -/

/-- The visits that emit something are paid by instructions, of which each pays for `H`; on the way
one instruction may still be to come. -/
structure Paid (H : ℕ) (ts : List Turn) : Prop where
  whole : loud ts ≤ H * insts ts
  part : ∀ p, p <+: ts → loud p ≤ H * (insts p + 1)

theorem paid_of_loud_eq_zero (h : loud ts = 0) : Paid H ts where
  whole := h ▸ Nat.zero_le _
  part p hp := by
    have hle : loud p ≤ loud ts := hp.sublist.count_le _
    omega

theorem Paid.append (hts : Paid H ts) (hus : Paid H us) : Paid H (ts ++ us) where
  whole := by
    rw [loud_append, insts_append, Nat.mul_add]
    exact Nat.add_le_add hts.whole hus.whole
  part p hp := by
    rcases prefix_append_cases hp with hp | ⟨q, rfl, hq⟩
    · exact hts.part p hp
    · have hwhole := hts.whole
      have hpart := hus.part q hq
      rw [loud_append, insts_append, Nat.add_assoc, Nat.mul_add]
      exact Nat.add_le_add hwhole hpart

theorem Paid.copies (h : Paid H ts) (n : ℕ) : Paid H (List.replicate n ts).flatten := by
  induction n with
  | zero => exact paid_of_loud_eq_zero rfl
  | succ n ih =>
    rw [List.replicate_succ, List.flatten_cons]
    exact h.append ih

theorem Paid.mono {H' : ℕ} (h : Paid H ts) (hH : H ≤ H') : Paid H' ts where
  whole := h.whole.trans (Nat.mul_le_mul_right _ hH)
  part p hp := (h.part p hp).trans (Nat.mul_le_mul_right _ hH)

/-- An instruction pays for nothing in front of it. -/
theorem Paid.inst (h : Paid H ts) : Paid H (.inst :: ts) :=
  @Paid.append [.inst] _ _ (paid_of_loud_eq_zero rfl) h

/-- A visit to a node: if the node emits something, an instruction of its own pays for it. -/
theorem Paid.visit (h : Paid H ts) {s : Bool} (hs : insts ts = 0 → s = true) :
    Paid (H + 1) (.visit s :: ts) where
  whole := by
    have hwhole := h.whole
    rw [insts_visit, loud_visit, Nat.succ_mul]
    split_ifs with htrue
    · omega
    · have hinsts : insts ts ≠ 0 := fun hzero => htrue (hs hzero)
      omega
  part p hp := by
    rcases List.prefix_cons_iff.mp hp with rfl | ⟨q, rfl, hq⟩
    · exact Nat.zero_le _
    · have hpart := h.part q hq
      rw [insts_visit, loud_visit, Nat.succ_mul]
      split_ifs
      · omega
      · omega

end Turns

/-! ### The turns of a tree -/

theorem insts_turnsRep (body : List Turn) (min : ℕ) {max : Option ℕ}
    (hmax : ∀ m ∈ max, m ≤ maxRepeat) : insts (turnsRep body min max) =
    copiesOf min max * insts body + max.elim 2 fun m => m - min := by
  rcases max with - | max
  · rw [turnsRep, insts_append, insts_copies, List.cons_append, insts_inst, insts_append, copiesOf,
      Nat.succ_mul, Option.elim]
    have htwo : insts [.inst, .room] = 1 := rfl
    omega
  · have hmin : Min.min (max - min) maxRepeat = max - min := by
      have hle := hmax max rfl
      omega
    have hone : insts [.room] = 0 := rfl
    rw [turnsRep, insts_append, insts_append, insts_copies, insts_copies, insts_inst, hmin, copiesOf,
      Nat.add_mul, Nat.mul_succ, Option.elim, hone]
    omega

/-- The code of a tree has as many instructions as its size says. -/
theorem insts_turns {n : Node} (hn : n.Built) : insts n.turns = n.size := by
  have hall : ∀ {items : List Node}, (∀ n ∈ items, insts n.turns = n.size) →
      insts (turnsAll items) = sizeAll items := by
    intro items h
    induction items with
    | nil => rfl
    | cons n ns ih =>
      rw [List.forall_mem_cons] at h
      rw [turnsAll, insts_append, sizeAll, h.1, ih h.2]
  have harms : ∀ {arms : List Node} (k : ℕ), (∀ n ∈ arms, insts n.turns = n.size) →
      insts (turnsArms k arms) = sizeAll arms + 2 * (arms.length - 1) := by
    intro arms
    induction arms with
    | nil => exact fun _ _ => rfl
    | cons n ns ih =>
      intro k h
      rw [List.forall_mem_cons] at h
      rcases ns with - | ⟨m, ms⟩
      · rw [turnsArms, h.1]
        rfl
      · have hrest := ih (k + 1) h.2
        rw [turnsArms]
        swap
        · intro hcons
          cases hcons
        have hstuck : insts (if k < 64 then [] else [Turn.stuck]) = 0 := by split_ifs <;> rfl
        rw [insts_inst, insts_append, insts_inst, insts_append, hstuck, insts_room, hrest, h.1,
          sizeAll.eq_2 n]
        simp only [List.length_cons, Nat.add_sub_cancel]
        omega
  induction n using Node.induct with
  | empty => rfl
  | set s => rfl
  | begin => rfl
  | endText => rfl
  | concat items ih =>
    rw [Node.Built, builtAll_iff] at hn
    rw [Node.turns, insts_visit, hall fun n hmem => ih n hmem (hn n hmem), Node.size]
  | alt arms ih =>
    rw [Node.Built, builtAll_iff] at hn
    rw [Node.turns, insts_visit, insts_append, harms 0 fun n hmem => ih n hmem (hn.2 n hmem), Node.size]
    rfl
  | rep node min max ih =>
    rw [Node.Built] at hn
    rw [Node.turns, insts_visit, insts_turnsRep _ _ fun m hm => (hn.2.2 m hm).2, ih hn.1,
      Node.size_rep]

theorem paid_turnsAll {items : List Node} (h : ∀ n ∈ items, Paid n.height n.turns) :
    Paid (heightAll items) (turnsAll items) := by
  induction items with
  | nil => exact paid_of_loud_eq_zero rfl
  | cons n ns ih =>
    rw [List.forall_mem_cons] at h
    rw [turnsAll, heightAll]
    exact (h.1.mono (Nat.le_max_left _ _)).append ((ih h.2).mono (Nat.le_max_right _ _))

theorem paid_turnsArms {arms : List Node} (h : ∀ n ∈ arms, Paid n.height n.turns) (k : ℕ) :
    Paid (heightAll arms) (turnsArms k arms) := by
  induction arms generalizing k with
  | nil => exact paid_of_loud_eq_zero rfl
  | cons n ns ih =>
    rw [List.forall_mem_cons] at h
    have hn := h.1.mono (Nat.le_max_left n.height (heightAll ns))
    rcases ns with - | ⟨m, ms⟩
    · rw [turnsArms]
      exact hn
    · rw [turnsArms]
      swap
      · intro hcons
        cases hcons
      have hrest := (ih h.2 (k + 1)).mono (Nat.le_max_right n.height _)
      have hstuck : loud (if k < 64 then [] else [Turn.stuck]) = 0 := by split_ifs <;> rfl
      refine (hn.append (((paid_of_loud_eq_zero hstuck).append ?_).inst)).inst
      exact @Paid.append [.room] _ _ (paid_of_loud_eq_zero rfl) hrest

theorem Paid.turnsRep {H : ℕ} {body : List Turn} (h : Paid H body) (min : ℕ) (max : Option ℕ) :
    Paid H (turnsRep body min max) := by
  rcases max with - | max
  · exact (h.copies min).append (h.inst.append (paid_of_loud_eq_zero rfl))
  · exact (h.copies min).append ((h.inst.copies _).append (paid_of_loud_eq_zero rfl))

/-- **In a tree each visit that emits something is paid**, up to its height. -/
theorem paid_turns {n : Node} (hn : n.Built) : Paid n.height n.turns := by
  induction n using Node.induct with
  | empty => exact paid_of_loud_eq_zero rfl
  | set s => exact (paid_of_loud_eq_zero (H := 0) rfl).inst.visit fun h => (by cases h)
  | begin => exact (paid_of_loud_eq_zero (H := 0) rfl).inst.visit fun h => (by cases h)
  | endText => exact (paid_of_loud_eq_zero (H := 0) rfl).inst.visit fun h => (by cases h)
  | concat items ih =>
    have hinsts := insts_turns hn
    rw [Node.Built, builtAll_iff] at hn
    rw [Node.turns, insts_visit, Node.size] at hinsts
    rw [Node.turns, Node.height]
    exact (paid_turnsAll fun n hmem => ih n hmem (hn n hmem)).visit fun hzero =>
      decide_eq_true (hinsts.symm.trans hzero)
  | alt arms ih =>
    have hinsts := insts_turns hn
    rw [Node.Built, builtAll_iff] at hn
    rw [Node.turns, insts_visit] at hinsts
    rw [Node.turns, Node.height]
    exact ((paid_turnsArms (fun n hmem => ih n hmem (hn.2 n hmem)) 0).append
      (paid_of_loud_eq_zero rfl)).visit fun hzero => decide_eq_true (hinsts.symm.trans hzero)
  | rep node min max ih =>
    have hinsts := insts_turns hn
    rw [Node.Built] at hn
    rw [Node.turns, insts_visit] at hinsts
    rw [Node.turns, Node.height]
    exact ((ih hn.1).turnsRep min max).visit fun hzero =>
      decide_eq_true (hinsts.symm.trans hzero)

/-! ### The generator takes these turns -/

namespace Codegen

/-- **A computation of the code generator takes these turns**, as long as there is room. -/
structure Follows {α : Type} (ts : List Turn) (m : Act Codegen Error α) : Prop where
  of_ok : ∀ {g a g'}, g.prog.length ≤ maxProg → m g = .ok a g' →
    reach (maxProg - g.prog.length) ts = ts ∧ g'.prog.length = g.prog.length + insts ts ∧
      g'.calls = g.calls + (silent ts + loud ts)
  of_error : ∀ {g e g'}, g.prog.length ≤ maxProg → m g = .error e g' →
    reach (maxProg - g.prog.length) ts ≠ ts ∧
      g'.calls = g.calls + (silent (reach (maxProg - g.prog.length) ts) +
        loud (reach (maxProg - g.prog.length) ts))

section Follows

variable {α β : Type} {ts us : List Turn} {body : Act Codegen Error Unit}
variable {m : Act Codegen Error α}

/-- One after the other. -/
theorem Follows.andThen {f : α → Act Codegen Error β} (hm : Follows ts m)
    (hf : ∀ a, Follows us (f a)) : Follows (ts ++ us) (m >>= f) := by
  -- what the first part leaves of the room
  have hrest : ∀ {g a g'}, g.prog.length ≤ maxProg → m g = .ok a g' →
      g'.prog.length ≤ maxProg ∧ maxProg - g'.prog.length = maxProg - g.prog.length - insts ts := by
    intro g a g' hg hok
    obtain ⟨hreach, hlen, -⟩ := hm.of_ok hg hok
    have hle := insts_reach_le (maxProg - g.prog.length) ts
    rw [hreach] at hle
    exact ⟨by omega, by omega⟩
  constructor
  · intro g b g'' hg h
    obtain ⟨a, g', hfirst, hsecond⟩ := Act.bind_eq_ok h
    obtain ⟨hreach, hlen, hcalls⟩ := hm.of_ok hg hfirst
    obtain ⟨hg', hroom⟩ := hrest hg hfirst
    obtain ⟨hreach', hlen', hcalls'⟩ := (hf a).of_ok hg' hsecond
    rw [hroom] at hreach'
    rw [reach_append_of_eq hreach, hreach', insts_append, silent_append, loud_append]
    exact ⟨rfl, by omega, by omega⟩
  · intro g e g'' hg h
    rcases hfirst : m g with ⟨a, g'⟩ | ⟨e', g'⟩
    · rw [bind_of_ok hfirst] at h
      obtain ⟨hreach, -, hcalls⟩ := hm.of_ok hg hfirst
      obtain ⟨hg', hroom⟩ := hrest hg hfirst
      obtain ⟨hreach', hcalls'⟩ := (hf a).of_error hg' h
      rw [hroom] at hreach' hcalls'
      rw [reach_append_of_eq hreach, silent_append, loud_append]
      exact ⟨fun heq => hreach' (List.append_cancel_left heq), by omega⟩
    · rw [bind_of_error hfirst] at h
      cases h
      obtain ⟨hreach, hcalls⟩ := hm.of_error hg hfirst
      rw [reach_append_of_ne hreach]
      exact ⟨reach_append_of_ne hreach us ▸ reach_ne_append hreach us, hcalls⟩

theorem Follows.of_eq (h : Follows ts m) (hts : ts = us) : Follows us m := hts ▸ h

/-- What only moves the state, or reads it. -/
theorem follows_of_ok
    (hm : ∀ g, ∃ a g', m g = .ok a g' ∧ g'.prog.length = g.prog.length ∧ g'.calls = g.calls) :
    Follows [] m where
  of_ok {g a g'} _ h := by
    obtain ⟨b, g₁, heq, hlen, hcalls⟩ := hm g
    rw [heq] at h
    cases h
    exact ⟨rfl, hlen, hcalls⟩
  of_error {g e g'} _ h := by
    obtain ⟨b, g₁, heq, -⟩ := hm g
    rw [heq] at h
    cases h

theorem follows_pure (a : α) : Follows [] (pure a) := follows_of_ok fun g => ⟨a, g, rfl, rfl, rfl⟩

theorem follows_tick (s : Bool) : Follows [.visit s] tick where
  of_ok {g a g'} _ h := by
    cases h
    cases s <;> exact ⟨rfl, rfl, rfl⟩
  of_error _ h := by cases h

theorem follows_pc : Follows [.room] pc where
  of_ok {g a g'} _ h := by
    obtain ⟨-, rfl, hlt⟩ := pc_eq_ok h
    obtain ⟨room, hroom⟩ := Nat.exists_eq_add_of_lt hlt
    have hsub : maxProg - g'.prog.length = room + 1 := by omega
    rw [hsub]
    exact ⟨rfl, rfl, rfl⟩
  of_error {g e g'} hg h := by
    rw [pc] at h
    split_ifs at h with hlt
    cases h
    have hsub : maxProg - g.prog.length = 0 := by omega
    rw [hsub]
    exact ⟨fun heq => (by cases heq), rfl⟩

theorem follows_emit (i : Inst) : Follows [.inst] (emit i) where
  of_ok {g a g'} _ h := by
    obtain ⟨-, rfl, hlt⟩ := emit_eq_ok h
    have hsub : maxProg - g.prog.length = maxProg - g.prog.length - 1 + 1 := by omega
    rw [hsub]
    exact ⟨rfl, List.length_append, rfl⟩
  of_error {g e g'} hg h := by
    rw [emit] at h
    rcases Nat.lt_or_ge g.prog.length maxProg with hlt | hge
    · have hpc : pc g = .ok g.prog.length g := if_pos hlt
      rw [bind_of_ok hpc] at h
      cases h
    · have hpc : pc g = .error .tooLarge g := if_neg hge.not_gt
      rw [bind_of_error hpc] at h
      cases h
      have hsub : maxProg - g.prog.length = 0 := by omega
      rw [hsub]
      exact ⟨fun heq => (by cases heq), rfl⟩

theorem follows_patch (a : ℕ) (i : Inst) : Follows [] (patch a i) :=
  follows_of_ok fun _ => ⟨(), _, rfl, List.length_set, rfl⟩

theorem follows_patchAll (f : ℕ → Inst) (pcs : List ℕ) : Follows [] (patchAll f pcs) := by
  induction pcs with
  | nil => exact follows_pure ()
  | cons a pcs ih => exact (follows_patch a _).andThen fun _ => ih

theorem follows_ensure (c : Prop) [Decidable c] (e : Error) :
    Follows (if c then [] else [.stuck]) (ensure c e) := by
  rw [ensure]
  split_ifs
  · exact follows_pure ()
  · refine ⟨fun _ h => (by cases h), fun {g e' g'} _ h => ?_⟩
    cases h
    rw [reach]
    exact ⟨fun heq => (by cases heq), rfl⟩

theorem Follows.copies (h : Follows ts body) (n : ℕ) :
    Follows (List.replicate n ts).flatten (copies body n) := by
  induction n with
  | zero => exact follows_pure ()
  | succ n ih =>
    rw [List.replicate_succ, List.flatten_cons]
    exact h.andThen fun _ => ih

theorem Follows.options (h : Follows ts body) (n : ℕ) (splits : List ℕ) :
    Follows (List.replicate n (.inst :: ts)).flatten (options body n splits) := by
  induction n generalizing splits with
  | zero => exact follows_pure splits
  | succ n ih =>
    rw [List.replicate_succ, List.flatten_cons]
    exact (follows_emit _).andThen fun split => h.andThen fun _ => ih _

theorem Follows.rep (h : Follows ts body) (min : ℕ) (max : Option ℕ) :
    Follows (turnsRep ts min max) (rep body min max) := by
  rcases max with - | max
  · refine ((h.copies min).andThen fun _ => (follows_emit _).andThen fun top => h.andThen fun _ =>
      (follows_emit _).andThen fun _ => follows_pc.andThen fun e => follows_patch top _).of_eq ?_
    rfl
  · refine ((h.copies min).andThen fun _ => (h.options _ []).andThen fun splits =>
      follows_pc.andThen fun e => follows_patchAll _ splits).of_eq ?_
    rfl

end Follows

theorem follows_emitAll {items : List Node} (h : ∀ n ∈ items, Follows n.turns (emitNode n)) :
    Follows (turnsAll items) (emitAll items) := by
  induction items with
  | nil =>
    rw [emitAll]
    exact follows_pure ()
  | cons n ns ih =>
    rw [List.forall_mem_cons] at h
    rw [emitAll, turnsAll]
    exact h.1.andThen fun _ => ih h.2

theorem follows_emitArms {arms : List Node} (h : ∀ n ∈ arms, Follows n.turns (emitNode n))
    (jumps : List ℕ) : Follows (turnsArms jumps.length arms) (emitArms arms jumps) := by
  induction arms generalizing jumps with
  | nil =>
    rw [emitArms]
    exact follows_pure jumps
  | cons n ns ih =>
    rw [List.forall_mem_cons] at h
    rcases ns with - | ⟨m, ms⟩
    · rw [emitArms, turnsArms]
      exact (h.1.andThen fun _ => follows_pure jumps).of_eq (List.append_nil _)
    · have hne : m :: ms ≠ [] := List.cons_ne_nil m ms
      rw [emitArms, turnsArms]
      rotate_left
      · exact hne
      · exact hne
      refine ((follows_emit _).andThen fun split => h.1.andThen fun _ =>
        (follows_emit _).andThen fun j => (follows_ensure _ _).andThen fun _ =>
          follows_pc.andThen fun next => (follows_patch split _).andThen fun _ => ?_)
      have hrest := ih h.2 (jumps ++ [j])
      rwa [List.length_append, List.length_singleton] at hrest

/-- **The code of a node takes the turns of the node.** -/
theorem follows_emitNode (n : Node) : Follows n.turns (emitNode n) := by
  induction n using Node.induct with
  | empty =>
    rw [emitNode, Node.turns]
    exact follows_tick true
  | set s =>
    rw [emitNode, Node.turns]
    exact (follows_tick false).andThen fun _ => (follows_emit _).andThen fun _ => follows_pure ()
  | begin =>
    rw [emitNode, Node.turns]
    exact (follows_tick false).andThen fun _ => (follows_emit _).andThen fun _ => follows_pure ()
  | endText =>
    rw [emitNode, Node.turns]
    exact (follows_tick false).andThen fun _ => (follows_emit _).andThen fun _ => follows_pure ()
  | concat items ih =>
    rw [emitNode, Node.turns]
    exact (follows_tick _).andThen fun _ => follows_emitAll ih
  | alt arms ih =>
    rw [emitNode, Node.turns]
    exact (follows_tick _).andThen fun _ => (follows_emitArms ih []).andThen fun jumps =>
      follows_pc.andThen fun e => follows_patchAll _ jumps
  | rep node min max ih =>
    rw [emitNode, Node.turns]
    exact (follows_tick _).andThen fun _ => ih.rep min max

end Codegen

/-! ### What is wasted -/

theorem frugalAll_iff {nodes : List Node} : FrugalAll nodes ↔ ∀ n ∈ nodes, n.Frugal := by
  induction nodes with
  | nil => exact ⟨fun _ => nofun, fun _ => trivial⟩
  | cons n ns ih => rw [FrugalAll, List.forall_mem_cons, ih]

theorem silent_turnsAll_le {nodes : List Node} (h : ∀ n ∈ nodes, silent n.turns ≤ n.quiet) :
    silent (turnsAll nodes) ≤ quietAll nodes := by
  induction nodes with
  | nil => exact le_rfl
  | cons n ns ih =>
    rw [List.forall_mem_cons] at h
    rw [turnsAll, silent_append, quietAll]
    exact Nat.add_le_add h.1 (ih h.2)

theorem silent_turnsArms (k : ℕ) (arms : List Node) :
    silent (turnsArms k arms) = silent (turnsAll arms) := by
  induction arms generalizing k with
  | nil => rfl
  | cons n ns ih =>
    rcases ns with - | ⟨m, ms⟩
    · rw [turnsArms, turnsAll, turnsAll, List.append_nil]
    · have hrest := ih (k + 1)
      rw [turnsArms]
      swap
      · intro hcons
        cases hcons
      have hstuck : silent (if k < 64 then [] else [Turn.stuck]) = 0 := by split_ifs <;> rfl
      rw [silent_inst, silent_append, silent_inst, silent_append, hstuck, silent_room, hrest,
        Nat.zero_add, turnsAll.eq_2 n, silent_append]

theorem silent_turnsRep_le (body : List Turn) (min : ℕ) (max : Option ℕ) :
    silent (turnsRep body min max) ≤ copiesOf min max * silent body := by
  rcases max with - | max
  · have hend : silent [.inst, .room] = 0 := rfl
    rw [turnsRep, silent_append, silent_copies, List.cons_append, silent_inst, silent_append, hend,
      copiesOf, Nat.succ_mul]
    omega
  · have hend : silent [.room] = 0 := rfl
    rw [turnsRep, silent_append, silent_copies, silent_append, silent_copies, silent_inst,
      hend, copiesOf,
      Nat.add_mul]
    exact Nat.add_le_add_left (Nat.mul_le_mul_right _ (Nat.min_le_left _ _)) _

/-- In a frugal tree, what compiles to nothing is visited once each. -/
theorem Node.Frugal.silent_le {n : Node} (h : n.Frugal) : silent n.turns ≤ n.quiet := by
  have hvisit : ∀ (p : Prop) [Decidable p] ts,
      silent (.visit (decide p) :: ts) = silent ts + if p then 1 else 0 := by
    intro p _ ts
    rw [silent_visit]
    simp only [decide_eq_true_eq]
  induction n using Node.induct with
  | empty => exact le_rfl
  | set s => exact le_rfl
  | begin => exact le_rfl
  | endText => exact le_rfl
  | concat items ih =>
    rw [Node.Frugal, frugalAll_iff] at h
    have hall := silent_turnsAll_le fun n hmem => ih n hmem (h n hmem)
    rw [turns, hvisit, quiet]
    exact Nat.add_le_add_right hall _
  | alt arms ih =>
    rw [Node.Frugal, frugalAll_iff] at h
    have hall := silent_turnsAll_le fun n hmem => ih n hmem (h n hmem)
    rw [turns, hvisit, quiet, silent_append, silent_turnsArms]
    exact Nat.add_le_add_right hall _
  | rep node min max ih =>
    obtain ⟨hnode, hcopies⟩ := h
    have hle := silent_turnsRep_le node.turns min max
    have hbody := ih hnode
    rw [turns, hvisit, quiet]
    refine Nat.add_le_add_right (hle.trans ?_) _
    rcases hcopies with hone | hquiet
    · exact (Nat.mul_le_mul_right _ hone).trans (by rwa [Nat.one_mul])
    · have hzero : silent node.turns = 0 := by omega
      rw [hzero, Nat.mul_zero]
      exact Nat.zero_le _

namespace Regex

/-- The most quantifiers that stand behind one atom of the pattern. -/
def stacksOf (pattern : Bytes) : ℕ := (state (Parser.alt { s := pattern })).stacked

/-- How often `emitNode` is called before the tree is compiled, or refused. -/
def callsOf (root : Node) : ℕ := (state (compile root {})).calls

/-- The tree of the pattern is at most `D` high, and compiling it takes at most `C` times
`maxProg` calls, and one for each byte. -/
def Bounded (D C : ℕ) (pattern : Bytes) : Prop :=
  ∀ root, parse pattern = .ok root →
    root.height ≤ D ∧ callsOf root ≤ C * maxProg + pattern.length

/-- At most `q` quantifiers stand behind one atom, and before the program is full, what compiles to
nothing is visited at most `q` times `maxProg` times, and once for each byte. -/
def Thrifty (q : ℕ) (pattern : Bytes) : Prop :=
  ∀ root, parse pattern = .ok root →
    stacksOf pattern ≤ q ∧ root.wasted ≤ q * maxProg + pattern.length

/-- What the parser says of the tree of a pattern. -/
theorem reads_of_parse {pattern : Bytes} (h : parse pattern = .ok root) :
    root.Built ∧ root.height ≤ Parser.heightBound maxNest (stacksOf pattern) ∧
      stacksOf pattern < root.height ∧ root.quiet ≤ pattern.length + 2 := by
  obtain ⟨p, halt⟩ := parse_eq_ok h
  have hreads := Parser.reads_altIn maxNest _ _ _ halt
  have hstacks : stacksOf pattern = p.stacked := by
    rw [stacksOf, halt]
    rfl
  have hone := root.one_le_height
  have hquiet := hreads.quiet_le
  have hlt := hreads.lt_height
  rw [hstacks]
  simp only [Parser.left] at hquiet hlt
  exact ⟨hreads.built, hreads.height_le, by omega, by omega⟩

/-- **The calls that compiling a tree takes** are the visits before the program is full. -/
theorem callsOf_eq (root : Node) :
    callsOf root = root.wasted + loud (reach maxProg root.turns) := by
  have hfollows : Codegen.Follows (root.turns ++ [.inst]) (compile root) :=
    ((Codegen.follows_emitNode root).andThen fun _ => (Codegen.follows_emit _).andThen fun _ =>
      Codegen.follows_pure ())
  -- the last instruction is no visit
  have hlast : ∀ room, silent (reach room (root.turns ++ [.inst])) = silent (reach room root.turns) ∧
      loud (reach room (root.turns ++ [.inst])) = loud (reach room root.turns) := by
    intro room
    by_cases hwhole : reach room root.turns = root.turns
    · rw [reach_append_of_eq hwhole, silent_append, loud_append, hwhole]
      rcases room - insts root.turns with - | rest
      · exact ⟨rfl, rfl⟩
      · exact ⟨rfl, rfl⟩
    · rw [reach_append_of_ne hwhole]
      exact ⟨rfl, rfl⟩
  obtain ⟨hsilent, hloud⟩ := hlast maxProg
  rw [callsOf, Node.wasted, ← hsilent, ← hloud]
  rcases h : compile root {} with ⟨a, g⟩ | ⟨e, g⟩
  · obtain ⟨hreach, -, hcalls⟩ := hfollows.of_ok (Nat.zero_le _) h
    have hreach' : reach maxProg (root.turns ++ [.inst]) = root.turns ++ [.inst] := hreach
    rw [state_ok, hcalls, hreach']
    exact Nat.zero_add _
  · obtain ⟨-, hcalls⟩ := hfollows.of_error (Nat.zero_le _) h
    rw [state_error, hcalls]
    exact Nat.zero_add _

theorem callsOf_le (hroot : root.Built) :
    callsOf root ≤ root.height * (maxProg + 1) + root.wasted := by
  have hpaid := (paid_turns hroot).part _ (prefix_reach maxProg root.turns)
  have hfull := Nat.mul_le_mul_left root.height
    (Nat.add_le_add_right (insts_reach_le maxProg root.turns) 1)
  rw [callsOf_eq]
  omega

/-- **When compiling is bounded**, whether the pattern is accepted or refused: exactly if the
quantifiers behind one atom are, and the visits to what compiles to nothing before the program is
full. The second holds of every pattern that does not repeat such a node. -/
theorem bounded_iff_thrifty (pattern : Bytes) :
    (∀ q, Thrifty q pattern →
      Bounded (Parser.heightBound maxNest q) (2 * Parser.heightBound maxNest q + q) pattern) ∧
    (∀ D C, Bounded D C pattern → Thrifty (max D C) pattern) ∧
    ∀ root, parse pattern = .ok root → root.Frugal → root.wasted ≤ pattern.length + 2 := by
  refine ⟨?_, ?_, ?_⟩
  · intro q h root hroot
    obtain ⟨hstacks, hwasted⟩ := h root hroot
    obtain ⟨hbuilt, hheight, -, -⟩ := reads_of_parse hroot
    have hheight' := hheight.trans (Parser.heightBound_mono maxNest hstacks)
    refine ⟨hheight', (callsOf_le hbuilt).trans ?_⟩
    have hmul : root.height * (maxProg + 1) ≤ 2 * Parser.heightBound maxNest q * maxProg := by
      refine (Nat.mul_le_mul hheight' (show maxProg + 1 ≤ 2 * maxProg by decide)).trans ?_
      rw [Nat.mul_left_comm, Nat.mul_assoc]
    rw [Nat.add_mul]
    omega
  · intro D C h root hroot
    obtain ⟨hheight, hcalls⟩ := h root hroot
    obtain ⟨-, -, hstacks, -⟩ := reads_of_parse hroot
    rw [callsOf_eq] at hcalls
    have hmul := Nat.mul_le_mul_right maxProg (Nat.le_max_right D C)
    exact ⟨by omega, by omega⟩
  · intro root hroot hfrugal
    have hpart : root.wasted ≤ silent root.turns :=
      (prefix_reach maxProg root.turns).sublist.count_le _
    exact hpart.trans (hfrugal.silent_le.trans (reads_of_parse hroot).2.2.2)

end Regex

end Hop.Cloudflared
