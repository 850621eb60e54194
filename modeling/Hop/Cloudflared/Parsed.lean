import Hop.Cloudflared.Folding
import Hop.Cloudflared.Regex

/-!
# What the parser builds

Of the tree of a pattern: its repetitions have bounds that the code generator has room for; it is
at most so high as the nesting of groups and the quantifiers behind one atom allow, and higher than
these quantifiers are many; and it has at most one node more that compiles to nothing than the
pattern has bytes (`reads_altIn`).
-/

namespace Hop.Cloudflared

open Act

/-! ### Measures of a tree -/

mutual

/-- How high a tree is. -/
def Node.height : Node → ℕ
  | .concat items => heightAll items + 1
  | .alt arms => heightAll arms + 1
  | .rep node _ _ => node.height + 1
  | _ => 1

/-- The height of the highest. -/
def heightAll : List Node → ℕ
  | [] => 0
  | node :: nodes => max node.height (heightAll nodes)

end

/-- How many copies of its body a repetition has. -/
def copiesOf (min : ℕ) : Option ℕ → ℕ
  | none => min + 1
  | some max => min + (max - min)

mutual

/-- How many instructions the code of a node has. -/
def Node.size : Node → ℕ
  | .empty => 0
  | .set _ | .begin | .endText => 1
  | .concat items => sizeAll items
  | .alt arms => sizeAll arms + 2 * (arms.length - 1)
  | .rep node min none => (min + 1) * node.size + 2
  | .rep node min (some max) => (min + (max - min)) * node.size + (max - min)

/-- How many the codes of the nodes have. -/
def sizeAll : List Node → ℕ
  | [] => 0
  | node :: nodes => node.size + sizeAll nodes

end

mutual

/-- How many nodes of a tree compile to nothing. -/
def Node.quiet : Node → ℕ
  | .concat items => quietAll items + if sizeAll items = 0 then 1 else 0
  | .alt arms => quietAll arms + if (Node.alt arms).size = 0 then 1 else 0
  | .rep node min max => node.quiet + if (Node.rep node min max).size = 0 then 1 else 0
  | .empty => 1
  | _ => 0

/-- How many of the nodes of the trees do. -/
def quietAll : List Node → ℕ
  | [] => 0
  | node :: nodes => node.quiet + quietAll nodes

end

theorem Node.one_le_height (n : Node) : 1 ≤ n.height := by
  rcases n with _ | _ | _ | _ | _ | _ | _
  · exact le_rfl
  · exact le_rfl
  · exact le_rfl
  · exact le_rfl
  · rw [height]
    omega
  · rw [height]
    omega
  · rw [height]
    omega

/-- One byte of a set, or an anchor. -/
def Node.IsLeaf : Node → Prop
  | .set _ | .begin | .endText => True
  | _ => False

theorem Node.IsLeaf.height {n : Node} (h : n.IsLeaf) : n.height = 1 := by
  match n, h with
  | .set _, _ | .begin, _ | .endText, _ => rfl

theorem Node.IsLeaf.built {n : Node} (h : n.IsLeaf) : n.Built := by
  match n, h with
  | .set _, _ | .begin, _ | .endText, _ => trivial

theorem Node.IsLeaf.quiet {n : Node} (h : n.IsLeaf) : n.quiet = 0 := by
  match n, h with
  | .set _, _ | .begin, _ | .endText, _ => rfl

theorem heightAll_append (ns ms : List Node) :
    heightAll (ns ++ ms) = max (heightAll ns) (heightAll ms) := by
  induction ns with
  | nil => exact (Nat.zero_max _).symm
  | cons n ns ih => rw [List.cons_append, heightAll, heightAll, ih, Nat.max_assoc]

theorem quietAll_append (ns ms : List Node) : quietAll (ns ++ ms) = quietAll ns + quietAll ms := by
  induction ns with
  | nil => exact (Nat.zero_add _).symm
  | cons n ns ih => rw [List.cons_append, quietAll, quietAll, ih, Nat.add_assoc]

theorem builtAll_append {ns ms : List Node} (hns : BuiltAll ns) (hms : BuiltAll ms) :
    BuiltAll (ns ++ ms) := by
  rw [builtAll_iff] at hns hms ⊢
  exact List.forall_mem_append.mpr ⟨hns, hms⟩

theorem quiet_rep_le (n : Node) (min : ℕ) (max : Option ℕ) :
    (Node.rep n min max).quiet ≤ n.quiet + 1 := by
  rw [Node.quiet]
  split_ifs <;> omega

/-! ### Reading -/

namespace Parser

/-- What reading a tree means for it: it is as the parser builds it, of a height that is bounded by
the quantifiers behind one atom, and higher than those that were read are many; and it has at most
`d` nodes more that compile to nothing than bytes were read. -/
structure Reads (B : ℕ → ℕ) (d : ℕ) (p : Parser) (a : Node) (p' : Parser) : Prop where
  built : a.Built
  stacked_le : p.stacked ≤ p'.stacked
  height_le : a.height ≤ B p'.stacked
  lt_height : p'.stacked ≤ p.stacked ∨ p'.stacked < a.height
  quiet_le : a.quiet + p'.left ≤ p.left + d
  folds : p.fold = true → p'.fold = true ∧ a.CaseClosed

/-- The same of several trees. -/
structure ReadsAll (B : ℕ → ℕ) (d : ℕ) (p : Parser) (as : List Node) (p' : Parser) : Prop where
  built : BuiltAll as
  stacked_le : p.stacked ≤ p'.stacked
  height_le : heightAll as ≤ B p'.stacked
  lt_height : p'.stacked ≤ p.stacked ∨ p'.stacked < heightAll as
  quiet_le : quietAll as + p'.left ≤ p.left + d
  folds : p.fold = true → p'.fold = true ∧ CaseClosedAll as

variable {B : ℕ → ℕ} {d : ℕ} {p p' q : Parser}

theorem ReadsAll.nil (p : Parser) : ReadsAll B 0 p [] p where
  built := trivial
  stacked_le := le_rfl
  height_le := Nat.zero_le _
  lt_height := .inl le_rfl
  quiet_le := by
    rw [quietAll]
    omega
  folds h := ⟨h, trivial⟩

/-- One more tree. -/
theorem ReadsAll.snoc (hB : Monotone B) {as : List Node} {a : Node} {c : ℕ}
    (h : ReadsAll B d p as q) (ha : Reads B c q a p') : ReadsAll B (d + c) p (as ++ [a]) p' where
  built := builtAll_append h.built ⟨ha.built, trivial⟩
  stacked_le := h.stacked_le.trans ha.stacked_le
  height_le := by
    have hle := h.height_le.trans (hB ha.stacked_le)
    have hle' := ha.height_le
    rw [heightAll_append, heightAll, heightAll]
    omega
  lt_height := by
    have hlt := h.lt_height
    have hlt' := ha.lt_height
    have hle := ha.stacked_le
    rw [heightAll_append, heightAll, heightAll]
    omega
  quiet_le := by
    have hle := h.quiet_le
    have hle' := ha.quiet_le
    rw [quietAll_append, quietAll, quietAll]
    omega
  folds hfold := by
    obtain ⟨hq, has⟩ := h.folds hfold
    obtain ⟨hp', hclosed⟩ := ha.folds hq
    exact ⟨hp', caseClosedAll_append has ⟨hclosed, trivial⟩⟩

/-- A reader that may have read more before, and more behind. -/
theorem Reads.widen {B' : ℕ → ℕ} {a : Node} {c : ℕ} {p₀ p₁ : Parser} (h : Reads B d p a p')
    (hB : ∀ x, B x ≤ B' x) (hs : p₀.stacked = p.stacked ∧ p₀.fold = p.fold)
    (hs' : p₁.stacked = p'.stacked ∧ p₁.fold = p'.fold) (hl : p.left + d ≤ p₀.left + c)
    (hl' : p₁.left ≤ p'.left) : Reads B' c p₀ a p₁ where
  built := h.built
  stacked_le := by
    rw [hs.1, hs'.1]
    exact h.stacked_le
  height_le := by
    rw [hs'.1]
    exact h.height_le.trans (hB _)
  lt_height := by
    rw [hs.1, hs'.1]
    exact h.lt_height
  quiet_le := by
    have hle := h.quiet_le
    omega
  folds := by
    rw [hs.2, hs'.2]
    exact h.folds

/-- A tree of one node, from bytes without a quantifier. -/
theorem Reads.leaf {a : Node} (ha : a.height = 1) (hbuilt : a.Built) (hB : ∀ x, 1 ≤ B x)
    (hs : p'.stacked = p.stacked) (hq : a.quiet + p'.left ≤ p.left + d)
    (hf : p.fold = true → p'.fold = true ∧ a.CaseClosed) : Reads B d p a p' where
  built := hbuilt
  stacked_le := hs.ge
  height_le := ha.le.trans (hB _)
  lt_height := .inl hs.le
  quiet_le := hq
  folds := hf

/-! ### Without a quantifier -/

/-- No quantifier was read, and no flag. -/
def Plain (p p' : Parser) : Prop := p'.stacked = p.stacked ∧ p'.fold = p.fold

instance : Std.Refl Plain := ⟨fun _ => ⟨rfl, rfl⟩⟩

instance : IsTrans Parser Plain := ⟨fun _ _ _ h h' => ⟨h'.1.trans h.1, h'.2.trans h.2⟩⟩

theorem plain_peek : Keeps Plain peek := fun _ => ⟨rfl, rfl⟩

theorem plain_skip (n : ℕ) : Keeps Plain (skip n) := fun _ => ⟨rfl, rfl⟩

theorem plain_next (e : Error) : Keeps Plain (next e) := by
  intro p
  rw [next]
  split
  · exact ⟨rfl, rfl⟩
  · exact ⟨rfl, rfl⟩

theorem plain_okOr {α : Type} (o : Option α) (e : Error) : Keeps Plain (okOr o e) := by
  rcases o with - | a
  · exact keeps_throw e
  · exact keeps_pure a

theorem plain_literal (c : UInt8) : Keeps Plain (literal c) := fun _ => ⟨rfl, rfl⟩

theorem plain_classLow (at' : ℕ) (c : UInt8) : Keeps Plain (classLow at' c) := by
  rw [classLow]
  split_ifs
  · refine (plain_next _).andThen fun e => ?_
    split
    · exact keeps_pure _
    · exact keeps_get.andThen fun p => (plain_okOr _ _).andThen fun b => keeps_pure _
  · exact keeps_get.andThen fun p => (keeps_ensure _ _).andThen fun _ => keeps_pure _

theorem plain_classHigh (at' : ℕ) : Keeps Plain (classHigh at') := by
  refine (plain_next _).andThen fun hi => ?_
  split_ifs
  · exact (plain_next _).andThen fun e => plain_okOr _ _
  · exact keeps_pure _

theorem plain_classTurn (at' : ℕ) (a : ByteSet × Bool) : Keeps Plain (classTurn at' a) := by
  refine (plain_next _).andThen fun c => ?_
  split_ifs
  · exact keeps_pure _
  · refine (plain_classLow at' c).andThen fun low => ?_
    split
    · exact keeps_pure _
    · refine keeps_get.andThen fun p => ?_
      split_ifs
      · exact (plain_skip 1).andThen fun _ => (plain_classHigh at').andThen fun hi =>
          (keeps_ensure _ _).andThen fun _ => keeps_pure _
      · exact keeps_pure _

theorem plain_readClass (at' : ℕ) : Keeps Plain (readClass at') :=
  plain_peek.andThen fun _ => (keeps_onlyIf _ (plain_skip 1)).andThen fun _ =>
    (Keeps.loop (plain_classTurn at') _).andThen fun _ => keeps_get.andThen fun _ =>
      keeps_pure _

theorem plain_escape (at' : ℕ) : Keeps Plain (escape at') := by
  refine (plain_next _).andThen fun c => ?_
  split
  · exact keeps_pure _
  · split_ifs
    · exact keeps_pure _
    · exact keeps_pure _
    · exact (plain_okOr _ _).andThen fun b => (plain_literal b).andThen fun _ =>
        keeps_pure _

/-- What reads a leaf. -/
def ReadsLeaf (m : Act Parser Error Node) : Prop :=
  Ends (fun p a p' => (a.IsLeaf ∧ (p.fold = true → a.CaseClosed)) ∧ Plain p p' ∧
    p'.left ≤ p.left) m

theorem ReadsLeaf.of {m : Act Parser Error Node}
    (hleaf : Ends (fun p a _ => a.IsLeaf ∧ (p.fold = true → a.CaseClosed)) m) (hm : Keeps Plain m)
    (hlow : Lowers left 0 m) : ReadsLeaf m := by
  intro p a p' h
  refine ⟨hleaf p a p' h, hm.of_ok h, ?_⟩
  have hle := hlow.of_ok h
  omega

theorem ReadsLeaf.reads {m : Act Parser Error Node} (h : ReadsLeaf m) (hB : ∀ x, 1 ≤ B x) :
    Ends (Reads B d) m := by
  intro p a p' hm
  obtain ⟨⟨hleaf, hclosed⟩, hplain, hle⟩ := h p a p' hm
  refine Reads.leaf hleaf.height hleaf.built hB hplain.1 ?_ fun hfold => ?_
  · rw [hleaf.quiet]
    omega
  · exact ⟨hplain.2.trans hfold, hclosed hfold⟩

theorem readsLeaf_pure {a : Node} (ha : a.IsLeaf) (hclosed : a.CaseClosed) : ReadsLeaf (pure a) :=
  ReadsLeaf.of (ends_pure fun _ => ⟨ha, fun _ => hclosed⟩) (keeps_pure a) (lowers_pure a)

/-- A set as a node. -/
theorem ReadsLeaf.of_set {m : Act Parser Error ByteSet}
    (hclosed : Ends (fun p set _ => p.fold = true → set.CaseClosed) m) (hm : Keeps Plain m)
    (hlow : Lowers left 0 m) : ReadsLeaf (m >>= fun set => pure (.set set)) := by
  refine ReadsLeaf.of ?_ (hm.andThen fun _ => keeps_pure _) (hlow.andThen le_rfl fun _ =>
    lowers_pure _)
  exact Ends.bind hclosed fun set => ends_pure fun _ _ h => ⟨trivial, h⟩

theorem readsLeaf_literal (c : UInt8) : ReadsLeaf (literal c >>= fun set => pure (.set set)) := by
  refine ReadsLeaf.of_set ?_ (plain_literal c) (lowers_literal c)
  intro p set p' h hfold
  cases h
  rw [hfold]
  exact ByteSet.caseClosed_fold _

theorem readsLeaf_readClass (at' : ℕ) :
    ReadsLeaf (readClass at' >>= fun set => pure (.set set)) := by
  refine ReadsLeaf.of_set ?_ (plain_readClass at') (lowers_readClass at')
  intro p set p' h hfold
  obtain ⟨c, p₁, hpeek, hrest⟩ := Act.bind_eq_ok h
  obtain ⟨_, p₂, hskip, hloop⟩ := Act.bind_eq_ok hrest
  obtain ⟨set₀, p₃, hset, hlast⟩ := Act.bind_eq_ok hloop
  have hplain : Plain p p₃ :=
    Trans.trans (Trans.trans (plain_peek.of_ok hpeek)
      ((keeps_onlyIf _ (plain_skip 1)).of_ok hskip))
      ((Keeps.loop (plain_classTurn at') _).of_ok hset)
  cases hlast
  rw [hplain.2, hfold, if_pos rfl]
  split_ifs
  · exact (ByteSet.caseClosed_fold _).invert
  · exact ByteSet.caseClosed_fold _

theorem readsLeaf_escape (at' : ℕ) : ReadsLeaf (escape at') := by
  refine ReadsLeaf.of ?_ (plain_escape at') (lowers_escape at')
  intro p a p' h
  obtain ⟨c, p₁, hnext, hrest⟩ := Act.bind_eq_ok h
  have hplain := (plain_next _).of_ok hnext
  rcases hperl : perl c with - | set
  · rw [hperl] at hrest
    dsimp only at hrest
    split_ifs at hrest
    · cases hrest
      exact ⟨trivial, fun _ => trivial⟩
    · cases hrest
      exact ⟨trivial, fun _ => trivial⟩
    · obtain ⟨b, p₂, hb, hlast⟩ := Act.bind_eq_ok hrest
      have hplain' := (plain_okOr _ _).of_ok hb
      obtain ⟨hleaf, -⟩ := readsLeaf_literal b _ _ _ hlast
      rwa [hplain'.2, hplain.2] at hleaf
  · rw [hperl] at hrest
    cases hrest
    exact ⟨trivial, fun _ => caseClosed_of_perl hperl⟩

/-! ### Groups -/

section Groups

variable {inner : Forward Node}

/-- The bracket behind the inside of a group is read too. -/
theorem reads_nested (hinner : Ends (Reads B 2) inner.1) (at' : ℕ) :
    Ends (Reads B 1) (nested inner at') := by
  intro p a p' h
  obtain ⟨_, p₁, hdeeper, h⟩ := Act.bind_eq_ok h
  cases hdeeper
  rw [get_bind] at h
  obtain ⟨_, p₂, hdepth, hrest⟩ := Act.bind_eq_ok h
  obtain ⟨-, rfl⟩ := ensure_eq_ok hdepth
  obtain ⟨node, q, hnode, hlast⟩ := Act.bind_eq_ok hrest
  obtain ⟨c, q₁, hpeek, hclosed⟩ := Act.bind_eq_ok hlast
  cases hpeek
  obtain ⟨_, q₂, hensure, hend⟩ := Act.bind_eq_ok hclosed
  obtain ⟨hclose, rfl⟩ := ensure_eq_ok hensure
  cases hend
  have hbyte := left_of_getElem? hclose
  have hreads := hinner _ _ _ hnode
  refine ⟨hreads.built, hreads.stacked_le, hreads.height_le, hreads.lt_height, ?_, hreads.folds⟩
  have hle := hreads.quiet_le
  simp only [left] at hle hbyte ⊢
  omega

theorem reads_group (hB : ∀ x, 1 ≤ B x) (hinner : Ends (Reads B 2) inner.1) (at' : ℕ) :
    Ends (Reads B 1) (group inner at') := by
  intro p a p' h
  rw [group, get_bind] at h
  split_ifs at h
  · rcases htwo : (p.s.drop (p.i + 1)).take 2 with - | ⟨a, - | ⟨b, - | ⟨c, rest⟩⟩⟩ <;>
      rw [htwo] at h
    · cases h
    · cases h
    · dsimp only at h
      split_ifs at h
      · cases h
        refine Reads.leaf rfl trivial hB rfl ?_ fun _ => ⟨rfl, trivial⟩
        simp only [Node.quiet, left]
        omega
      · obtain ⟨_, p₁, hskip, h⟩ := Act.bind_eq_ok h
        cases hskip
        refine (reads_nested hinner at' _ _ _ h).widen (fun _ => le_rfl) ⟨rfl, rfl⟩ ⟨rfl, rfl⟩ ?_ le_rfl
        simp only [left]
        omega
      · cases h
    · cases h
  · exact reads_nested hinner at' p a p' h

theorem reads_atomOf (hB : ∀ x, 1 ≤ B x) (hinner : Ends (Reads B 2) inner.1) (at' : ℕ) (c : UInt8) :
    Ends (Reads B 1) (atomOf inner at' c) := by
  rw [atomOf]
  split_ifs
  · exact reads_group hB hinner at'
  · exact (readsLeaf_readClass at').reads hB
  · exact (readsLeaf_pure (a := .set _) trivial caseClosed_dot).reads hB
  · exact (readsLeaf_pure (a := .begin) trivial trivial).reads hB
  · exact (readsLeaf_pure (a := .endText) trivial trivial).reads hB
  · exact (readsLeaf_escape at').reads hB
  · exact ends_throw _
  · exact ends_throw _
  · exact (readsLeaf_literal c).reads hB

/-- The first byte of an atom pays for the one node more. -/
theorem reads_atom (hB : ∀ x, 1 ≤ B x) (hinner : Ends (Reads B 2) inner.1) {c : UInt8} {a : Node}
    (hc : p.s[p.i]? = some c) (h : atom inner p = .ok a p') : Reads B 0 p a p' := by
  rw [atom_of_getElem? inner hc] at h
  exact (reads_atomOf hB hinner p.i c _ _ _ h).widen (fun _ => le_rfl) ⟨rfl, rfl⟩ ⟨rfl, rfl⟩
    (left_of_getElem? hc) le_rfl

end Groups

/-! ### Quantifiers -/

/-- So many quantifiers were read behind a node, each with a byte of its own. -/
structure Stacks (node : Node) (q : Parser) (a : Node) (n : ℕ) (p' : Parser) : Prop where
  built : a.Built
  height : a.height = node.height + n
  stacked : p'.stacked = max q.stacked n
  quiet : a.quiet + p'.left ≤ node.quiet + q.left
  fold : p'.fold = q.fold
  closed : node.CaseClosed → a.CaseClosed

/-- One more quantifier. -/
theorem Stacks.turn {node a : Node} {n : ℕ} {t : Turn (Node × ℕ) Node}
    (h : Stacks node q a n p) (hturn : quantifyTurn (a, n) p = .ok t p') :
    match t with
    | .more a' => Stacks node q a'.1 a'.2 p'
    | .done a' => Stacks node q a' n p' := by
  rcases quantifyTurn_eq_ok hturn with ⟨rfl, rfl⟩ | ⟨min, max, k, rfl, rfl, hlt, hk, hmin, hmax⟩
  · exact h
  · refine ⟨⟨h.built, hmin, hmax⟩, ?_, ?_, ?_, h.fold, h.closed⟩
    · rw [Node.height, h.height, Nat.add_assoc]
    · have hs := h.stacked
      dsimp only at hs ⊢
      omega
    · have hone := quiet_rep_le a min max
      have hq := h.quiet
      simp only [left] at hq ⊢
      omega

theorem stacks_quantifiers {node a : Node} (hnode : node.Built)
    (h : quantifiers node q = .ok a p') : ∃ n, Stacks node q a n p' := by
  refine Ends.loop (I := fun s₀ a s => Stacks node s₀ a.1 a.2 s)
    (P := fun s₀ a s => ∃ n, Stacks node s₀ a n s) ?_ ?_ (node, 0) q a p' h q ?_
  · intro s₀ a s a' s' hI hturn
    exact hI.turn hturn
  · intro s₀ a s b s' hI hturn
    exact ⟨a.2, hI.turn hturn⟩
  · exact ⟨hnode, rfl, (Nat.max_zero _).symm, le_rfl, rfl, id⟩

/-- The quantifiers behind an atom add their number to its height. -/
theorem Reads.quantifiers (hB : Monotone B) {node a : Node} (hnode : Reads B d p node q)
    (h : Parser.quantifiers node q = .ok a p') : Reads (fun x => B x + x) d p a p' := by
  obtain ⟨n, hstack⟩ := stacks_quantifiers hnode.built h
  have hs := hstack.stacked
  have hsle := hnode.stacked_le
  have hheight := hstack.height
  refine ⟨hstack.built, by omega, ?_, ?_, ?_, fun hfold => ?_⟩
  · have hle := hnode.height_le.trans (hB (show q.stacked ≤ p'.stacked by omega))
    omega
  · have hlt := hnode.lt_height
    have hone := node.one_le_height
    omega
  · have hq := hstack.quiet
    have hq' := hnode.quiet_le
    omega
  · obtain ⟨hq, hclosed⟩ := hnode.folds hfold
    exact ⟨hstack.fold.trans hq, hstack.closed hclosed⟩

/-! ### Branches -/

section Branches

variable {inner : Forward Node}

/-- A turn of `concatTurn` ends at what comes next, or reads one item. -/
theorem concatTurn_eq_ok (hmono : Monotone B) (hB : ∀ x, 1 ≤ B x)
    (hinner : Ends (Reads B 2) inner.1) {items : List Node} {t : Turn (List Node) (List Node)}
    (h : concatTurn inner items q = .ok t p') : (t = .done items ∧ p' = q) ∨
    ∃ item, t = .more (items ++ [item]) ∧ Reads (fun x => B x + x) 0 q item p' := by
  obtain ⟨o, q₁, hpeek, hrest⟩ := Act.bind_eq_ok h
  cases hpeek
  rcases hc : q.s[q.i]? with - | c
  · rw [hc] at hrest
    cases hrest
    exact .inl ⟨rfl, rfl⟩
  · rw [hc] at hrest
    dsimp only at hrest
    split_ifs at hrest
    · cases hrest
      exact .inl ⟨rfl, rfl⟩
    · obtain ⟨node, q', hatom, hlast⟩ := Act.bind_eq_ok hrest
      obtain ⟨item, q'', hquant, hend⟩ := Act.bind_eq_ok hlast
      cases hend
      exact .inr ⟨item, rfl, (reads_atom hB hinner hc hatom).quantifiers hmono hquant⟩

theorem reads_concat (hmono : Monotone B) (hB : ∀ x, 1 ≤ B x) (hinner : Ends (Reads B 2) inner.1) :
    Ends (Reads (fun x => B x + x + 1) 1) (concat inner) := by
  intro p a p' h
  obtain ⟨items, q, hloop, hrest⟩ := Act.bind_eq_ok h
  have hitems : ReadsAll (fun x => B x + x) 0 p items q := by
    refine Ends.loop (I := fun s₀ items s => ReadsAll (fun x => B x + x) 0 s₀ items s)
      (P := fun s₀ items s => ReadsAll (fun x => B x + x) 0 s₀ items s) ?_ ?_ [] p items q hloop p
      (ReadsAll.nil p)
    · intro s₀ items s items' s' hI hturn
      rcases concatTurn_eq_ok hmono hB hinner hturn with ⟨hdone, -⟩ | ⟨item, hmore, hitem⟩
      · cases hdone
      · cases hmore
        exact hI.snoc (hmono.add monotone_id) hitem
    · intro s₀ items s items' s' hI hturn
      rcases concatTurn_eq_ok hmono hB hinner hturn with ⟨hdone, rfl⟩ | ⟨item, hmore, -⟩
      · cases hdone
        exact hI
      · cases hmore
  obtain ⟨hbuilt, hle, hheight, hlt, hquiet, hfolds⟩ := hitems
  split at hrest
  · cases hrest
    refine ⟨trivial, hle, Nat.le_add_left 1 _, ?_, ?_, hfolds⟩
    · rw [heightAll] at hlt
      omega
    · rw [quietAll] at hquiet
      rw [Node.quiet]
      omega
  · cases hrest
    rw [heightAll, heightAll, Nat.max_zero] at hheight hlt
    rw [quietAll, quietAll] at hquiet
    refine ⟨hbuilt.1, hle, ?_, hlt, ?_, fun hfold => ⟨(hfolds hfold).1, (hfolds hfold).2.1⟩⟩
    · omega
    · omega
  · cases hrest
    refine ⟨hbuilt, hle, ?_, ?_, ?_, hfolds⟩
    · rw [Node.height]
      omega
    · rw [Node.height]
      omega
    · rw [Node.quiet]
      split_ifs <;> omega

/-- A turn of `altTurn` ends at what comes next, or reads a bar and one arm; the bar pays for the
one node more that the arm may have. -/
theorem altTurn_eq_ok (hconcat : Ends (Reads B 1) (concat inner)) {arms : List Node}
    {t : Turn (List Node) (List Node)} (h : altTurn inner arms q = .ok t p') :
    (t = .done arms ∧ p' = q) ∨ ∃ arm, t = .more (arms ++ [arm]) ∧ Reads B 0 q arm p' := by
  obtain ⟨c, q₁, hpeek, hrest⟩ := Act.bind_eq_ok h
  cases hpeek
  split_ifs at hrest with hbar
  · obtain ⟨_, q₂, hskip, hlast⟩ := Act.bind_eq_ok hrest
    cases hskip
    obtain ⟨arm, q₃, harm, hend⟩ := Act.bind_eq_ok hlast
    cases hend
    exact .inr ⟨arm, rfl, (hconcat _ _ _ harm).widen (fun _ => le_rfl) ⟨rfl, rfl⟩ ⟨rfl, rfl⟩
      (left_of_getElem? hbar) le_rfl⟩
  · cases hrest
    exact .inl ⟨rfl, rfl⟩

theorem reads_altOf (hmono : Monotone B) (hB : ∀ x, 1 ≤ B x) (hinner : Ends (Reads B 2) inner.1) :
    Ends (Reads (fun x => B x + x + 2) 2) (altOf inner) := by
  intro p a p' h
  have hconcat := reads_concat hmono hB hinner
  have hsum : Monotone fun x => B x + x + 1 := (hmono.add monotone_id).add_const 1
  obtain ⟨first, q, hfirst, hrest⟩ := Act.bind_eq_ok h
  have hone : Reads (fun x => B x + x + 1) 1 p first q := hconcat _ _ _ hfirst
  obtain ⟨c, q₁, hpeek, hrest⟩ := Act.bind_eq_ok hrest
  cases hpeek
  split_ifs at hrest with hbar
  · obtain ⟨arms, q', hloop, hlast⟩ := Act.bind_eq_ok hrest
    cases hlast
    have harms : arms ≠ [] ∧ ReadsAll (fun x => B x + x + 1) 1 p arms p' := by
      refine Ends.loop
        (I := fun _ arms s => arms ≠ [] ∧ ReadsAll (fun x => B x + x + 1) 1 p arms s)
        (P := fun _ arms s => arms ≠ [] ∧ ReadsAll (fun x => B x + x + 1) 1 p arms s)
        ?_ ?_ [first] q arms p' hloop q ?_
      · rintro - arms s arms' s' ⟨-, hI⟩ hturn
        rcases altTurn_eq_ok hconcat hturn with ⟨hdone, -⟩ | ⟨arm, hmore, harm⟩
        · cases hdone
        · cases hmore
          exact ⟨List.append_ne_nil_of_right_ne_nil _ (List.cons_ne_nil _ _), hI.snoc hsum harm⟩
      · rintro - arms s arms' s' hI hturn
        rcases altTurn_eq_ok hconcat hturn with ⟨hdone, rfl⟩ | ⟨arm, hmore, -⟩
        · cases hdone
          exact hI
        · cases hmore
      · refine ⟨List.cons_ne_nil _ _, ?_⟩
        exact (ReadsAll.nil p).snoc hsum (d := 0) (c := 1) hone
    obtain ⟨hne, hbuilt, hle, hheight, hlt, hquiet, hfolds⟩ := harms
    refine ⟨⟨hne, hbuilt⟩, hle, ?_, ?_, ?_, hfolds⟩
    · rw [Node.height]
      omega
    · rw [Node.height]
      omega
    · rw [Node.quiet]
      split_ifs <;> omega
  · cases hrest
    exact hone.widen (fun _ => Nat.le_succ _) ⟨rfl, rfl⟩ ⟨rfl, rfl⟩ (by omega) le_rfl

end Branches

/-! ### The whole pattern -/

/-- How high a tree is at most, where groups are opened at most `nest` deep. -/
def heightBound (nest stacked : ℕ) : ℕ := (nest + 1) * (stacked + 2) + 1

theorem heightBound_mono (nest : ℕ) : Monotone (heightBound nest) := fun _ _ h =>
  Nat.succ_le_succ (Nat.mul_le_mul_left _ (Nat.add_le_add_right h 2))

theorem reads_altIn (nest : ℕ) : Ends (Reads (heightBound nest) 2) (altIn nest).1 := by
  induction nest with
  | zero =>
    refine (reads_altOf (B := fun _ => 1) monotone_const (fun _ => le_rfl) (ends_throw _)).mono ?_
    intro p a p' h
    refine h.widen (fun x => ?_) ⟨rfl, rfl⟩ ⟨rfl, rfl⟩ le_rfl le_rfl
    rw [heightBound]
    omega
  | succ nest ih =>
    refine (reads_altOf (heightBound_mono nest) (fun x => Nat.succ_pos _) ih).mono ?_
    intro p a p' h
    refine h.widen (fun x => ?_) ⟨rfl, rfl⟩ ⟨rfl, rfl⟩ le_rfl le_rfl
    rw [heightBound, heightBound, Nat.succ_mul (nest + 1)]
    omega

end Parser

end Hop.Cloudflared
