import Hop.Cloudflared.Cost

/-!
# Quantifiers one behind the other

The patterns `(?:){n}{n}…{n}`: they compile to nothing, and their trees are as high as they have
quantifiers, which are not counted. Each quantifier multiplies the calls by `n`.
-/

namespace Hop.Cloudflared

open Act

/-- The tree with that many quantifiers `{n}` behind it. -/
def repeated (n : ℕ) (node : Node) : ℕ → Node
  | 0 => node
  | k + 1 => .rep (repeated n node k) n (some n)

/-! ### Reading them -/

namespace Parser

variable {p : Parser} {inner : Forward Node}

/-- The digits of the number `n`. -/
structure Numeral (ds : Bytes) (n : ℕ) : Prop where
  ne : ds ≠ []
  digits : ds.all isDigit = true
  value : ds.foldl (fun v c => satAdd u32Max (satMul u32Max v 10) (digitVal c)) 0 = n
  le : n ≤ maxRepeat

/-- A repetition: `{n}`. -/
def braced (ds : Bytes) : Bytes := ascii '{' :: ds ++ [ascii '}']

theorem getElem?_of_drop {s rest : Bytes} {i : ℕ} (h : s.drop i = rest) (k : ℕ) :
    s[i + k]? = rest[k]? := by
  rw [← h, List.getElem?_drop]

theorem num_of_numeral {ds rest : Bytes} {n j : ℕ} {s : Bytes} (hds : Numeral ds n)
    (h : s.drop j = ds ++ ascii '}' :: rest) : num s j = (some n, j + ds.length) := by
  have hwhile : (s.drop j).takeWhile isDigit = ds := by
    rw [h, List.takeWhile_append_of_pos (List.all_eq_true.mp hds.digits),
      List.takeWhile_cons_of_neg (by decide), List.append_nil]
  rw [num, hwhile, if_neg hds.ne, hds.value]

theorem braces_of_numeral {ds rest : Bytes} {n : ℕ} (hds : Numeral ds n)
    (h : p.s.drop p.i = braced ds ++ rest) :
    braces p = .ok (some (n, some n)) { p with i := p.i + (braced ds).length } := by
  have hdrop : p.s.drop (p.i + 1) = ds ++ ascii '}' :: rest := by
    rw [← List.drop_drop, h, braced]
    simp
  have hclose : p.s[p.i + 1 + ds.length]? = some (ascii '}') := by
    rw [getElem?_of_drop hdrop, List.getElem?_append_right le_rfl, Nat.sub_self]
    rfl
  have hupper : upper p.s n (p.i + 1 + ds.length) = some (some n, p.i + 1 + ds.length) := by
    rw [upper, if_pos hclose]
  rw [braces, num_of_numeral hds hdrop]
  dsimp only
  rw [hupper]
  dsimp only
  have hle := hds.le
  rw [if_neg (by simp; omega)]
  simp [braced]
  omega

theorem quantifyTurn_of_numeral {ds rest : Bytes} {n : ℕ} (hds : Numeral ds n) {a : Node × ℕ}
    (ha : a.1.isAnchor = false) (h : p.s.drop p.i = braced ds ++ rest)
    (hrest : rest.head? ≠ some (ascii '?')) :
    quantifyTurn a p = .ok (.more (.rep a.1 n (some n), a.2 + 1))
      { p with i := p.i + (braced ds).length, stacked := max p.stacked (a.2 + 1) } := by
  have hbrace : p.s[p.i]? = some (ascii '{') := by
    have hget := getElem?_of_drop h 0
    rwa [Nat.add_zero] at hget
  have hquant : quantifier p = .ok (some (n, some n)) { p with i := p.i + (braced ds).length } := by
    have hpeek : peek p = .ok p.s[p.i]? p := rfl
    rw [quantifier, bind_of_ok hpeek, hbrace, if_neg (by decide), if_neg (by decide),
      if_neg (by decide), if_pos rfl]
    exact braces_of_numeral hds h
  have hnext : p.s[p.i + (braced ds).length]? ≠ some (ascii '?') := by
    rwa [getElem?_of_drop h, List.getElem?_append_right le_rfl, Nat.sub_self,
      ← List.head?_eq_getElem?]
  have hmoved : p.i + (braced ds).length ≠ p.i := by
    rw [braced, List.cons_append, List.length_cons]
    omega
  rw [quantifyTurn, get_bind, bind_of_ok hquant]
  have hskip : (modify fun q => if q.i = p.i then { q with i := q.i + 1 } else q :
      Act Parser Error Unit) { p with i := p.i + (braced ds).length } =
      .ok () { p with i := p.i + (braced ds).length } :=
    congrArg (EStateM.Result.ok ()) (if_neg hmoved)
  dsimp only
  rw [bind_of_ok hskip, bind_of_ok (ensure_of ha)]
  have hpeek : peek { p with i := p.i + (braced ds).length } =
    .ok p.s[p.i + (braced ds).length]? { p with i := p.i + (braced ds).length } := rfl
  rw [bind_of_ok hpeek, onlyIf, if_neg hnext]
  rfl

theorem quantifyTurn_of_end {a : Node × ℕ} (h : p.s.drop p.i = []) :
    quantifyTurn a p = .ok (.done a.1) p := by
  have hnone : p.s[p.i]? = none := by
    have hget := getElem?_of_drop h 0
    rwa [Nat.add_zero] at hget
  have hquant : quantifier p = .ok none p := by
    have hpeek : peek p = .ok p.s[p.i]? p := rfl
    rw [quantifier, bind_of_ok hpeek, hnone]
    rfl
  rw [quantifyTurn, get_bind, bind_of_ok hquant]
  rfl

/-- Quantifiers up to the end of the pattern. -/
theorem quantifiers_of_numeral {ds : Bytes} {n : ℕ} (hds : Numeral ds n) {node : Node}
    (hnode : node.isAnchor = false) (k : ℕ) (hi : p.i ≤ p.s.length)
    (h : p.s.drop p.i = (List.replicate k (braced ds)).flatten) :
    ∃ p', quantifiers node p = .ok (repeated n node k) p' ∧ p'.i = p'.s.length := by
  -- The induction is on the quantifiers that are still to come; `m` were read before.
  have hloop : ∀ k m (p : Parser), p.i ≤ p.s.length →
      p.s.drop p.i = (List.replicate k (braced ds)).flatten →
      ∃ p', loop (fun _ p => p.left) quantifyTurn quantifyTurn_descends (repeated n node m, m) p =
        .ok (repeated n node (m + k)) p' ∧ p'.i = p'.s.length := by
    intro k
    induction k with
    | zero =>
      intro m p hi h
      exact ⟨p, loop_done (quantifyTurn_of_end h), hi.antisymm (List.drop_eq_nil_iff.mp h)⟩
    | succ k ih =>
      intro m p hi h
      rw [List.replicate_succ, List.flatten_cons] at h
      have hlen := congrArg List.length h
      rw [List.length_drop, List.length_append] at hlen
      have hanchor : (repeated n node m).isAnchor = false := by
        rcases m with - | m
        · exact hnode
        · rfl
      have hrest : (List.replicate k (braced ds)).flatten.head? ≠ some (ascii '?') := by
        rcases k with - | k
        · nofun
        · rw [List.replicate_succ, List.flatten_cons, braced]
          simp only [List.cons_append, List.head?_cons]
          decide
      have hturn := quantifyTurn_of_numeral (a := (repeated n node m, m)) hds hanchor h hrest
      have hdrop : p.s.drop (p.i + (braced ds).length) =
          (List.replicate k (braced ds)).flatten := by
        rw [← List.drop_drop, h, List.drop_left]
      obtain ⟨p', hp', hend⟩ := ih (m + 1)
        { p with i := p.i + (braced ds).length, stacked := max p.stacked (m + 1) }
        (by dsimp only; omega) hdrop
      refine ⟨p', ?_, hend⟩
      rw [loop_more hturn, Nat.add_comm k 1, ← Nat.add_assoc]
      exact hp'
  have hall := hloop k 0 p hi h
  rwa [Nat.zero_add] at hall

/-- An empty branch, before a bracket. -/
theorem altOf_of_close (h : p.s[p.i]? = some (ascii ')')) : altOf inner p = .ok .empty p := by
  have hpeek : peek p = .ok p.s[p.i]? p := rfl
  have hturn : concatTurn inner [] p = .ok (.done []) p := by
    rw [concatTurn, bind_of_ok hpeek, h]
    rfl
  have hconcat : concat inner p = .ok .empty p := by
    rw [concat, bind_of_ok (loop_done hturn)]
    rfl
  rw [altOf, bind_of_ok hconcat, bind_of_ok hpeek, h]
  rfl

/-- A group with nothing in it: `(?:)`. -/
def hollow : Bytes := [ascii '(', ascii '?', ascii ':', ascii ')']

theorem atom_hollow (rest : Bytes) : atom (altIn 31) { s := hollow ++ rest } =
    .ok .empty { s := hollow ++ rest, i := 4 } := by
  have hclose : (altIn 31).1 { s := hollow ++ rest, i := 3, depth := 1 } =
      .ok .empty { s := hollow ++ rest, i := 3, depth := 1 } := altOf_of_close rfl
  have hnested : nested (altIn 31) 0 { s := hollow ++ rest, i := 3 } =
      .ok .empty { s := hollow ++ rest, i := 4 } := by
    have hdeeper : (modify fun p => { p with depth := p.depth + 1 } : Act Parser Error Unit)
        { s := hollow ++ rest, i := 3 } = .ok () { s := hollow ++ rest, i := 3, depth := 1 } := rfl
    have hpeek : peek { s := hollow ++ rest, i := 3, depth := 1 } =
        .ok (some (ascii ')')) { s := hollow ++ rest, i := 3, depth := 1 } := rfl
    rw [nested, bind_of_ok hdeeper, get_bind, bind_of_ok (ensure_of (show 1 ≤ maxNest by decide)),
      bind_of_ok hclose, bind_of_ok hpeek, bind_of_ok (ensure_of rfl)]
    rfl
  have hgroup : group (altIn 31) 0 { s := hollow ++ rest, i := 1 } =
      .ok .empty { s := hollow ++ rest, i := 4 } := by
    have hskip : skip 2 { s := hollow ++ rest, i := 1 } = .ok () { s := hollow ++ rest, i := 3 } :=
      rfl
    have htwo : (({ s := hollow ++ rest, i := 1 } : Parser).s.drop
        (({ s := hollow ++ rest, i := 1 } : Parser).i + 1)).take 2 = [ascii ':', ascii ')'] := rfl
    have hquestion : ({ s := hollow ++ rest, i := 1 } : Parser).s[1]? = some (ascii '?') := rfl
    rw [group, get_bind, if_pos hquestion, htwo]
    dsimp only
    rw [if_neg (by decide), if_pos rfl, bind_of_ok hskip]
    exact hnested
  rw [atom_of_getElem? _ (c := ascii '(') rfl, atomOf, if_pos rfl]
  exact hgroup

/-- A group with nothing in it, with quantifiers behind it. -/
def emptied (ds : Bytes) (k : ℕ) : Bytes := hollow ++ (List.replicate k (braced ds)).flatten

/-- Its tree has the quantifiers one around the other. -/
theorem parse_emptied {ds : Bytes} {n : ℕ} (hds : Numeral ds n) (k : ℕ) :
    Regex.parse (emptied ds k) = .ok (repeated n .empty k) := by
  have hempty : Node.empty.isAnchor = false := rfl
  obtain ⟨p', hquant, hend⟩ := quantifiers_of_numeral (p := { s := emptied ds k, i := 4 }) hds
    hempty k (List.length_append.ge.trans' (Nat.le_add_right 4 _)) rfl
  have hpeek : peek p' = .ok none p' := by
    rw [peek, hend, List.getElem?_eq_none le_rfl]
  have hfirst : concatTurn (altIn 31) [] { s := emptied ds k } =
      .ok (.more [repeated n .empty k]) p' := by
    have hopen : peek { s := emptied ds k } = .ok (some (ascii '(')) { s := emptied ds k } := rfl
    have hatom : atom (altIn 31) { s := emptied ds k } = .ok .empty { s := emptied ds k, i := 4 } :=
      atom_hollow _
    rw [concatTurn, bind_of_ok hopen]
    dsimp only
    rw [if_neg (by decide), bind_of_ok hatom, bind_of_ok hquant]
    rfl
  have hlast : concatTurn (altIn 31) [repeated n .empty k] p' =
      .ok (.done [repeated n .empty k]) p' := by
    rw [concatTurn, bind_of_ok hpeek]
    rfl
  have hconcat : concat (altIn 31) { s := emptied ds k } = .ok (repeated n .empty k) p' := by
    rw [concat, bind_of_ok ((loop_more hfirst).trans (loop_done hlast))]
    rfl
  have halt : Parser.alt { s := emptied ds k } = .ok (repeated n .empty k) p' := by
    change altOf (altIn 31) _ = _
    rw [altOf, bind_of_ok hconcat, bind_of_ok hpeek]
    rfl
  rw [Regex.parse, halt]
  dsimp only
  rw [if_neg (not_not.mpr hend)]

end Parser

/-! ### Compiling them -/

theorem height_repeated (n k : ℕ) : (repeated n .empty k).height = k + 1 := by
  induction k with
  | zero => rfl
  | succ k ih => rw [repeated, Node.height, ih]

theorem pow_le_silent_repeated (n k : ℕ) :
    n ^ k ≤ silent (repeated n .empty k).turns := by
  induction k with
  | zero => exact le_rfl
  | succ k ih =>
    rw [repeated, Node.turns, silent_visit, turnsRep, silent_append, silent_copies, Nat.pow_succ,
      Nat.mul_comm]
    have hbody := Nat.mul_le_mul_left n ih
    omega

namespace Codegen

/-- Only the number of calls has changed. -/
def Idles (m : Act Codegen Error Unit) : Prop :=
  ∀ g, g.prog.length < maxProg → ∃ c, m g = .ok () { g with calls := c }

theorem Idles.copies {m : Act Codegen Error Unit} (h : Idles m) (n : ℕ) : Idles (copies m n) := by
  induction n with
  | zero => exact fun g _ => ⟨g.calls, rfl⟩
  | succ n ih =>
    intro g hg
    obtain ⟨c, hc⟩ := h g hg
    obtain ⟨c', hc'⟩ := ih { g with calls := c } hg
    exact ⟨c', (bind_of_ok hc).trans hc'⟩

theorem idles_emitNode_repeated (n k : ℕ) : Idles (emitNode (repeated n .empty k)) := by
  induction k with
  | zero => exact fun g _ => ⟨g.calls + 1, by rw [repeated, emitNode]; rfl⟩
  | succ k ih =>
    intro g hg
    obtain ⟨c, hc⟩ := ih.copies n { g with calls := g.calls + 1 } hg
    have htick : tick g = .ok () { g with calls := g.calls + 1 } := rfl
    refine ⟨c, ?_⟩
    rw [repeated, emitNode, bind_of_ok htick, rep, bind_of_ok hc]
    dsimp only
    rw [Nat.sub_self, Nat.zero_min]
    have hpc : pc { g with calls := c } = .ok g.prog.length { g with calls := c } := if_pos hg
    rw [options, bind_of_ok (pure_apply _ _), bind_of_ok hpc]
    rfl

end Codegen

namespace Regex

theorem new_emptied {ds : Bytes} {n : ℕ} (hds : Parser.Numeral ds n) (k : ℕ) :
    ∃ r, new (Parser.emptied ds k) = .ok r := by
  obtain ⟨c, hc⟩ := Codegen.idles_emitNode_repeated n k {} (Nat.succ_pos 511)
  have hcompile : compile (repeated n .empty k) {} = .ok () { prog := [.found], calls := c } := by
    rw [compile, bind_of_ok hc]
    rfl
  refine ⟨⟨[.found], Parser.emptied ds k⟩, ?_⟩
  rw [new, Parser.parse_emptied hds]
  dsimp only
  rw [hcompile]

/-- Compiling them takes all their visits. -/
theorem pow_le_callsOf_repeated (n k : ℕ) : n ^ k ≤ callsOf (repeated n .empty k) := by
  obtain ⟨c, hc⟩ := Codegen.idles_emitNode_repeated n k {} (Nat.succ_pos 511)
  have hwhole : reach maxProg (repeated n .empty k).turns = (repeated n .empty k).turns :=
    ((Codegen.follows_emitNode _).of_ok (Nat.zero_le _) hc).1
  rw [callsOf_eq, Node.wasted, hwhole]
  exact (pow_le_silent_repeated n k).trans (Nat.le_add_right _ _)

theorem length_emptied (ds : Bytes) (k : ℕ) :
    (Parser.emptied ds k).length = 4 + k * (ds.length + 2) := by
  rw [Parser.emptied, List.length_append, List.length_flatten, List.map_replicate,
    List.sum_replicate_nat, Parser.braced, List.cons_append, List.length_cons, List.length_append]
  rfl

/-- Neither the height of the tree nor the number of calls is bounded: not over the patterns
`(?:){1}…{1}`, and not over the patterns `(?:){64}…{64}`. All of them are accepted. -/
theorem not_bounded :
    (∀ D, ∃ pattern root, (∃ r, new pattern = .ok r) ∧ parse pattern = .ok root ∧
      D < root.height) ∧
    ∀ C, ∃ pattern root, (∃ r, new pattern = .ok r) ∧ parse pattern = .ok root ∧
      C * maxProg + pattern.length < callsOf root := by
  have hone : Parser.Numeral [ascii '1'] 1 := ⟨nofun, rfl, by decide, by decide⟩
  have hmany : Parser.Numeral [ascii '6', ascii '4'] 64 :=
    ⟨nofun, rfl, by decide, by decide⟩
  constructor
  · intro D
    refine ⟨_, _, new_emptied hone D, Parser.parse_emptied hone D, ?_⟩
    rw [height_repeated]
    exact Nat.lt_succ_self D
  · intro C
    obtain ⟨r, hr⟩ := new_emptied hmany (C + 2)
    have hparse := Parser.parse_emptied hmany (C + 2)
    refine ⟨_, _, ⟨r, hr⟩, hparse, ?_⟩
    rw [length_emptied]
    have hpow := pow_le_callsOf_repeated 64 (C + 2)
    have hlt : C < 64 ^ C := Nat.lt_pow_self (by decide)
    have hprog : C * maxProg = C * 512 := rfl
    rw [Nat.pow_add] at hpow
    simp only [List.length_cons, List.length_nil]
    omega

end Regex

end Hop.Cloudflared
