import Hop.Cloudflared.Parsed
import Hop.Cloudflared.Pike

/-!
# The engine decides the language of the pattern

`Regex.isMatch_iff`: the parser, the code generator and the machine together.
-/

namespace Hop.Cloudflared

open Act

variable {pattern : Bytes}

/-- The flag for both cases: `(?i)`. -/
def caseFlag : Bytes := [ascii '(', ascii '?', ascii 'i', ascii ')']

namespace Parser

variable {B : ℕ → ℕ} {p p' q : Parser} {inner : Forward Node}

/-! ### A pattern that starts with the flag -/

/-- The flag comes next, and nothing was read before. -/
structure Starts (p : Parser) : Prop where
  first : p.i = 0
  flag : caseFlag <+: p.s

theorem Starts.peek (h : p.Starts) : p.s[p.i]? = some (ascii '(') := by
  obtain ⟨rest, hrest⟩ := h.flag
  rw [h.first, ← hrest]
  rfl

/-- The flag is an atom of its own. -/
theorem Starts.atom (h : p.Starts) {a : Node} (hatom : atom inner p = .ok a p') :
    a = .empty ∧ p'.fold = true := by
  obtain ⟨rest, hrest⟩ := h.flag
  rw [atom_of_getElem? inner h.peek] at hatom
  have hgroup : group inner p.i { p with i := p.i + 1 } = .ok a p' := hatom
  have hquestion : p.s[p.i + 1]? = some (ascii '?') := by
    rw [h.first, ← hrest]
    rfl
  have htwo : (p.s.drop (p.i + 1 + 1)).take 2 = [ascii 'i', ascii ')'] := by
    rw [h.first, ← hrest]
    rfl
  rw [group, get_bind, if_pos hquestion, htwo] at hgroup
  dsimp only at hgroup
  rw [if_pos ⟨rfl, rfl, h.first⟩] at hgroup
  cases hgroup
  exact ⟨rfl, rfl⟩

theorem Starts.turn (h : p.Starts) {t : Turn (List Node) (List Node)}
    (hturn : concatTurn inner [] p = .ok t p') :
    ∃ item, t = .more [item] ∧ p'.fold = true ∧ item.CaseClosed := by
  obtain ⟨o, q, hpeek, hrest⟩ := Act.bind_eq_ok hturn
  cases hpeek
  rw [h.peek] at hrest
  dsimp only at hrest
  rw [if_neg (by decide)] at hrest
  obtain ⟨node, q, hatom, hlast⟩ := Act.bind_eq_ok hrest
  obtain ⟨item, q', hquant, hend⟩ := Act.bind_eq_ok hlast
  obtain ⟨rfl, hfold⟩ := h.atom hatom
  have hbuilt : Node.empty.Built := trivial
  obtain ⟨n, hstack⟩ := stacks_quantifiers hbuilt hquant
  cases hend
  exact ⟨item, rfl, hstack.fold.trans hfold, hstack.closed trivial⟩

/-- Behind the flag, all is read in both cases. -/
theorem Starts.concat (hmono : Monotone B) (hB : ∀ x, 1 ≤ B x)
    (hinner : Ends (Reads B 2) inner.1) (h : p.Starts) {a : Node}
    (hconcat : concat inner p = .ok a p') : p'.fold = true ∧ a.CaseClosed := by
  obtain ⟨items, q, hloop, hrest⟩ := Act.bind_eq_ok hconcat
  have hitems : q.fold = true ∧ CaseClosedAll items := by
    refine Ends.loop
      (I := fun s₀ items s => s₀.Starts →
        (items = [] ∧ s = s₀) ∨ (s.fold = true ∧ CaseClosedAll items))
      (P := fun s₀ items s => s₀.Starts → s.fold = true ∧ CaseClosedAll items) ?_ ?_ [] p items q
      hloop p (fun _ => .inl ⟨rfl, rfl⟩) h
    · intro s₀ items s items' s' hI hturn hstarts
      rcases hI hstarts with ⟨rfl, rfl⟩ | ⟨hfold, hclosed⟩
      · obtain ⟨item, ht, hfold, hclosed⟩ := hstarts.turn hturn
        cases ht
        exact .inr ⟨hfold, hclosed, trivial⟩
      · rcases concatTurn_eq_ok hmono hB hinner hturn with ⟨hdone, -⟩ | ⟨item, hmore, hitem⟩
        · cases hdone
        · cases hmore
          obtain ⟨hfold', hitem⟩ := hitem.folds hfold
          exact .inr ⟨hfold', caseClosedAll_append hclosed ⟨hitem, trivial⟩⟩
    · intro s₀ items s items' s' hI hturn hstarts
      rcases hI hstarts with ⟨rfl, rfl⟩ | hclosed
      · obtain ⟨item, ht, -⟩ := hstarts.turn hturn
        cases ht
      · rcases concatTurn_eq_ok hmono hB hinner hturn with ⟨hdone, rfl⟩ | ⟨item, hmore, -⟩
        · cases hdone
          exact hclosed
        · cases hmore
  split at hrest
  · cases hrest
    exact ⟨hitems.1, trivial⟩
  · cases hrest
    exact ⟨hitems.1, hitems.2.1⟩
  · cases hrest
    exact hitems

theorem Starts.altOf (hmono : Monotone B) (hB : ∀ x, 1 ≤ B x) (hinner : Ends (Reads B 2) inner.1)
    (h : p.Starts) {a : Node} (halt : altOf inner p = .ok a p') : a.CaseClosed := by
  obtain ⟨first, q, hfirst, hrest⟩ := Act.bind_eq_ok halt
  have hclosed := h.concat hmono hB hinner hfirst
  obtain ⟨c, q₁, hpeek, hlast⟩ := Act.bind_eq_ok hrest
  cases hpeek
  split_ifs at hlast with hbar
  · obtain ⟨arms, q', hloop, hend⟩ := Act.bind_eq_ok hlast
    have harms : p'.fold = true ∧ CaseClosedAll arms := by
      cases hend
      have hconcat := reads_concat hmono hB hinner
      refine Ends.loop (I := fun _ arms s => s.fold = true ∧ CaseClosedAll arms)
        (P := fun _ arms s => s.fold = true ∧ CaseClosedAll arms) ?_ ?_ [first] q arms p' hloop q
        ⟨hclosed.1, hclosed.2, trivial⟩
      · rintro - arms s arms' s' ⟨hfold, hI⟩ hturn
        rcases altTurn_eq_ok hconcat hturn with ⟨hdone, -⟩ | ⟨arm, hmore, harm⟩
        · cases hdone
        · cases hmore
          obtain ⟨hfold', harm⟩ := harm.folds hfold
          exact ⟨hfold', caseClosedAll_append hI ⟨harm, trivial⟩⟩
      · rintro - arms s arms' s' hI hturn
        rcases altTurn_eq_ok hconcat hturn with ⟨hdone, rfl⟩ | ⟨arm, hmore, -⟩
        · cases hdone
          exact hI
        · cases hmore
    cases hend
    exact harms.2
  · cases hlast
    exact hclosed.2

theorem Starts.altIn {nest : ℕ} (h : p.Starts) {a : Node} (halt : (altIn nest).1 p = .ok a p') :
    a.CaseClosed := by
  rcases nest with - | nest
  · exact h.altOf (B := fun _ => 1) monotone_const (fun _ => le_rfl) (ends_throw _) halt
  · exact h.altOf (heightBound_mono nest) (fun _ => Nat.succ_pos _) (reads_altIn nest) halt

end Parser

namespace Regex

theorem parse_eq_ok {root : Node} (h : parse pattern = .ok root) :
    ∃ p, Parser.alt { s := pattern } = .ok root p := by
  rw [parse] at h
  rcases halt : Parser.alt { s := pattern } with ⟨a, p⟩ | ⟨e, p⟩
  · rw [halt] at h
    dsimp only at h
    split_ifs at h
    cases h
    exact ⟨p, rfl⟩
  · rw [halt] at h
    cases h

theorem built_of_parse {root : Node} (h : parse pattern = .ok root) :
    root.Built := by
  obtain ⟨p, halt⟩ := parse_eq_ok h
  exact (Parser.reads_altIn maxNest _ _ _ halt).built

/-- Under the flag, a pattern does not tell the cases of a letter apart. -/
theorem caseClosed_of_parse {root : Node} (h : parse pattern = .ok root)
    (hflag : caseFlag <+: pattern) : root.CaseClosed := by
  obtain ⟨p, halt⟩ := parse_eq_ok h
  exact Parser.Starts.altIn ⟨rfl, hflag⟩ halt

theorem new_eq_ok {r : Regex} (h : new pattern = .ok r) :
    ∃ root g, parse pattern = .ok root ∧ compile root {} = .ok () g ∧ r = ⟨g.prog, pattern⟩ := by
  rw [new] at h
  rcases hparse : parse pattern with e | root
  · rw [hparse] at h
    cases h
  · rw [hparse] at h
    dsimp only at h
    rcases hcompile : compile root {} with ⟨a, g⟩ | ⟨e, g⟩
    · rw [hcompile] at h
      cases h
      exact ⟨root, g, rfl, hcompile, rfl⟩
    · rw [hcompile] at h
      cases h

/-- **The engine decides the language of the pattern.** An accepted pattern has a tree; the search
finds something exactly if the tree matches the text somewhere, and no thread is ever dropped for
want of room. Under `(?i)` the sets of the tree have both cases of a letter, or none. -/
theorem isMatch_iff {pattern : Bytes} {r : Regex} (h : new pattern = .ok r) (s : Bytes) :
    ∃ root, parse pattern = .ok root ∧ (caseFlag <+: pattern → root.CaseClosed) ∧
      (r.isMatch s = true ↔ ∃ i j, i ≤ j ∧ j ≤ s.length ∧ Matches s root i j) ∧
      (r.search s.length s 0 {} {}).2.1.lost = false ∧
      (r.search s.length s 0 {} {}).2.2.lost = false := by
  obtain ⟨root, g, hparse, hcompile, rfl⟩ := new_eq_ok h
  exact ⟨root, hparse, caseClosed_of_parse hparse,
    isMatch_compile (built_of_parse hparse) hcompile pattern s⟩

/-- `(?i)a*b`. -/
def flagged : Bytes := "(?i)a*b".toList.map ascii

theorem isMatch_iff_flagged : ∃ r root, new flagged = .ok r ∧ parse flagged = .ok root ∧
    root.CaseClosed ∧ ∃ i j, i ≤ j ∧ j ≤ 3 ∧ Matches ("xAB".toList.map ascii) root i j := by
  have hfinds : (match new flagged with
      | .ok r => r.isMatch ("xAB".toList.map ascii)
      | .error _ => false) = true := by decide +kernel
  rcases h : new flagged with e | r
  · rw [h] at hfinds
    cases hfinds
  · rw [h] at hfinds
    obtain ⟨root, hparse, hclosed, hiff, -⟩ := isMatch_iff h ("xAB".toList.map ascii)
    exact ⟨r, root, rfl, hparse, hclosed ⟨_, rfl⟩, hiff.mp hfinds⟩

end Regex

end Hop.Cloudflared
