import Hop.Cloudflared.Parser

/-!
# Letters in both cases

Under `(?i)` a pattern is read with sets that have both cases of a letter, or none.
-/

namespace Hop.Cloudflared

namespace ByteSet

/-- The other case of an ASCII letter. -/
def swapCase (b : UInt8) : UInt8 := if isLower b then toUpper b else toLower b

/-- A set with both cases of every letter, or none. -/
def CaseClosed (s : ByteSet) : Prop := ∀ b, s (swapCase b) = s b

theorem forall_byte {P : UInt8 → Prop} (h : ∀ n < 256, P (UInt8.ofNat n)) (b : UInt8) : P b := by
  have hb := h b.toNat b.toNat_lt
  rwa [UInt8.ofNat_toNat] at hb

set_option maxRecDepth 4000 in
theorem swapCase_lower : ∀ b, isLower b = true → swapCase b = toUpper b ∧
    isLower (toUpper b) = false ∧ isUpper (toUpper b) = true ∧ toLower (toUpper b) = b ∧
    isUpper b = false :=
  forall_byte (by decide)

set_option maxRecDepth 4000 in
theorem swapCase_upper : ∀ b, isUpper b = true → swapCase b = toLower b ∧
    isUpper (toLower b) = false ∧ isLower (toLower b) = true ∧ toUpper (toLower b) = b ∧
    isLower b = false :=
  forall_byte (by decide)

theorem caseClosed_fold (s : ByteSet) : CaseClosed s.fold := by
  intro b
  rw [fold, fold]
  rcases hl : isLower b with - | -
  · rcases hu : isUpper b with - | -
    · have hswap : swapCase b = b := by
        rw [swapCase, hl, if_neg Bool.false_ne_true, toLower, hu, if_neg Bool.false_ne_true]
      rw [hswap, hl, hu]
    · obtain ⟨hswap, hnot, hlow, hback, -⟩ := swapCase_upper b hu
      rw [hswap, hnot, hlow, hback, Bool.true_and, Bool.true_and, Bool.false_and, Bool.false_and,
        Bool.or_false, Bool.or_false, Bool.or_comm]
  · obtain ⟨hswap, hnot, hup, hback, hu⟩ := swapCase_lower b hl
    rw [hswap, hnot, hup, hback, hu, Bool.true_and, Bool.true_and, Bool.false_and, Bool.false_and,
      Bool.or_false, Bool.or_false, Bool.or_comm]

theorem CaseClosed.invert {s : ByteSet} (h : s.CaseClosed) : s.invert.CaseClosed := fun b =>
  congrArg (!·) (h b)

end ByteSet

mutual

/-- Every set of the tree is so. -/
def Node.CaseClosed : Node → Prop
  | .set s => s.CaseClosed
  | .concat items => CaseClosedAll items
  | .alt arms => CaseClosedAll arms
  | .rep node _ _ => node.CaseClosed
  | _ => True

/-- Every set of the trees is. -/
def CaseClosedAll : List Node → Prop
  | [] => True
  | node :: nodes => node.CaseClosed ∧ CaseClosedAll nodes

end

theorem caseClosedAll_append {ns ms : List Node} (hns : CaseClosedAll ns)
    (hms : CaseClosedAll ms) : CaseClosedAll (ns ++ ms) := by
  induction ns with
  | nil => exact hms
  | cons n ns ih => exact ⟨hns.1, ih hns.2⟩

/-! ### The sets that the parser reads -/

set_option maxRecDepth 4000 in
theorem Parser.caseClosed_of_perl {c : UInt8} {set : ByteSet} (h : perl c = some set) :
    set.CaseClosed := by
  have hd : (ByteSet.empty.addRange (ascii '0') (ascii '9')).CaseClosed :=
    ByteSet.forall_byte (by decide)
  have hw : ((((ByteSet.empty.addRange (ascii '0') (ascii '9')).addRange (ascii 'a')
      (ascii 'z')).addRange (ascii 'A') (ascii 'Z')).add (ascii '_')).CaseClosed :=
    ByteSet.forall_byte (by decide)
  have hs : ([32, 9, 10, 13, 12, 11].foldl ByteSet.add ByteSet.empty).CaseClosed :=
    ByteSet.forall_byte (by decide)
  rw [perl] at h
  obtain ⟨base, hbase, hset⟩ := Option.map_eq_some_iff.mp h
  have hclosed : base.CaseClosed := by
    split_ifs at hbase
    · cases hbase
      exact hd
    · cases hbase
      exact hw
    · cases hbase
      exact hs
  rw [← hset]
  split_ifs
  · exact hclosed.invert
  · exact hclosed

set_option maxRecDepth 4000 in
theorem caseClosed_dot : (ByteSet.empty.add 10).invert.CaseClosed :=
  ByteSet.forall_byte (by decide)

end Hop.Cloudflared
