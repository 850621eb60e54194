import Hop.Node.Ids

/-!
# The generator as it is written

`agent/src/ids.rs` with the state that the source has. It is the generator of `Hop.Node.Ids`
(`Generator.Is.nextU64`), so its first `2 ^ 64` numbers are different, and so are the ids among that
many draws, whatever else is drawn in between (`ids_differ`).
-/

namespace Hop.Node

/-- `Ids`: the state of splitmix64. -/
structure Generator where
  state : BitVec 64
deriving DecidableEq

/-- A draw of the agent: the jitter of a restart, or an id, for whose text there is room or not. -/
inductive Draw
  | jitter
  | id (reserve : Bool)
deriving DecidableEq

/-- It takes a number from the generator. -/
def Draw.takes : Draw → Bool
  | .jitter => true
  | .id reserve => reserve

namespace Generator

def new (seed : BitVec 64) : Generator := ⟨seed⟩

/-- The next number. -/
def nextU64 (g : Generator) : BitVec 64 × Generator :=
  let state := g.state + gamma
  (mix state, ⟨state⟩)

/-- The loop of `id`: the lowest four bits, `n` times. -/
def digits : ℕ → BitVec 64 → List Char
  | 0, _ => []
  | n + 1, v => hexDigit (v &&& 0xf#64).toNat :: digits n (v >>> 4)

/-- The 16 characters for a number. -/
def text (v : BitVec 64) : String := String.ofList (digits 16 v)

/-- An id; without room for it, none, and no number is taken. -/
def id (g : Generator) (reserve : Bool) : Option String × Generator :=
  if reserve then (some (text g.nextU64.1), g.nextU64.2) else (none, g)

/-- The generator after `n` numbers. -/
def after (seed : BitVec 64) (n : ℕ) : Generator := (fun g => g.nextU64.2)^[n] (new seed)

/-- The number with this index, from 0. -/
def nth (seed : BitVec 64) (n : ℕ) : BitVec 64 := (after seed n).nextU64.1

/-- One draw: the id, if there is one. -/
def draw (g : Generator) : Draw → Option String × Generator
  | .jitter => (none, g.nextU64.2)
  | .id reserve => g.id reserve

/-- The generator after these draws. -/
def drawAll (g : Generator) (draws : List Draw) : Generator :=
  draws.foldl (fun g d => (g.draw d).2) g

/-- The ids among these draws. -/
def ids (g : Generator) : List Draw → List String
  | [] => []
  | d :: draws => (g.draw d).1.toList ++ (g.draw d).2.ids draws

/-! ### The numbers -/

/-- The generator has taken so many numbers from this seed. -/
def Is (g : Generator) (ids : Ids) : Prop :=
  g.state = ids.seed + gamma * BitVec.ofNat 64 ids.draws

variable {g : Generator} {ids : Ids}

/-- **The two generators** give the same numbers, one after the other. -/
theorem Is.nextU64 (h : g.Is ids) :
    g.nextU64.1 = ids.nextU64.1 ∧ g.nextU64.2.Is ids.nextU64.2 := by
  have hstate : g.state + gamma = ids.seed + gamma * BitVec.ofNat 64 (ids.draws + 1) := by
    rw [h, BitVec.ofNat_add, BitVec.mul_add, BitVec.add_assoc]
    congr 2
  exact ⟨congrArg mix hstate, hstate⟩

theorem is_new (seed : BitVec 64) : (new seed).Is (Ids.new seed) := by
  rw [Is, new, Ids.new, show BitVec.ofNat 64 0 = 0#64 from rfl, BitVec.mul_zero, BitVec.add_zero]

theorem is_after (seed : BitVec 64) (n : ℕ) : (after seed n).Is ⟨seed, n⟩ := by
  induction n with
  | zero => exact is_new seed
  | succ n ih =>
    rw [after, Function.iterate_succ_apply']
    exact ih.nextU64.2

theorem nth_eq (seed : BitVec 64) (n : ℕ) : nth seed n = Ids.number seed (n + 1) :=
  (is_after seed n).nextU64.1

/-! ### The texts -/

theorem digits_eq (n : ℕ) (v : BitVec 64) : digits n v = hexDigits n v.toNat := by
  induction n generalizing v with
  | zero => rfl
  | succ n ih =>
    have hlow : (v &&& 0xf#64).toNat = v.toNat % 16 := by
      rw [BitVec.toNat_and]
      exact Nat.and_two_pow_sub_one_eq_mod _ 4
    have hhigh : (v >>> 4).toNat = v.toNat / 16 := by
      rw [BitVec.toNat_ushiftRight, Nat.shiftRight_eq_div_pow]
    rw [digits, hexDigits, ih, hlow, hhigh]

/-- The text of a number determines it. -/
theorem text_injective : Function.Injective text := by
  intro v w h
  have hlist := congrArg String.toList h
  rw [text, text, String.toList_ofList, String.toList_ofList, digits_eq, digits_eq] at hlist
  exact BitVec.eq_of_toNat_eq (hexDigits_injective v.isLt w.isLt hlist)

theorem length_digits (n : ℕ) (v : BitVec 64) : (digits n v).length = n := by
  induction n generalizing v with
  | zero => rfl
  | succ n ih => exact congrArg Nat.succ (ih _)

/-! ### The ids -/

/-- Every id among the draws is the text of one of the numbers taken, a later one of a later number. -/
theorem ids_eq (seed : BitVec 64) (n : ℕ) (draws : List Draw) :
    ∃ ks : List ℕ, (after seed n).ids draws = ks.map (fun k => text (nth seed k)) ∧
      ks.Pairwise (· < ·) ∧ ∀ k ∈ ks, n ≤ k ∧ k < n + draws.countP Draw.takes := by
  induction draws generalizing n with
  | nil => exact ⟨[], rfl, List.Pairwise.nil, nofun⟩
  | cons d draws ih =>
    have hstep : (after seed n).nextU64.2 = after seed (n + 1) :=
      (Function.iterate_succ_apply' (fun g : Generator => g.nextU64.2) n (new seed)).symm
    rcases d with - | - | -
    · obtain ⟨ks, hids, hsorted, hin⟩ := ih (n + 1)
      refine ⟨ks, ?_, hsorted, fun k hk => ?_⟩
      · rw [ids, draw, hstep]
        exact hids
      · have hk' := hin k hk
        rw [List.countP_cons_of_pos rfl]
        omega
    · obtain ⟨ks, hids, hsorted, hin⟩ := ih n
      refine ⟨ks, hids, hsorted, fun k hk => ?_⟩
      rw [List.countP_cons_of_neg Bool.false_ne_true]
      exact hin k hk
    · obtain ⟨ks, hids, hsorted, hin⟩ := ih (n + 1)
      refine ⟨n :: ks, ?_, List.pairwise_cons.mpr ⟨fun k hk => ?_, hsorted⟩, fun k hk => ?_⟩
      · rw [ids, draw, id, if_pos rfl, hstep, List.map_cons, ← hids]
        rfl
      · exact (hin k hk).1
      · rw [List.countP_cons_of_pos rfl]
        rcases List.mem_cons.mp hk with rfl | hk
        · omega
        · have hk' := hin k hk
          omega

theorem drawAll_cons (g : Generator) (d : Draw) (draws : List Draw) :
    g.drawAll (d :: draws) = (g.draw d).2.drawAll draws := rfl

theorem drawAll_after (seed : BitVec 64) (n : ℕ) (draws : List Draw) :
    (after seed n).drawAll draws = after seed (n + draws.countP Draw.takes) := by
  induction draws generalizing n with
  | nil => rfl
  | cons d draws ih =>
    have hstep : (after seed n).nextU64.2 = after seed (n + 1) :=
      (Function.iterate_succ_apply' (fun g : Generator => g.nextU64.2) n (new seed)).symm
    have hnext : n + 1 + draws.countP Draw.takes = n + (draws.countP Draw.takes + 1) := by omega
    rcases d with - | - | -
    · rw [List.countP_cons_of_pos rfl, drawAll_cons, draw, hstep, ih, hnext]
    · rw [List.countP_cons_of_neg Bool.false_ne_true]
      exact ih n
    · rw [List.countP_cons_of_pos rfl, drawAll_cons, draw, id, if_pos rfl, hstep, ih, hnext]

/-- **Ids do not repeat.** For every seed the first `2 ^ 64` numbers are different, the text of an
id determines its number, and the ids among any draws that take at most `2 ^ 64` numbers, whatever
was drawn before, are different. -/
theorem ids_differ (seed : BitVec 64) :
    (∀ i j, i < 2 ^ 64 → j < 2 ^ 64 → nth seed i = nth seed j → i = j) ∧
    (∀ g : Generator, ∃ v, g.nextU64.1 = v ∧ (g.id true).1 = some (text v) ∧
      (text v).length = 16) ∧ Function.Injective text ∧
    ∀ earlier draws : List Draw, draws.countP Draw.takes ≤ 2 ^ 64 →
      (((new seed).drawAll earlier).ids draws).Nodup := by
  have hnumbers : ∀ {n i j : ℕ}, nth seed i = nth seed j → n ≤ i → i < n + 2 ^ 64 → n ≤ j →
      j < n + 2 ^ 64 → i = j := by
    intro n i j h hi hi' hj hj'
    rw [nth_eq, nth_eq] at h
    have hmod := Ids.number_injective h
    omega
  refine ⟨fun i j hi hj h => ?_, fun g => ⟨_, rfl, rfl, ?_⟩, text_injective, fun earlier draws hmax => ?_⟩
  · exact hnumbers (n := 0) h (Nat.zero_le _) (by omega) (Nat.zero_le _) (by omega)
  · rw [text, String.length_ofList, length_digits]
  · have hearlier := drawAll_after seed 0 earlier
    rw [show after seed 0 = new seed from rfl] at hearlier
    obtain ⟨ks, hids, hsorted, hin⟩ := ids_eq seed (0 + earlier.countP Draw.takes) draws
    rw [hearlier, hids]
    refine List.Nodup.map_on (fun i hi j hj h => ?_) (hsorted.imp Nat.ne_of_lt)
    have hi' := hin i hi
    have hj' := hin j hj
    exact hnumbers (text_injective h) hi'.1 (by omega) hj'.1 (by omega)

/-- Two ids with a jitter in between. -/
theorem ids_differ_two :
    (((new 7#64).drawAll []).ids [.id true, .jitter, .id true]).Nodup :=
  (ids_differ 7#64).2.2.2 [] _ (by decide)

end Generator

end Hop.Node
