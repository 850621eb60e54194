import Mathlib

/-!
# Task ids

`agent/src/ids.rs`: the ids of the tasks and the jitter of the restarts come from one splitmix64
generator. Its state moves by a fixed odd step, so it is known by the seed and the number of
draws. The numbers of the first `2 ^ 64` draws are all different, and an id determines its number:
an id that an agent draws is none of those it drew before.
-/

namespace Hop.Node

/-- The step of the state. -/
def gamma : BitVec 64 := 0x9e3779b97f4a7c15#64

/-- The splitmix64 generator: its state is `seed + draws * gamma`. -/
structure Ids where
  seed : BitVec 64
  draws : ℕ
deriving DecidableEq

/-- The output function of the generator. -/
def mix (z : BitVec 64) : BitVec 64 :=
  let z := (z ^^^ (z >>> 30)) * 0xbf58476d1ce4e5b9#64
  let z := (z ^^^ (z >>> 27)) * 0x94d049bb133111eb#64
  z ^^^ (z >>> 31)

/-- A hexadecimal digit. -/
def hexDigit (n : ℕ) : Char := "0123456789abcdef".toList.getD n '0'

/-- The `k` lowest hexadecimal digits of a number, the lowest first. -/
def hexDigits : ℕ → ℕ → List Char
  | 0, _ => []
  | k + 1, v => hexDigit (v % 16) :: hexDigits k (v / 16)

namespace Ids

def new (seed : BitVec 64) : Ids := ⟨seed, 0⟩

/-- The number of the draw `i` (from 1). -/
def number (seed : BitVec 64) (i : ℕ) : BitVec 64 := mix (seed + gamma * BitVec.ofNat 64 i)

/-- The next number. -/
def nextU64 (ids : Ids) : BitVec 64 × Ids :=
  (number ids.seed (ids.draws + 1), { ids with draws := ids.draws + 1 })

/-- The id of the draw `i`. -/
def idOf (seed : BitVec 64) (i : ℕ) : String := String.ofList (hexDigits 16 (number seed i).toNat)

/-- An id of 16 hexadecimal digits. -/
def id (ids : Ids) : String × Ids :=
  (idOf ids.seed (ids.draws + 1), { ids with draws := ids.draws + 1 })

end Ids

/-! ### The ids are different -/

/-- A shift by more than a third of the word, xored in, can be undone. -/
theorem xorShift_injective {s : ℕ} (hs : 64 ≤ 3 * s) :
    Function.Injective fun z : BitVec 64 => z ^^^ (z >>> s) := by
  have hleft : Function.LeftInverse (fun y : BitVec 64 => y ^^^ (y >>> s) ^^^ (y >>> (s + s)))
      fun z => z ^^^ (z >>> s) := by
    intro z
    have hzero : z >>> (s + s + s) = 0#64 := BitVec.ushiftRight_eq_zero (by omega)
    have hcomm : s + (s + s) = s + s + s := by omega
    simp only [BitVec.ushiftRight_xor_distrib, ← BitVec.shiftRight_add, hcomm, hzero]
    grind
  exact hleft.injective

theorem mul_injective_of_inverse {c d : BitVec 64} (h : c * d = 1) :
    Function.Injective fun z : BitVec 64 => z * c := by
  have hleft : Function.LeftInverse (fun y : BitVec 64 => y * d) fun z => z * c := by
    intro z
    simp only [BitVec.mul_assoc, h]
    exact BitVec.mul_one z
  exact hleft.injective

theorem mix_injective : Function.Injective mix := by
  have h₁ : Function.Injective fun z : BitVec 64 => z * 0xbf58476d1ce4e5b9#64 :=
    mul_injective_of_inverse (d := 0x96de1b173f119089#64) (by decide)
  have h₂ : Function.Injective fun z : BitVec 64 => z * 0x94d049bb133111eb#64 :=
    mul_injective_of_inverse (d := 0x319642b2d24d8ec3#64) (by decide)
  intro a b h
  exact xorShift_injective (by decide) (h₁ (xorShift_injective (by decide)
    (h₂ (xorShift_injective (by decide) h))))

theorem hexDigit_injective {a b : ℕ} (ha : a < 16) (hb : b < 16)
    (h : hexDigit a = hexDigit b) : a = b := by
  have key : ∀ a < 16, ∀ b < 16, hexDigit a = hexDigit b → a = b := by decide
  exact key a ha b hb h

theorem hexDigits_injective {k a b : ℕ} (ha : a < 16 ^ k) (hb : b < 16 ^ k)
    (h : hexDigits k a = hexDigits k b) : a = b := by
  induction k generalizing a b with
  | zero => omega
  | succ k ih =>
    obtain ⟨hhead, htail⟩ := List.cons.inj h
    have hlow := hexDigit_injective (Nat.mod_lt a (by decide)) (Nat.mod_lt b (by decide)) hhead
    have hhigh := ih (by omega) (by omega) htail
    omega

namespace Ids

/-- The step is odd, so the state comes back after `2 ^ 64` draws and not before. -/
theorem number_injective {seed : BitVec 64} {i j : ℕ} (h : number seed i = number seed j) :
    i % 2 ^ 64 = j % 2 ^ 64 := by
  have hgamma : Function.Injective fun z : BitVec 64 => z * gamma :=
    mul_injective_of_inverse (d := 0xf1de83e19937733d#64) (by decide)
  have hstate := mix_injective h
  have hmul : gamma * BitVec.ofNat 64 i = gamma * BitVec.ofNat 64 j := by
    simpa using hstate
  rw [BitVec.mul_comm, BitVec.mul_comm gamma] at hmul
  have := congrArg BitVec.toNat (hgamma hmul)
  simpa using this

theorem idOf_injective {seed : BitVec 64} {i j : ℕ} (h : idOf seed i = idOf seed j) :
    i % 2 ^ 64 = j % 2 ^ 64 := by
  have hlist : hexDigits 16 (number seed i).toNat = hexDigits 16 (number seed j).toNat := by
    simpa [idOf] using congrArg String.toList h
  have hlt : ∀ v : BitVec 64, v.toNat < 16 ^ 16 := fun v => v.isLt
  exact number_injective (BitVec.eq_of_toNat_eq (hexDigits_injective (hlt _) (hlt _) hlist))

end Ids

end Hop.Node
