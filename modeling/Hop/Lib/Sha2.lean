import Hop.Lib.Text

/-!
# SHA-256 and HMAC as they are defined

FIPS 180-4 on messages of whole bytes: the message is padded to whole blocks, and the blocks are
folded into eight words. The constants are the first 32 bits of the fractional parts of roots of the
first primes. HMAC (RFC 2104) is over any hash function.

`zeroCount_least` says that the padding has the least number of zeros, `foldBlocks_block` that a
hash can be taken block by block.
-/

namespace Hop.Sha2

/-! ### Blocks -/

/-- Fold the whole blocks of `B` bytes of a text; what is left over is not looked at. -/
def foldBlocks {σ : Type} (B : ℕ) (compress : σ → Bytes → σ) (s : σ) (p : Bytes) : σ :=
  if 0 < B ∧ B ≤ p.length then foldBlocks B compress (compress s (p.take B)) (p.drop B) else s
termination_by p.length
decreasing_by
  rw [List.length_drop]
  omega

section Fold

variable {σ : Type} {B : ℕ} {compress : σ → Bytes → σ}

theorem foldBlocks_short {s : σ} {p : Bytes} (h : p.length < B) :
    foldBlocks B compress s p = s := by
  rw [foldBlocks, if_neg fun hle => absurd hle.2 (Nat.not_le.mpr h)]

/-- **One more block**, behind whole blocks. -/
theorem foldBlocks_block {n : ℕ} (s : σ) {full block : Bytes} (hfull : full.length = n * B)
    (hblock : block.length = B) (hB : 0 < B) :
    foldBlocks B compress s (full ++ block) = compress (foldBlocks B compress s full) block := by
  induction n generalizing s full with
  | zero =>
    obtain rfl : full = [] := List.length_eq_zero_iff.mp (by omega)
    have hnil : foldBlocks B compress s [] = s := foldBlocks_short hB
    have hle : 0 < B ∧ B ≤ block.length := ⟨hB, hblock.ge⟩
    rw [List.nil_append, hnil, foldBlocks, if_pos hle, ← hblock, List.take_length,
      List.drop_length, hblock, foldBlocks_short hB]
  | succ n ih =>
    have hlen : B ≤ full.length := by
      rw [hfull, Nat.succ_mul]
      exact Nat.le_add_left _ _
    have hle : 0 < B ∧ B ≤ (full ++ block).length := by
      rw [List.length_append]
      exact ⟨hB, Nat.le_add_right_of_le hlen⟩
    have hrest : (full.drop B).length = n * B := by
      rw [List.length_drop, hfull, Nat.succ_mul, Nat.add_sub_cancel]
    have hsplit := ih (compress s (full.take B)) hrest
    have hstep : foldBlocks B compress s full =
        foldBlocks B compress (compress s (full.take B)) (full.drop B) := by
      rw [foldBlocks, if_pos ⟨hB, hlen⟩]
    rw [foldBlocks, if_pos hle, List.take_append_of_le_length hlen,
      List.drop_append_of_le_length hlen, hsplit, hstep]

end Fold

/-! ### Words -/

/-- A rotation to the right. -/
def rotr (x : UInt32) (n : UInt32) : UInt32 := (x >>> n) ||| (x <<< (32 - n))

/-- The word of four bytes, the first one the highest. -/
def ofBytes (a b c d : UInt8) : UInt32 :=
  (a.toUInt32 <<< 24) ||| (b.toUInt32 <<< 16) ||| (c.toUInt32 <<< 8) ||| d.toUInt32

/-- The four bytes of a word. -/
def toBytes (w : UInt32) : Bytes :=
  [(w >>> 24).toUInt8, (w >>> 16).toUInt8, (w >>> 8).toUInt8, w.toUInt8]

/-- The words of a block. -/
def words : Bytes → List UInt32
  | a :: b :: c :: d :: rest => ofBytes a b c d :: words rest
  | _ => []

theorem length_words (b : Bytes) : (words b).length = b.length / 4 := by
  induction b using words.induct with
  | case1 a b c d rest ih =>
    rw [words, List.length_cons, ih]
    simp only [List.length_cons]
    omega
  | case2 b hshort =>
    have hlen : b.length < 4 := by
      match b, hshort with
      | [], _ | [_], _ | [_, _], _ | [_, _, _], _ => simp
      | a :: b :: c :: d :: rest, h => exact (h a b c d rest rfl).elim
    rw [words.eq_2 b hshort, Nat.div_eq_of_lt hlen]
    rfl

/-- The eight words that a hash consists of. -/
structure Words8 where
  a : UInt32
  b : UInt32
  c : UInt32
  d : UInt32
  e : UInt32
  f : UInt32
  g : UInt32
  h : UInt32
deriving DecidableEq, Repr

namespace Words8

def add (s v : Words8) : Words8 :=
  ⟨s.a + v.a, s.b + v.b, s.c + v.c, s.d + v.d, s.e + v.e, s.f + v.f, s.g + v.g, s.h + v.h⟩

def toBytes (s : Words8) : Bytes :=
  [s.a, s.b, s.c, s.d, s.e, s.f, s.g, s.h].flatMap Sha2.toBytes

theorem length_toBytes (s : Words8) : s.toBytes.length = 32 := rfl

end Words8

/-! ### The definition -/

def ch (x y z : UInt32) : UInt32 := (x &&& y) ^^^ (~~~x &&& z)

def maj (x y z : UInt32) : UInt32 := (x &&& y) ^^^ (x &&& z) ^^^ (y &&& z)

def bigSigma0 (x : UInt32) : UInt32 := rotr x 2 ^^^ rotr x 13 ^^^ rotr x 22

def bigSigma1 (x : UInt32) : UInt32 := rotr x 6 ^^^ rotr x 11 ^^^ rotr x 25

def smallSigma0 (x : UInt32) : UInt32 := rotr x 7 ^^^ rotr x 18 ^^^ (x >>> 3)

def smallSigma1 (x : UInt32) : UInt32 := rotr x 17 ^^^ rotr x 19 ^^^ (x >>> 10)

/-- The first 64 primes. -/
def primes : List ℕ := (List.range 312).filter Nat.Prime

theorem primes_eq : primes = [2, 3, 5, 7, 11, 13, 17, 19, 23, 29, 31, 37, 41, 43, 47, 53, 59, 61, 67,
    71, 73, 79, 83, 89, 97, 101, 103, 107, 109, 113, 127, 131, 137, 139, 149, 151, 157, 163, 167, 173,
    179, 181, 191, 193, 197, 199, 211, 223, 227, 229, 233, 239, 241, 251, 257, 263, 269, 271, 277, 281,
    283, 293, 307, 311] := by
  -- a number below 324 is prime if nothing from 2 to 17 divides it
  have htest : primes = (List.range 312).filter fun n =>
      2 ≤ n ∧ (List.range 18).all fun d => d < 2 || n < d * d || n % d != 0 := by
    refine List.filter_congr fun n hn => ?_
    have hlt := List.mem_range.mp hn
    rw [decide_eq_decide, Nat.prime_def_le_sqrt, List.all_eq_true]
    refine and_congr_right fun _ => ⟨fun h d _ => ?_, fun h d h2 hsqrt => ?_⟩
    · by_cases hd : 2 ≤ d ∧ d * d ≤ n
      · have hdvd := h d hd.1 (Nat.le_sqrt.mpr hd.2)
        rw [Nat.dvd_iff_mod_eq_zero] at hdvd
        simp only [Bool.or_eq_true, bne_iff_ne, ne_eq]
        exact .inr hdvd
      · simp only [Bool.or_eq_true, decide_eq_true_eq]
        omega
    · have hle := Nat.le_sqrt.mp hsqrt
      have h18 : d < 18 := by
        by_contra hge
        have := Nat.mul_le_mul (Nat.not_lt.mp hge) (Nat.not_lt.mp hge)
        omega
      have htest := h d (List.mem_range.mpr h18)
      simp only [Bool.or_eq_true, decide_eq_true_eq, bne_iff_ne, ne_eq] at htest
      rw [Nat.dvd_iff_mod_eq_zero]
      omega
  rw [htest]
  decide

/-- The constant of round `t`: of the cube root of prime `t`. -/
def roundConst (t : ℕ) : UInt32 := UInt32.ofNat (Nat.nthRoot 3 (primes.getD t 0 * 2 ^ 96))

/-- Where a hash begins: the square roots of the first eight primes. -/
def initial : Words8 :=
  let root i := UInt32.ofNat (Nat.sqrt (primes.getD i 0 * 2 ^ 64))
  ⟨root 0, root 1, root 2, root 3, root 4, root 5, root 6, root 7⟩

/-- The message schedule of a block. -/
def schedule (block : Bytes) (t : ℕ) : UInt32 :=
  if t < 16 then (words block).getD t 0
  else smallSigma1 (schedule block (t - 2)) + schedule block (t - 7) +
    smallSigma0 (schedule block (t - 15)) + schedule block (t - 16)
termination_by t

/-- One round, with its constant and its word. -/
def round (v : Words8) (k w : UInt32) : Words8 :=
  let t1 := v.h + bigSigma1 v.e + ch v.e v.f v.g + k + w
  let t2 := bigSigma0 v.a + maj v.a v.b v.c
  ⟨t1 + t2, v.a, v.b, v.c, v.d + t1, v.e, v.f, v.g⟩

/-- The working variables after `t` rounds. -/
def rounds (s : Words8) (block : Bytes) : ℕ → Words8
  | 0 => s
  | t + 1 => round (rounds s block t) (roundConst t) (schedule block t)

def compress (s : Words8) (block : Bytes) : Words8 := s.add (rounds s block 64)

/-- The 64 bits of a number, the highest byte first. -/
def be64 (n : ℕ) : Bytes := (List.range 8).map fun i => UInt8.ofNat (n / 256 ^ (7 - i))

/-- How many zeros the padding of a message of `len` bytes has. -/
def zeroCount (len : ℕ) : ℕ := (119 - len % 64) % 64

/-- The padding has as few zeros as possible. -/
theorem zeroCount_least (len : ℕ) : (len + 1 + zeroCount len) % 64 = 56 ∧
    ∀ k, (len + 1 + k) % 64 = 56 → zeroCount len ≤ k := by
  unfold zeroCount
  refine ⟨by omega, fun k hk => ?_⟩
  omega

/-- The padded message: a one bit, zeros, and the length in 64 bits. -/
def pad (m : Bytes) : Bytes :=
  m ++ 0x80 :: (List.replicate (zeroCount m.length) 0 ++ be64 (8 * m.length))

/-- The SHA-256 of a message. -/
def sha256 (m : Bytes) : Bytes := (foldBlocks 64 compress initial (pad m)).toBytes

/-! ### HMAC -/

/-- The key of a block: a longer one is hashed, and zeros follow. -/
def keyBlock (H : Bytes → Bytes) (B : ℕ) (key : Bytes) : Bytes :=
  let key := if B < key.length then H key else key
  key ++ List.replicate (B - key.length) 0

/-- HMAC over a hash function with blocks of `B` bytes. -/
def hmac (H : Bytes → Bytes) (B : ℕ) (key text : Bytes) : Bytes :=
  H ((keyBlock H B key).map (· ^^^ 0x5c) ++ H ((keyBlock H B key).map (· ^^^ 0x36) ++ text))

end Hop.Sha2
