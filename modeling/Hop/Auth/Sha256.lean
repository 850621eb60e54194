import Hop.Api.Address
import Hop.Lib.Sha2

/-!
# The hash of a signature

`auth/src/sha256.rs`, and `Hmac` and `sign` of `auth/src/lib.rs`. The hash takes its message in
pieces: it keeps the block that is not full yet, and compresses each full one. However a message is
cut, the hash is the one of the definition (`Holds.finish`), and so is the HMAC over it, so that
what `sign` signs is what `verify` checks (`streams_as_defined`).
-/

namespace Hop.Auth

open Sha2

/-- `K`. -/
def k : List UInt32 :=
  [0x428a2f98, 0x71374491, 0xb5c0fbcf, 0xe9b5dba5, 0x3956c25b, 0x59f111f1, 0x923f82a4, 0xab1c5ed5,
   0xd807aa98, 0x12835b01, 0x243185be, 0x550c7dc3, 0x72be5d74, 0x80deb1fe, 0x9bdc06a7, 0xc19bf174,
   0xe49b69c1, 0xefbe4786, 0x0fc19dc6, 0x240ca1cc, 0x2de92c6f, 0x4a7484aa, 0x5cb0a9dc, 0x76f988da,
   0x983e5152, 0xa831c66d, 0xb00327c8, 0xbf597fc7, 0xc6e00bf3, 0xd5a79147, 0x06ca6351, 0x14292967,
   0x27b70a85, 0x2e1b2138, 0x4d2c6dfc, 0x53380d13, 0x650a7354, 0x766a0abb, 0x81c2c92e, 0x92722c85,
   0xa2bfe8a1, 0xa81a664b, 0xc24b8b70, 0xc76c51a3, 0xd192e819, 0xd6990624, 0xf40e3585, 0x106aa070,
   0x19a4c116, 0x1e376c08, 0x2748774c, 0x34b0bcb5, 0x391c0cb3, 0x4ed8aa4a, 0x5b9cca4f, 0x682e6ff3,
   0x748f82ee, 0x78a5636f, 0x84c87814, 0x8cc70208, 0x90befffa, 0xa4506ceb, 0xbef9a3f7, 0xc67178f2]

/-- `H0`. -/
def h0 : Words8 :=
  ⟨0x6a09e667, 0xbb67ae85, 0x3c6ef372, 0xa54ff53a, 0x510e527f, 0x9b05688c, 0x1f83d9ab, 0x5be0cd19⟩

/-! ### One block -/

/-- The next word of `w`. -/
def extend (w : List UInt32) : List UInt32 :=
  let i := w.length
  let x := w.getD (i - 15) 0
  let y := w.getD (i - 2) 0
  let s0 := rotr x 7 ^^^ rotr x 18 ^^^ (x >>> 3)
  let s1 := rotr y 17 ^^^ rotr y 19 ^^^ (y >>> 10)
  w ++ [w.getD (i - 16) 0 + s0 + w.getD (i - 7) 0 + s1]

/-- The words of `w` and `n` more. -/
def extendBy : ℕ → List UInt32 → List UInt32
  | 0, w => w
  | n + 1, w => extendBy n (extend w)

/-- One turn of the loop over `K` and `w`. -/
def turn (v : Words8) (kw : UInt32 × UInt32) : Words8 :=
  let s1 := rotr v.e 6 ^^^ rotr v.e 11 ^^^ rotr v.e 25
  let ch := (v.e &&& v.f) ^^^ (~~~v.e &&& v.g)
  let t1 := v.h + s1 + ch + kw.1 + kw.2
  let s0 := rotr v.a 2 ^^^ rotr v.a 13 ^^^ rotr v.a 22
  let maj := (v.a &&& v.b) ^^^ (v.a &&& v.c) ^^^ (v.b &&& v.c)
  let t2 := s0 + maj
  ⟨t1 + t2, v.a, v.b, v.c, v.d + t1, v.e, v.f, v.g⟩

def compress (state : Words8) (block : Bytes) : Words8 :=
  state.add ((k.zip (extendBy 48 (words block))).foldl turn state)

/-! ### The stream -/

/-- A hash that takes its message in pieces. -/
structure Sha256 where
  state : Words8
  block : Bytes
  filled : ℕ
  /-- How many bytes were hashed, modulo 2^64. -/
  total : ℕ
  length_block : block.length = 64
  filled_lt : filled < 64

namespace Sha256

def new : Sha256 := ⟨h0, List.replicate 64 0, 0, 0, List.length_replicate, by decide⟩

/-- The block with `head` in its place. -/
def copyIn (h : Sha256) (head : Bytes) : Bytes :=
  h.block.take h.filled ++ head ++ h.block.drop (h.filled + head.length)

theorem length_copyIn {h : Sha256} {head : Bytes} (hle : h.filled + head.length ≤ 64) :
    (h.copyIn head).length = 64 := by
  have hlen := h.length_block
  simp only [copyIn, List.length_append, List.length_take, List.length_drop, hlen]
  omega

/-- One turn of the loop of `update`: what still fits the block. -/
def step (h : Sha256) (head : Bytes) (hle : h.filled + head.length ≤ 64) : Sha256 :=
  if hfull : h.filled + head.length = 64 then
    { h with
      state := compress h.state (h.copyIn head)
      block := h.copyIn head
      filled := 0
      length_block := length_copyIn hle
      filled_lt := by decide }
  else
    { h with
      block := h.copyIn head
      filled := h.filled + head.length
      length_block := length_copyIn hle
      filled_lt := lt_of_le_of_ne hle hfull }

/-- The loop of `update`. -/
def absorb (h : Sha256) (data : Bytes) : Sha256 :=
  if data = [] then h
  else
    let take := min (64 - h.filled) data.length
    absorb (h.step (data.take take) (by
      have := h.filled_lt
      rw [List.length_take]
      omega)) (data.drop take)
termination_by data.length
decreasing_by
  have := h.filled_lt
  have := List.length_pos_of_ne_nil ‹_›
  rw [List.length_drop]
  omega

/-- Add `data`. -/
def update (h : Sha256) (data : Bytes) : Sha256 :=
  absorb { h with total := (h.total + data.length) % 2 ^ 64 } data

theorem filled_step {h : Sha256} {head : Bytes} (hle : h.filled + head.length ≤ 64) :
    (h.step head hle).filled = (h.filled + head.length) % 64 := by
  rw [step]
  split_ifs with hfull
  · rw [hfull]
  · exact (Nat.mod_eq_of_lt (lt_of_le_of_ne hle hfull)).symm

theorem filled_absorb (h : Sha256) (data : Bytes) :
    (h.absorb data).filled = (h.filled + data.length) % 64 := by
  induction h, data using absorb.induct with
  | case1 h =>
    rw [absorb, if_pos rfl, List.length_nil, Nat.add_zero, Nat.mod_eq_of_lt h.filled_lt]
  | case2 h data hne take ih =>
    rw [absorb, if_neg hne, ih, filled_step, List.length_take, List.length_drop]
    omega

theorem total_absorb (h : Sha256) (data : Bytes) : (h.absorb data).total = h.total := by
  induction h, data using absorb.induct with
  | case1 h => rw [absorb, if_pos rfl]
  | case2 h data hne take ih =>
    rw [absorb, if_neg hne, ih, step]
    split_ifs
    · rfl
    · rfl

theorem filled_update (h : Sha256) (data : Bytes) :
    (h.update data).filled = (h.filled + data.length) % 64 :=
  filled_absorb _ data

/-- The loop of `finish`: zeros, until the length fits. -/
def padZeros (h : Sha256) : Sha256 :=
  if h.filled = 56 then h else padZeros (h.update [0])
termination_by (120 - h.filled) % 64
decreasing_by
  have := h.filled_lt
  rw [filled_update, List.length_singleton]
  omega

/-- Close the hash. -/
def finish (h : Sha256) : Bytes :=
  let bits := h.total * 8 % 2 ^ 64
  let h := h.update [0x80]
  let h := h.padZeros
  let h := h.update (be64 bits)
  h.state.toBytes

end Sha256

/-- The hash of `data` at once. -/
def sha256 (data : Bytes) : Bytes := (Sha256.new.update data).finish

example : sha256 (utf8 "abc") = [0xba, 0x78, 0x16, 0xbf, 0x8f, 0x01, 0xcf, 0xea, 0x41, 0x41, 0x40,
    0xde, 0x5d, 0xae, 0x22, 0x23, 0xb0, 0x03, 0x61, 0xa3, 0x96, 0x17, 0x7a, 0x9c, 0xb4, 0x10, 0xff,
    0x61, 0xf2, 0x00, 0x15, 0xad] := by decide +kernel

/-! ### The constants and one block -/

theorem h0_eq : h0 = initial := by
  rw [initial, primes_eq]
  decide +kernel

theorem k_eq : k = (List.range 64).map roundConst := by
  have hconst : roundConst = fun t => UInt32.ofNat (Nat.nthRoot 3 (primes.getD t 0 * 2 ^ 96)) := rfl
  rw [hconst, primes_eq]
  decide

section Block

variable {block : Bytes}

theorem words_eq (h : block.length = 64) : words block = (List.range 16).map (schedule block) := by
  have hlen : (words block).length = 16 := by rw [length_words, h]
  refine List.ext_getElem (by rw [hlen, List.length_map, List.length_range]) fun t ht _ => ?_
  have hlt : t < 16 := hlen ▸ ht
  rw [List.getElem_map, List.getElem_range, schedule, if_pos hlt, List.getD_eq_getElem _ _ ht]

/-- The loop over the words makes the schedule. -/
theorem extend_eq {m : ℕ} (hm : 16 ≤ m) :
    extend ((List.range m).map (schedule block)) = (List.range (m + 1)).map (schedule block) := by
  have hget : ∀ j, 1 ≤ j → j ≤ 16 →
      ((List.range m).map (schedule block)).getD (m - j) 0 = schedule block (m - j) := by
    intro j h1 h16
    have hlt : m - j < ((List.range m).map (schedule block)).length := by
      rw [List.length_map, List.length_range]
      omega
    rw [List.getD_eq_getElem _ _ hlt, List.getElem_map, List.getElem_range]
  have hlen : ((List.range m).map (schedule block)).length = m := by
    rw [List.length_map, List.length_range]
  have hlate : ¬ m < 16 := Nat.not_lt.mpr hm
  rw [extend, hlen, hget 15 (by decide) (by decide), hget 2 (by decide) (by decide),
    hget 16 (by decide) (by decide), hget 7 (by decide) (by decide), List.range_succ,
    List.map_append, List.map_singleton]
  congr 2
  -- the sum of the definition is in another order
  conv_rhs => rw [schedule, if_neg hlate]
  unfold smallSigma0 smallSigma1
  ac_rfl

theorem extendBy_eq (n : ℕ) {m : ℕ} (hm : 16 ≤ m) :
    extendBy n ((List.range m).map (schedule block)) =
      (List.range (m + n)).map (schedule block) := by
  induction n generalizing m with
  | zero => rfl
  | succ n ih =>
    rw [extendBy, extend_eq hm, ih (Nat.le_succ_of_le hm), Nat.succ_add, Nat.add_succ]

theorem foldl_turn (s : Words8) (n : ℕ) :
    ((List.range n).map fun t => (roundConst t, schedule block t)).foldl turn s =
      rounds s block n := by
  induction n with
  | zero => rfl
  | succ n ih =>
    rw [List.range_succ, List.map_append, List.foldl_append, ih]
    rfl

/-- **A block is compressed as the definition says.** -/
theorem compress_eq (s : Words8) (h : block.length = 64) :
    compress s block = Sha2.compress s block := by
  rw [compress, words_eq h, extendBy_eq 48 le_rfl, k_eq, List.zip_map', foldl_turn]
  rfl

end Block

/-! ### What a stream has taken in -/

/-- The bytes `m` went in: the whole blocks of them are in the state, and the rest is in the
block. -/
structure InBlocks (h : Sha256) (m : Bytes) : Prop where
  parts : ∃ n full rest, m = full ++ rest ∧ full.length = n * 64 ∧ rest.length = h.filled ∧
    h.block.take h.filled = rest ∧ h.state = foldBlocks 64 Sha2.compress initial full

namespace InBlocks

variable {h : Sha256} {m : Bytes}

theorem filled (hm : InBlocks h m) : h.filled = m.length % 64 := by
  obtain ⟨n, full, rest, rfl, hfull, hrest, -, -⟩ := hm.parts
  have hlt := h.filled_lt
  rw [List.length_append, hfull, hrest]
  omega

/-- **One turn of the loop.** -/
theorem step (hm : InBlocks h m) {head : Bytes} (hle : h.filled + head.length ≤ 64) :
    InBlocks (h.step head hle) (m ++ head) := by
  obtain ⟨n, full, rest, rfl, hfull, hrest, hblock, hstate⟩ := hm.parts
  have hcopy : h.copyIn head = rest ++ head ++ h.block.drop (h.filled + head.length) := by
    rw [Sha256.copyIn, hblock]
  rw [Sha256.step]
  split_ifs with hwhole
  · -- the block is full: it goes into the state
    have hnone : h.block.drop (h.filled + head.length) = [] :=
      List.drop_of_length_le (by rw [hwhole, h.length_block])
    have hlen : (rest ++ head).length = 64 := by
      rw [List.length_append, hrest, hwhole]
    rw [hnone, List.append_nil] at hcopy
    refine ⟨n + 1, full ++ (rest ++ head), [], ?_, ?_, rfl, List.take_zero, ?_⟩
    · rw [List.append_nil, List.append_assoc]
    · rw [List.length_append, hfull, hlen, Nat.succ_mul]
    · rw [foldBlocks_block initial hfull hlen (by decide), ← hstate, ← compress_eq _ hlen, ← hcopy]
  · refine ⟨n, full, rest ++ head, List.append_assoc _ _ _, hfull, ?_, ?_, hstate⟩
    · rw [List.length_append, hrest]
    · dsimp only
      rw [hcopy, ← hrest, ← List.length_append, List.take_left]

theorem absorb (hm : InBlocks h m) (data : Bytes) : InBlocks (h.absorb data) (m ++ data) := by
  induction h, data using Sha256.absorb.induct generalizing m with
  | case1 h =>
    rw [Sha256.absorb, if_pos rfl, List.append_nil]
    exact hm
  | case2 h data hne take =>
    rename_i ih
    have hrec := ih (hm.step _)
    rw [List.append_assoc, List.take_append_drop] at hrec
    rw [Sha256.absorb, if_neg hne]
    exact hrec

end InBlocks

/-- The stream took in `m`. -/
structure Holds (h : Sha256) (m : Bytes) : Prop where
  total : h.total = m.length % 2 ^ 64
  inBlocks : InBlocks h m

namespace Holds

variable {h : Sha256} {m : Bytes}

theorem new : Holds .new [] where
  total := rfl
  inBlocks := ⟨0, [], [], rfl, rfl, rfl, rfl, by
    rw [foldBlocks_short (by decide : ([] : Bytes).length < 64)]
    exact h0_eq⟩

theorem update (hm : Holds h m) (data : Bytes) : Holds (h.update data) (m ++ data) where
  total := by
    rw [Sha256.update, Sha256.total_absorb, hm.total, Nat.mod_add_mod, List.length_append]
  inBlocks := by
    rw [Sha256.update]
    refine InBlocks.absorb ?_ data
    exact ⟨hm.inBlocks.parts⟩

/-- **Any way of cutting a message.** -/
theorem foldl_update (hm : Holds h m) (chunks : List Bytes) :
    Holds (chunks.foldl Sha256.update h) (m ++ chunks.flatten) := by
  induction chunks generalizing h m with
  | nil =>
    rw [List.flatten_nil, List.append_nil]
    exact hm
  | cons c chunks ih =>
    rw [List.foldl_cons, List.flatten_cons, ← List.append_assoc]
    exact ih (hm.update c)

/-! ### Closing the stream -/

/-- The zeros of the loop of `finish`. -/
theorem padZeros (hm : Holds h m) :
    Holds h.padZeros (m ++ List.replicate ((120 - h.filled) % 64) 0) := by
  induction h using Sha256.padZeros.induct generalizing m with
  | case1 h h56 =>
    rw [Sha256.padZeros, if_pos h56, h56]
    simpa using hm
  | case2 h hne ih =>
    have hlt := h.filled_lt
    have hnext : (120 - h.filled) % 64 = (120 - (h.update [0]).filled) % 64 + 1 := by
      rw [Sha256.filled_update, List.length_singleton]
      omega
    have hrec := ih (hm.update [0])
    rw [List.append_assoc, List.singleton_append, ← List.replicate_succ, ← hnext] at hrec
    rw [Sha256.padZeros, if_neg hne]
    exact hrec

/-- Only the lowest 64 bits of a number are written. -/
theorem be64_mod (n : ℕ) : be64 (n % 2 ^ 64) = be64 n := by
  refine List.map_congr_left fun i hi => ?_
  have hi' := List.mem_range.mp hi
  rw [← UInt8.toNat_inj, UInt8.toNat_ofNat', UInt8.toNat_ofNat']
  obtain ⟨j, hj⟩ : ∃ j, 64 = 8 * (7 - i) + (8 + j) := ⟨56 - 8 * (7 - i), by omega⟩
  have h256 : 256 ^ (7 - i) = 2 ^ (8 * (7 - i)) := by rw [Nat.pow_mul]
  rw [h256, hj, Nat.pow_add, Nat.mod_mul_right_div_self, Nat.pow_add, Nat.mod_mul_right_mod]

/-- **The hash of a stream is the hash of what it took in.** -/
theorem finish (hm : Holds h m) : h.finish = Sha2.sha256 m := by
  have hbit := hm.update [0x80]
  have hzeros := hbit.padZeros
  have hcount : (120 - (h.update [0x80]).filled) % 64 = zeroCount m.length := by
    rw [hbit.inBlocks.filled, List.length_append, List.length_singleton, zeroCount]
    omega
  rw [hcount] at hzeros
  have hall := hzeros.update (be64 (h.total * 8 % 2 ^ 64))
  have hbits : be64 (h.total * 8 % 2 ^ 64) = be64 (8 * m.length) := by
    rw [hm.total, Nat.mod_mul_mod, be64_mod, Nat.mul_comm]
  have htext : m ++ [0x80] ++ List.replicate (zeroCount m.length) 0 ++
      be64 (h.total * 8 % 2 ^ 64) = pad m := by
    rw [hbits, pad, List.append_assoc, List.append_assoc]
    rfl
  rw [htext] at hall
  -- the padded message has whole blocks only
  have hwhole : (pad m).length % 64 = 0 := by
    have hleast := (zeroCount_least m.length).1
    have h8 : (be64 (8 * m.length)).length = 8 := by
      rw [be64, List.length_map, List.length_range]
    rw [pad, List.length_append, List.length_cons, List.length_append, List.length_replicate, h8]
    omega
  obtain ⟨n, full, rest, hsplit, -, hrest, -, hstate⟩ := hall.inBlocks.parts
  rw [hall.inBlocks.filled, hwhole] at hrest
  rw [List.length_eq_zero_iff.mp hrest, List.append_nil] at hsplit
  rw [Sha256.finish, hstate, ← hsplit]
  rfl

end Holds

/-- **Any way of cutting a message into pieces.** -/
theorem finish_foldl (chunks : List Bytes) :
    (chunks.foldl Sha256.update .new).finish = Sha2.sha256 chunks.flatten :=
  (Holds.new.foldl_update chunks).finish

theorem sha256_eq (data : Bytes) : sha256 data = Sha2.sha256 data :=
  (Holds.new.update data).finish

/-- **The loop of `finish` ends** at 56 bytes, whatever the block is filled to. -/
theorem padZeros_ends (h : Sha256) :
    ∃ n < 64, h.padZeros = (fun h => h.update [0])^[n] h ∧ h.padZeros.filled = 56 := by
  refine ⟨(120 - h.filled) % 64, Nat.mod_lt _ (by decide), ?_⟩
  induction h using Sha256.padZeros.induct with
  | case1 h h56 =>
    rw [Sha256.padZeros, if_pos h56, h56]
    exact ⟨rfl, rfl⟩
  | case2 h hne ih =>
    have hlt := h.filled_lt
    have hnext : (120 - h.filled) % 64 = (120 - (h.update [0]).filled) % 64 + 1 := by
      rw [Sha256.filled_update, List.length_singleton]
      omega
    rw [Sha256.padZeros, if_neg hne, hnext, Function.iterate_succ_apply]
    exact ih

/-! ### HMAC -/

/-- HMAC-SHA256 as a stream. -/
structure Hmac where
  inner : Sha256
  outerKey : Bytes

namespace Hmac

def new (key : Bytes) : Hmac :=
  let block := if 64 < key.length then sha256 key ++ List.replicate 32 0
    else key ++ List.replicate (64 - key.length) 0
  { inner := Sha256.new.update (block.map (· ^^^ 0x36))
    outerKey := block.map (· ^^^ 0x5c) }

def update (mac : Hmac) (data : Bytes) : Hmac := { mac with inner := mac.inner.update data }

def finish (mac : Hmac) : Bytes :=
  ((Sha256.new.update mac.outerKey).update mac.inner.finish).finish

theorem foldl_update (mac : Hmac) (chunks : List Bytes) :
    chunks.foldl update mac = { mac with inner := chunks.foldl Sha256.update mac.inner } := by
  induction chunks generalizing mac with
  | nil => rfl
  | cons c chunks ih =>
    rw [List.foldl_cons, ih]
    rfl

theorem new_eq (key : Bytes) : new key =
    { inner := Sha256.new.update ((keyBlock Sha2.sha256 64 key).map (· ^^^ 0x36))
      outerKey := (keyBlock Sha2.sha256 64 key).map (· ^^^ 0x5c) } := by
  have hblock : (if 64 < key.length then sha256 key ++ List.replicate 32 0
      else key ++ List.replicate (64 - key.length) 0) = keyBlock Sha2.sha256 64 key := by
    rw [keyBlock]
    split_ifs
    · rw [sha256_eq, Sha2.sha256, Words8.length_toBytes]
    · rfl
  rw [new, hblock]

/-- **HMAC of any pieces.** -/
theorem finish_foldl (key : Bytes) (chunks : List Bytes) :
    (chunks.foldl update (new key)).finish = hmac Sha2.sha256 64 key chunks.flatten := by
  have hinner := ((Holds.new.update ((keyBlock Sha2.sha256 64 key).map (· ^^^ 0x36))).foldl_update
    chunks).finish
  rw [foldl_update, new_eq, finish, hinner, ((Holds.new.update _).update _).finish, hmac]
  rfl

end Hmac

/-- The HMAC of `data` at once. -/
def hmacSha256 (key data : Bytes) : Bytes := ((Hmac.new key).update data).finish

/-! ### Signatures -/

/-- Feed `METHOD \n PATH \n hex(sha256(body))`. -/
def feedSigningString (mac : Hmac) (method : String) (path : List Char) (body : Bytes) : Hmac :=
  let bodyHex := Api.hex (sha256 body)
  ((((mac.update (utf8 method)).update [10]).update (utf8Chars path)).update [10]).update bodyHex

def sign (key : Bytes) (method : String) (path : List Char) (body : Bytes) : Bytes :=
  Api.hex (feedSigningString (.new key) method path body).finish

/-- The hash functions of the crate. -/
def hash : Api.Hash := ⟨sha256, hmacSha256⟩

theorem hmacSha256_eq (key data : Bytes) : hmacSha256 key data = hmac Sha2.sha256 64 key data := by
  have h := Hmac.finish_foldl key [data]
  rwa [List.flatten_singleton] at h

/-- The string that is fed is the string that is signed. -/
theorem sign_eq (key : Bytes) (method : String) (path : List Char) (body : Bytes) :
    sign key method path body = hash.sign key method path body := by
  have h := Hmac.finish_foldl key
    [utf8 method, [10], utf8Chars path, [10], Api.hex (sha256 body)]
  have hfeed : feedSigningString (.new key) method path body =
      [utf8 method, [10], utf8Chars path, [10], Api.hex (sha256 body)].foldl Hmac.update
        (.new key) := rfl
  have hflat : [utf8 method, [10], utf8Chars path, [10], Api.hex (sha256 body)].flatten =
      utf8 method ++ [10] ++ utf8Chars path ++ [10] ++ Api.hex (sha256 body) := by
    simp only [List.flatten_cons, List.flatten_nil, List.append_nil, List.append_assoc]
  rw [sign, hfeed, h, hflat, ← hmacSha256_eq]
  rfl

/-- A body that is not too large is let through exactly with its signature. -/
theorem verify_eq_ok_iff {key : Bytes} {method : String} {path : List Char} {body : Bytes}
    (hbody : body.length ≤ Api.maxBodyBytes) (header : Option Bytes) :
    hash.verify key method path body header = .ok () ↔
      key = [] ∨ header.getD [] = sign key method path body := by
  rw [Api.Hash.verify, sign_eq]
  by_cases hkey : key = []
  · rw [if_pos hkey]
    exact iff_of_true rfl (.inl hkey)
  · rw [if_neg hkey, if_neg (Nat.not_lt.mpr hbody)]
    by_cases hsame : hash.sign key method path body = header.getD []
    · rw [if_pos (Api.constantTimeEq_iff.mpr hsame)]
      exact iff_of_true rfl (.inr hsame.symm)
    · rw [if_neg fun h => hsame (Api.constantTimeEq_iff.mp h)]
      exact iff_of_false (by simp) (not_or.mpr ⟨hkey, fun h => hsame h.symm⟩)

/-- **The streams are what is defined**, however the message is cut and whatever the block is filled
to; so what is signed is let through, up to the largest body. -/
theorem streams_as_defined :
    (∀ chunks : List Bytes,
      (chunks.foldl Sha256.update .new).finish = Sha2.sha256 chunks.flatten) ∧
    (∀ h : Sha256, ∃ n < 64, h.padZeros = (fun h => h.update [0])^[n] h ∧
      h.padZeros.filled = 56) ∧
    (∀ key data, hmacSha256 key data = hmac Sha2.sha256 64 key data) ∧
    ∀ key method path body, body.length ≤ Api.maxBodyBytes → ∀ header,
      (hash.verify key method path body header = .ok () ↔
        key = [] ∨ header.getD [] = sign key method path body) :=
  ⟨finish_foldl, padZeros_ends, hmacSha256_eq, fun _ _ _ _ hbody => verify_eq_ok_iff hbody⟩

theorem streams_as_defined_sample : hash.verify [1] "POST" ['/'] [2]
    (some (sign [1] "POST" ['/'] [2])) = .ok () :=
  (streams_as_defined.2.2.2 [1] "POST" ['/'] [2] (by decide) _).mpr (.inr rfl)

/-- A larger body is turned down, signed or not. -/
theorem refuses_large_body : ¬ ∀ key method path body,
    hash.verify key method path body (some (sign key method path body)) = .ok () := by
  intro h
  have hlarge : Api.maxBodyBytes < (List.replicate (Api.maxBodyBytes + 1) (0 : UInt8)).length := by
    rw [List.length_replicate]
    exact Nat.lt_succ_self _
  have hrefused := h [1] "POST" ['/'] (List.replicate (Api.maxBodyBytes + 1) 0)
  rw [Api.Hash.verify, if_neg (List.cons_ne_nil _ _), if_pos hlarge] at hrefused
  cases hrefused

end Hop.Auth
