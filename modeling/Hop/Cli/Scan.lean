import Hop.Lib.Text

/-!
# The search through a medium

`cli/src/image.rs`, `Medium` and `scan`: a file or a device is searched in blocks that overlap by
4 KiB, so that what begins in a block can be looked at whole. A hit is reported by the block it
begins in, and the search ends behind the first block that is not full.

A block that is not full can be longer than the part of it whose hits it reports. What begins behind
that part is not reported by any block (`scan_eq`, `scan_exact_iff`).
-/

namespace Hop.Cli.Image

/-! ### Media -/

/-- What is on a medium. -/
abbrev Medium : Type := Bytes

/-- `Medium::read_at`: less than `n` bytes only at the end. -/
def readAt (m : Medium) (off n : ℕ) : Bytes := (m.drop off).take n

/-- The bytes with others in the place of some of them. -/
def overwrite (m : Medium) (off : ℕ) (data : Bytes) : Medium :=
  m.take off ++ data ++ m.drop (off + data.length)

/-- `Medium::write_at`. -/
def writeAt (m : Medium) (off : ℕ) (data : Bytes) : Except String Medium :=
  if m.length < off + data.length then .error "write past the end" else .ok (overwrite m off data)

/-! ### The search -/

/-- How deep the search goes. -/
def scanLimit : ℕ := 256 * 2 ^ 20

/-- A block of the search. -/
def chunk : ℕ := 4 * 2 ^ 20

/-- What is read behind a block. -/
def overlap : ℕ := 4096

/-- `windows(needle.len()).position(…)`, of a needle that is not empty. -/
def position (needle b : Bytes) : Option ℕ :=
  (List.range (b.length + 1 - needle.length)).find? fun k => (b.drop k).take needle.length = needle

section

variable (needle : Bytes) (ok : Bytes → Bool)

/-- The hits that begin in a block, from `i` on; none: there are no windows of no bytes. -/
def blockHits (off : ℕ) (buf : Bytes) (i : ℕ) : Option (List ℕ) :=
  if i < min chunk buf.length then
    if needle = [] then none
    else
      match position needle (buf.drop i) with
      | none => some []
      | some k =>
        if chunk ≤ i + k then some []
        else do
          let rest ← blockHits off buf (i + k + 1)
          some (if ok (buf.drop (i + k)) then (off + (i + k)) :: rest else rest)
  else some []
termination_by buf.length - i
decreasing_by omega

/-- The search from a block on. -/
def scanFrom (m : Medium) (off : ℕ) : Option (List ℕ) :=
  if off < scanLimit then do
    let buf := readAt m off (chunk + overlap)
    let hits ← blockHits needle ok off buf 0
    if buf.length < chunk + overlap then some hits
    else
      let rest ← scanFrom m (off + chunk)
      some (hits ++ rest)
  else some []
termination_by scanLimit - off
decreasing_by
  have hpos : 0 < chunk := by decide
  omega

/-- `scan`; none: it panics. -/
def scan (m : Medium) : Option (List ℕ) := scanFrom needle ok m 0

end

/-! ### What there is to be found -/

/-- A place where the needle begins that is accepted. -/
def accepted (needle : Bytes) (ok : Bytes → Bool) (m : Medium) (p : ℕ) : Bool :=
  needle.isPrefixOf (m.drop p) && ok (m.drop p)

/-- Where the hits are that are reported: behind the last block that is read, there is a rest. -/
def reached (m : Medium) : ℕ := min (chunk * ((m.length - overlap) / chunk + 1)) scanLimit

/-- The hits below a bound, in their order. -/
def hits (needle : Bytes) (ok : Bytes → Bool) (m : Medium) (bound : ℕ) : List ℕ :=
  (List.range (min bound m.length)).filter (accepted needle ok m)

/-- It depends on no more than `n` bytes. -/
def LooksAt (n : ℕ) (ok : Bytes → Bool) : Prop := ∀ b, ok (b.take n) = ok b

section

variable {needle : Bytes} {ok : Bytes → Bool}

theorem position_eq_none {b : Bytes} (hneedle : needle ≠ []) (h : position needle b = none) (k : ℕ) :
    needle.isPrefixOf (b.drop k) = false := by
  have hpos := List.length_pos_iff.mpr hneedle
  by_contra hk
  rw [Bool.not_eq_false, List.isPrefixOf_iff_prefix] at hk
  have hlen := hk.length_le
  rw [List.length_drop] at hlen
  have hall := List.find?_eq_none.mp h k (List.mem_range.mpr (by omega))
  exact hall (decide_eq_true (List.prefix_iff_eq_take.mp hk).symm)

theorem position_eq_some {b : Bytes} {k : ℕ} (hneedle : needle ≠ []) (h : position needle b = some k) :
    needle.isPrefixOf (b.drop k) = true ∧ ∀ j < k, needle.isPrefixOf (b.drop j) = false := by
  have hpos := List.length_pos_iff.mpr hneedle
  obtain ⟨hsame, -, hbefore⟩ := List.find?_range_eq_some.mp h
  refine ⟨?_, fun j hj => ?_⟩
  · rw [List.isPrefixOf_iff_prefix, ← of_decide_eq_true hsame]
    exact List.take_prefix _ _
  · by_contra hprefix
    rw [Bool.not_eq_false, List.isPrefixOf_iff_prefix] at hprefix
    have hdiffers := hbefore j hj
    rw [Bool.not_eq_true', decide_eq_false_iff_not] at hdiffers
    exact hdiffers (List.prefix_iff_eq_take.mp hprefix).symm

/-- Nothing begins before the first place where the needle does. -/
theorem filter_accepted_eq {buf : Bytes} {i n k : ℕ} (hk : k < n)
    (hbefore : ∀ j < k, needle.isPrefixOf (buf.drop (i + j)) = false) :
    (List.range' i n).filter (accepted needle ok buf) =
      (if accepted needle ok buf (i + k) then [i + k] else []) ++
        (List.range' (i + k + 1) (n - (k + 1))).filter (accepted needle ok buf) := by
  have hsplit : List.range' i n =
      List.range' i k ++ (i + k) :: List.range' (i + k + 1) (n - (k + 1)) := by
    rw [← List.range'_succ, List.range'_append_1]
    congr 1
    omega
  have hnone : (List.range' i k).filter (accepted needle ok buf) = [] := by
    refine List.filter_eq_nil_iff.mpr fun p hp => ?_
    obtain ⟨hle, hlt⟩ := List.mem_range'_1.mp hp
    have hno := hbefore (p - i) (by omega)
    rw [Nat.add_sub_of_le hle] at hno
    rw [accepted, hno, Bool.false_and]
    exact Bool.false_ne_true
  rw [hsplit, List.filter_append, hnone, List.nil_append, List.filter_cons]
  split_ifs <;> rfl

/-- **The hits of a block** are those that begin in it. -/
theorem blockHits_eq (hneedle : needle ≠ []) (off : ℕ) (buf : Bytes) (i : ℕ) :
    blockHits needle ok off buf i =
      some (((List.range' i (min chunk buf.length - i)).filter (accepted needle ok buf)).map
        (off + ·)) := by
  induction hn : buf.length - i using Nat.strongRecOn generalizing i with
  | ind n ih =>
    subst hn
    rw [blockHits]
    by_cases hi : i < min chunk buf.length
    · rw [if_pos hi, if_neg hneedle]
      rcases hposition : position needle (buf.drop i) with - | k
      · -- The needle does not begin behind `i`.
        have hnone : (List.range' i (min chunk buf.length - i)).filter (accepted needle ok buf) =
            [] := by
          refine List.filter_eq_nil_iff.mpr fun p hp => ?_
          obtain ⟨hle, -⟩ := List.mem_range'_1.mp hp
          have hno := position_eq_none hneedle hposition (p - i)
          rw [List.drop_drop, Nat.add_sub_of_le hle] at hno
          rw [accepted, hno, Bool.false_and]
          exact Bool.false_ne_true
        rw [hnone]
        rfl
      · obtain ⟨hfound, hbefore⟩ := position_eq_some hneedle hposition
        simp only [List.drop_drop] at hfound hbefore
        have hlen := (List.isPrefixOf_iff_prefix.mp hfound).length_le
        rw [List.length_drop] at hlen
        have hpos := List.length_pos_iff.mpr hneedle
        by_cases hk : chunk ≤ i + k
        · -- It begins in the rest.
          have hnone : (List.range' i (min chunk buf.length - i)).filter
              (accepted needle ok buf) = [] := by
            refine List.filter_eq_nil_iff.mpr fun p hp => ?_
            obtain ⟨hle, hlt⟩ := List.mem_range'_1.mp hp
            have hno := hbefore (p - i) (by omega)
            rw [Nat.add_sub_of_le hle] at hno
            rw [accepted, hno, Bool.false_and]
            exact Bool.false_ne_true
          rw [hnone]
          dsimp only
          rw [if_pos hk]
          rfl
        · have hrest := ih (buf.length - (i + k + 1)) (by omega) (i + k + 1) rfl
          have hcount : min chunk buf.length - (i + k + 1) =
              min chunk buf.length - i - (k + 1) := by omega
          rw [filter_accepted_eq (k := k) (by omega) hbefore, ← hcount]
          dsimp only
          rw [if_neg hk, hrest, accepted, hfound, Bool.true_and]
          dsimp only [Option.bind_eq_bind, Option.bind_some]
          split_ifs <;> rfl
    · rw [if_neg hi, Nat.sub_eq_zero_of_le (Nat.not_lt.mp hi)]
      rfl

/-- In a block there is enough behind a hit to look at it. -/
theorem accepted_block (hlen : needle.length ≤ overlap) (hok : LooksAt overlap ok) (m : Medium)
    (off : ℕ) {p : ℕ} (hp : p < chunk) :
    accepted needle ok (readAt m off (chunk + overlap)) p = accepted needle ok m (off + p) := by
  have hdrop : (readAt m off (chunk + overlap)).drop p =
      (m.drop (off + p)).take (chunk + overlap - p) := by
    rw [readAt, List.drop_take, List.drop_drop]
  have hroom : overlap ≤ chunk + overlap - p := by omega
  have hneedle : needle.isPrefixOf ((m.drop (off + p)).take (chunk + overlap - p)) =
      needle.isPrefixOf (m.drop (off + p)) := by
    rw [Bool.eq_iff_iff, List.isPrefixOf_iff_prefix, List.isPrefixOf_iff_prefix,
      List.prefix_take_iff]
    exact and_iff_left (hlen.trans hroom)
  have hsame : ok ((m.drop (off + p)).take (chunk + overlap - p)) = ok (m.drop (off + p)) := by
    rw [← hok, List.take_take, min_eq_left hroom, hok]
  rw [accepted, accepted, hdrop, hneedle, hsame]

theorem map_filter_block (hlen : needle.length ≤ overlap) (hok : LooksAt overlap ok) (m : Medium)
    (off : ℕ) {n : ℕ} (hn : n ≤ chunk) :
    ((List.range' 0 n).filter (accepted needle ok (readAt m off (chunk + overlap)))).map (off + ·) =
      (List.range' off n).filter (accepted needle ok m) := by
  have hsame : (List.range' 0 n).filter (accepted needle ok (readAt m off (chunk + overlap))) =
      (List.range' 0 n).filter (accepted needle ok m ∘ (off + ·)) := by
    refine List.filter_congr fun p hp => ?_
    have hlt := (List.mem_range'_1.mp hp).2
    exact accepted_block hlen hok m off (by omega)
  rw [hsame, ← List.filter_map, List.map_add_range', Nat.add_zero]

/-- What is reported of a block that is not full. -/
theorem min_last {c v l k : ℕ} (h : min (c + v) (l - k) < c + v) :
    min c (min (c + v) (l - k)) = min (k + c) l - k := by
  omega

theorem add_min {c k l r : ℕ} (hr : k + c ≤ r) (hl : k + c ≤ l) :
    c + (min r l - (k + c)) = min r l - k := by
  omega

theorem scanLimit_eq : scanLimit = chunk * 64 := by decide

/-- The search from a block that is read. -/
theorem scanFrom_eq (hneedle : needle ≠ []) (hlen : needle.length ≤ overlap)
    (hok : LooksAt overlap ok) (m : Medium) (j : ℕ) (hj : j ≤ (m.length - overlap) / chunk) :
    scanFrom needle ok m (chunk * j) =
      some ((List.range' (chunk * j) (min (reached m) m.length - chunk * j)).filter
        (accepted needle ok m)) := by
  have hpos : 0 < chunk := by decide
  induction hn : 64 - j generalizing j with
  | zero =>
    -- The limit is reached.
    have hoff : scanLimit ≤ chunk * j := by
      rw [scanLimit_eq]
      exact Nat.mul_le_mul_left _ (by omega)
    have hreached : reached m ≤ scanLimit := min_le_right _ _
    rw [scanFrom, if_neg (Nat.not_lt.mpr hoff), Nat.sub_eq_zero_of_le (by omega)]
    rfl
  | succ n ih =>
    have hoff : chunk * j < scanLimit := by
      rw [scanLimit_eq]
      exact Nat.mul_lt_mul_of_pos_left (by omega) hpos
    have hbuf : (readAt m (chunk * j) (chunk + overlap)).length =
        min (chunk + overlap) (m.length - chunk * j) := by
      rw [readAt, List.length_take, List.length_drop]
    have hnext : chunk * (j + 1) = chunk * j + chunk := Nat.mul_succ _ _
    rw [scanFrom, if_pos hoff]
    dsimp only [Option.bind_eq_bind]
    rw [blockHits_eq hneedle, Nat.sub_zero, map_filter_block hlen hok m _ (min_le_left _ _), hbuf]
    dsimp only [Option.bind_some]
    by_cases hlast : min (chunk + overlap) (m.length - chunk * j) < chunk + overlap
    · -- The last block: its rest is read, but not reported.
      have hstop : (m.length - overlap) / chunk = j := by
        refine le_antisymm (Nat.le_of_lt_succ ?_) hj
        rw [Nat.div_lt_iff_lt_mul hpos, Nat.mul_comm, Nat.succ_eq_add_one, hnext]
        have hov : 0 < overlap := by decide
        omega
      have hreached : reached m = chunk * j + chunk := by
        rw [reached, hstop, hnext, min_eq_left]
        rw [← hnext, scanLimit_eq]
        exact Nat.mul_le_mul_left _ (by omega)
      have hcount : min chunk (min (chunk + overlap) (m.length - chunk * j)) =
          min (chunk * j + chunk) m.length - chunk * j := min_last hlast
      rw [if_pos hlast, hreached, hcount]
    · have hfull : chunk + overlap ≤ m.length - chunk * j := by omega
      have hj' : j + 1 ≤ (m.length - overlap) / chunk := by
        rw [Nat.le_div_iff_mul_le hpos, Nat.mul_comm, hnext]
        omega
      have hreached : chunk * j + chunk ≤ reached m := by
        rw [reached, ← hnext]
        refine le_min (Nat.mul_le_mul_left _ (by omega)) ?_
        rw [scanLimit_eq]
        exact Nat.mul_le_mul_left _ (by omega)
      rw [if_neg hlast, ← hnext, ih (j + 1) hj' (by omega)]
      dsimp only [Option.bind_some]
      have hcount : min chunk (min (chunk + overlap) (m.length - chunk * j)) = chunk := by omega
      have hrest : chunk + (min (reached m) m.length - (chunk * j + chunk)) =
          min (reached m) m.length - chunk * j := add_min hreached (by omega)
      rw [hcount, ← List.filter_append, hnext, List.range'_append_1, hrest]

/-- **What a search finds**: every hit before the rest of the last block, and nothing else. -/
theorem scan_eq (hneedle : needle ≠ []) (hlen : needle.length ≤ overlap) (hok : LooksAt overlap ok)
    (m : Medium) : scan needle ok m = some (hits needle ok m (reached m)) := by
  have hscan := scanFrom_eq hneedle hlen hok m 0 (Nat.zero_le _)
  rw [scan, hits, List.range_eq_range']
  rw [Nat.mul_zero, Nat.sub_zero] at hscan
  exact hscan

/-- Without a needle, there is a panic, but in nothing. -/
theorem scan_nil (ok : Bytes → Bool) (m : Medium) :
    scan [] ok m = if m = [] then some [] else none := by
  have hlimit : 0 < scanLimit := by decide
  have hchunk : 0 < chunk := by decide
  rw [scan, scanFrom, if_pos hlimit]
  dsimp only [Option.bind_eq_bind]
  have hbuf : (readAt m 0 (chunk + overlap)).length = min (chunk + overlap) m.length := by
    rw [readAt, List.length_take, List.drop_zero]
  by_cases hm : m = []
  · have hnone : ¬ 0 < min chunk (readAt m 0 (chunk + overlap)).length := by
      rw [hbuf, hm, List.length_nil]
      omega
    have hlast : (readAt m 0 (chunk + overlap)).length < chunk + overlap := by
      rw [hbuf, hm, List.length_nil]
      omega
    rw [blockHits, if_neg hnone, Option.bind_some, if_pos hlast, if_pos hm]
  · have hpos := List.length_pos_iff.mpr hm
    have hsome : 0 < min chunk (readAt m 0 (chunk + overlap)).length := by
      rw [hbuf]
      omega
    rw [blockHits, if_pos hsome, if_pos rfl, if_neg hm]
    rfl

theorem reached_le (m : Medium) : reached m ≤ scanLimit := min_le_right _ _

/-- The hits below a bound are all there are if none is behind it. -/
theorem hits_eq_iff (m : Medium) {n n' : ℕ} (hn : n ≤ n') :
    hits needle ok m n = hits needle ok m n' ↔
      ∀ p, n ≤ p → p < min n' m.length → accepted needle ok m p = false := by
  have hsplit : List.range (min n' m.length) = List.range (min n m.length) ++
      List.range' (min n m.length) (min n' m.length - min n m.length) := by
    have happend : List.range' 0 (min n m.length) ++
        List.range' (0 + min n m.length) (min n' m.length - min n m.length) =
          List.range' 0 (min n m.length + (min n' m.length - min n m.length)) :=
      List.range'_append_1
    rw [Nat.zero_add, Nat.add_sub_of_le (min_le_min_right _ hn)] at happend
    rw [List.range_eq_range', List.range_eq_range', happend]
  rw [hits, hits, hsplit, List.filter_append, List.self_eq_append_right, List.filter_eq_nil_iff]
  constructor
  · intro h p hle hlt
    exact Bool.not_eq_true _ ▸ h p (List.mem_range'_1.mpr ⟨by omega, by omega⟩)
  · intro h p hp
    obtain ⟨hle, hlt⟩ := List.mem_range'_1.mp hp
    rw [h p (by omega) (by omega)]
    exact Bool.false_ne_true

/-- **The search is exact** if and only if nothing begins in the rest of the last block. -/
theorem scan_eq_hits_iff (hlen : needle.length ≤ overlap) (hok : LooksAt overlap ok) (m : Medium) :
    scan needle ok m = some (hits needle ok m scanLimit) ↔
      (needle = [] → m = []) ∧ ∀ p, reached m ≤ p → p < min scanLimit m.length →
        accepted needle ok m p = false := by
  by_cases hneedle : needle = []
  · subst hneedle
    rw [scan_nil]
    by_cases hm : m = []
    · subst hm
      rw [if_pos rfl]
      exact iff_of_true rfl ⟨fun _ => rfl, fun p _ hp => absurd hp (Nat.not_lt_zero p)⟩
    · rw [if_neg hm]
      exact iff_of_false nofun fun h => hm (h.1 rfl)
  · rw [scan_eq hneedle hlen hok, Option.some_inj, hits_eq_iff m (reached_le m)]
    exact (and_iff_right fun h => absurd h hneedle).symm

end

end Hop.Cli.Image
