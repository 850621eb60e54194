import Hop.Dns.Wire

/-!
# Reading a compressed name

`read_name` of `apps/hopdns/src/wire.rs`. A reference points back, but the labels behind its target
lead forward again, so the same reference can come up many times. What ends the loop is the name: it
grows between two visits, and it must not grow beyond `nameMax` (`Reading.work`).
-/

namespace Hop.Dns

/-- Why a name was not read. -/
inductive ReadError
  | malformed
  | outOfMemory
deriving DecidableEq

/-- Where the reader is, what it has, and where the name ends on the spot, if it has seen that. -/
structure Reading where
  pos : ℕ
  name : List Char := []
  ending : Option ℕ := none
  /-- How many allocations there were. -/
  allocs : ℕ := 0

/-- `msg.get(start..start + n)`. -/
def label (msg : Bytes) (start n : ℕ) : Option Bytes :=
  if start + n ≤ msg.length then some ((msg.drop start).take n) else none

/-- `char::from(b)`. -/
def charFrom (b : UInt8) : Char := Char.ofNat b.toNat

namespace Reading

/-- How many bytes the name has. -/
def len (r : Reading) : ℕ := (utf8Chars r.name).length

/-- One turn of the loop: the result, or the next state. `room` says which allocations succeed. -/
def step (msg : Bytes) (room : ℕ → Bool) (r : Reading) :
    Except ReadError (String × ℕ) ⊕ Reading :=
  match msg[r.pos]? with
  | none => .inl (.error .malformed)
  | some b =>
    if b.toNat = 0 then
      if r.name = [] then
        if room r.allocs then .inl (.ok (".", r.ending.getD (r.pos + 1)))
        else .inl (.error .outOfMemory)
      else .inl (.ok (String.ofList r.name, r.ending.getD (r.pos + 1)))
    else if b.toNat ≤ labelMax then
      match label msg (r.pos + 1) b.toNat with
      | none => .inl (.error .malformed)
      | some l =>
        if room r.allocs then
          let name := r.name ++ (l.map charFrom ++ ['.'])
          if nameMax < (utf8Chars name).length then .inl (.error .malformed)
          else .inr ⟨r.pos + 1 + b.toNat, name, r.ending, r.allocs + 1⟩
        else .inl (.error .outOfMemory)
    else if 0xC0 ≤ b.toNat then
      match be16 msg r.pos with
      | none => .inl (.error .malformed)
      | some v =>
        if r.pos ≤ v &&& 0x3FFF then .inl (.error .malformed)
        else .inr { r with pos := v &&& 0x3FFF, ending := some (r.ending.getD (r.pos + 2)) }
    else .inl (.error .malformed)

/-- At most so many turns of the loop. -/
def loop (msg : Bytes) (room : ℕ → Bool) : ℕ → Reading → Option (Except ReadError (String × ℕ))
  | 0, _ => none
  | n + 1, r =>
    match r.step msg room with
    | .inl out => some out
    | .inr r' => loop msg room n r'

/-- How many turns there can still be: few when the name is long, and then when the place is at the
front. -/
def work (msg : Bytes) (r : Reading) : ℕ := (nameMax - r.len) * (msg.length + 1) + r.pos + 1

end Reading

/-- `read_name`: the name with references, and where it ends on the spot. -/
def readName (msg : Bytes) (room : ℕ → Bool) (at' : ℕ) : Except ReadError (String × ℕ) :=
  (Reading.loop msg room (Reading.work msg ⟨at', [], none, 0⟩) ⟨at', [], none, 0⟩).getD
    (.error .malformed)

/-! ### One turn -/

namespace Reading

variable {msg : Bytes} {room : ℕ → Bool} {r r' : Reading} {name : String} {e : ℕ}

theorem be16_eq_some {b : Bytes} {p v : ℕ} (h : be16 b p = some v) : p + 1 < b.length := by
  rw [be16] at h
  obtain ⟨hi, -, h⟩ := Option.bind_eq_some_iff.mp h
  obtain ⟨lo, hlo, -⟩ := Option.bind_eq_some_iff.mp h
  exact (List.getElem?_eq_some_iff.mp hlo).1

/-- What a turn does that goes on: a label, or a reference. -/
theorem step_cases (h : r.step msg room = .inr r') :
    (∃ b l, msg[r.pos]? = some b ∧ 0 < b.toNat ∧ b.toNat ≤ labelMax ∧
      r.pos + 1 + b.toNat ≤ msg.length ∧
      r' = ⟨r.pos + 1 + b.toNat, r.name ++ (l ++ ['.']), r.ending, r.allocs + 1⟩ ∧
      r'.len ≤ nameMax) ∨
    ∃ b v, msg[r.pos]? = some b ∧ labelMax < b.toNat ∧ 0xC0 ≤ b.toNat ∧ r.pos + 1 < msg.length ∧
      v < r.pos ∧ r' = { r with pos := v, ending := some (r.ending.getD (r.pos + 2)) } := by
  rcases hb : msg[r.pos]? with - | b
  · rw [step, hb] at h
    cases h
  · rw [step, hb] at h
    dsimp only at h
    by_cases hzero : b.toNat = 0
    · rw [if_pos hzero] at h
      split_ifs at h
    · rw [if_neg hzero] at h
      by_cases hlabel : b.toNat ≤ labelMax
      · rw [if_pos hlabel] at h
        rcases hl : label msg (r.pos + 1) b.toNat with - | l
        · rw [hl] at h
          cases h
        · rw [hl] at h
          dsimp only at h
          split_ifs at h with hroom hlong
          cases h
          rw [label] at hl
          split_ifs at hl with hin
          exact .inl ⟨b, l.map charFrom, rfl, Nat.pos_of_ne_zero hzero, hlabel, hin, rfl,
            Nat.not_lt.mp hlong⟩
      · rw [if_neg hlabel] at h
        by_cases href : 0xC0 ≤ b.toNat
        · rw [if_pos href] at h
          rcases hv : be16 msg r.pos with - | v
          · rw [hv] at h
            cases h
          · rw [hv] at h
            dsimp only at h
            split_ifs at h with hback
            cases h
            exact .inr ⟨b, _, rfl, Nat.not_le.mp hlabel, href, be16_eq_some hv,
              Nat.not_le.mp hback, rfl⟩
        · rw [if_neg href] at h
          cases h

/-- What a turn gives that is the last one. -/
theorem step_ok (h : r.step msg room = .inl (.ok (name, e))) :
    msg[r.pos]? = some 0 ∧ e = r.ending.getD (r.pos + 1) ∧
      (r.name = [] ∧ name = "." ∨ r.name ≠ [] ∧ name = String.ofList r.name) := by
  rcases hb : msg[r.pos]? with - | b
  · rw [step, hb] at h
    cases h
  · rw [step, hb] at h
    dsimp only at h
    by_cases hzero : b.toNat = 0
    · rw [if_pos hzero] at h
      have hb0 : b = 0 := UInt8.toNat_inj.mp hzero
      split_ifs at h with hempty hroom
      · cases h
        exact ⟨congrArg some hb0, rfl, .inl ⟨hempty, rfl⟩⟩
      · cases h
      · cases h
        exact ⟨congrArg some hb0, rfl, .inr ⟨hempty, rfl⟩⟩
    · -- the other turns go on, or fail
      rw [if_neg hzero] at h
      split_ifs at h
      all_goals try split at h
      all_goals first | cases h | (split_ifs at h; cases h)

/-! ### The loop ends -/

/-- **Every turn** leaves less to do: the name grows, or the place is further to the front. -/
theorem work_lt (h : r.step msg room = .inr r') : r'.work msg < r.work msg := by
  rcases step_cases h with ⟨b, l, -, hpos, -, hin, rfl, hlen⟩ | ⟨b, v, -, -, -, -, hback, rfl⟩
  · have hgrows : r.len + 1 ≤ (utf8Chars (r.name ++ (l ++ ['.']))).length := by
      rw [utf8Chars_append, utf8Chars_append, List.length_append, List.length_append]
      exact Nat.add_le_add_left (Nat.le_add_left _ _) _
    change (utf8Chars (r.name ++ (l ++ ['.']))).length ≤ nameMax at hlen
    rw [work, work]
    change (nameMax - (utf8Chars (r.name ++ (l ++ ['.']))).length) * (msg.length + 1) +
      (r.pos + 1 + b.toNat) + 1 < _
    generalize (utf8Chars (r.name ++ (l ++ ['.']))).length = n at hgrows hlen
    have hmul : (nameMax - n + 1) * (msg.length + 1) ≤ (nameMax - r.len) * (msg.length + 1) :=
      Nat.mul_le_mul_right _ (by omega)
    rw [Nat.succ_mul] at hmul
    omega
  · rw [work, work]
    exact Nat.succ_lt_succ (Nat.add_lt_add_left hback _)

theorem loop_of_work_le (room : ℕ → Bool) {n : ℕ} (h : r.work msg ≤ n) : ∃ out, ∀ m, n ≤ m →
    loop msg room m r = some out := by
  induction n generalizing r with
  | zero => exact absurd h (Nat.not_succ_le_zero _)
  | succ n ih =>
    rcases hstep : r.step msg room with out | r'
    · refine ⟨out, fun m hm => ?_⟩
      obtain ⟨k, rfl⟩ := Nat.exists_eq_add_of_le' hm
      rw [← Nat.add_assoc, loop, hstep]
    · obtain ⟨out, hout⟩ := ih (Nat.le_of_lt_succ ((work_lt hstep).trans_le h))
      refine ⟨out, fun m hm => ?_⟩
      obtain ⟨k, rfl⟩ := Nat.exists_eq_add_of_le' hm
      rw [← Nat.add_assoc, loop, hstep]
      exact hout _ (Nat.le_add_left _ _)

/-! ### What is read -/

theorem nameLen_label {bs : Bytes} {k : ℕ} (h : k ≤ bs.length) :
    nameLen bs k = (nameLen (bs.drop k) 0).map (· + k) := by
  induction k generalizing bs with
  | zero => exact Option.map_id'.symm
  | succ k ih =>
    rcases bs with - | ⟨b, bs⟩
    · exact absurd h (Nat.not_succ_le_zero _)
    · rw [nameLen, ih (Nat.le_of_succ_le_succ h), Option.map_map]
      rfl

/-- What a name says at its first byte about its end. -/
theorem skipName_cons {p : ℕ} {b : UInt8} (h : msg[p]? = some b) :
    skipName msg p = (nameLen (b :: msg.drop (p + 1)) 0).map (p + ·) := by
  obtain ⟨hp, rfl⟩ := List.getElem?_eq_some_iff.mp h
  rw [skipName, List.drop_eq_getElem_cons hp]

theorem skipName_zero {p : ℕ} (h : msg[p]? = some 0) : skipName msg p = some (p + 1) := by
  rw [skipName_cons h, nameLen, if_pos rfl]
  rfl

theorem skipName_label {p : ℕ} {b : UInt8} (h : msg[p]? = some b) (hpos : 0 < b.toNat)
    (hle : b.toNat ≤ labelMax) (hin : p + 1 + b.toNat ≤ msg.length) :
    skipName msg p = skipName msg (p + 1 + b.toNat) := by
  have hne : b ≠ 0 := by
    rintro rfl
    exact absurd hpos (Nat.lt_irrefl 0)
  have hlen : b.toNat ≤ (msg.drop (p + 1)).length := by
    rw [List.length_drop]
    omega
  rw [skipName_cons h, nameLen, if_neg hne, if_pos hle, nameLen_label hlen, List.drop_drop, skipName,
    Option.map_map, Option.map_map]
  congr 1
  funext n
  simp only [Function.comp_apply]
  omega

theorem skipName_ref {p : ℕ} {b : UInt8} (h : msg[p]? = some b) (hlt : labelMax < b.toNat)
    (href : 0xC0 ≤ b.toNat) (hin : p + 1 < msg.length) : skipName msg p = some (p + 2) := by
  have hne : b ≠ 0 := by
    rintro rfl
    exact absurd hlt (Nat.not_lt_zero _)
  have hrest : msg.drop (p + 1) ≠ [] := by
    intro hnil
    rw [List.drop_eq_nil_iff] at hnil
    omega
  rw [skipName_cons h, nameLen, if_neg hne, if_neg (Nat.not_le.mpr hlt), if_pos href, if_neg hrest]
  rfl

/-- The reader began at `start`: it still is in the name there, or it has seen its end, and it has
whole labels. -/
structure From (msg : Bytes) (start : ℕ) (r : Reading) : Prop where
  ending : skipName msg start = r.ending.or (skipName msg r.pos)
  dotted : r.name = [] ∨ ∃ cs, r.name = cs ++ ['.']
  short : r.len ≤ nameMax

variable {start : ℕ}

theorem From.step (h : From msg start r) (hstep : r.step msg room = .inr r') :
    From msg start r' := by
  rcases step_cases hstep with ⟨b, l, hb, hpos, hle, hin, rfl, hlen⟩ |
    ⟨b, v, hb, hlt, href, hin, -, rfl⟩
  · refine ⟨?_, .inr ⟨r.name ++ l, (List.append_assoc _ _ _).symm⟩, hlen⟩
    rw [h.ending, skipName_label hb hpos hle hin]
  · refine ⟨?_, h.dotted, h.short⟩
    rw [h.ending, skipName_ref hb hlt href hin]
    rcases r.ending with - | e
    · rfl
    · rfl

/-- **What the loop gives.** -/
theorem From.loop (h : From msg start r) {n : ℕ}
    (hout : loop msg room n r = some (.ok (name, e))) :
    skipName msg start = some e ∧ (utf8 name).length ≤ nameMax ∧ ∃ cs, name.toList = cs ++ ['.'] := by
  induction n generalizing r with
  | zero => cases hout
  | succ n ih =>
    rw [Reading.loop] at hout
    rcases hstep : r.step msg room with out | r'
    · rw [hstep] at hout
      obtain rfl := Option.some.inj hout
      obtain ⟨hzero, rfl, hname⟩ := step_ok hstep
      refine ⟨?_, ?_⟩
      · rw [h.ending, skipName_zero hzero]
        rcases r.ending with - | e
        · rfl
        · rfl
      · rcases hname with ⟨-, rfl⟩ | ⟨hne, rfl⟩
        · exact ⟨by decide, [], rfl⟩
        · refine ⟨?_, ?_⟩
          · rw [utf8_ofList]
            exact h.short
          · rw [String.toList_ofList]
            exact h.dotted.resolve_left hne
    · rw [hstep] at hout
      exact ih (h.step hstep) hout

end Reading

/-- **Reading a name ends**, for every message and from every place in it: the loop has a result
after boundedly many turns, which is that of `readName`. A name that is read ends in a dot and has at
most `nameMax` bytes with it, and the place behind it is the one behind its own bytes. -/
theorem readName_ends (msg : Bytes) (room : ℕ → Bool) (start : ℕ) :
    (∀ n, Reading.work msg ⟨start, [], none, 0⟩ ≤ n →
      Reading.loop msg room n ⟨start, [], none, 0⟩ = some (readName msg room start)) ∧
    ∀ name e, readName msg room start = .ok (name, e) →
      (∃ cs, name.toList = cs ++ ['.'] ∧ (utf8Chars cs).length < nameMax) ∧
      skipName msg start = some e := by
  obtain ⟨out, hout⟩ := Reading.loop_of_work_le room
    (le_refl (Reading.work msg ⟨start, [], none, 0⟩))
  have hread : readName msg room start = out := by
    rw [readName, hout _ le_rfl]
    rfl
  refine ⟨fun n hn => hread ▸ hout n hn, fun name e hok => ?_⟩
  have hbegin : Reading.From msg start ⟨start, [], none, 0⟩ := ⟨rfl, .inl rfl, Nat.zero_le _⟩
  obtain ⟨hend, hlen, cs, hcs⟩ := hbegin.loop ((hout _ le_rfl).trans (congrArg some (hread ▸ hok)))
  refine ⟨⟨cs, hcs, ?_⟩, hend⟩
  rw [utf8, hcs, utf8Chars_append, List.length_append] at hlen
  exact Nat.lt_of_succ_le hlen

/-- A label and a reference: the name goes on at the front, its end is behind the reference. -/
theorem readName_ends_ref :
    Reading.loop [1, 97, 0, 1, 98, 0xC0, 0] (fun _ => true) 4096 ⟨3, [], none, 0⟩ =
      some (.ok ("b.a.", 7)) ∧ skipName [1, 97, 0, 1, 98, 0xC0, 0] 3 = some 7 := by
  obtain ⟨hloop, hok⟩ := readName_ends [1, 97, 0, 1, 98, 0xC0, 0] (fun _ => true) 3
  have hread : readName [1, 97, 0, 1, 98, 0xC0, 0] (fun _ => true) 3 = .ok ("b.a.", 7) := by
    decide
  exact ⟨(hloop 4096 (by decide)).trans (congrArg some hread), (hok _ _ hread).2⟩

end Hop.Dns
