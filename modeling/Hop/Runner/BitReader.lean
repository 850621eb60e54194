import Hop.Lib.Reader

/-!
# Bits out of a reader

`runner/src/host/extract/inflate.rs`, `BitReader`: bits with the lowest first, out of a source that
is read in pieces. A bit that was given out is gone (`lowers_takeBits`), which is what lets every loop over
such a reader end.
-/

namespace Hop.Runner.Extract

open Act

/-- The buffer of a bit reader. -/
def inBuf : ℕ := 8 * 2 ^ 10

/-- A broken stream. -/
def corrupt (why : String) : String := why

structure BitReader (σ : Type) where
  src : σ
  /-- What was read and not yet used. -/
  buf : Bytes := []
  bits : ℕ := 0
  nbits : ℕ := 0

namespace BitReader

variable {σ : Type} (R : Reader σ)

/-- How many bits may still come. -/
def left (br : BitReader σ) : ℕ := 8 * (R.rank br.src + br.buf.length) + br.nbits

/-- No more bits can come than before. -/
abbrev Sinks (br br' : BitReader σ) : Prop := left R br' ≤ left R br

instance : Std.Refl (Sinks R) := ⟨fun _ => le_rfl⟩

instance : IsTrans (BitReader σ) (Sinks R) := ⟨fun _ _ _ h h' => h'.trans h⟩

/-- One call of `read` that was not interrupted. -/
def refillTurn (_ : Unit) : Act σ String (Turn Unit Bytes) := do
  match ← R.poll inBuf with
  | none => pure (.more ())
  | some b => pure (.done b)

theorem refillTurn_descends : Descends (fun _ s => R.rank s) (refillTurn R) := by
  intro _ s _ s' h
  obtain ⟨o, mid, hpoll, h⟩ := Act.bind_eq_ok h
  rcases o with - | b
  · cases h
    exact R.rank_poll hpoll nofun
  · cases h

def refill : Act σ String Bytes :=
  loop (fun _ s => R.rank s) (refillTurn R) (refillTurn_descends R) ()

/-- The next byte of the source; none at its end. -/
def nextByte : Act (BitReader σ) String (Option UInt8) := fun br =>
  match br.buf with
  | b :: rest => .ok (some b) { br with buf := rest }
  | [] =>
    match refill R br.src with
    | .ok (b :: rest) s => .ok (some b) { br with src := s, buf := rest }
    | .ok [] s => .ok none { br with src := s }
    | .error e s => .error e { br with src := s }

/-- One more byte of bits, if there are less than `n`. -/
def fillTurn (n : ℕ) (_ : Unit) : Act (BitReader σ) String (Turn Unit Unit) := do
  let br ← get
  if n ≤ br.nbits then pure (.done ())
  else
    match ← nextByte R with
    | none => throw (corrupt "unexpected end of stream")
    | some b => do
      modify fun br =>
        { br with bits := br.bits ||| b.toNat <<< br.nbits, nbits := br.nbits + 8 }
      pure (.more ())

/-! ### Every byte is used once -/

theorem refill_spec {s s' : σ} {b : Bytes} (h : refill R s = .ok b s') :
    b.length + R.rank s' ≤ R.rank s := by
  refine loop_induction (h := refillTurn_descends R)
    (P := fun _ s x => ∀ b s', x = .ok b s' → b.length + R.rank s' ≤ R.rank s)
    ?_ ?_ ?_ () s b s' h
  · intro _ s _ s' hturn ih b s'' hx
    exact (ih b s'' hx).trans (refillTurn_descends R _ _ _ _ hturn).le
  · intro _ s b s' hturn c s'' hx
    cases hx
    obtain ⟨o, mid, hpoll, hturn⟩ := Act.bind_eq_ok hturn
    rcases o with - | c
    · cases hturn
    · cases hturn
      exact R.rank_data (R.poll_eq_some hpoll)
  · intro _ s e s' _ b s'' hx
    cases hx

theorem keeps_refill {q : σ → σ → Prop} [Std.Refl q] [IsTrans σ q]
    (hpoll : ∀ n, Keeps q (R.poll n)) : Keeps q (refill R) := by
  refine Keeps.loop (fun _ => (hpoll inBuf).andThen fun o => ?_) ()
  rcases o with - | b
  · exact keeps_pure _
  · exact keeps_pure _

/-- A byte is taken from the source, and given out. -/
theorem left_nextByte {br br' : BitReader σ} {b : UInt8} (h : nextByte R br = .ok (some b) br') :
    left R br' + 8 ≤ left R br ∧ br'.bits = br.bits ∧ br'.nbits = br.nbits := by
  rw [nextByte] at h
  rcases hbuf : br.buf with - | ⟨c, rest⟩
  · rw [hbuf] at h
    dsimp only at h
    rcases hr : refill R br.src with ⟨- | ⟨c, rest⟩, s⟩ | ⟨e, s⟩
    · rw [hr] at h
      cases h
    · rw [hr] at h
      cases h
      have hrank := refill_spec R hr
      rw [List.length_cons] at hrank
      refine ⟨?_, rfl, rfl⟩
      simp only [left, hbuf, List.length_nil]
      omega
    · rw [hr] at h
      cases h
  · rw [hbuf] at h
    cases h
    refine ⟨?_, rfl, rfl⟩
    simp only [left, hbuf, List.length_cons]
    omega

theorem keeps_nextByte : Keeps (Sinks R) (nextByte R) := by
  intro br
  rw [nextByte]
  rcases hbuf : br.buf with - | ⟨c, rest⟩
  · have hkeep := keeps_refill R (q := R.Sinks) R.keeps_poll br.src
    dsimp only
    rcases hr : refill R br.src with ⟨- | ⟨c, rest⟩, s⟩ | ⟨e, s⟩
    · rw [hr] at hkeep
      have hrank : R.rank s ≤ R.rank br.src := hkeep
      simp only [Sinks, left, hbuf, state_ok, List.length_nil]
      omega
    · have hrank := refill_spec R hr
      rw [List.length_cons] at hrank
      simp only [Sinks, left, hbuf, state_ok, List.length_nil]
      omega
    · rw [hr] at hkeep
      have hrank : R.rank s ≤ R.rank br.src := hkeep
      simp only [Sinks, left, hbuf, state_error, List.length_nil]
      omega
  · simp only [Sinks, left, hbuf, state_ok, List.length_cons]
    omega

theorem fillTurn_spec {n : ℕ} {br br' : BitReader σ} (h : fillTurn R n () br = .ok (.more ()) br') :
    br.nbits < n ∧ br'.nbits = br.nbits + 8 ∧ left R br' ≤ left R br := by
  rw [fillTurn, get_bind] at h
  split_ifs at h with hn
  · cases h
  · obtain ⟨o, mid, hnext, h⟩ := Act.bind_eq_ok h
    rcases o with - | b
    · cases h
    · cases h
      obtain ⟨hleft, -, hnbits⟩ := left_nextByte R hnext
      refine ⟨Nat.not_le.mp hn, by rw [← hnbits], ?_⟩
      refine le_trans ?_ hleft
      simp only [left]
      omega

theorem fillTurn_descends (n : ℕ) : Descends (fun _ br => n - br.nbits) (fillTurn R n) := by
  intro _ br _ br' h
  obtain ⟨hlt, hnbits, -⟩ := fillTurn_spec R h
  change n - br'.nbits < n - br.nbits
  omega

/-- Until there are `n` bits. -/
def fill (n : ℕ) : Act (BitReader σ) String Unit :=
  loop (fun _ br => n - br.nbits) (fillTurn R n) (fillTurn_descends R n) ()

/-- `n` bits, the lowest first. -/
def takeBits (n : ℕ) : Act (BitReader σ) String ℕ := do
  fill R n
  let br ← get
  set { br with bits := br.bits >>> n, nbits := br.nbits - n }
  pure (br.bits % 2 ^ n)

/-- Drop the bits up to the next byte. -/
def align : Act (BitReader σ) String Unit := do
  let br ← get
  let drop := br.nbits % 8
  set { br with bits := br.bits >>> drop, nbits := br.nbits - drop }

/-- Whether the source is at its end, behind `align`. -/
def atEnd : Act (BitReader σ) String Bool := do
  let br ← get
  if 0 < br.nbits then pure false
  else
    match ← nextByte R with
    | none => pure true
    | some b => do
      modify fun br => { br with bits := b.toNat, nbits := 8 }
      pure false

/-! ### No bit comes twice -/

theorem fill_spec {n : ℕ} {br br' : BitReader σ} (h : fill R n br = .ok () br') :
    n ≤ br'.nbits ∧ left R br' ≤ left R br := by
  refine loop_induction (h := fillTurn_descends R n)
    (P := fun _ br x => ∀ br', x = .ok () br' → n ≤ br'.nbits ∧ left R br' ≤ left R br)
    ?_ ?_ ?_ () br br' h
  · intro _ br _ mid hturn ih br' hx
    obtain ⟨hn, hleft⟩ := ih br' hx
    exact ⟨hn, hleft.trans (fillTurn_spec R hturn).2.2⟩
  · intro _ br _ br' hturn br'' hx
    cases hx
    rw [fillTurn, get_bind] at hturn
    split_ifs at hturn with hn
    · cases hturn
      exact ⟨hn, le_rfl⟩
    · obtain ⟨o, mid, hnext, hturn⟩ := Act.bind_eq_ok hturn
      rcases o with - | b
      · cases hturn
      · cases hturn
  · intro _ _ _ _ _ _ hx
    cases hx

theorem left_takeBits {n v : ℕ} {br br' : BitReader σ} (h : takeBits R n br = .ok v br') :
    left R br' + n ≤ left R br := by
  obtain ⟨u, mid, hfill, h⟩ := Act.bind_eq_ok h
  obtain ⟨hn, hleft⟩ := fill_spec R hfill
  cases h
  refine le_trans ?_ hleft
  simp only [left]
  omega

theorem keeps_fillTurn (n : ℕ) : Keeps (Sinks R) (fillTurn R n ()) := by
  intro br
  rw [fillTurn, get_bind]
  split_ifs with hn
  · exact keeps_pure _ br
  · have hkeep := keeps_nextByte R br
    rcases hnext : nextByte R br with ⟨- | b, mid⟩ | ⟨e, mid⟩
    · rw [hnext] at hkeep
      rw [bind_of_ok hnext]
      exact hkeep
    · -- The byte that was taken is among the bits now.
      have hleft := (left_nextByte R hnext).1
      rw [bind_of_ok hnext]
      refine le_trans ?_ hleft
      change 8 * (R.rank mid.src + mid.buf.length) + (mid.nbits + 8) ≤ left R mid + 8
      rw [left]
      omega
    · rw [hnext] at hkeep
      rw [bind_of_error hnext]
      exact hkeep

theorem keeps_takeBits (n : ℕ) : Keeps (Sinks R) (takeBits R n) := by
  have hfill : Keeps (Sinks R) (fill R n) := Keeps.loop (fun _ => keeps_fillTurn R n) ()
  refine hfill.andThen fun _ br => ?_
  change 8 * (R.rank br.src + br.buf.length) + (br.nbits - n) ≤ left R br
  rw [left]
  omega

theorem takeBits_lt {n v : ℕ} {br br' : BitReader σ} (h : takeBits R n br = .ok v br') :
    v < 2 ^ n := by
  obtain ⟨u, mid, -, h⟩ := Act.bind_eq_ok h
  cases h
  exact Nat.mod_lt _ (Nat.two_pow_pos n)

/-- **Bits that were given out are gone.** -/
theorem lowers_takeBits (n : ℕ) : Lowers (left R) n (takeBits R n) where
  of_ok h := by
    have hleft := left_takeBits R h
    omega
  of_error {br e br'} h := by
    have hkeep := keeps_takeBits R n br
    rwa [h] at hkeep

theorem keeps_align : Keeps (Sinks R) (align (σ := σ)) := by
  intro br
  change 8 * (R.rank br.src + br.buf.length) + (br.nbits - br.nbits % 8) ≤ left R br
  rw [left]
  omega

theorem keeps_atEnd : Keeps (Sinks R) (atEnd R) := by
  intro br
  rw [atEnd, get_bind]
  split_ifs with hn
  · exact keeps_pure _ br
  · have hkeep := keeps_nextByte R br
    rcases hnext : nextByte R br with ⟨- | b, mid⟩ | ⟨e, mid⟩
    · rw [hnext] at hkeep
      rw [bind_of_ok hnext]
      exact hkeep
    · have hleft := (left_nextByte R hnext).1
      rw [bind_of_ok hnext]
      refine le_trans ?_ hleft
      change 8 * (R.rank mid.src + mid.buf.length) + 8 ≤ left R mid + 8
      rw [left]
      omega
    · rw [hnext] at hkeep
      rw [bind_of_error hnext]
      exact hkeep

end BitReader

end Hop.Runner.Extract
