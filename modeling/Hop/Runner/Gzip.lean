import Hop.Runner.Inflate

/-!
# Gzip

`runner/src/host/extract/inflate.rs`, `Crc32`, `Gzip` and `Deflate`: streams that are decoded while
they are read, and so readers themselves (`Gzip.reader`, `Deflate.reader`). Behind a member of a gzip
stream are its checksum and its length, and behind those maybe the next member.

`Member.begun`, `Member.text` and `Member.read` keep what was read of the members (how many headers,
the bytes, and each trailer with the bytes before it); nothing in the program looks at them. What a
stream gives does not depend on how many bytes are asked for at a time: it is its `text`
(`read_passes`).
-/

namespace Hop.Runner.Extract

open Act

/-! ### The checksum -/

namespace Crc32

def new : ℕ := 0xffffffff

/-- One bit of CRC-32. -/
def shift (c : ℕ) : ℕ := if c % 2 = 1 then (c / 2) ^^^ 0xedb88320 else c / 2

def update (c : ℕ) (data : Bytes) : ℕ := data.foldl (fun c b => shift^[8] (c ^^^ b.toNat)) c

def sum (c : ℕ) : ℕ := c ^^^ 0xffffffff

end Crc32

/-! ### A raw stream -/

namespace Deflate

variable {σ : Type}

/-- A decoder at the beginning of a stream. -/
def new (src : σ) : Decoder σ := ({ src }, {})

end Deflate

/-- An error of a decoder is never an interruption. -/
theorem mapError_other_ne {S α : Type} {m : Act S String α} {s s' : S} :
    mapError IoError.other m s ≠ .error .interrupted s' := by
  rw [mapError]
  rcases m s with ⟨a, t⟩ | ⟨e, t⟩
  · intro h
    cases h
  · intro h
    cases h

theorem mapError_other_eq {S α : Type} {m : Act S String α} {s s' : S} {e : IoError}
    (h : mapError IoError.other m s = .error e s') : ∃ why, m s = .error why s' := by
  rw [mapError] at h
  rcases hm : m s with ⟨a, t⟩ | ⟨why, t⟩
  · rw [hm] at h
    cases h
  · rw [hm] at h
    cases h
    exact ⟨why, rfl⟩

/-- A raw stream as a reader. -/
def Deflate.reader {σ : Type} (R : Reader σ) : Reader (Decoder σ) where
  read n := mapError .other (Inflate.read R n)
  rank := Decoder.left R
  length_le h := (Inflate.read_eq_ok R (mapError_eq_ok h)).1
  rank_data h := (Inflate.read_eq_ok R (mapError_eq_ok h)).2.1
  rank_interrupted h := absurd h mapError_other_ne
  rank_failed h := by
    obtain ⟨why, h⟩ := mapError_other_eq h
    exact Inflate.read_eq_error R h

/-! ### Gzip -/

/-- A member whose end was read: its bytes, and the checksum and the length that stood there. -/
structure Trailer where
  text : Bytes
  crc : ℕ
  size : ℕ

/-- Both are those of the bytes. -/
def Trailer.intact (t : Trailer) : Bool :=
  t.crc = Crc32.sum (Crc32.update Crc32.new t.text) ∧ t.size = t.text.length % 2 ^ 32

/-- What is known of a member. -/
structure Member where
  crc : ℕ := Crc32.new
  size : ℕ := 0
  /-- Whether there is one, whose end was not read. -/
  isOpen : Bool := false
  begun : ℕ := 0
  text : Bytes := []
  read : List Trailer := []

/-- Whether the member with this number was read up to its trailer, and is intact. -/
def Member.intact (m : Member) : ℕ → Bool
  | 0 => false
  | k + 1 => (m.read[k]?).any Trailer.intact

/-- The decoder, and the member it is in. -/
abbrev Gzip (σ : Type) : Type := Decoder σ × Member

namespace Gzip

variable {σ : Type} (R : Reader σ)
variable {room : ℕ}

/-- `n` bits of a header or a trailer. -/
def takeBits (n : ℕ) : Act (Gzip σ) String ℕ := onFst (Inflate.takeBits R n)

/-- One byte of a header. -/
def byte : Act (Gzip σ) String ℕ := takeBits R 8

def skipBytes : ℕ → Act (Gzip σ) String Unit
  | 0 => pure ()
  | n + 1 => do
    let _ ← byte R
    skipBytes n

def cstrTurn (_ : Unit) : Act (Gzip σ) String (Turn Unit Unit) := do
  let b ← byte R
  if b = 0 then pure (.done ()) else pure (.more ())

/-- What may still come, at most. -/
def left (g : Gzip σ) : ℕ := Decoder.left R g.1 + if g.2.isOpen then 1 else 0

theorem lowers_onDecoder {α : Type} {c : ℤ} {m : Act (Decoder σ) String α}
    (h : Lowers (Decoder.left R) c m) : Lowers (left R) c (onFst m) where
  of_ok {g a g'} hrun := by
    obtain ⟨hm, hz⟩ := onFst_eq_ok hrun
    have hlow := h.of_ok hm
    rw [left, left, hz]
    omega
  of_error {g e g'} hrun := by
    obtain ⟨hm, hz⟩ := onFst_eq_error hrun
    have hlow := h.of_error hm
    rw [left, left, hz]
    omega

theorem lowers_takeBits (n : ℕ) : Lowers (left R) (259 * n) (takeBits R n) :=
  lowers_onDecoder R (Inflate.lowers_takeBits R n)

theorem cstrTurn_descends : Descends (fun _ g => left R g) (cstrTurn R) := by
  intro _ g _ g' h
  obtain ⟨b, mid, hbyte, h⟩ := Act.bind_eq_ok h
  have hlow := (lowers_takeBits R 8).of_ok hbyte
  split_ifs at h
  · cases h
  · cases h
    change left R g' < left R g
    omega

/-- A field up to its zero byte. -/
def skipCstr : Act (Gzip σ) String Unit :=
  loop (fun _ g => left R g) (cstrTurn R) (cstrTurn_descends R) ()

/-- A member begins. -/
def openMember (g : Gzip σ) : Gzip σ :=
  ((g.1.1, {}),
    { crc := Crc32.new, size := 0, isOpen := true, begun := g.2.begun + 1, text := [], read := g.2.read })

/-- The fields of a header that are there by the flags. -/
def optionalFields (flags : ℕ) : Act (Gzip σ) String Unit := do
  onlyIf (flags &&& 0x04 ≠ 0) do
    let xlen ← takeBits R 16
    skipBytes R xlen
  onlyIf (flags &&& 0x08 ≠ 0) (skipCstr R)
  onlyIf (flags &&& 0x10 ≠ 0) (skipCstr R)
  onlyIf (flags &&& 0x02 ≠ 0) do
    let _ ← takeBits R 16
    pure ()

/-- The fields of a header. -/
def headerFields : Act (Gzip σ) String Unit := do
  let id ← byte R
  ensure (id = 0x1f) (corrupt "gzip: invalid header")
  let id ← byte R
  ensure (id = 0x8b) (corrupt "gzip: invalid header")
  let method ← byte R
  ensure (method = 8) (corrupt "gzip: unknown compression method")
  let flags ← byte R
  -- The time, the level and the system.
  skipBytes R 6
  optionalFields R flags

/-- The header of a member. -/
def memberHeader : Act (Gzip σ) String Unit := do
  headerFields R
  modify openMember

/-- The checksum and the length in a trailer. -/
def trailerFields : Act (Gzip σ) String (ℕ × ℕ) := do
  onFst (onFst BitReader.align)
  let crc ← takeBits R 32
  let size ← takeBits R 32
  pure (crc, size)

/-- The end of a member with this checksum and this length. -/
def closeMember (t : ℕ × ℕ) : Act (Gzip σ) String Unit := do
  let (_, m) ← get
  ensure (t.1 = Crc32.sum m.crc) (corrupt "gzip: checksum mismatch")
  ensure (t.2 = m.size) (corrupt "gzip: length mismatch")
  onSnd fun _ => modify fun m => { m with isOpen := false, read := m.read ++ [⟨m.text, t.1, t.2⟩] }

/-- The trailer of a member. -/
def trailer : Act (Gzip σ) String Unit := do
  let t ← trailerFields R
  closeMember t

/-- The end of a member, and the beginning of the next one if there is one. -/
def memberEnd : Act (Gzip σ) String Unit := do
  trailer R
  let last ← onFst (onFst (BitReader.atEnd R))
  onlyIf (last = false) (memberHeader R)

/-- Count what was given out. -/
def counted (out : Bytes) (m : Member) : Member :=
  { m with
    crc := Crc32.update m.crc out
    size := (m.size + if out.length < 2 ^ 32 then out.length else 0) % 2 ^ 32
    text := m.text ++ out }

/-- What is done with these bytes: without any, the member is at its end. -/
def afterRead (room : ℕ) (out : Bytes) : Act (Gzip σ) String (Turn Unit Bytes) :=
  if out ≠ [] then do
    onSnd fun _ => modify (counted out)
    pure (.done out)
  else if room = 0 then pure (.done [])
  else do
    let (d, _) ← get
    ensure (d.2.isDone = true) (corrupt "inflate stalled before the end of the stream")
    memberEnd R
    pure (.more ())

/-- One turn of `read`. -/
def readTurn (room : ℕ) (_ : Unit) : Act (Gzip σ) String (Turn Unit Bytes) := do
  let (_, m) ← get
  if m.isOpen = false then pure (.done [])
  else
    let out ← onFst (Inflate.read R room)
    afterRead R room out

/-! ### What is used up -/

theorem lowers_skipBytes (n : ℕ) : Lowers (left R) 0 (skipBytes R n) := by
  induction n with
  | zero => exact lowers_pure ()
  | succ n ih => exact ((lowers_takeBits R 8).andThen (by decide) fun _ => ih).weaken (by decide)

theorem lowers_skipCstr : Lowers (left R) 0 (skipCstr R) := by
  refine Lowers.loop (fun _ => ?_) ()
  refine ((lowers_takeBits R 8).andThen (d := 0) (by decide) fun b => ?_).weaken (by decide)
  split_ifs
  · exact lowers_pure _
  · exact lowers_pure _

theorem lowers_optionalFields (flags : ℕ) : Lowers (left R) 0 (optionalFields R flags) := by
  refine Lowers.andThen (c := 0) (d := 0) (lowers_onlyIf _ ?_) le_rfl fun _ => ?_
  · exact ((lowers_takeBits R 16).andThen (by decide) fun n => lowers_skipBytes R n).weaken
      (by decide)
  refine Lowers.andThen (c := 0) (d := 0) (lowers_onlyIf _ (lowers_skipCstr R)) le_rfl fun _ => ?_
  refine Lowers.andThen (c := 0) (d := 0) (lowers_onlyIf _ (lowers_skipCstr R)) le_rfl fun _ => ?_
  exact lowers_onlyIf _ (((lowers_takeBits R 16).andPure fun _ => ()).weaken (by decide))

theorem lowers_openMember : Lowers (left R) (-2) (modify openMember : Act (Gzip σ) String Unit) where
  of_ok {g u g'} h := by
    cases h
    simp only [left, openMember, Decoder.left, Inflate.owed, if_true]
    omega
  of_error h := nomatch h

/-- A header of a member is at least ten bytes. -/
theorem lowers_headerFields : Lowers (left R) 3 (headerFields R) := by
  have hbyte : Lowers (left R) 2072 (byte R) := lowers_takeBits R 8
  refine (hbyte.andThen (d := 0) (by decide) fun id => ?_).weaken (by decide)
  refine ((lowers_ensure _ _).andThen (d := 0) le_rfl fun _ => ?_).weaken (by decide)
  refine (hbyte.andThen (d := 0) (by decide) fun id => ?_).weaken (by decide)
  refine ((lowers_ensure _ _).andThen (d := 0) le_rfl fun _ => ?_).weaken (by decide)
  refine (hbyte.andThen (d := 0) (by decide) fun method => ?_).weaken (by decide)
  refine ((lowers_ensure _ _).andThen (d := 0) le_rfl fun _ => ?_).weaken (by decide)
  refine (hbyte.andThen (d := 0) (by decide) fun flags => ?_).weaken (by decide)
  exact ((lowers_skipBytes R 6).andThen le_rfl fun _ => lowers_optionalFields R flags).weaken
    (by decide)

theorem lowers_memberHeader : Lowers (left R) 1 (memberHeader R) :=
  ((lowers_headerFields R).andThen (by decide) fun _ => lowers_openMember R).weaken (by decide)

theorem lowers_trailerFields : Lowers (left R) 1 (trailerFields R) := by
  have halign : Lowers (left R) 0 (onFst (T := Member) (onFst (T := Inflate)
      (BitReader.align (σ := σ)))) := lowers_onDecoder R (Inflate.lowers_align R)
  refine (halign.andThen (d := 1) le_rfl fun _ => ?_).weaken (by decide)
  refine ((lowers_takeBits R 32).andThen (d := 0) (by decide) fun crc => ?_).weaken (by decide)
  exact ((lowers_takeBits R 32).andPure fun size => (crc, size)).weaken (by decide)

/-- **A member is closed** if its checksum and its length match, and else nothing changes. -/
theorem closeMember_member (t : ℕ × ℕ) (g : Gzip σ) :
    match closeMember t g with
    | .ok _ g' => t.1 = Crc32.sum g.2.crc ∧ t.2 = g.2.size ∧
        g' = (g.1, { g.2 with isOpen := false, read := g.2.read ++ [⟨g.2.text, t.1, t.2⟩] })
    | .error _ g' => g' = g := by
  rw [closeMember, get_bind]
  dsimp only
  by_cases hcrc : t.1 = Crc32.sum g.2.crc
  · rw [bind_of_ok (ensure_of hcrc)]
    by_cases hsize : t.2 = g.2.size
    · rw [bind_of_ok (ensure_of hsize)]
      exact ⟨hcrc, hsize, rfl⟩
    · have hfail : ensure (t.2 = g.2.size) (corrupt "gzip: length mismatch") g =
          .error (corrupt "gzip: length mismatch") g := by
        rw [ensure, if_neg hsize]
        rfl
      rw [bind_of_error hfail]
  · have hfail : ensure (t.1 = Crc32.sum g.2.crc) (corrupt "gzip: checksum mismatch") g =
        .error (corrupt "gzip: checksum mismatch") g := by
      rw [ensure, if_neg hcrc]
      rfl
    rw [bind_of_error hfail]

theorem lowers_closeMember (t : ℕ × ℕ) : Lowers (left R) 0 (closeMember (σ := σ) t) where
  of_ok {g u g'} h := by
    have hclose := closeMember_member t g
    rw [h] at hclose
    obtain ⟨-, -, rfl⟩ := hclose
    simp only [left, Bool.false_eq_true, if_false]
    omega
  of_error {g e g'} h := by
    have hclose := closeMember_member t g
    rw [h] at hclose
    rw [hclose]

theorem lowers_trailer : Lowers (left R) 1 (trailer R) :=
  (lowers_trailerFields R).andThen (by decide) fun t => lowers_closeMember R t

theorem lowers_memberEnd : Lowers (left R) 1 (memberEnd R) := by
  have hatEnd : Lowers (left R) 0 (onFst (T := Member) (onFst (T := Inflate)
      (BitReader.atEnd R))) :=
    lowers_onDecoder R (lowers_onBits R (Lowers.of_keeps (BitReader.keeps_atEnd R)))
  refine ((lowers_trailer R).andThen (d := 0) (by decide) fun _ => ?_).weaken (by decide)
  refine (hatEnd.andThen (d := 0) le_rfl fun last => ?_).weaken le_rfl
  exact lowers_onlyIf _ ((lowers_memberHeader R).weaken (by decide))

/-- **What a turn of `read` can come to**: nothing more, some bytes, or the end of a member. -/
theorem readTurn_eq_ok {g g' : Gzip σ} {t : Turn Unit Bytes} (h : readTurn R room () g = .ok t g') :
    (t = .done [] ∧ g' = g ∧ g.2.isOpen = false) ∨
      (∃ d out, t = .done out ∧ g.2.isOpen = true ∧ Inflate.read R room g.1 = .ok out d ∧
        (out = [] → room = 0) ∧ g' = (d, if out = [] then g.2 else counted out g.2)) ∨
      ∃ d, t = .more () ∧ g.2.isOpen = true ∧ 0 < room ∧ Inflate.read R room g.1 = .ok [] d ∧
        d.2.isDone = true ∧ memberEnd R (d, g.2) = .ok () g' := by
  rw [readTurn, get_bind] at h
  dsimp only at h
  split_ifs at h with hopen
  · cases h
    exact .inl ⟨rfl, rfl, hopen⟩
  · have hopen := Bool.not_eq_false _ ▸ hopen
    obtain ⟨out, g₁, hread, h⟩ := Act.bind_eq_ok h
    obtain ⟨hread, hm⟩ := onFst_eq_ok hread
    rw [afterRead] at h
    split_ifs at h with hout hroom
    · cases h
      refine .inr (.inl ⟨g₁.1, out, rfl, hopen, hread, fun hnil => absurd hnil hout, ?_⟩)
      rw [if_neg hout, ← hm]
    · cases h
      obtain rfl : out = [] := not_not.mp hout
      refine .inr (.inl ⟨g'.1, [], rfl, hopen, hread, fun _ => hroom, ?_⟩)
      rw [if_pos rfl, ← hm]
    · obtain rfl : out = [] := not_not.mp hout
      rw [get_bind] at h
      dsimp only at h
      obtain ⟨u, g₂, hensure, hrest⟩ := Act.bind_eq_ok h
      obtain ⟨hdone, rfl⟩ := ensure_eq_ok hensure
      obtain ⟨u', g₃, hend, hlast⟩ := Act.bind_eq_ok hrest
      cases hlast
      refine .inr (.inr ⟨g₂.1, rfl, hopen, Nat.pos_of_ne_zero hroom, hread, hdone, ?_⟩)
      rw [← hm]
      exact hend

theorem readTurn_descends (room : ℕ) : Descends (fun _ g => left R g) (readTurn R room) := by
  intro _ g _ g' h
  obtain ⟨ht, -⟩ | ⟨d, out, ht, -⟩ | ⟨d, -, hopen, -, hread, hdone, hend⟩ := readTurn_eq_ok R h
  · cases ht
  · cases ht
  · have hlow := (lowers_memberEnd R).of_ok hend
    have hleft := (Inflate.read_eq_ok R hread).2.1
    change left R g' < left R g
    simp only [left] at hlow hleft ⊢
    rw [List.length_nil] at hleft
    omega

/-- The next bytes of the members. -/
def read (room : ℕ) : Act (Gzip σ) String Bytes :=
  loop (fun _ g => left R g) (readTurn R room) (readTurn_descends R room) ()

theorem read_eq_ok {g g' : Gzip σ} {out : Bytes} (h : read R room g = .ok out g') :
    out.length ≤ room ∧ out.length + left R g' ≤ left R g := by
  refine loop_induction (h := readTurn_descends R room)
    (P := fun _ g x => ∀ out g', x = .ok out g' →
      out.length ≤ room ∧ out.length + left R g' ≤ left R g) ?_ ?_ ?_ () g out g' h
  · intro _ g _ g' hturn ih out g'' hx
    obtain ⟨hlen, hleft⟩ := ih out g'' hx
    exact ⟨hlen, hleft.trans (readTurn_descends R room () g () g' hturn).le⟩
  · intro _ g out g' hturn out' g'' hx
    cases hx
    obtain ⟨ht, rfl, -⟩ | ⟨d, out', ht, hopen, hread, -, rfl⟩ | ⟨d, ht, -⟩ :=
      readTurn_eq_ok R hturn
    · cases ht
      exact ⟨Nat.zero_le room, le_of_eq (Nat.zero_add _)⟩
    · cases ht
      obtain ⟨hlen, hleft, -⟩ := Inflate.read_eq_ok R hread
      refine ⟨hlen, ?_⟩
      have hsame : (if out = [] then g.2 else counted out g.2).isOpen = g.2.isOpen := by
        split_ifs <;> rfl
      simp only [left, hsame]
      omega
    · cases ht
  · intro _ _ _ _ _ _ _ hx
    cases hx

theorem readTurn_eq_error {g g' : Gzip σ} {e : String} (h : readTurn R room () g = .error e g') :
    left R g' ≤ left R g := by
  rw [readTurn, get_bind] at h
  dsimp only at h
  split_ifs at h with hopen
  · cases h
  · have hread : Lowers (left R) 0 (onFst (T := Member) (Inflate.read R room)) :=
      lowers_onDecoder R ⟨fun h => by
        have hleft := (Inflate.read_eq_ok R h).2.1
        omega, fun h => Inflate.read_eq_error R h⟩
    rcases hrun : onFst (T := Member) (Inflate.read R room) g with ⟨out, g₁⟩ | ⟨e', g₁⟩
    · rw [bind_of_ok hrun] at h
      have hlow := hread.of_ok hrun
      rw [afterRead] at h
      split_ifs at h with hout hroom
      · cases h
      · cases h
      · have hrest : Lowers (left R) 0 (do
            ensure (g₁.1.2.isDone = true) (corrupt "inflate stalled before the end of the stream")
            memberEnd R
            pure (.more ()) : Act (Gzip σ) String (Turn Unit Bytes)) := by
          refine ((lowers_ensure _ _).andThen (d := 0) le_rfl fun _ => ?_).weaken le_rfl
          exact ((lowers_memberEnd R).andPure _).weaken (by decide)
        have hlow' := hrest.of_error h
        omega
    · rw [bind_of_error hrun] at h
      cases h
      exact hread.of_error hrun

theorem read_eq_error {g g' : Gzip σ} {e : String} (h : read R room g = .error e g') :
    left R g' ≤ left R g := by
  refine loop_induction (h := readTurn_descends R room)
    (P := fun _ g x => ∀ e g', x = .error e g' → left R g' ≤ left R g) ?_ ?_ ?_ () g e g' h
  · intro _ g _ g' hturn ih e g'' hx
    exact (ih e g'' hx).trans (readTurn_descends R room () g () g' hturn).le
  · intro _ _ _ _ _ _ _ hx
    cases hx
  · intro _ g e g' hturn e' g'' hx
    cases hx
    exact readTurn_eq_error R hturn

/-- A gzip stream as a reader. -/
def reader : Reader (Gzip σ) where
  read n := mapError .other (read R n)
  rank := left R
  length_le h := (read_eq_ok R (mapError_eq_ok h)).1
  rank_data h := (read_eq_ok R (mapError_eq_ok h)).2
  rank_interrupted h := absurd h mapError_other_ne
  rank_failed h := by
    obtain ⟨why, h⟩ := mapError_other_eq h
    exact read_eq_error R h

/-! ### The members -/

/-- The member is as it was. -/
abbrev SameMember (g g' : Gzip σ) : Prop := g'.2 = g.2

instance : Std.Refl (SameMember (σ := σ)) := ⟨fun _ => rfl⟩

instance : IsTrans (Gzip σ) SameMember := ⟨fun _ _ _ h h' => h'.trans h⟩

theorem same_onFst {α : Type} (m : Act (Decoder σ) String α) :
    Keeps SameMember (onFst (T := Member) m) :=
  Keeps.onFst_of fun _ _ => rfl

theorem same_skipBytes (n : ℕ) : Keeps SameMember (skipBytes R n) := by
  induction n with
  | zero => exact keeps_pure ()
  | succ n ih => exact (same_onFst _).andThen fun _ => ih

theorem same_skipCstr : Keeps SameMember (skipCstr R) := by
  refine Keeps.loop (fun _ => (same_onFst _).andThen fun b => ?_) ()
  split_ifs
  · exact keeps_pure _
  · exact keeps_pure _

theorem same_optionalFields (flags : ℕ) : Keeps SameMember (optionalFields R flags) := by
  refine Keeps.andThen (keeps_onlyIf _ ?_) fun _ => ?_
  · exact (same_onFst _).andThen fun n => same_skipBytes R n
  refine Keeps.andThen (keeps_onlyIf _ (same_skipCstr R)) fun _ => ?_
  refine Keeps.andThen (keeps_onlyIf _ (same_skipCstr R)) fun _ => ?_
  exact keeps_onlyIf _ ((same_onFst _).andThen fun _ => keeps_pure ())

theorem same_headerFields : Keeps SameMember (headerFields R) := by
  refine (same_onFst _).andThen fun id => (keeps_ensure _ _).andThen fun _ => ?_
  refine (same_onFst _).andThen fun id => (keeps_ensure _ _).andThen fun _ => ?_
  refine (same_onFst _).andThen fun method => (keeps_ensure _ _).andThen fun _ => ?_
  refine (same_onFst _).andThen fun flags => ?_
  exact (same_skipBytes R 6).andThen fun _ => same_optionalFields R flags

theorem same_trailerFields : Keeps SameMember (trailerFields R) :=
  (same_onFst _).andThen fun _ => (same_onFst _).andThen fun _ =>
    (same_onFst _).andThen fun _ => keeps_pure _

/-- **What is known of the members**: those that were begun are those whose trailer was read, and the
open one; those are intact, and the sums of the open one are those of its bytes. -/
structure Sound (m : Member) : Prop where
  begun : m.begun = m.read.length + if m.isOpen then 1 else 0
  intact : ∀ t ∈ m.read, t.intact = true
  crc : m.isOpen = true → m.crc = Crc32.update Crc32.new m.text
  size : m.isOpen = true → m.size = m.text.length % 2 ^ 32

/-- A member is intact if its trailer was read. -/
theorem Sound.intact_iff {m : Member} (h : Sound m) {k : ℕ} (hk : 0 < k) :
    m.intact k = true ↔ k ≤ m.read.length := by
  obtain ⟨k, rfl⟩ := Nat.exists_eq_succ_of_ne_zero hk.ne'
  rw [Member.intact, Nat.succ_le_iff]
  rcases hread : m.read[k]? with - | t
  · exact iff_of_false Bool.false_ne_true (Nat.not_lt.mpr (List.getElem?_eq_none_iff.mp hread))
  · exact iff_of_true (h.intact t (List.mem_of_getElem? hread))
      (List.getElem?_eq_some_iff.mp hread).1

theorem Sound.counted {m : Member} (h : Sound m) {out : Bytes} (hout : out.length < 2 ^ 32) :
    Sound (counted out m) where
  begun := h.begun
  intact := h.intact
  crc hopen := by
    change Crc32.update m.crc out = Crc32.update Crc32.new (m.text ++ out)
    rw [h.crc hopen, Crc32.update, Crc32.update, Crc32.update, List.foldl_append]
  size hopen := by
    change (m.size + if out.length < 2 ^ 32 then out.length else 0) % 2 ^ 32 =
      (m.text ++ out).length % 2 ^ 32
    rw [if_pos hout, h.size hopen, List.length_append]
    exact Nat.mod_add_mod _ _ _

/-- A header opens a member, where none is open. -/
theorem sound_memberHeader {g g' : Gzip σ} (h : memberHeader R g = .ok () g') (hg : Sound g.2)
    (hclosed : g.2.isOpen = false) : Sound g'.2 ∧ g'.2.isOpen = true ∧ g'.2.begun = g.2.begun + 1 := by
  obtain ⟨u, mid, hfields, hopen⟩ := Act.bind_eq_ok h
  have hm : mid.2 = g.2 := (same_headerFields R).of_ok hfields
  cases hopen
  refine ⟨⟨?_, ?_, fun _ => rfl, fun _ => rfl⟩, rfl, congrArg (·.begun + 1) hm⟩
  · have hbegun := hg.begun
    rw [hclosed] at hbegun
    change mid.2.begun + 1 = mid.2.read.length + 1
    rw [hm, hbegun]
    rfl
  · change ∀ t ∈ mid.2.read, t.intact = true
    rw [hm]
    exact hg.intact

/-- **A trailer that was read matches**, or its member is not closed. -/
theorem sound_trailer {g g' : Gzip σ} (h : trailer R g = .ok () g') (hg : Sound g.2)
    (hopen : g.2.isOpen = true) : Sound g'.2 ∧ g'.2.isOpen = false ∧ g'.2.begun = g.2.begun := by
  obtain ⟨t, mid, hfields, hclose⟩ := Act.bind_eq_ok h
  have hm : mid.2 = g.2 := (same_trailerFields R).of_ok hfields
  have hspec := closeMember_member t mid
  rw [hclose] at hspec
  obtain ⟨hcrc, hsize, rfl⟩ := hspec
  rw [hm] at hcrc hsize ⊢
  have hbegun := hg.begun
  rw [hopen] at hbegun
  refine ⟨⟨?_, ?_, fun h => (by cases h), fun h => (by cases h)⟩, rfl, rfl⟩
  · rw [List.length_append, hbegun]
    rfl
  · refine List.forall_mem_append.mpr ⟨hg.intact, List.forall_mem_singleton.mpr ?_⟩
    rw [Trailer.intact, decide_eq_true_iff]
    exact ⟨hcrc.trans (congrArg Crc32.sum (hg.crc hopen)), hsize.trans (hg.size hopen)⟩

theorem sound_memberEnd {g g' : Gzip σ} (h : memberEnd R g = .ok () g') (hg : Sound g.2)
    (hopen : g.2.isOpen = true) : Sound g'.2 ∧ g.2.begun ≤ g'.2.begun := by
  obtain ⟨u, mid, htrailer, hrest⟩ := Act.bind_eq_ok h
  obtain ⟨last, mid', hatEnd, hheader⟩ := Act.bind_eq_ok hrest
  obtain ⟨hsound, hclosed, hbegun⟩ := sound_trailer R htrailer hg hopen
  have hm : mid'.2 = mid.2 := (onFst_eq_ok hatEnd).2
  rw [← hm] at hsound hclosed hbegun
  rw [onlyIf] at hheader
  split_ifs at hheader
  · obtain ⟨hsound', -, hbegun'⟩ := sound_memberHeader R hheader hsound hclosed
    exact ⟨hsound', by rw [hbegun', hbegun]; exact Nat.le_succ _⟩
  · cases hheader
    exact ⟨hsound, hbegun.ge⟩

/-! ### The text of a stream -/

/-- The bytes that still come, asked for one by one, each with the number of its member; up to the end
of the stream, or to the first error. -/
def textFrom : ℕ → Gzip σ → List (ℕ × UInt8)
  | 0, _ => []
  | n + 1, g =>
    match read R 1 g with
    | .ok (b :: _) g' => (g'.2.begun, b) :: textFrom n g'
    | _ => []

def text (g : Gzip σ) : List (ℕ × UInt8) := textFrom R (left R g) g

theorem textFrom_of_left {g : Gzip σ} (h : left R g = 0) (n : ℕ) : textFrom R n g = [] := by
  rcases n with - | n
  · rfl
  · rw [textFrom]
    rcases hread : read R 1 g with ⟨- | ⟨b, bs⟩, g'⟩ | ⟨e, g'⟩
    · rfl
    · have hleft := (read_eq_ok R hread).2
      rw [List.length_cons] at hleft
      omega
    · rfl

/-- More rounds than there are bytes change nothing. -/
theorem textFrom_eq {n k : ℕ} {g : Gzip σ} (hn : left R g ≤ n) (hk : left R g ≤ k) :
    textFrom R n g = textFrom R k g := by
  induction n generalizing k g with
  | zero => rw [textFrom_of_left R (Nat.le_zero.mp hn), textFrom_of_left R (Nat.le_zero.mp hn)]
  | succ n ih =>
    rcases k with - | k
    · rw [textFrom_of_left R (Nat.le_zero.mp hk), textFrom_of_left R (Nat.le_zero.mp hk)]
    · rw [textFrom, textFrom]
      rcases hread : read R 1 g with ⟨- | ⟨b, bs⟩, g'⟩ | ⟨e, g'⟩
      · rfl
      · have hleft := (read_eq_ok R hread).2
        rw [List.length_cons] at hleft
        dsimp only
        rw [ih (by omega) (by omega : left R g' ≤ k)]
      · rfl

theorem text_of_byte {g g' : Gzip σ} {b : UInt8} (h : read R 1 g = .ok [b] g') :
    text R g = (g'.2.begun, b) :: text R g' := by
  have hleft := (read_eq_ok R h).2
  rw [List.length_singleton] at hleft
  obtain ⟨n, hn⟩ := Nat.exists_eq_succ_of_ne_zero (by omega : left R g ≠ 0)
  rw [text, hn, textFrom, h]
  dsimp only
  rw [text, textFrom_eq R (by omega : left R g' ≤ n) le_rfl]

theorem text_of_end {g g' : Gzip σ} (h : read R 1 g = .ok [] g') : text R g = [] := by
  rw [text, textFrom_eq R le_rfl (Nat.le_succ _), textFrom, h]

/-- It depends on the next call only. -/
theorem text_congr {g g' : Gzip σ} (h : read R 1 g = read R 1 g') : text R g = text R g' := by
  rw [text, text, textFrom_eq R le_rfl (Nat.le_succ (left R g)),
    textFrom_eq R le_rfl (Nat.le_succ (left R g')), textFrom, textFrom, h]
  rcases hread : read R 1 g' with ⟨- | ⟨b, bs⟩, g''⟩ | ⟨e, g''⟩
  · rfl
  · have hleft := (read_eq_ok R (h.trans hread)).2
    have hleft' := (read_eq_ok R hread).2
    rw [List.length_cons] at hleft hleft'
    dsimp only
    rw [textFrom_eq R (by omega : left R g'' ≤ left R g) (by omega : left R g'' ≤ left R g')]
  · rfl

/-- A read of an open member. -/
theorem readTurn_of_open {g : Gzip σ} (hopen : g.2.isOpen = true) {n : ℕ} {out : Bytes}
    {d : Decoder σ} (h : Inflate.read R n g.1 = .ok out d) :
    readTurn R n () g = afterRead R n out (d, g.2) := by
  rw [readTurn, get_bind]
  dsimp only
  rw [if_neg (by rw [hopen]; exact Bool.noConfusion), bind_of_ok (onFst_of_ok h)]

theorem read_one_congr {d d' : Decoder σ} {m : Member} (hopen : m.isOpen = true)
    (h : Inflate.read R 1 d = Inflate.read R 1 d') : read R 1 (d, m) = read R 1 (d', m) := by
  have hturn : readTurn R 1 () (d, m) = readTurn R 1 () (d', m) := by
    have hclosed : ¬ m.isOpen = false := by
      rw [hopen]
      exact Bool.noConfusion
    have hfst : onFst (T := Member) (Inflate.read R 1) (d, m) = onFst (Inflate.read R 1) (d', m) := by
      rw [onFst, onFst, h]
    rw [readTurn, get_bind, get_bind]
    dsimp only
    rw [if_neg hclosed, bind_congr_left hfst]
  exact loop_congr hturn

/-- The member behind these bytes. -/
def after (out : Bytes) (m : Member) : Member := if out = [] then m else counted out m

theorem after_cons {out : Bytes} (hout : out.length + 1 < 2 ^ 32) (b : UInt8) (m : Member) :
    after (b :: out) m = after out (counted [b] m) := by
  rw [after, if_neg (List.cons_ne_nil b out), after]
  split_ifs with hnil
  · rw [hnil]
  · have hone : 1 < 2 ^ 32 := by decide
    simp only [counted, List.length_cons, List.length_nil, Nat.zero_add, if_pos hone,
      if_pos (Nat.lt_of_succ_lt hout), if_pos hout, List.append_assoc, List.singleton_append,
      Nat.mod_add_mod, Nat.add_assoc, Nat.add_comm 1]
    rfl

/-- What the decoder gives is the beginning of the text. -/
theorem text_gives {d d' : Decoder σ} {out : Bytes} (h : Inflate.Gives R d out d')
    (hout : out.length < 2 ^ 32) {m : Member} (hopen : m.isOpen = true) :
    text R (d, m) = out.map (Prod.mk m.begun) ++ text R (d', after out m) := by
  induction h generalizing m with
  | refl d => rfl
  | @step d d₁ d₂ bs out hnext _ ih =>
    rcases bs with - | ⟨b, bs⟩
    · rw [List.nil_append] at hout ⊢
      rw [text_congr R (read_one_congr R hopen (Inflate.read_of_silent R Nat.one_pos hnext))]
      exact ih hout hopen
    · obtain rfl : bs = [] := List.length_eq_zero_iff.mp (by
        have hone := (Inflate.next_eq_some R hnext).1
        rw [List.length_cons] at hone
        omega)
      have hread : read R 1 (d, m) = .ok [b] (d₁, counted [b] m) := by
        refine loop_done ?_
        rw [readTurn_of_open R hopen (Inflate.read_one_of_byte R hnext), afterRead,
          if_pos (List.cons_ne_nil b [])]
        rfl
      rw [text_of_byte R hread, List.singleton_append, after_cons (by
        rw [List.length_append, List.length_singleton] at hout
        omega), List.map_cons, List.cons_append]
      refine congrArg _ (ih ?_ hopen)
      rw [List.length_append] at hout
      omega

/-- Bytes that were taken out of a stream, with their members. -/
structure Passes (g : Gzip σ) (p : List (ℕ × UInt8)) (g' : Gzip σ) : Prop where
  text : text R g = p ++ text R g'
  sound : Sound g'.2
  begun : g.2.begun ≤ g'.2.begun
  marks : ∀ x ∈ p, 0 < x.1 ∧ x.1 ≤ g'.2.begun

variable {R} in
theorem Passes.refl {g : Gzip σ} (h : Sound g.2) : Passes R g [] g :=
  ⟨rfl, h, le_rfl, fun _ hx => absurd hx List.not_mem_nil⟩

variable {R} in
theorem Passes.trans {g g' g'' : Gzip σ} {p q : List (ℕ × UInt8)} (h : Passes R g p g')
    (h' : Passes R g' q g'') : Passes R g (p ++ q) g'' where
  text := by rw [h.text, h'.text, List.append_assoc]
  sound := h'.sound
  begun := h.begun.trans h'.begun
  marks := List.forall_mem_append.mpr
    ⟨fun x hx => ⟨(h.marks x hx).1, (h.marks x hx).2.trans h'.begun⟩, h'.marks⟩

/-- **A read gives the next bytes of the text**, of one member; none: the stream is at its end. -/
theorem read_passes {g g' : Gzip σ} {n : ℕ} {out : Bytes} (h : read R n g = .ok out g') (hn : 0 < n)
    (hmax : n < 2 ^ 32) (hg : Sound g.2) : Passes R g (out.map (Prod.mk g'.2.begun)) g' ∧
      (out ≠ [] → g'.2.isOpen = true) ∧ (out = [] → g'.2.isOpen = false ∧ text R g' = []) := by
  refine loop_induction (h := readTurn_descends R n)
    (P := fun _ g x => Sound g.2 → ∀ out g', x = .ok out g' →
      Passes R g (out.map (Prod.mk g'.2.begun)) g' ∧
      (out ≠ [] → g'.2.isOpen = true) ∧ (out = [] → g'.2.isOpen = false ∧ text R g' = []))
    ?_ ?_ ?_ () g hg out g' h
  · intro _ g _ g₁ hturn ih hg out g' hx
    obtain ⟨ht, -⟩ | ⟨d, out', ht, -⟩ | ⟨d, -, hopen, -, hread, hdone, hend⟩ := readTurn_eq_ok R hturn
    · cases ht
    · cases ht
    · -- Asked for one byte, the decoder comes to the same end of the member.
      obtain ⟨hgives, hlast⟩ := Inflate.gives_of_read R hread
      obtain ⟨hsound, hbegun⟩ := sound_memberEnd R hend hg hopen
      have hone : read R 1 (d, g.2) = read R 1 g₁ := by
        refine loop_more ?_
        rw [readTurn_of_open R (g := (d, g.2)) hopen
          (Inflate.read_of_none R Nat.one_pos (hlast hn)), afterRead,
          if_neg (fun h => h rfl), if_neg Nat.one_ne_zero, get_bind]
        dsimp only
        rw [bind_of_ok (ensure_of hdone), bind_of_ok hend]
        rfl
      obtain ⟨hpasses, hrest⟩ := ih hsound out g' hx
      have htext : text R g = text R g₁ :=
        (text_gives R hgives (by decide) hopen).trans (text_congr R hone)
      exact ⟨⟨htext.trans hpasses.text, hpasses.sound, hbegun.trans hpasses.begun, hpasses.marks⟩, hrest⟩
  · intro _ g out g' hturn hg out' g'' hx
    cases hx
    obtain ⟨ht, rfl, hopen⟩ | ⟨d, out', ht, hopen, hread, hroom, rfl⟩ | ⟨d, ht, -⟩ :=
      readTurn_eq_ok R hturn
    · cases ht
      have hend : text R g' = [] := text_of_end R (loop_done (by
        rw [readTurn, get_bind]
        dsimp only
        rw [if_pos hopen]
        rfl))
      exact ⟨.refl hg, fun hne => absurd rfl hne, fun _ => ⟨hopen, hend⟩⟩
    · cases ht
      have hne : out ≠ [] := fun hnil => hn.ne' (hroom hnil)
      have hlen : out.length < 2 ^ 32 := (Inflate.read_eq_ok R hread).1.trans_lt hmax
      rw [if_neg hne]
      refine ⟨⟨?_, hg.counted hlen, le_rfl, ?_⟩, fun _ => hopen, fun hnil => absurd hnil hne⟩
      · have htext := text_gives R (Inflate.gives_of_read R hread).1 hlen hopen
        rw [after, if_neg hne] at htext
        exact htext
      · intro x hx
        obtain ⟨b, -, rfl⟩ := List.mem_map.mp hx
        have hbegun := hg.begun
        rw [if_pos hopen] at hbegun
        refine ⟨?_, le_rfl⟩
        change 0 < g.2.begun
        omega
    · cases ht
  · intro _ _ _ _ _ _ _ _ hx
    cases hx

/-- Before the first member: its header is read at once. -/
def unopened (src : σ) : Gzip σ := (Deflate.new src, {})

theorem sound_unopened (src : σ) : Sound (unopened src).2 where
  begun := rfl
  intact _ h := absurd h List.not_mem_nil
  crc h := absurd h Bool.false_ne_true
  size h := absurd h Bool.false_ne_true

end Gzip

end Hop.Runner.Extract
