import Hop.Lib.Lossy
import Hop.Runner.SafeJoin

/-!
# Unpacking a tar archive

`runner/src/host/extract/tar.rs`: blocks of 512 bytes, of which a header says what follows. A long
name or pax records stand before the header they are for, and wait until it comes (`Pending`). Only
directories and files are made; everything else is skipped.

The source is any reader, and the files are written while it is read; each write is logged with a
mark of the source at that time. Each turn of the loop takes a block out of the source
(`turn_descends`), so the loop ends. What the calls of a turn keep, an unpacking keeps
(`EachCall.extractTar`).
-/

namespace Hop.Runner.Extract

open Act Path

namespace Tar

/-- What the records before a header say of the item behind it. -/
structure Pending where
  path : Option String := none
  size : Option ℕ := none

def blockLen : ℕ := 512

/-- The longest long name. -/
def maxLongName : ℕ := 64 * 2 ^ 10

/-- The longest pax header. -/
def maxPax : ℕ := 2 ^ 20

/-- The buffer of `io::copy`. -/
def copyBuf : ℕ := 8 * 2 ^ 10

def bad (why : String) : HostError := .archive "tar" why

/-! ### The fields of a header -/

/-- A field of a header. -/
def field (block : Bytes) (start len : ℕ) : Bytes := (block.drop start).take len

/-- A text up to its zero byte. -/
def text (f : Bytes) : String := fromUtf8Lossy (f.takeWhile (· ≠ 0))

/-- The name in a header, below the prefix of ustar. -/
def headerName (block : Bytes) : String :=
  let name := text (field block 0 100)
  let pre := if field block 257 5 = utf8 "ustar" then text (field block 345 155) else ""
  if pre = "" then name else pre ++ "/" ++ name

/-- One more digit of a `u64`. -/
def checkedDigit (base : ℕ) (why : String) (v d : ℕ) : Except HostError ℕ :=
  if v * base + d < 2 ^ 64 then .ok (v * base + d) else .error (bad why)

def octalDigits : ℕ → Bytes → Except HostError ℕ
  | v, [] => .ok v
  | v, b :: rest =>
    if 48 ≤ b ∧ b ≤ 55 then do
      let v ← checkedDigit 8 "octal number overflows" v (b - 48).toNat
      octalDigits v rest
    else if b = 32 ∨ b = 0 then .ok v
    else .error (bad "invalid octal number")

/-- A number: octal, or to the base 256 if the highest bit is set. -/
def octal (f : Bytes) : Except HostError ℕ :=
  match f with
  | [] => .ok 0
  | first :: rest =>
    if first &&& 0x80 ≠ 0 then
      rest.foldlM (fun v b => checkedDigit 256 "base-256 number overflows" v b.toNat)
        (first &&& 0x7f).toNat
    else octalDigits 0 (f.dropWhile fun b => b = 32 ∨ b = 0)

/-- A header with blanks for its checksum. -/
def blanked (block : Bytes) : Bytes :=
  block.take 148 ++ List.replicate 8 32 ++ block.drop 156

/-- The sum of all bytes, without or with their sign. -/
def checkSum (block : Bytes) : Except HostError Unit := do
  let want ← octal (field block 148 8)
  let unsigned := ((blanked block).map UInt8.toNat).sum
  let signed := ((blanked block).map fun b => b.toInt8.toInt).sum
  if want = unsigned ∨ (want : ℤ) = signed then .ok ()
  else .error (bad s!"header checksum {want} does not match {unsigned}")

/-! ### Pax records -/

/-- `str::parse` of an unsigned number below `bound`. -/
def parseUnsigned (bound : ℕ) (t : Bytes) : Option ℕ :=
  let ds := if t.head? = some 43 then t.tail else t
  if ds ≠ [] ∧ ds.all isDigit = true ∧ ofDigits ds < bound then some (ofDigits ds) else none

/-- What stands before and behind the first byte of a kind. -/
def splitAt (b : UInt8) (t : Bytes) : Option (Bytes × Bytes) :=
  if b ∈ t then some (t.takeWhile (· ≠ b), (t.dropWhile (· ≠ b)).tail) else none

/-- The key and the value of a record, and what is behind it. -/
def paxRecord (s : Bytes) : Option ((Bytes × Bytes) × Bytes) := do
  let (len, _) ← splitAt 32 s
  let n ← parseUnsigned (2 ^ 64) len
  if n ≤ s.length then
    let record := (s.take n).drop (len.length + 1)
    if record.getLast? = some 10 then
      let kv ← splitAt 61 record.dropLast
      some (kv, s.drop n)
    else none
  else none

/-- A value for what is waiting. -/
def Pending.record (pending : Pending) (key value : Bytes) : Option Pending :=
  if key = utf8 "path" then some { pending with path := some (fromUtf8Lossy value) }
  else if key = utf8 "size" then do
    let size ← parseUnsigned (2 ^ 64) value
    some { pending with size := some size }
  else some pending

theorem paxRecord_lt {s rest : Bytes} {kv : Bytes × Bytes} (h : paxRecord s = some (kv, rest)) :
    rest.length < s.length := by
  simp only [paxRecord, Option.bind_eq_bind, Option.bind_eq_some_iff] at h
  obtain ⟨⟨len, tail⟩, hsplit, n, hparse, h⟩ := h
  split_ifs at h with hn hlast
  obtain ⟨kv', -, h⟩ := Option.bind_eq_some_iff.mp h
  cases h
  -- A record that ends in a byte is not empty.
  have hne : (s.take n).drop (len.length + 1) ≠ [] := by
    intro hnil
    rw [hnil] at hlast
    cases hlast
  have hlen := List.length_pos_iff.mpr hne
  rw [List.length_drop, List.length_take] at hlen
  rw [List.length_drop]
  omega

/-- `parse_pax`. -/
def parsePax (pending : Pending) (s : Bytes) : Except HostError Pending :=
  if s = [] then .ok pending
  else
    match _h : paxRecord s with
    | none => .error (bad "invalid pax record")
    | some ((key, value), rest) =>
      match pending.record key value with
      | none => .error (bad "invalid pax record")
      | some pending => parsePax pending rest
termination_by s.length
decreasing_by exact paxRecord_lt _h

/-! ### The blocks -/

variable {σ τ : Type} (R : Reader σ) (os : Os) (mark : σ → τ)

/-- One block; none at the end of the source. -/
def readBlock : Act σ HostError (Option Bytes) := do
  let block ← mapError bad (R.gather blockLen)
  if block = [] then pure none
  else if block.length < blockLen then throw (bad "truncated header block")
  else pure (some block)

/-- A long name or pax records. -/
def readSpecial (size max : ℕ) : Act σ HostError Bytes := do
  if max < size then throw (bad s!"special header of {size} bytes exceeds {max}")
  else
    let buf ← mapError bad (R.gather size)
    if buf.length ≠ size then throw (bad "truncated special header") else pure buf

def skip (n : ℕ) : Act σ HostError Unit := do
  let (got, _) ← mapError bad (withLocal () (R.copy copyBuf n fun _ _ => pure ()))
  if got ≠ n then throw (bad "unexpected end of archive") else pure ()

/-- Skip what is left of the last block. -/
def skipPadding (size : ℕ) : Act σ HostError Unit :=
  skip R ((blockLen - size % blockLen) % blockLen)

/-- Write a file with the next `size` bytes. -/
def writeFile (path : PathBuf) (size mode : ℕ) : Act (Work σ τ) HostError Unit := do
  onSnd fun s => mapError (.io "mkdir" path.parent) (createDirAll os (mark s) path.parent)
  let f ← onSnd fun s => mapError (.io "create" path) (openFile os (mark s) path mode)
  let got ← mapError (.io "write" path) (R.copy copyBuf size fun s b => perform os (mark s) (.write f b))
  if got ≠ size then throw (bad "unexpected end of archive") else pure ()

/-- What a header names is made, or skipped: the root, links, devices, pipes and the rest. -/
def item (kind : UInt8) (block : Bytes) (size : ℕ) : Option PathBuf → Act (Work σ τ) HostError Unit
  | none => onFst (skip R size)
  | some path =>
    if kind = 53 then do
      onSnd fun s => mapError (.io "mkdir" path) (createDirAll os (mark s) path)
      onFst (skip R size)
    else if kind = 48 ∨ kind = 0 ∨ kind = 55 then do
      let mode ← fromExcept (octal (field block 100 8))
      writeFile R os mark path size (mode % 512)
    else onFst (skip R size)

/-- What follows a header: what is waiting behind it. -/
def entry (block : Bytes) (pending : Pending) : Act (Work σ τ) HostError Pending := do
  fromExcept (checkSum block)
  let headerSize ← fromExcept (octal (field block 124 12))
  let size := pending.size.getD headerSize
  let pending := { pending with size := none }
  let kind := (block[156]?).getD 0
  if kind = 76 then do
    let name ← onFst (readSpecial R size maxLongName)
    onFst (skipPadding R size)
    pure { pending with path := some (text name) }
  else if kind = 120 then do
    let records ← onFst (readSpecial R size maxPax)
    onFst (skipPadding R size)
    fromExcept (parsePax pending records)
  else do
    let target ← fromExcept (safeJoin .tar (pending.path.getD (headerName block)))
    item R os mark kind block size target
    onFst (skipPadding R size)
    pure { pending with path := none }

/-- One turn of the loop: a block of zeros is the end, as is the end of the source. -/
def turn (pending : Pending) : Act (Work σ τ) HostError (Turn Pending Unit) := do
  match ← onFst (readBlock R) with
  | none => pure (.done ())
  | some block =>
    if block.all (· = 0) then pure (.done ())
    else do
      let pending ← entry R os mark block pending
      pure (.more pending)

/-! ### What a turn keeps -/

section Keeps

variable {R} {q : σ → σ → Prop} [Std.Refl q] [IsTrans σ q]

theorem keeps_readBlock (hpoll : ∀ n, Keeps q (R.poll n)) : Keeps q (readBlock R) := by
  refine ((R.keeps_gather hpoll _).mapError _).andThen fun block => ?_
  split_ifs
  · exact keeps_pure _
  · exact keeps_throw _
  · exact keeps_pure _

theorem keeps_readSpecial (hpoll : ∀ n, Keeps q (R.poll n)) (size max : ℕ) :
    Keeps q (readSpecial R size max) := by
  rw [readSpecial]
  split_ifs
  · exact keeps_throw _
  · refine ((R.keeps_gather hpoll _).mapError _).andThen fun buf => ?_
    split_ifs
    · exact keeps_throw _
    · exact keeps_pure _

theorem keeps_skip (hpoll : ∀ n, Keeps q (R.poll n)) (n : ℕ) : Keeps q (skip R n) := by
  refine ((R.keeps_withLocal_copy hpoll _ _ _ _).mapError _).andThen fun (got, _) => ?_
  dsimp only
  split_ifs
  · exact keeps_throw _
  · exact keeps_pure _

end Keeps

/-- What is kept by every call that a turn is made of. -/
structure EachCall (r : Work σ τ → Work σ τ → Prop) : Prop where
  poll : ∀ n t, Keeps (fun s s' => r (s, t) (s', t)) (R.poll n)
  createDirAll : ∀ parts, (∀ n ∈ parts, Plain n) →
    Keeps r (onSnd fun s => createDirAll os (mark s) (ofParts parts))
  writeFile : ∀ parts, parts ≠ [] → (∀ n ∈ parts, Plain n) → ∀ size mode,
    Keeps r (writeFile R os mark (ofParts parts) size mode)

section Each

variable {R os mark} {r : Work σ τ → Work σ τ → Prop} [Std.Refl r] [IsTrans (Work σ τ) r]

/-- A fact about reading, beside files that are as they were. -/
theorem EachCall.reading (h : EachCall R os mark r) {α : Type} {m : Act σ HostError α}
    (hm : ∀ (q : σ → σ → Prop) [Std.Refl q] [IsTrans σ q], (∀ n, Keeps q (R.poll n)) → Keeps q m) :
    Keeps r (onFst m) := by
  refine Keeps.onFst_of fun t => ?_
  have : Std.Refl fun s s' => r (s, t) (s', t) := ⟨fun s => Std.Refl.refl (s, t)⟩
  have : IsTrans σ fun s s' => r (s, t) (s', t) := ⟨fun _ _ _ h h' => trans_of r h h'⟩
  exact hm _ fun n => h.poll n t

theorem EachCall.skip (h : EachCall R os mark r) (n : ℕ) : Keeps r (onFst (skip R n)) :=
  h.reading fun _ _ _ hpoll => keeps_skip hpoll n

theorem EachCall.item (h : EachCall R os mark r) (kind : UInt8) (block : Bytes) (size : ℕ)
    {target : Option PathBuf}
    (htarget : ∀ path ∈ target, ∃ parts, parts ≠ [] ∧ (∀ n ∈ parts, Plain n) ∧
      path = ofParts parts) : Keeps r (item R os mark kind block size target) := by
  rcases target with - | path
  · exact h.skip size
  · obtain ⟨parts, hne, hplain, rfl⟩ := htarget path rfl
    rw [Tar.item]
    split_ifs
    · exact (Keeps.onSnd_mapError (h.createDirAll parts hplain) _).andThen fun _ => h.skip size
    · exact (keeps_fromExcept _).andThen fun _ => h.writeFile parts hne hplain _ _
    · exact h.skip size

theorem EachCall.entry (h : EachCall R os mark r) (block : Bytes) (pending : Pending) :
    Keeps r (entry R os mark block pending) := by
  refine (keeps_fromExcept _).andThen fun _ => (keeps_fromExcept _).andThen fun headerSize => ?_
  have hpadding : ∀ size, Keeps r (onFst (skipPadding R size)) := fun size => h.skip _
  have hspecial : ∀ size max, Keeps r (onFst (readSpecial R size max)) := fun size max =>
    h.reading fun _ _ _ hpoll => keeps_readSpecial hpoll size max
  dsimp only
  split_ifs
  · exact (hspecial _ _).andThen fun name => (hpadding _).andThen fun _ => keeps_pure _
  · exact (hspecial _ _).andThen fun records => (hpadding _).andThen fun _ => keeps_fromExcept _
  · refine (keeps_fromExcept _).bind fun w target w' htarget => ?_
    have hjoin := (fromExcept_eq_ok htarget).1
    refine ((h.item _ block _ ?_).andThen fun _ => (hpadding _).andThen fun _ => keeps_pure _) w'
    rintro path rfl
    exact safeJoin_eq_some hjoin

theorem EachCall.turn (h : EachCall R os mark r) (pending : Pending) :
    Keeps r (turn R os mark pending) := by
  have hblock : Keeps r (onFst (readBlock R)) :=
    h.reading fun _ _ _ hpoll => keeps_readBlock hpoll
  refine hblock.andThen fun o => ?_
  rcases o with - | block
  · exact keeps_pure _
  · dsimp only
    split_ifs
    · exact keeps_pure _
    · exact (h.entry block pending).andThen fun _ => keeps_pure _

end Each

/-! ### The loop -/

/-- No more can come out of the reader than before. -/
abbrev Sinks (w w' : Work σ τ) : Prop := R.rank w'.1 ≤ R.rank w.1

instance : Std.Refl (Sinks (τ := τ) R) := ⟨fun _ => le_rfl⟩

instance : IsTrans (Work σ τ) (Sinks R) := ⟨fun _ _ _ h h' => h'.trans h⟩

theorem eachCall_sinks : EachCall R os mark (Sinks R) where
  poll n _ := R.keeps_poll n
  createDirAll _ _ := Keeps.onSnd (q := fun _ _ _ => True) (fun _ _ => trivial) fun _ _ _ _ => le_rfl
  writeFile parts _ _ size mode := by
    have hsnd : ∀ {α : Type} (m : σ → Act (Files τ) HostError α), Keeps (Sinks R) (onSnd m) :=
      fun m => Keeps.onSnd (q := fun _ _ _ => True) (fun _ _ => trivial) fun _ _ _ _ => le_rfl
    refine (hsnd _).andThen fun _ => (hsnd _).andThen fun f => ?_
    refine (Keeps.mapError (R.keeps_copy (fun m => ?_) ?_) _).andThen fun got => ?_
    · exact (R.keeps_poll m).onFst fun _ _ _ hs => hs
    · intro m s b s' t hr
      have hrank := R.rank_data hr
      exact (Nat.le_add_left _ _).trans hrank
    · split_ifs
      · exact keeps_throw _
      · exact keeps_pure _

variable {R} in
theorem rank_readBlock {s s' : σ} {block : Bytes} (h : readBlock R s = .ok (some block) s') :
    block.length = blockLen ∧ R.rank s' < R.rank s := by
  obtain ⟨b, mid, hgather, h⟩ := Act.bind_eq_ok h
  have hgather := mapError_eq_ok hgather
  have hrank := R.rank_gather hgather
  have hlen : b.length ≤ blockLen := R.length_gather hgather
  split_ifs at h with hnil hshort
  · cases h
  · cases h
  · cases h
    have hpos : 0 < blockLen := by decide
    omega

theorem turn_descends : Descends (fun _ w => R.rank w.1) (turn R os mark) := by
  intro pending w pending' w' h
  obtain ⟨o, mid, hblock, h⟩ := Act.bind_eq_ok h
  rcases o with - | block
  · cases h
  · dsimp only at h
    split_ifs at h
    · cases h
    · obtain ⟨p, w'', hentry, h⟩ := Act.bind_eq_ok h
      cases h
      have hlow := (rank_readBlock (onFst_eq_ok hblock).1).2
      have hsinks : Sinks R mid w' := ((eachCall_sinks R os mark).entry block pending).of_ok hentry
      exact hsinks.trans_lt hlow

/-- `extract_tar`. -/
def extractTar : Act (Work σ τ) HostError Unit :=
  loop (fun _ w => R.rank w.1) (turn R os mark) (turn_descends R os mark) {}

/-- **What every call keeps, an unpacking keeps**, whatever its outcome. -/
theorem EachCall.extractTar {r : Work σ τ → Work σ τ → Prop} [Std.Refl r] [IsTrans (Work σ τ) r]
    (h : EachCall R os mark r) : Keeps r (extractTar R os mark) :=
  Keeps.loop (fun pending => h.turn pending) {}

variable {R os mark} in
/-- **The last turn**: there is nothing more, or a block of zeros. -/
theorem turn_eq_done {p : Pending} {v v' : Work σ τ} :
    turn R os mark p v = .ok (.done ()) v' ↔ v'.2 = v.2 ∧
      (readBlock R v.1 = .ok none v'.1 ∨ ∃ block, readBlock R v.1 = .ok (some block) v'.1 ∧
        block.all (· = 0) = true) := by
  constructor
  · intro h
    obtain ⟨o, mid, hblock, h⟩ := Act.bind_eq_ok h
    obtain ⟨hblock, hfiles⟩ := onFst_eq_ok hblock
    rcases o with - | block
    · cases h
      exact ⟨hfiles, .inl hblock⟩
    · dsimp only at h
      split_ifs at h with hzero
      · cases h
        exact ⟨hfiles, .inr ⟨block, hblock, hzero⟩⟩
      · obtain ⟨p', w'', -, h⟩ := Act.bind_eq_ok h
        cases h
  · obtain ⟨s, f⟩ := v
    obtain ⟨s', f'⟩ := v'
    rintro ⟨rfl, hblock | ⟨block, hblock, hzero⟩⟩
    · rw [turn, bind_of_ok (onFst_of_ok hblock)]
      rfl
    · rw [turn, bind_of_ok (onFst_of_ok hblock)]
      dsimp only
      rw [if_pos hzero]
      rfl

/-! ### Staying inside -/

theorem stays_writeFile {parts : List Segment} (hne : parts ≠ []) (h : ∀ n ∈ parts, Plain n)
    (size mode : ℕ) : Keeps Stays (writeFile R os mark (ofParts parts) size mode) := by
  refine stays_opening mark hne h mode fun f hf => ?_
  subst hf
  refine Keeps.andThen (Keeps.mapError (R.keeps_copy (fun m => ?_) ?_) _) fun got => ?_
  · exact (R.keeps_poll m).onFst fun _ _ t _ => Std.Refl.refl (r := Confined) t
  · exact fun m s b s' t _ => keeps_perform (.write hne h b) t
  · split_ifs
    · exact keeps_throw _
    · exact keeps_pure _

theorem eachCall_stays : EachCall R os mark Stays where
  poll _ t _ := Std.Refl.refl (r := Confined) t
  createDirAll _ h := Keeps.onSnd (fun _ => keeps_createDirAll h) fun _ _ _ hs => hs
  writeFile _ hne h size mode := stays_writeFile R os mark hne h size mode

end Tar

end Hop.Runner.Extract
