import Hop.Runner.Gzip
import Hop.Runner.SafeJoin
import Hop.Lib.Lossy

/-!
# Unpacking a zip archive

`runner/src/host/extract/zip.rs`: the directory at the end of the archive says what is in it and
where. Each file is decoded from its place, and its length and checksum are compared with those in the
directory; that, and nothing else, is checked of its bytes (`extractEntry_checked`).

The archive is any file that can be read and sought in. A write is logged with the number of its
entry.
-/

namespace Hop.Runner.Extract

open Act Path

/-- Where a seek goes to. -/
inductive SeekFrom
  | start (n : ℕ)
  | fromEnd (n : ℕ)
  | current (n : ℕ)

/-- A file that can be read and sought in. -/
structure SeekReader (σ : Type) extends Reader σ where
  seek : SeekFrom → Act σ String ℕ

/-- A file with this content; its state is where it is. -/
def SeekReader.ofBytes (data : Bytes) : SeekReader ℕ where
  toReader := .cursor data
  seek
    | .start n => fun _ => .ok n n
    | .fromEnd n => fun _ => .ok (data.length + n) (data.length + n)
    | .current n => fun pos => .ok (pos + n) (pos + n)

/-- `Take`: a reader that ends after so many bytes. -/
def takeReader {σ : Type} (R : Reader σ) : Reader (σ × ℕ) where
  read n := fun p =>
    if p.2 = 0 then .ok [] p
    else
      match R.read (min n p.2) p.1 with
      | .ok b s => .ok b (s, p.2 - b.length)
      | .error e s => .error e (s, p.2)
  rank p := R.rank p.1
  length_le {n p b p'} h := by
    split_ifs at h
    · cases h
      exact Nat.zero_le n
    · rcases hr : R.read (min n p.2) p.1 with ⟨c, s⟩ | ⟨e, s⟩
      · rw [hr] at h
        cases h
        exact (R.length_le hr).trans (min_le_left n _)
      · rw [hr] at h
        cases h
  rank_data {n p b p'} h := by
    split_ifs at h
    · cases h
      exact (Nat.zero_add _).le
    · rcases hr : R.read (min n p.2) p.1 with ⟨c, s⟩ | ⟨e, s⟩
      · rw [hr] at h
        cases h
        exact R.rank_data hr
      · rw [hr] at h
        cases h
  rank_interrupted {n p p'} h := by
    split_ifs at h
    rcases hr : R.read (min n p.2) p.1 with ⟨c, s⟩ | ⟨e, s⟩
    · rw [hr] at h
      cases h
    · rw [hr] at h
      cases h
      exact R.rank_interrupted hr
  rank_failed {n p e p'} h := by
    split_ifs at h
    rcases hr : R.read (min n p.2) p.1 with ⟨c, s⟩ | ⟨e, s⟩
    · rw [hr] at h
      cases h
    · rw [hr] at h
      cases h
      exact R.rank_failed hr

namespace Zip

def eocdSig : ℕ := 0x06054b50

def loc64Sig : ℕ := 0x07064b50

def eocd64Sig : ℕ := 0x06064b50

def cdirSig : ℕ := 0x02014b50

def localSig : ℕ := 0x04034b50

def eocdLen : ℕ := 22

/-- The largest directory. -/
def maxCdir : ℕ := 64 * 2 ^ 20

/-- The buffer of a copy. -/
def copyBuf : ℕ := 64 * 2 ^ 10

def bad (why : String) : HostError := .archive "zip" why

/-! ### Little-endian fields -/

def u16 (b : Bytes) (start : ℕ) : ℕ :=
  match (b.drop start).take 2 with
  | [low, high] => low.toNat + high.toNat * 2 ^ 8
  | _ => 0

def u32 (b : Bytes) (start : ℕ) : ℕ := u16 b start + u16 b (start + 2) * 2 ^ 16

def u64 (b : Bytes) (start : ℕ) : ℕ := u32 b start + u32 b (start + 4) * 2 ^ 32

/-! ### The directory -/

/-- An entry of the central directory. -/
structure Entry where
  name : String
  method : ℕ
  flags : ℕ
  crc : ℕ
  csize : ℕ
  usize : ℕ
  offset : ℕ
  mode : Option ℕ

/-- The 64-bit values of a zip64 field, for those that do not fit their own. -/
def zip64Values (data : Bytes) (e : Entry) : Entry :=
  let take (v start : ℕ) : ℕ × ℕ :=
    if v = 0xffffffff ∧ start + 8 ≤ data.length then (u64 data start, start + 8) else (v, start)
  let usize := take e.usize 0
  let csize := take e.csize usize.2
  let offset := take e.offset csize.2
  { e with usize := usize.1, csize := csize.1, offset := offset.1 }

/-- `zip64_extra`. -/
def zip64Extra (extra : Bytes) (e : Entry) : Entry :=
  if 4 ≤ extra.length then
    let id := u16 extra 0
    let size := u16 extra 2
    if 4 + size ≤ extra.length then
      let data := (extra.drop 4).take size
      zip64Extra (extra.drop (4 + size)) (if id = 1 then zip64Values data e else e)
    else e
  else e
termination_by extra.length
decreasing_by
  rw [List.length_drop]
  omega

/-- `parse_entries`, of what is left of the directory. -/
def parseEntries : ℕ → Bytes → Except HostError (List Entry)
  | 0, _ => .ok []
  | count + 1, h => do
    if h.length < 46 ∨ u32 h 0 ≠ cdirSig then .error (bad "invalid central directory entry")
    else
      let nlen := u16 h 28
      let xlen := u16 h 30
      let clen := u16 h 32
      if h.length < 46 + nlen then .error (bad "truncated entry name")
      else if h.length < 46 + nlen + xlen then .error (bad "truncated extra field")
      else
        let name := (h.drop 46).take nlen
        let extra := (h.drop (46 + nlen)).take xlen
        let attrs := u32 h 38 / 2 ^ 16
        let e : Entry :=
          { name := fromUtf8Lossy name
            method := u16 h 10
            flags := u16 h 8
            crc := u32 h 16
            csize := u32 h 20
            usize := u32 h 24
            offset := u32 h 42
            mode := if u16 h 4 / 2 ^ 8 = 3 ∧ attrs ≠ 0 then some attrs else none }
        let rest ← parseEntries count (h.drop (46 + nlen + xlen + clen))
        .ok (zip64Extra extra e :: rest)

variable {σ : Type} (F : SeekReader σ)

def seek (pos : SeekFrom) : Act σ HostError ℕ := mapError bad (F.seek pos)

def readExact (n : ℕ) : Act σ HostError Bytes := mapError bad (F.readExact n)

/-- The number of entries, and the length and the place of the directory, from the zip64 end. -/
def zip64End (eocdAt : ℕ) : Act σ HostError (ℕ × ℕ × ℕ) := do
  ensure (20 ≤ eocdAt) (bad "missing zip64 locator")
  let _ ← seek F (.start (eocdAt - 20))
  let loc ← readExact F 20
  ensure (u32 loc 0 = loc64Sig) (bad "missing zip64 locator")
  let _ ← seek F (.start (u64 loc 8))
  let e ← readExact F 56
  ensure (u32 e 0 = eocd64Sig) (bad "invalid zip64 end of central directory")
  pure (u64 e 32, u64 e 40, u64 e 48)

/-- Where the end record begins in the last bytes: the last place that looks like one. -/
def findEocd (tail : Bytes) : Option ℕ :=
  (List.range (tail.length - eocdLen + 1)).reverse.find? fun i =>
    u32 tail i = eocdSig ∧ i + eocdLen ≤ tail.length

/-- Where the directory is, from the end record at `pos` of the last bytes. -/
def directory (tailAt pos : ℕ) (eocd : Bytes) : Act σ HostError (ℕ × ℕ × ℕ) :=
  if u16 eocd 10 = 0xffff ∨ u32 eocd 12 = 0xffffffff ∨ u32 eocd 16 = 0xffffffff then
    zip64End F (tailAt + pos)
  else pure (u16 eocd 10, u32 eocd 12, u32 eocd 16)

/-- The entries of the archive, in their order. -/
def centralDirectory : Act σ HostError (List Entry) := do
  let len ← seek F (.fromEnd 0)
  -- The end is in the last 22 bytes, with a comment of 64 KiB at most.
  let tailLen := min len (eocdLen + 0xffff)
  let tailAt := len - tailLen
  let _ ← seek F (.start tailAt)
  let tail ← readExact F tailLen
  match findEocd tail with
  | none => throw (bad "not a valid zip file")
  | some pos => do
    let (count, size, start) ← directory F tailAt pos (tail.drop pos)
    ensure (size ≤ maxCdir) (bad s!"central directory of {size} bytes exceeds {maxCdir}")
    let _ ← seek F (.start start)
    let cd ← readExact F size
    fromExcept (parseEntries count cd)

/-! ### The entries -/

/-- Eight hex digits. -/
def hex8 (n : ℕ) : String :=
  let ds := Nat.toDigits 16 n
  String.ofList (List.replicate (8 - ds.length) '0' ++ ds)

section Copy

variable {ρ : Type} (R : Reader ρ) (os : Os) (k : ℕ)

/-- One more piece: it is written, and counts for the length and the checksum. -/
def copyTurn (f : Spot) (max : ℕ) (path : PathBuf) (sum : ℕ × ℕ) :
    Act (ρ × Files ℕ) HostError (Turn (ℕ × ℕ) (ℕ × ℕ)) := do
  match ← onFst (mapError bad (R.poll copyBuf)) with
  | none => pure (.more sum)
  | some [] => pure (.done (sum.1, Crc32.sum sum.2))
  | some chunk => do
    let total := min (sum.1 + chunk.length) (2 ^ 64 - 1)
    ensure (total ≤ max) (bad s!"{path.text}: more than the declared {max} bytes")
    onSnd fun _ => mapError (.io "write" path) (perform os k (.write f chunk))
    pure (.more (total, Crc32.update sum.2 chunk))

theorem copyTurn_descends (f : Spot) (max : ℕ) (path : PathBuf) :
    Descends (fun _ p => R.rank p.1) (copyTurn R os k f max path) := by
  intro sum p sum' p' h
  obtain ⟨o, mid, hpoll, h⟩ := Act.bind_eq_ok h
  have hp := mapError_eq_ok (onFst_eq_ok hpoll).1
  rcases o with - | b
  · cases h
    exact R.rank_poll hp nofun
  · cases b with
    | nil => cases h
    | cons b bs =>
      obtain ⟨u, q, hensure, hrest⟩ := Act.bind_eq_ok h
      obtain ⟨-, rfl⟩ := ensure_eq_ok hensure
      obtain ⟨u', q', hwrite, hlast⟩ := Act.bind_eq_ok hrest
      cases hlast
      change R.rank p'.1 < R.rank p.1
      rw [(onSnd_eq_ok hwrite).2]
      exact R.rank_poll hp nofun

/-- `copy_checked`: the length and the checksum of what was written. -/
def copyChecked (f : Spot) (max : ℕ) (path : PathBuf) : Act (ρ × Files ℕ) HostError (ℕ × ℕ) :=
  loop (fun _ p => R.rank p.1) (copyTurn R os k f max path) (copyTurn_descends R os k f max path)
    (0, Crc32.new)

end Copy

variable (os : Os)

/-- The bytes of an entry, by its method. -/
def copyEntry (k : ℕ) (e : Entry) (f : Spot) (target : PathBuf) :
    Act (σ × Files ℕ) HostError (ℕ × ℕ) :=
  if e.method = 0 then
    onFstAs (fun s => (s, e.csize)) Prod.fst
      (copyChecked (takeReader F.toReader) os k f e.usize target)
  else if e.method = 8 then
    onFstAs (fun s => Deflate.new (s, e.csize)) (fun d => d.1.src.1)
      (copyChecked (Deflate.reader (takeReader F.toReader)) os k f e.usize target)
  else throw (bad s!"{e.name}: unsupported compression method {e.method}")

/-- The mode of a file. -/
def fileMode (e : Entry) : ℕ :=
  let mode := (e.mode.map (· % 512)).getD 0o666
  if mode = 0 then 0o666 else mode

/-- Go to the bytes of an entry, behind its own header. -/
def seekEntry (e : Entry) : Act σ HostError Unit := do
  let _ ← seek F (.start e.offset)
  let l ← readExact F 30
  ensure (u32 l 0 = localSig) (bad "invalid local file header")
  let _ ← seek F (.current (u16 l 26 + u16 l 28))
  pure ()

/-- Unpack one entry; `k` is the mark of what it writes. -/
def extractEntry (k : ℕ) (e : Entry) (target : PathBuf) : Act (σ × Files ℕ) HostError Unit := do
  ensure (e.flags % 2 = 0) (bad s!"{e.name}: encrypted entries are not supported")
  onFst (seekEntry F e)
  onSnd fun _ => mapError (.io "mkdir" target.parent) (createDirAll os k target.parent)
  let f ← onSnd fun _ => mapError (.io "create" target) (openFile os k target (fileMode e))
  let sum ← copyEntry F os k e f target
  ensure (sum.1 = e.usize ∧ sum.2 = e.crc)
    (bad s!"{e.name}: {sum.1} bytes with crc {hex8 sum.2}, want {e.usize} bytes with crc {hex8 e.crc}")

/-- Whether an entry is a directory. -/
def isDir (e : Entry) : Bool :=
  e.name.toList.getLast? = some '/' ∨ e.mode.any fun m => m / 2 ^ 12 % 2 ^ 4 = 4

/-- What an entry names is made. -/
def item (k : ℕ) (e : Entry) : Act (σ × Files ℕ) HostError Unit := do
  match ← fromExcept (safeJoin .zip e.name) with
  | none => pure ()
  | some target =>
    if isDir e then onSnd fun _ => mapError (.io "mkdir" target) (createDirAll os k target)
    else extractEntry F os k e target

/-- The entries in their order, with those that are done. -/
def extractEntries : ℕ → List Entry → Act (Work σ ℕ × List Entry) HostError Unit
  | _, [] => pure ()
  | k, e :: rest => do
    onFst (item F os k e)
    onSnd fun _ => modify (· ++ [e])
    extractEntries (k + 1) rest

/-- `extract_zip`, of an archive that is open. -/
def extractZip : Act (Work σ ℕ × List Entry) HostError Unit := do
  let entries ← onFst (onFst (centralDirectory F))
  extractEntries F os 1 entries

/-- Whether these are the bytes of an entry, by its length and its checksum. -/
def Entry.intact (e : Entry) (text : Bytes) : Bool :=
  min text.length (2 ^ 64 - 1) = e.usize ∧ Crc32.sum (Crc32.update Crc32.new text) = e.crc

/-- Whether what was written of the entry with this number is intact, of those that are done. -/
def intact (done : List Entry) (log : List (ℕ × Effect)) : ℕ → Bool
  | 0 => false
  | k + 1 => (done[k]?).any fun e => e.intact (written (k + 1) log)

/-! ### Staying inside -/

section Stays

variable {F os}

theorem stays_onFst {τ α : Type} (m : Act σ HostError α) : Keeps Stays (onFst (T := Files τ) m) :=
  Keeps.onFst_of fun t _ => Std.Refl.refl (r := Confined) t

theorem stays_copyChecked {ρ : Type} (R : Reader ρ) {k : ℕ} {parts : List Segment} (hne : parts ≠ [])
    (h : ∀ n ∈ parts, Plain n) (max : ℕ) (path : PathBuf) :
    Keeps Stays (copyChecked R os k (.at parts) max path) := by
  refine Keeps.loop (fun sum => (stays_onFst _).andThen fun o => ?_) _
  rcases o with - | b
  · exact keeps_pure _
  · cases b with
    | nil => exact keeps_pure _
    | cons b bs =>
      have hinside : (Effect.write (.at parts) (b :: bs)).Inside := .write hne h _
      refine (keeps_ensure _ _).andThen fun _ => ?_
      exact (Keeps.onSnd (fun _ => (keeps_perform hinside).mapError _)
        fun _ _ _ hs => hs).andThen fun _ => keeps_pure _

theorem stays_onFstAs {ρ τ α : Type} {into : σ → ρ} {back : ρ → σ} {m : Act (Work ρ τ) HostError α}
    (h : Keeps Stays m) : Keeps (Stays (τ := τ)) (onFstAs into back m) := by
  rintro ⟨s, t⟩
  have hs := h (into s, t)
  rw [onFstAs]
  dsimp only
  rcases hm : m (into s, t) with ⟨a, q⟩ | ⟨e, q⟩
  · rwa [hm] at hs
  · rwa [hm] at hs

theorem stays_extractEntry (k : ℕ) (e : Entry) {parts : List Segment} (hne : parts ≠ [])
    (h : ∀ n ∈ parts, Plain n) : Keeps Stays (extractEntry F os k e (ofParts parts)) := by
  refine (keeps_ensure _ _).andThen fun _ => (stays_onFst _).andThen fun _ => ?_
  refine stays_opening (fun _ => k) hne h (fileMode e) fun f hf => ?_
  subst hf
  refine Keeps.andThen ?_ fun sum => keeps_ensure _ _
  rw [copyEntry]
  split_ifs
  · exact stays_onFstAs (stays_copyChecked _ hne h _ _)
  · exact stays_onFstAs (stays_copyChecked _ hne h _ _)
  · exact keeps_throw _

theorem stays_item (k : ℕ) (e : Entry) : Keeps Stays (item F os k e) := by
  refine (keeps_fromExcept _).bind fun w target w' htarget => ?_
  rcases target with - | path
  · exact keeps_pure _ w'
  · obtain ⟨parts, hne, h, rfl⟩ := safeJoin_eq_some (fromExcept_eq_ok htarget).1
    dsimp only
    split_ifs
    · exact stays_createDirAll (fun _ => k) h _ w'
    · exact stays_extractEntry k e hne h w'

/-- **Unpacking a zip archive stays inside.** -/
theorem stays_extractZip : Keeps (fun p q => Stays p.1 q.1) (extractZip F os) := by
  have : Std.Refl fun p q : Work σ ℕ × List Entry => Stays p.1 q.1 := ⟨fun p => Std.Refl.refl p.1⟩
  have : IsTrans (Work σ ℕ × ℕ) fun p q => Stays p.1 q.1 :=
    ⟨fun _ _ _ h h' => trans_of Stays h h'⟩
  have hentries : ∀ (k : ℕ) (es : List Entry),
      Keeps (fun p q => Stays p.1 q.1) (extractEntries F os k es) := by
    intro k es
    induction es generalizing k with
    | nil => exact keeps_pure ()
    | cons e es ih =>
      refine ((stays_item k e).onFst fun _ _ _ hs => hs).andThen fun _ => ?_
      refine Keeps.andThen (fun p => ?_) fun _ => ih (k + 1)
      exact Std.Refl.refl (r := Stays) p.1
  exact ((stays_onFst _).onFst fun _ _ _ hs => hs).andThen fun es => hentries 1 es

end Stays

end Zip

end Hop.Runner.Extract
