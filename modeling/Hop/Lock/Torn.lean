import Hop.Lock.Volume

/-!
# Torn records

What the store on a volume is worth if the volume is ideal: it answers as the store in memory does.
A record that a power failure cut to any strict prefix counts as absent. It still lies there, and
only a removal can tell: without a condition it succeeds, and an `If-Match` fails as it does on a
record with another ETag, not as on a key that is not there.
-/

namespace Hop.Lock

/-- The path lies below this directory. -/
def Below (dir path : String) : Prop := dir.toList ++ ['/'] <+: path.toList

instance (dir path : String) : Decidable (Below dir path) :=
  inferInstanceAs (Decidable (dir.toList ++ ['/'] <+: path.toList))

/-- A volume that loses nothing: directories are those above a file, and a read may yield less than
it was asked for, but not nothing. `cut` is a power failure in the middle of a write. -/
class IdealVolume (V : Type) extends Volume V where
  /-- The files by their paths. -/
  files : V → String → Option Bytes
  IsDir : V → String → Prop
  cut : V → (path : String) → (n : ℕ) → V
  chunk_pos : 0 < chunk
  files_size : ∀ v p, files (size v p).2 = files v
  isDir_size : ∀ v p, IsDir (size v p).2 = IsDir v
  size_file : ∀ v p c, files v p = some c → (size v p).1 = .ok (some c.length)
  size_missing : ∀ v p, files v p = none → ¬ IsDir v p → (size v p).1 = .ok none
  files_readAt : ∀ v p off want, files (readAt v p off want).2 = files v
  isDir_readAt : ∀ v p off want, IsDir (readAt v p off want).2 = IsDir v
  readAt_file : ∀ v p c off want, files v p = some c → off < c.length → 0 < want → want ≤ chunk →
    ∃ bs, (readAt v p off want).1 = .ok bs ∧ bs.val ≠ [] ∧ bs.val <+: c.drop off
  replace_ok : ∀ v p data, ¬ IsDir v p → (∀ q, Below q p → files v q = none) →
    (replace v p data).1 = .ok () ∧ files (replace v p data).2 = Function.update (files v) p (some data)
  isDir_replace : ∀ v p data q, IsDir (replace v p data).2 q → IsDir v q ∨ Below q p
  remove_ok : ∀ v p c, files v p = some c → (remove v p).1 = .ok true ∧
    files (remove v p).2 = Function.update (files v) p none
  isDir_remove : ∀ v p q, IsDir (remove v p).2 q → IsDir v q
  files_cut : ∀ v p n, files (cut v p n) = Function.update (files v) p ((files v p).map (List.take n))
  isDir_cut : ∀ v p n q, IsDir (cut v p n) q → IsDir v q

/-! ### Histories -/

/-- What happens to a store: operations, and a record that is cut to its first `n` bytes. -/
inductive Event
  | op (op : Op)
  | cut (key : Key) (n : ℕ)

def Event.key : Event → Key
  | .op o => o.key
  | .cut key _ => key

def Event.isCut : Event → Bool
  | .op _ => false
  | .cut _ _ => true

/-- The body of a write fits a request. -/
def Event.Bounded : Event → Prop
  | .op (.put _ body _) => body.length ≤ maxBody
  | _ => True

/-- The answers along a history; a cut has none. -/
def answers {S : Type} (step : S → Event → Option Done × S) : S → List Event → List (Option Done)
  | _, [] => []
  | s, e :: es => (step s e).1 :: answers step (step s e).2 es

/-- The store after a history. -/
def after {S : Type} (step : S → Event → Option Done × S) : S → List Event → S
  | s, [] => s
  | s, e :: es => after step (step s e).2 es

namespace VolumeStore

variable {V : Type} [IdealVolume V]

def step (sha256 : Bytes → Digest) (s : VolumeStore V) : Event → Option Done × VolumeStore V
  | .op op => (some ((store sha256).run s op).1, ((store sha256).run s op).2)
  | .cut key n => (none, { s with vol := IdealVolume.cut s.vol (s.path key) n })

/-- Nothing is on the volume yet. -/
def Blank (s : VolumeStore V) : Prop :=
  (∀ p, IdealVolume.files s.vol p = none) ∧ ∀ p, ¬ IdealVolume.IsDir s.vol p

end VolumeStore

/-- The store in memory, for which a cut removes the key. -/
def MemStore.step (sha256 : Bytes → Digest) (m : MemStore) : Event → Option Done × MemStore
  | .op o => (some ((MemStore.store sha256).run m o).1, ((MemStore.store sha256).run m o).2)
  | .cut key n =>
    match m.at? key with
    | some obj => (none, if n < header + obj.body.length then m.remove key else m)
    | none => (none, m)

/-- The store in memory, and the keys under which half a record lies. -/
structure TornStore where
  mem : MemStore
  torn : List Key

namespace TornStore

def new : TornStore := ⟨.new, []⟩

/-- The keys with half a record after an event that leaves `mem`. -/
def tornAfter (t : TornStore) (mem : MemStore) : Event → List Key
  | .op (.get _) => t.torn
  | .op (.put key _ _) => if (mem.at? key).isSome then t.torn.filter (· ≠ key) else t.torn
  | .op (.delete key cond) => if cond.ifMatch = "" then t.torn.filter (· ≠ key) else t.torn
  | .cut key _ => if (t.mem.at? key).isSome ∧ mem.at? key = none then key :: t.torn else t.torn

/-- The answer to an event that the store in memory answers so: only the removal of half a record
is answered otherwise. -/
def answer (t : TornStore) (plain : Option Done) : Event → Option Done
  | .op (.delete key cond) =>
    if key ∈ t.torn then
      some (.delete (if cond.ifMatch = "" then .ok () else .error .precondition))
    else plain
  | _ => plain

def step (sha256 : Bytes → Digest) (t : TornStore) (e : Event) : Option Done × TornStore :=
  let (plain, mem) := t.mem.step sha256 e
  (t.answer plain e, ⟨mem, t.tornAfter mem e⟩)

end TornStore

/-! ### A record is read whole -/

section

variable {V : Type} [IdealVolume V]

open IdealVolume (files IsDir)

/-- The files and the directories are the same. -/
def SameFiles (v v' : V) : Prop := files v' = files v ∧ IsDir v' = IsDir v

theorem readRest_eq {path : String} {c : Bytes} {rounds : ℕ} {v : V} {buf : Bytes}
    (hfile : files v path = some c) (hbuf : buf <+: c) (hrounds : c.length ≤ buf.length + rounds) :
    ∃ v', VolumeStore.readRest path c.length rounds v buf = (.ok (some c), v') ∧
      SameFiles v v' := by
  have hdone : ¬ buf.length < c.length → buf = c := fun h =>
    hbuf.eq_of_length (le_antisymm hbuf.length_le (by omega))
  induction rounds generalizing v buf with
  | zero =>
    refine ⟨v, ?_, rfl, rfl⟩
    rw [VolumeStore.readRest, hdone (by omega)]
  | succ rounds ih =>
    unfold VolumeStore.readRest
    by_cases hlt : buf.length < c.length
    · rw [if_pos hlt]
      dsimp only
      have hchunk := IdealVolume.chunk_pos (V := V)
      set want := min c.length (buf.length + Volume.chunk V) - buf.length with hwant
      obtain ⟨bs, hread, hne, hinitial⟩ := IdealVolume.readAt_file v path c buf.length want hfile hlt
        (by omega) (by omega)
      have hfiles := IdealVolume.files_readAt v path buf.length want
      have hdirs := IdealVolume.isDir_readAt v path buf.length want
      generalize hr : Volume.readAt v path buf.length want = r at hread hfiles hdirs
      obtain ⟨result, v'⟩ := r
      obtain rfl : result = .ok bs := hread
      dsimp only
      rw [if_neg hne]
      have hgrown : buf ++ bs.val <+: c := by
        obtain ⟨rest, hrest⟩ := hinitial
        refine ⟨rest, ?_⟩
        rw [List.append_assoc, hrest]
        conv_rhs => rw [← List.take_append_drop buf.length c]
        rw [← List.prefix_iff_eq_take.mp hbuf]
      have hpos := List.length_pos_of_ne_nil hne
      have hlen : (buf ++ bs.val).length = buf.length + bs.val.length := List.length_append
      obtain ⟨v'', heq, hsame⟩ := ih (v := v') (hfiles ▸ hfile) hgrown
        (by omega) (fun h => hgrown.eq_of_length (le_antisymm hgrown.length_le (by omega)))
      exact ⟨v'', heq, hsame.1.trans hfiles, hsame.2.trans hdirs⟩
    · rw [if_neg hlt, hdone hlt]
      exact ⟨v, rfl, rfl, rfl⟩

/-! ### The volume and the memory agree -/

/-- No key is a directory of another one. -/
def PrefixFree (keys : Key → Prop) : Prop :=
  ∀ k k', keys k → keys k' → ¬ Below k.text k'.text

variable {sha256 : Bytes → Digest} {keys : Key → Prop} {s s' : VolumeStore V} {t : TornStore}
  {key : Key}

omit [IdealVolume V] in
theorem path_injective {k k' : Key} (h : s.path k = s.path k') : k = k' := by
  have := congrArg String.toList h
  simp only [VolumeStore.path, String.toList_append, List.append_cancel_left_eq] at this
  exact Key.ext (String.toList_injective this)

omit [IdealVolume V] in
theorem below_path {k k' : Key} : Below (s.path k) (s.path k') ↔ Below k.text k'.text := by
  simp only [Below, VolumeStore.path, String.toList_append, List.append_assoc,
    List.prefix_append_right_inj]

/-- What lies at the path of a key: the record of the object in memory, half a record, or
nothing. -/
def Lies (sha256 : Bytes → Digest) (t : TornStore) (key : Key) (file : Option Bytes) : Prop :=
  match t.mem.at? key with
  | some obj => file = some (record sha256 obj.body) ∧ obj.etag = Etag.of sha256 obj.body ∧
      obj.body.length ≤ maxBody ∧ key ∉ t.torn
  | none =>
    if key ∈ t.torn then ∃ body n, body.length ≤ maxBody ∧ n < header + body.length ∧
      file = some ((record sha256 body).take n)
    else file = none

/-- The volume holds the records of the store in memory, half records, and nothing else. -/
structure Agrees (sha256 : Bytes → Digest) (keys : Key → Prop) (s : VolumeStore V)
    (t : TornStore) : Prop where
  lies : ∀ key, keys key → Lies sha256 t key (files s.vol (s.path key))
  file : ∀ p c, files s.vol p = some c → ∃ key, keys key ∧ p = s.path key
  dir : ∀ p, IsDir s.vol p → ∃ key, keys key ∧ Below p (s.path key)

theorem VolumeStore.Blank.agrees (h : s.Blank) : Agrees sha256 keys s .new where
  lies key _ := by simp [Lies, TornStore.new, h.1]
  file p c hfile := by simp [h.1] at hfile
  dir p hdir := absurd hdir (h.2 p)

/-- The path of a key is no directory. -/
theorem Agrees.not_dir (h : Agrees sha256 keys s t) (hfree : PrefixFree keys) (hkey : keys key) :
    ¬ IsDir s.vol (s.path key) := by
  intro hdir
  obtain ⟨k, hk, hbelow⟩ := h.dir _ hdir
  exact hfree key k hkey hk (below_path.mp hbelow)

/-- No directory above the path of a key is a file. -/
theorem Agrees.above (h : Agrees sha256 keys s t) (hfree : PrefixFree keys) (hkey : keys key)
    (q : String) (hq : Below q (s.path key)) : files s.vol q = none := by
  cases hfile : files s.vol q with
  | none => rfl
  | some c =>
    obtain ⟨k, hk, rfl⟩ := h.file q c hfile
    exact absurd (below_path.mp hq) (hfree k key hk hkey)

theorem Agrees.congr (h : Agrees sha256 keys s t) (hroot : s'.root = s.root)
    (hsame : SameFiles s.vol s'.vol) : Agrees sha256 keys s' t := by
  have hpath : s'.path = s.path := by
    funext k
    simp [VolumeStore.path, hroot]
  refine ⟨fun k hk => ?_, fun p c hfile => ?_, fun p hdir => ?_⟩
  · rw [hsame.1, hpath]
    exact h.lies k hk
  · rw [hpath]
    exact h.file p c (hsame.1 ▸ hfile)
  · rw [hpath]
    exact h.dir p (hsame.2 ▸ hdir)

/-- What an operation finds under a key. -/
def TornStore.stored (t : TornStore) (key : Key) : Stored :=
  match t.mem.at? key with
  | some obj => .valid obj
  | none => if key ∈ t.torn then .corrupt else .missing

theorem maxBody_lt : header + maxBody < 2 ^ 32 := by decide

/-- A file of a bounded size is read and checked. -/
theorem load_file (sha256 : Bytes → Digest) {c : Bytes} (hfile : files s.vol (s.path key) = some c) :
    ∃ s', s.load sha256 key (s.path key) =
        (.ok (if c.length < header ∨ header + maxBody < c.length then .corrupt
          else match openRecord sha256 c with
            | some obj => .valid obj
            | none => .corrupt), s') ∧ s'.root = s.root ∧ SameFiles s.vol s'.vol := by
  have hsize := IdealVolume.size_file s.vol (s.path key) c hfile
  have hfiles := IdealVolume.files_size s.vol (s.path key)
  have hdirs := IdealVolume.isDir_size s.vol (s.path key)
  unfold VolumeStore.load
  generalize hr : Volume.size s.vol (s.path key) = r at hsize hfiles hdirs
  obtain ⟨result, v⟩ := r
  obtain rfl : result = .ok (some c.length) := hsize
  dsimp only
  by_cases hbound : c.length < header ∨ header + maxBody < c.length
  · rw [if_pos hbound, if_pos hbound]
    exact ⟨_, rfl, rfl, hfiles, hdirs⟩
  · rw [if_neg hbound, if_neg hbound]
    have hempty : c.length ≤ ([] : Bytes).length + c.length := by simp
    obtain ⟨v', hread, hsame⟩ := readRest_eq (v := v) (hfiles ▸ hfile) List.nil_prefix hempty
    rw [hread]
    dsimp only
    have hall : SameFiles s.vol v' := ⟨hsame.1.trans hfiles, hsame.2.trans hdirs⟩
    cases openRecord sha256 c with
    | none => exact ⟨_, rfl, rfl, hall⟩
    | some obj => exact ⟨_, rfl, rfl, hall⟩

/-- Every operation finds the object in memory, half a record, or nothing. -/
theorem Agrees.load_eq (h : Agrees sha256 keys s t) (hfree : PrefixFree keys) (hkey : keys key) :
    ∃ s', s.load sha256 key (s.path key) = (.ok (t.stored key), s') ∧ s'.root = s.root ∧
      SameFiles s.vol s'.vol := by
  have hbound := maxBody_lt
  have hlies := h.lies key hkey
  unfold Lies at hlies
  unfold TornStore.stored
  cases hobj : t.mem.at? key with
  | some obj =>
    simp only [hobj] at hlies
    obtain ⟨hfile, hetag, hlen, -⟩ := hlies
    obtain ⟨s', hload, hroot, hsame⟩ := load_file sha256 hfile
    refine ⟨s', ?_, hroot, hsame⟩
    rw [hload, length_record, if_neg (by omega), openRecord_record (by omega), ← hetag]
  | none =>
    simp only [hobj] at hlies
    by_cases htorn : key ∈ t.torn
    · rw [if_pos htorn] at hlies
      obtain ⟨body, n, hlen, hn, hfile⟩ := hlies
      obtain ⟨s', hload, hroot, hsame⟩ := load_file sha256 hfile
      refine ⟨s', ?_, hroot, hsame⟩
      rw [hload, openRecord_take (by omega) hn]
      simp [htorn]
    · rw [if_neg htorn] at hlies
      have hsize := IdealVolume.size_missing s.vol _ hlies (h.not_dir hfree hkey)
      have hfiles := IdealVolume.files_size s.vol (s.path key)
      have hdirs := IdealVolume.isDir_size s.vol (s.path key)
      unfold VolumeStore.load
      generalize hr : Volume.size s.vol (s.path key) = r at hsize hfiles hdirs
      obtain ⟨result, v⟩ := r
      obtain rfl : result = .ok none := hsize
      simp only [htorn, if_false]
      exact ⟨_, rfl, rfl, hfiles, hdirs⟩

/-- One file changes with what the store in memory says of its key. -/
theorem Agrees.change (h : Agrees sha256 keys s t) (hkey : keys key) {t' : TornStore}
    {file : Option Bytes} (hroot : s'.root = s.root)
    (hfiles : files s'.vol = Function.update (files s.vol) (s.path key) file)
    (hdirs : ∀ q, IsDir s'.vol q → IsDir s.vol q ∨ Below q (s.path key))
    (hlies : Lies sha256 t' key file)
    (hrest : ∀ k, k ≠ key → t'.mem.at? k = t.mem.at? k ∧ (k ∈ t'.torn ↔ k ∈ t.torn)) :
    Agrees sha256 keys s' t' := by
  have hpath : s'.path = s.path := by
    funext k
    simp [VolumeStore.path, hroot]
  refine ⟨fun k hk => ?_, fun p c hfile => ?_, fun p hdir => ?_⟩
  · rw [hfiles, hpath]
    by_cases heq : k = key
    · rw [heq, Function.update_self]
      exact hlies
    · rw [Function.update_of_ne (fun hp => heq (path_injective hp))]
      have := h.lies k hk
      unfold Lies at this ⊢
      rw [(hrest k heq).1]
      simpa only [(hrest k heq).2] using this
  · rw [hpath]
    by_cases heq : p = s.path key
    · exact ⟨key, hkey, heq⟩
    · rw [hfiles, Function.update_of_ne heq] at hfile
      exact h.file p c hfile
  · rw [hpath]
    rcases hdirs p hdir with hdir | hbelow
    · exact h.dir p hdir
    · exact ⟨key, hkey, hbelow⟩

/-- The record of a body is written. -/
theorem Agrees.write_eq (h : Agrees sha256 keys s t) (hfree : PrefixFree keys) (hkey : keys key)
    {body : Bytes} (hbody : body.length ≤ maxBody) :
    (s.write sha256 key body).1 = .ok (Etag.of sha256 body) ∧
      Agrees sha256 keys (s.write sha256 key body).2
        ⟨t.mem.insert key ⟨body, Etag.of sha256 body⟩, t.torn.filter (· ≠ key)⟩ := by
  have hbound := maxBody_lt
  obtain ⟨hok, hfiles⟩ := IdealVolume.replace_ok s.vol (s.path key) (record sha256 body)
    (h.not_dir hfree hkey) (h.above hfree hkey)
  have hdirs := IdealVolume.isDir_replace s.vol (s.path key) (record sha256 body)
  unfold VolumeStore.write
  rw [sealRecord_eq (by omega)]
  dsimp only
  generalize hr : Volume.replace s.vol (s.path key) (record sha256 body) = r at hok hfiles hdirs
  obtain ⟨result, v⟩ := r
  obtain rfl : result = .ok () := hok
  refine ⟨rfl, h.change hkey rfl hfiles hdirs ?_ fun k hk => ?_⟩
  · simp [Lies, hbody]
  · simp [hk, Ne.symm hk]

/-- The file of a key is removed. -/
theorem Agrees.unlink_eq (h : Agrees sha256 keys s t) (hkey : keys key) {c : Bytes}
    (hfile : files s.vol (s.path key) = some c) :
    (s.unlink key).1 = .ok () ∧
      Agrees sha256 keys (s.unlink key).2 ⟨t.mem.remove key, t.torn.filter (· ≠ key)⟩ := by
  obtain ⟨hok, hfiles⟩ := IdealVolume.remove_ok s.vol (s.path key) c hfile
  have hdirs := IdealVolume.isDir_remove s.vol (s.path key)
  unfold VolumeStore.unlink
  generalize hr : Volume.remove s.vol (s.path key) = r at hok hfiles hdirs
  obtain ⟨result, v⟩ := r
  obtain rfl : result = .ok true := hok
  refine ⟨rfl, h.change hkey rfl hfiles (fun q hq => .inl (hdirs q hq)) ?_ fun k hk => ?_⟩
  · simp [Lies]
  · simp [hk, Ne.symm hk]

/-! ### Every operation answers alike -/

theorem filter_ne_of_not_mem {torn : List Key} (h : key ∉ torn) :
    torn.filter (· ≠ key) = torn := by
  refine List.filter_eq_self.mpr fun k hk => ?_
  simpa using fun heq : k = key => h (heq ▸ hk)

theorem Agrees.not_torn (h : Agrees sha256 keys s t) (hkey : keys key) {obj : Object}
    (hobj : t.mem.at? key = some obj) : key ∉ t.torn := by
  have hlies := h.lies key hkey
  simp only [Lies, hobj] at hlies
  exact hlies.2.2.2

theorem Agrees.get_eq (h : Agrees sha256 keys s t) (hfree : PrefixFree keys) (hkey : keys key) :
    (s.get sha256 key).1 = (t.mem.get key).1 ∧ (t.mem.get key).2 = t.mem ∧
      Agrees sha256 keys (s.get sha256 key).2 t := by
  obtain ⟨s', hload, hroot, hsame⟩ := h.load_eq hfree hkey
  have hagrees := h.congr hroot hsame
  unfold VolumeStore.get MemStore.get
  rw [hload]
  unfold TornStore.stored
  cases t.mem.at? key with
  | some obj => exact ⟨rfl, rfl, hagrees⟩
  | none =>
    by_cases htorn : key ∈ t.torn
    · simpa only [htorn, if_true, true_and] using hagrees
    · simpa only [htorn, if_false, true_and] using hagrees

theorem Agrees.putIf_eq (h : Agrees sha256 keys s t) (hfree : PrefixFree keys) (hkey : keys key)
    {body : Bytes} (hbody : body.length ≤ maxBody) (cond : Condition) :
    (s.putIf sha256 key body cond).1 = (t.mem.putIf sha256 key body cond).1 ∧
      Agrees sha256 keys (s.putIf sha256 key body cond).2
        ⟨(t.mem.putIf sha256 key body cond).2,
          t.tornAfter (t.mem.putIf sha256 key body cond).2 (.op (.put key body cond))⟩ := by
  obtain ⟨s', hload, hroot, hsame⟩ := h.load_eq hfree hkey
  have hagrees := h.congr hroot hsame
  have hcurrent : (t.stored key).etag? = (t.mem.at? key).map Object.etag := by
    unfold TornStore.stored
    cases t.mem.at? key with
    | some obj => rfl
    | none => by_cases htorn : key ∈ t.torn <;> simp [htorn, Stored.etag?]
  unfold VolumeStore.putIf MemStore.putIf
  rw [hload]
  dsimp only
  rw [hcurrent]
  cases hcheck : checkPut ((t.mem.at? key).map Object.etag) cond with
  | error e =>
    refine ⟨rfl, ?_⟩
    simp only [TornStore.tornAfter]
    cases hobj : t.mem.at? key with
    | none => exact hagrees
    | some obj =>
      simp only [Option.isSome_some, if_true, filter_ne_of_not_mem (h.not_torn hkey hobj)]
      exact hagrees
  | ok u =>
    obtain ⟨hok, hwritten⟩ := hagrees.write_eq hfree hkey hbody
    refine ⟨hok, ?_⟩
    simpa only [TornStore.tornAfter, MemStore.at?_insert, if_true, Option.isSome_some] using hwritten

theorem MemStore.remove_of_none {m : MemStore} (h : m.at? key = none) : m.remove key = m := by
  rw [MemStore.remove, SortedMap.erase_of_none h]

/-- A key that the store in memory or a half record has, has a file. -/
theorem Agrees.exists_file (h : Agrees sha256 keys s t) (hkey : keys key)
    (hstored : t.stored key ≠ .missing) : ∃ c, files s.vol (s.path key) = some c := by
  have hlies := h.lies key hkey
  unfold Lies at hlies
  unfold TornStore.stored at hstored
  cases hobj : t.mem.at? key with
  | some obj =>
    simp only [hobj] at hlies
    exact ⟨_, hlies.1⟩
  | none =>
    simp only [hobj] at hlies hstored
    by_cases htorn : key ∈ t.torn
    · rw [if_pos htorn] at hlies
      obtain ⟨body, n, -, -, hfile⟩ := hlies
      exact ⟨_, hfile⟩
    · rw [if_neg htorn] at hstored
      exact absurd rfl hstored

theorem Agrees.delete_eq (h : Agrees sha256 keys s t) (hfree : PrefixFree keys) (hkey : keys key)
    (cond : Condition) :
    some (Done.delete (s.delete sha256 key cond).1) =
        t.answer (some (.delete (t.mem.delete key cond).1)) (.op (.delete key cond)) ∧
      Agrees sha256 keys (s.delete sha256 key cond).2
        ⟨(t.mem.delete key cond).2,
          t.tornAfter (t.mem.delete key cond).2 (.op (.delete key cond))⟩ := by
  obtain ⟨s', hload, hroot, hsame⟩ := h.load_eq hfree hkey
  have hagrees := h.congr hroot hsame
  unfold VolumeStore.delete MemStore.delete TornStore.answer TornStore.tornAfter
  rw [hload]
  cases hobj : t.mem.at? key with
  | some obj =>
    have htorn := h.not_torn hkey hobj
    have hstored : t.stored key = .valid obj := by simp [TornStore.stored, hobj]
    rw [hstored]
    simp only [if_neg htorn, filter_ne_of_not_mem htorn, ite_self]
    cases checkDelete obj.etag cond with
    | error e => exact ⟨rfl, hagrees⟩
    | ok u =>
      obtain ⟨c, hfile⟩ := hagrees.exists_file hkey (by simp [hstored])
      obtain ⟨hok, hgone⟩ := hagrees.unlink_eq hkey hfile
      rw [filter_ne_of_not_mem htorn] at hgone
      exact ⟨congrArg (fun r => some (Done.delete r)) hok, hgone⟩
  | none =>
    by_cases htorn : key ∈ t.torn
    · have hstored : t.stored key = .corrupt := by simp [TornStore.stored, hobj, htorn]
      rw [hstored]
      simp only [if_pos htorn]
      by_cases hcond : cond.ifMatch = ""
      · simp only [hcond, ne_eq, not_true_eq_false, if_false, if_true]
        obtain ⟨c, hfile⟩ := hagrees.exists_file hkey (by simp [hstored])
        obtain ⟨hok, hgone⟩ := hagrees.unlink_eq hkey hfile
        rw [MemStore.remove_of_none hobj] at hgone
        exact ⟨congrArg (fun r => some (Done.delete r)) hok, hgone⟩
      · simpa only [hcond, ne_eq, not_false_eq_true, if_true, if_false, true_and] using hagrees
    · have hstored : t.stored key = .missing := by simp [TornStore.stored, hobj, htorn]
      rw [hstored]
      simpa only [if_neg htorn, filter_ne_of_not_mem htorn, ite_self, true_and] using hagrees

/-- A cut leaves half a record, unless it is behind its end. -/
theorem Agrees.cut_eq (h : Agrees sha256 keys s t) (hkey : keys key) (n : ℕ) :
    Agrees sha256 keys { s with vol := IdealVolume.cut s.vol (s.path key) n }
      ⟨(t.mem.step sha256 (.cut key n)).2,
        t.tornAfter (t.mem.step sha256 (.cut key n)).2 (.cut key n)⟩ := by
  have hfiles := IdealVolume.files_cut s.vol (s.path key) n
  have hdirs := IdealVolume.isDir_cut s.vol (s.path key) n
  have hlies := h.lies key hkey
  refine h.change hkey rfl hfiles (fun q hq => .inl (hdirs q hq)) ?_ fun k hk => ?_
  · unfold Lies at hlies ⊢
    cases hobj : t.mem.at? key with
    | some obj =>
      simp only [hobj] at hlies
      obtain ⟨hfile, hetag, hlen, htorn⟩ := hlies
      by_cases hn : n < header + obj.body.length
      · simp only [MemStore.step, hobj, hn, if_true, MemStore.at?_remove, TornStore.tornAfter,
          Option.isSome_some, and_self, List.mem_cons_self]
        exact ⟨obj.body, n, hlen, hn, by rw [hfile, Option.map_some]⟩
      · simp only [MemStore.step, hobj, hn, if_false, TornStore.tornAfter]
        refine ⟨?_, hetag, hlen, by simpa using htorn⟩
        rw [hfile, Option.map_some, List.take_of_length_le]
        rw [length_record]
        omega
    | none =>
      simp only [hobj] at hlies
      simp only [MemStore.step, hobj, TornStore.tornAfter, Option.isSome_none]
      by_cases htorn : key ∈ t.torn
      · rw [if_pos htorn] at hlies
        obtain ⟨body, m, hlen, hm, hfile⟩ := hlies
        simp only [Bool.false_eq_true, false_and, if_false, if_pos htorn]
        refine ⟨body, min n m, hlen, by omega, ?_⟩
        rw [hfile, Option.map_some, List.take_take]
      · rw [if_neg htorn] at hlies
        simp [htorn, hlies]
  · cases hobj : t.mem.at? key with
    | none => simp [MemStore.step, TornStore.tornAfter, hobj]
    | some obj =>
      by_cases hn : n < header + obj.body.length
      · simp [MemStore.step, TornStore.tornAfter, hobj, hn, hk, Ne.symm hk]
      · simp [MemStore.step, TornStore.tornAfter, hobj, hn]

theorem Agrees.step (h : Agrees sha256 keys s t) (hfree : PrefixFree keys) {e : Event}
    (hkey : keys e.key) (hbody : e.Bounded) :
    (s.step sha256 e).1 = (t.step sha256 e).1 ∧
      Agrees sha256 keys (s.step sha256 e).2 (t.step sha256 e).2 := by
  cases e with
  | op o =>
    cases o with
    | get key =>
      have hkey : keys key := hkey
      obtain ⟨hanswer, hmem, hagrees⟩ := h.get_eq hfree hkey
      refine ⟨congrArg (fun r => some (Done.get r)) hanswer, ?_⟩
      change Agrees sha256 keys (s.get sha256 key).2 ⟨(t.mem.get key).2, t.torn⟩
      rw [hmem]
      exact hagrees
    | put key body cond =>
      obtain ⟨hanswer, hagrees⟩ := h.putIf_eq hfree hkey hbody cond
      exact ⟨congrArg (fun r => some (Done.put r)) hanswer, hagrees⟩
    | delete key cond => exact h.delete_eq hfree hkey cond
  | cut key n =>
    refine ⟨?_, h.cut_eq hkey n⟩
    simp only [VolumeStore.step, TornStore.step, TornStore.answer, MemStore.step]
    cases t.mem.at? key <;> rfl

theorem Agrees.answers_eq (h : Agrees sha256 keys s t) (hfree : PrefixFree keys) {es : List Event}
    (hes : ∀ e ∈ es, keys e.key ∧ e.Bounded) :
    answers (VolumeStore.step sha256) s es = answers (TornStore.step sha256) t es := by
  induction es generalizing s t with
  | nil => rfl
  | cons e es ih =>
    obtain ⟨hkey, hbody⟩ := hes e List.mem_cons_self
    obtain ⟨hanswer, hagrees⟩ := h.step hfree hkey hbody
    rw [answers, answers, hanswer, ih hagrees fun e' he' => hes e' (List.mem_cons_of_mem e he')]

end

/-! ### The store in memory -/

section

variable {sha256 : Bytes → Digest}

/-- Without a cut there is no half record, and every answer is that of the store in memory. -/
theorem TornStore.answers_of_no_cut {t : TornStore} {es : List Event} (ht : t.torn = [])
    (hes : ∀ e ∈ es, e.isCut = false) :
    answers (TornStore.step sha256) t es = answers (MemStore.step sha256) t.mem es := by
  induction es generalizing t with
  | nil => rfl
  | cons e es ih =>
    have hcut := hes e List.mem_cons_self
    have hanswer : t.answer (t.mem.step sha256 e).1 e = (t.mem.step sha256 e).1 := by
      cases e with
      | op o => cases o <;> simp [TornStore.answer, ht]
      | cut key n => cases hcut
    have htorn : t.tornAfter (t.mem.step sha256 e).2 e = [] := by
      cases e with
      | op o => cases o <;> simp [TornStore.tornAfter, ht]
      | cut key n => cases hcut
    have hrest := ih (t := (t.step sha256 e).2) htorn
      fun e' he' => hes e' (List.mem_cons_of_mem e he')
    rw [answers, answers, hrest]
    exact congrArg (· :: _) hanswer

/-- What the store in memory holds was written under its key. -/
def MemStore.Written (m : MemStore) (past : List Event) : Prop :=
  ∀ key obj, m.at? key = some obj → ∃ cond, Event.op (.put key obj.body cond) ∈ past

theorem MemStore.Written.mono {m : MemStore} {past past' : List Event} (h : m.Written past)
    (hsub : past ⊆ past') : m.Written past' := by
  intro key obj hobj
  obtain ⟨cond, hmem⟩ := h key obj hobj
  exact ⟨cond, hsub hmem⟩

theorem MemStore.Written.remove {m : MemStore} {past : List Event} (h : m.Written past)
    (key : Key) : (m.remove key).Written past := by
  intro k obj hobj
  rw [MemStore.at?_remove] at hobj
  split_ifs at hobj
  exact h k obj hobj

theorem MemStore.Written.step {m : MemStore} {past : List Event} (h : m.Written past) (e : Event) :
    (m.step sha256 e).2.Written (past ++ [e]) := by
  have hsub : past ⊆ past ++ [e] := List.subset_append_left past [e]
  cases e with
  | op o =>
    cases o with
    | get key =>
      change (m.get key).2.Written _
      unfold MemStore.get
      cases m.at? key <;> exact h.mono hsub
    | put key body cond =>
      change (m.putIf sha256 key body cond).2.Written _
      unfold MemStore.putIf
      cases checkPut ((m.at? key).map Object.etag) cond with
      | error e => exact h.mono hsub
      | ok u =>
        intro k obj hobj
        rw [MemStore.at?_insert] at hobj
        split_ifs at hobj with hk
        · cases hobj
          exact ⟨cond, by simp [hk]⟩
        · exact h.mono hsub k obj hobj
    | delete key cond =>
      change (m.delete key cond).2.Written _
      unfold MemStore.delete
      split
      · exact h.mono hsub
      · split
        · exact h.mono hsub
        · exact (h.mono hsub).remove key
  | cut key n =>
    simp only [MemStore.step]
    split
    · split_ifs
      · exact (h.mono hsub).remove key
      · exact h.mono hsub
    · exact h.mono hsub

theorem TornStore.written_after {t : TornStore} {done past : List Event} (h : t.mem.Written done) :
    (after (TornStore.step sha256) t past).mem.Written (done ++ past) := by
  induction past generalizing t done with
  | nil => simpa [after] using h
  | cons e past ih =>
    have hstep : (t.step sha256 e).2.mem.Written (done ++ [e]) := h.step e
    have hafter := ih hstep
    rwa [List.append_assoc] at hafter

/-- The answer at a point of a history is that of the store there. -/
theorem getElem?_answers {S : Type} (step : S → Event → Option Done × S) (s : S)
    (past : List Event) (e : Event) (rest : List Event) :
    (answers step s (past ++ e :: rest))[past.length]? = some (step (after step s past) e).1 := by
  induction past generalizing s with
  | nil => rfl
  | cons e' past ih => exact ih _

end

/-- **The store on a volume answers as the store in memory**, in every history over keys of which
none is a directory of another one. A record that is cut to any strict prefix counts as absent; only
its removal is answered otherwise, and no body is delivered that was not written under its key. -/
theorem volume_answers {V : Type} [IdealVolume V] (sha256 : Bytes → Digest) (s : VolumeStore V)
    (es : List Event) (hblank : s.Blank) (hfree : PrefixFree fun k => ∃ e ∈ es, e.key = k)
    (hbody : ∀ e ∈ es, e.Bounded) :
    answers (VolumeStore.step sha256) s es = answers (TornStore.step sha256) .new es ∧
      ((∀ e ∈ es, e.isCut = false) →
        answers (VolumeStore.step sha256) s es = answers (MemStore.step sha256) .new es) ∧
      ∀ past key rest obj, es = past ++ .op (.get key) :: rest →
        (answers (VolumeStore.step sha256) s es)[past.length]? = some (some (.get (.ok obj))) →
        ∃ cond, Event.op (.put key obj.body cond) ∈ past := by
  have heq : answers (VolumeStore.step sha256) s es = answers (TornStore.step sha256) .new es :=
    hblank.agrees.answers_eq hfree fun e he => ⟨⟨e, he, rfl⟩, hbody e he⟩
  refine ⟨heq, fun hcut => heq.trans (TornStore.answers_of_no_cut rfl hcut), ?_⟩
  rintro past key rest obj rfl hget
  rw [heq, getElem?_answers] at hget
  have hwritten : (after (TornStore.step sha256) .new past).mem.Written ([] ++ past) := by
    refine TornStore.written_after fun k o ho => ?_
    cases ho
  refine hwritten key obj ?_
  have hdone : Done.get ((after (TornStore.step sha256) .new past).mem.get key).1 =
      .get (.ok obj) := Option.some.inj (Option.some.inj hget)
  have hresult := Done.get.inj hdone
  unfold MemStore.get at hresult
  split at hresult
  · rename_i o ho
    rw [ho, Except.ok.inj hresult]
  · cases hresult

/-! ### A volume in memory -/

/-- A volume in memory, read in chunks of 7 bytes; directories are those above a file. -/
structure MemVolume where
  files : SortedMap String Bytes

namespace MemVolume

/-- Whether a file lies below the path. -/
def isDir (v : MemVolume) (path : String) : Bool := v.files.keys.any fun q => Below path q

theorem isDir_iff {v : MemVolume} {path : String} :
    v.isDir path = true ↔ ∃ q c, v.files.get? q = some c ∧ Below path q := by
  simp only [isDir, List.any_eq_true, decide_eq_true_eq, SortedMap.keys, List.mem_map,
    Prod.exists, SortedMap.get?_eq_some_iff]
  constructor
  · rintro ⟨q, ⟨q', c, hmem, rfl⟩, hbelow⟩
    exact ⟨q', c, hmem, hbelow⟩
  · rintro ⟨q, c, hmem, hbelow⟩
    exact ⟨q, ⟨q, c, hmem, rfl⟩, hbelow⟩

def size (v : MemVolume) (path : String) : Except String (Option ℕ) :=
  match v.files.get? path with
  | some c => .ok (some c.length)
  | none => .ok (if v.isDir path then some 0 else none)

def readAt (v : MemVolume) (path : String) (off want : ℕ) :
    Except String { bs : Bytes // bs.length ≤ want } :=
  match v.files.get? path with
  | some c => .ok ⟨(c.drop off).take want, List.length_take_le _ _⟩
  | none => .error "not found"

instance : Volume MemVolume where
  chunk := 7
  size v path := (v.size path, v)
  readAt v path off want := (v.readAt path off want, v)
  replace v path data :=
    if v.isDir path then (.error "is a directory", v) else (.ok (), ⟨v.files.insert path data⟩)
  remove v path := (.ok (v.files.get? path).isSome, ⟨v.files.erase path⟩)

theorem isDir_mono {v v' : MemVolume} {q : String} (h : v'.isDir q = true)
    (hsub : ∀ p c, v'.files.get? p = some c → (∃ c', v.files.get? p = some c') ∨ ¬ Below q p) :
    v.isDir q = true := by
  obtain ⟨p, c, hget, hbelow⟩ := isDir_iff.mp h
  rcases hsub p c hget with ⟨c', hget'⟩ | hnot
  · exact isDir_iff.mpr ⟨p, c', hget', hbelow⟩
  · exact absurd hbelow hnot

instance : IdealVolume MemVolume where
  files v := v.files.get?
  IsDir v path := v.isDir path = true
  cut v path n := ⟨v.files.modify path (List.take n)⟩
  chunk_pos := by decide
  files_size _ _ := rfl
  isDir_size _ _ := rfl
  size_file v p c h := by simp [Volume.size, MemVolume.size, h]
  size_missing v p h hdir := by simp [Volume.size, MemVolume.size, h, hdir]
  files_readAt _ _ _ _ := rfl
  isDir_readAt _ _ _ _ := rfl
  readAt_file v p c off want h hoff hwant _ := by
    refine ⟨⟨(c.drop off).take want, List.length_take_le _ _⟩, ?_, ?_, List.take_prefix _ _⟩
    · simp [Volume.readAt, MemVolume.readAt, h]
    · refine List.ne_nil_of_length_pos ?_
      rw [List.length_take, List.length_drop]
      omega
  replace_ok v p data hdir _ := by
    simp only [Volume.replace, hdir, Bool.false_eq_true, if_false, true_and]
    funext q
    rw [SortedMap.get?_insert, Function.update_apply]
    simp only [eq_comm]
  isDir_replace v p data q h := by
    by_cases hbelow : Below q p
    · exact .inr hbelow
    · refine .inl ?_
      simp only [Volume.replace] at h
      split_ifs at h with hdir
      · exact h
      · refine isDir_mono h fun p' c hget => ?_
        dsimp only at hget
        rw [SortedMap.get?_insert] at hget
        split_ifs at hget with hp
        · exact .inr (hp ▸ hbelow)
        · exact .inl ⟨c, hget⟩
  remove_ok v p c h := by
    refine ⟨by simp [Volume.remove, h], ?_⟩
    funext q
    simp only [Volume.remove]
    rw [SortedMap.get?_erase, Function.update_apply]
    simp only [eq_comm]
  isDir_remove v p q h := by
    refine isDir_mono h fun p' c hget => ?_
    simp only [Volume.remove, SortedMap.get?_erase] at hget
    split_ifs at hget
    exact .inl ⟨c, hget⟩
  files_cut v p n := by
    funext q
    dsimp only
    rw [SortedMap.get?_modify, Function.update_apply]
    by_cases hq : q = p
    · simp [hq]
    · simp [hq, Ne.symm hq]
  isDir_cut v p n q h := by
    refine isDir_mono h fun p' c hget => ?_
    dsimp only at hget
    rw [SortedMap.get?_modify] at hget
    split_ifs at hget
    · obtain ⟨c', hc', -⟩ := Option.map_eq_some_iff.mp hget
      exact .inl ⟨c', hc'⟩
    · exact .inl ⟨c, hget⟩

/-- An empty store on such a volume. -/
def blank : VolumeStore MemVolume := .new ⟨.empty⟩ "/data"

theorem blank_blank : blank.Blank := by
  refine ⟨fun _ => rfl, fun p hdir => ?_⟩
  obtain ⟨q, c, hget, -⟩ := isDir_iff.mp hdir
  cases hget

end MemVolume

/-- The SHA-256 of the body `hello`. -/
def sumOfHello : Digest :=
  ⟨[0x2c, 0xf2, 0x4d, 0xba, 0x5f, 0xb0, 0xa3, 0x0e, 0x26, 0xe8, 0x3b, 0x2a, 0xc5, 0xb9, 0xe2,
    0x9e, 0x1b, 0x16, 0x1e, 0x5c, 0x1f, 0xa7, 0x42, 0x5e, 0x73, 0x04, 0x33, 0x62, 0x93, 0x8b,
    0x98, 0x24], rfl⟩

/-- A record is written and cut, and removed with its ETag as the condition. -/
def tornHistory : List Event :=
  [.op (.put ⟨"leases/c"⟩ (utf8 "hello") { ifNoneMatch := "*" }), .cut ⟨"leases/c"⟩ 42,
    .op (.get ⟨"leases/c"⟩), .op (.delete ⟨"leases/c"⟩ { ifMatch :=
      "\"2cf24dba5fb0a30e26e83b2ac5b9e29e1b161e5c1fa7425e73043362938b9824\"" })]

theorem tornHistory_free : PrefixFree fun k => ∃ e ∈ tornHistory, e.key = k := by
  rintro k k' ⟨e, he, rfl⟩ ⟨e', he', rfl⟩
  have hkey : ∀ e ∈ tornHistory, e.key = ⟨"leases/c"⟩ := by decide
  rw [hkey e he, hkey e' he']
  decide

theorem tornHistory_bounded : ∀ e ∈ tornHistory, e.Bounded := by
  simp [tornHistory, Event.Bounded, maxBody]
  decide

theorem volume_answers_torn : MemVolume.blank.Blank ∧
    answers (VolumeStore.step fun _ => sumOfHello) MemVolume.blank tornHistory =
      answers (TornStore.step fun _ => sumOfHello) .new tornHistory :=
  ⟨MemVolume.blank_blank, (volume_answers _ _ _ MemVolume.blank_blank tornHistory_free
    tornHistory_bounded).1⟩

/-- The removal of half a record with an `If-Match` fails as a condition does, where the store in
memory would answer that the key is not there. -/
theorem torn_delete_precondition :
    (answers (VolumeStore.step fun _ => sumOfHello) MemVolume.blank tornHistory)[3]? =
        some (some (.delete (.error .precondition))) ∧
      (answers (MemStore.step fun _ => sumOfHello) .new tornHistory)[3]? =
        some (some (.delete (.error .notFound))) :=
  ⟨rfl, rfl⟩

end Hop.Lock
