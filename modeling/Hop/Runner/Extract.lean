import Hop.Runner.Tar
import Hop.Runner.Zip

/-!
# Unpacking an archive

`runner/src/host/extract/mod.rs`: the format is chosen by name. A `tar.gz` is read through the
decoder, a `tar.bz2` through a program, `bzip2 -dc`, whose output is read to its end and whose exit
status counts, and a `zip` from its directory.

`extract_stays`: whatever the archive, what is made is made inside the directory.
-/

namespace Hop.Runner.Extract

open Act

/-- A program that was started, with its output. -/
structure Process (ρ : Type) where
  out : Reader ρ
  /-- The status it exits with: whether that is success, and its text. -/
  wait : ρ → Except String (Bool × String)
  /-- What it said on its error output, without blanks around it. -/
  stderr : ρ → String
  /-- The compressed members that were begun, and whether the one with this number was read to its
  end, with the checksum that stands there. -/
  begun : ρ → ℕ
  intact : ρ → ℕ → Bool

/-- An archive, and the program for the format that is not decoded here. -/
structure Archive (σ ρ : Type) where
  path : PathBuf
  file : SeekReader σ
  /-- `File::open`. -/
  opened : Except String σ
  /-- `find_tool`. -/
  tool : Option String
  bzip2 : Process ρ
  spawned : Except String ρ
  /-- Whether its output is there. -/
  piped : Bool

/-- What came of an unpacking. -/
structure Outcome where
  result : Except HostError Unit
  files : Files ℕ
  /-- Whether the member, or the entry, with this number was read to its end, and its bytes have the
  checksum and the length that stand there. -/
  intact : ℕ → Bool

def Outcome.of {S : Type} (files : S → Files ℕ) (intact : S → ℕ → Bool) :
    EStateM.Result HostError S Unit → Outcome
  | .ok () s => ⟨.ok (), files s, intact s⟩
  | .error e s => ⟨.error e, files s, intact s⟩

/-- What is to be seen of it: the calls, each with whether its member is intact. -/
def Outcome.seen (o : Outcome) : Bool × List (Bool × ℕ × Effect) :=
  (o.result.toBool, o.files.log.map fun x => (o.intact x.1, x))

theorem Outcome.seen_eq {o : Outcome} {log : List (Bool × ℕ × Effect)} (h : o.seen = (true, log)) :
    o.result = .ok () ∧ (o.files.log.map fun x => (o.intact x.1, x)) = log := by
  obtain ⟨hok, hlog⟩ := Prod.mk.inj h
  refine ⟨?_, hlog⟩
  rcases hresult : o.result with e | u
  · rw [hresult] at hok
    cases hok
  · rfl

/-- An archive in a file, and what a program for it gives out. -/
def Archive.ofBytes (data output : Bytes) : Archive ℕ ℕ where
  path := .elsewhere
  file := .ofBytes data
  opened := .ok 0
  tool := some "/usr/bin/bzip2"
  bzip2 :=
    { out := .cursor output
      wait := fun _ => .ok (true, "exit status: 0")
      stderr := fun _ => ""
      begun := fun _ => 0
      intact := fun _ _ => true }
  spawned := .ok 0
  piped := true

variable {σ ρ : Type} (A : Archive σ ρ) (os : Os)

/-- The members of a gzip stream, with the files that are unpacked. -/
def gzMembers (g : Gzip σ) : ℕ := g.2.begun

def extractTarGz (files : Files ℕ) : Outcome :=
  match A.opened with
  | .error e => ⟨.error (.io "open" A.path e), files, fun _ => false⟩
  | .ok s =>
    match Gzip.memberHeader A.file.toReader (Gzip.unopened s) with
    | .error e g => ⟨.error (.archive "tar.gz" e), files, g.2.intact⟩
    | .ok () g =>
      Outcome.of Prod.snd (fun w => w.1.2.intact)
        (Tar.extractTar (Gzip.reader A.file.toReader) os gzMembers (g, files))

/-- Read the output of the program to its end, also if that fails. -/
def drain (s : ρ) : ρ :=
  state (withLocal () (A.bzip2.out.copy Tar.copyBuf (A.bzip2.out.rank s + 1) fun _ _ => pure ()) s)

/-- The end of the program: its output is read to its end before that. -/
def finish (tool : String) (s : ρ) (result : Except HostError Unit) : ρ × Except HostError Unit :=
  let s := drain A s
  match A.bzip2.wait s with
  | .error e => (s, .error (.spawn tool e))
  | .ok (success, status) =>
    match result with
    | .error e => (s, .error e)
    | .ok () =>
      if success = false then
        (s, .error (.archive "tar.bz2" s!"bzip2 -dc exited with {status}: {A.bzip2.stderr s}"))
      else (s, .ok ())

def extractTarBz2 (files : Files ℕ) : Outcome :=
  match A.opened with
  | .error e => ⟨.error (.io "open" A.path e), files, fun _ => false⟩
  | .ok _ =>
    match A.tool with
    | none =>
      ⟨.error (.archive "tar.bz2" "bzip2 not found in /usr/bin, /bin or /usr/local/bin"), files,
        fun _ => false⟩
    | some tool =>
      match A.spawned with
      | .error e => ⟨.error (.spawn tool e), files, fun _ => false⟩
      | .ok s =>
        if A.piped = false then
          ⟨.error (.archive "tar.bz2" "bzip2 has no stdout"), files, A.bzip2.intact s⟩
        else
          let run := Tar.extractTar A.bzip2.out os A.bzip2.begun (s, files)
          let unpacked := Outcome.of Prod.snd (fun _ _ => false) run
          let ending := finish A tool (state run).1 unpacked.result
          ⟨ending.2, unpacked.files, A.bzip2.intact ending.1⟩

def extractZip (files : Files ℕ) : Outcome :=
  match A.opened with
  | .error e => ⟨.error (.io "open" A.path e), files, fun _ => false⟩
  | .ok s => Outcome.of (fun p => p.1.2) (fun p => Zip.intact p.2 p.1.2.log)
      (Zip.extractZip A.file os ((s, files), []))

/-- `extract`. -/
def extract (how : String) (files : Files ℕ) : Outcome :=
  match how with
  | "tar.gz" | "tgz" => extractTarGz A os files
  | "tar.bz2" | "tbz2" => extractTarBz2 A os files
  | "zip" => extractZip A os files
  | other => ⟨.error (.extractType other), files, fun _ => false⟩

/-! ### Staying inside -/

theorem files_of {S : Type} (files : S → Files ℕ) (intact : S → ℕ → Bool)
    (r : EStateM.Result HostError S Unit) : (Outcome.of files intact r).files = files (state r) := by
  rcases r with ⟨u, s⟩ | ⟨e, s⟩
  · rfl
  · rfl

theorem confined_extractTarGz (files : Files ℕ) :
    Confined files (extractTarGz A os files).files := by
  rw [extractTarGz]
  rcases A.opened with e | s
  · exact Std.Refl.refl files
  · dsimp only
    rcases Gzip.memberHeader A.file.toReader (Gzip.unopened s) with ⟨u, g⟩ | ⟨e, g⟩
    · dsimp only
      rw [files_of]
      exact (Tar.eachCall_stays _ os _).extractTar _ os _ (g, files)
    · exact Std.Refl.refl files

theorem confined_extractTarBz2 (files : Files ℕ) :
    Confined files (extractTarBz2 A os files).files := by
  rw [extractTarBz2]
  rcases A.opened with e | _
  · exact Std.Refl.refl files
  · rcases A.tool with - | tool
    · exact Std.Refl.refl files
    · rcases A.spawned with e | s
      · exact Std.Refl.refl files
      · dsimp only
        split_ifs
        · exact Std.Refl.refl files
        · dsimp only
          rw [files_of]
          exact (Tar.eachCall_stays _ os _).extractTar _ os _ (s, files)

theorem confined_extractZip (files : Files ℕ) : Confined files (extractZip A os files).files := by
  rw [extractZip]
  rcases A.opened with e | s
  · exact Std.Refl.refl files
  · dsimp only
    rw [files_of]
    exact Zip.stays_extractZip ((s, files), [])

theorem confined_extract (how : String) (files : Files ℕ) :
    Confined files (extract A os how files).files := by
  unfold extract
  split
  · exact confined_extractTarGz A os files
  · exact confined_extractTarGz A os files
  · exact confined_extractTarBz2 A os files
  · exact confined_extractTarBz2 A os files
  · exact confined_extractZip A os files
  · exact Std.Refl.refl files

/-- **Nothing is unpacked outside**: whatever the archive, and whether or not it is unpacked to its
end, in a directory without symbolic links all that is done is to make directories and to open and
write files below the directory (`Effect.Inside`), and at the end there is no symbolic link in it,
and no device that was not there. -/
theorem extract_stays (how : String) (tree : Tree) (h : tree.NoSymlink) :
    let files := (extract A os how ⟨tree, []⟩).files
    (∀ x ∈ files.log, x.2.Inside) ∧ files.tree.NoSymlink ∧
      ∀ p, files.tree p = some .special → tree p = some .special := by
  intro files
  obtain ⟨hlink, hspecial, hinside⟩ := confined_extract A os how ⟨tree, []⟩ h
  refine ⟨fun x hx => ?_, hlink, hspecial⟩
  rcases hinside x hx with hx | hx
  · exact absurd hx List.not_mem_nil
  · exact hx

/-! ### An archive that tries to get out -/

/-- A file with one byte in a tar archive, with its checksum. -/
def fileEntry (name sum : String) : Bytes :=
  utf8 name ++ List.replicate (100 - name.length) 0 ++ utf8 "644" ++ List.replicate 21 0 ++
    utf8 "1" ++ List.replicate 23 0 ++ utf8 sum ++ List.replicate 4 0 ++ utf8 "0" ++
    List.replicate 355 0 ++ utf8 "x" ++ List.replicate 511 0

/-- A system that refuses nothing. -/
def willing : Os := ⟨fun _ _ => none⟩

theorem seen_climbing :
    (extract (.ofBytes [] (fileEntry "a/../b" "1574" ++ fileEntry "../c" "1355")) willing "tbz2"
      ⟨fun _ => none, []⟩).seen =
        (false, [(true, 0, .create (.at [['b']]) 420), (true, 0, .write (.at [['b']]) (utf8 "x"))]) := by
  decide +kernel

/-- One file is written, and the next name is refused. -/
theorem extract_stays_climbing :
    let files := (extract (.ofBytes [] (fileEntry "a/../b" "1574" ++ fileEntry "../c" "1355"))
      willing "tbz2" ⟨fun _ => none, []⟩).files
    (∀ x ∈ files.log, x.2.Inside) ∧ files.tree.NoSymlink ∧ files.log.length = 2 := by
  obtain ⟨hinside, hlink, -⟩ := extract_stays
    (.ofBytes [] (fileEntry "a/../b" "1574" ++ fileEntry "../c" "1355")) willing "tbz2"
    (fun _ => none) fun _ => nofun
  have hlog := congrArg (fun seen => seen.2.length) seen_climbing
  exact ⟨hinside, hlink, (List.length_map _).symm.trans hlog⟩

end Hop.Runner.Extract
