import Hop.Lib.Path
import Hop.Lib.Reader

/-!
# A directory that is written to

What `std::fs` does below one directory, as far as an unpacked archive needs it: directories are
made, files are opened and written. A path is a text that the system follows segment by segment, so
it can lead out of the directory, over `..` or a symbolic link. Every call that changes something is
logged, with a mark of the caller; any of them can be refused.

Calls with plain paths stay inside, as long as there is no symbolic link, and they leave none
(`Confined`): `keeps_perform`, `keeps_createDirAll`, `keeps_openFile`.
-/

namespace Hop.Runner.Extract

open Act Path

variable {parts : List Segment} {e : Effect}

/-! ### Paths -/

/-- A path that begins with the directory, or one that does not. -/
inductive PathBuf
  | below (rel : List Char)
  | elsewhere
deriving DecidableEq

namespace PathBuf

/-- `PathBuf::push`: an absolute part takes the place of the path. -/
def push : PathBuf → List Char → PathBuf
  | elsewhere, _ => elsewhere
  | below rel, part =>
    if part.head? = some '/' then elsewhere
    else if rel = [] then below part
    else below (rel ++ '/' :: part)

/-- The text of a path, below the directory. -/
def text : PathBuf → String
  | elsewhere => ""
  | below rel => String.ofList rel

/-- `Path::parent`. -/
def parent : PathBuf → PathBuf
  | elsewhere => elsewhere
  | below rel => if rel = [] then elsewhere else below (join (segments rel).dropLast)

end PathBuf

/-! ### The tree -/

/-- A place in the directory: the names that lead to it. -/
abbrev Place : Type := List Segment

inductive Node
  | dir
  | file (content : Bytes) (mode : ℕ)
  | symlink
  /-- A device, a pipe or a socket. -/
  | special
deriving DecidableEq

/-- What is in the directory. -/
abbrev Tree : Type := Place → Option Node

/-- Where a path leads. -/
inductive Spot
  | at (p : Place)
  /-- Over the top or over a symbolic link: it can be anywhere. -/
  | outside
deriving DecidableEq

namespace Tree

/-- What is at a place. The directory itself is there. -/
def lookup (t : Tree) (p : Place) : Option Node := if p = [] then some .dir else t p

/-- One segment further. -/
def go (t : Tree) : Spot → Segment → Spot
  | .outside, _ => .outside
  | .at p, seg =>
    if seg = [] ∨ seg = dot then .at p
    else if seg = dotdot then if p = [] then .outside else .at p.dropLast
    else if t (p ++ [seg]) = some .symlink then .outside
    else .at (p ++ [seg])

def follow (t : Tree) : PathBuf → Spot
  | .elsewhere => .outside
  | .below rel => (segments rel).foldl t.go (.at [])

end Tree

/-- A call that changes something, and where. -/
inductive Effect
  | mkdir (at_ : Spot)
  | create (at_ : Spot) (mode : ℕ)
  | write (at_ : Spot) (data : Bytes)
  /-- `symlink`, `link` and `mknod`. -/
  | node (at_ : Spot) (node : Node)
deriving DecidableEq

/-- The bytes that it puts into a file. -/
def Effect.data : Effect → Bytes
  | .write _ data => data
  | .mkdir _ | .create _ _ | .node _ _ => []

/-- The tree behind a call. A file that is there keeps its mode. -/
def Tree.apply (t : Tree) : Effect → Tree
  | .mkdir (.at p) => Function.update t p (some .dir)
  | .create (.at p) mode =>
    match t p with
    | some .special => t
    | some (.file _ mode) => Function.update t p (some (.file [] mode))
    | _ => Function.update t p (some (.file [] mode))
  | .write (.at p) data =>
    match t p with
    | some (.file content mode) => Function.update t p (some (.file (content ++ data) mode))
    | _ => t
  | .node (.at p) node => Function.update t p (some node)
  | .mkdir .outside => t
  | .create .outside _ => t
  | .write .outside _ => t
  | .node .outside _ => t

/-! ### Calls -/

/-- When the system refuses a call for a reason of its own, and how much of a write is done then. -/
structure Os where
  refuses : List Effect → Effect → Option (ℕ × String)

/-- The tree, and what was done to it, each with a mark. -/
structure Files (τ : Type) where
  tree : Tree
  log : List (τ × Effect)

variable {τ : Type} (os : Os)

/-- What was written with this mark. -/
def written [DecidableEq τ] (mark : τ) (log : List (τ × Effect)) : Bytes :=
  (log.filter fun x => x.1 = mark).flatMap fun x => x.2.data

def Files.did (f : Files τ) (mark : τ) (e : Effect) : Files τ :=
  { tree := f.tree.apply e, log := f.log ++ [(mark, e)] }

def perform (mark : τ) (e : Effect) : Act (Files τ) String Unit := fun f =>
  match os.refuses (f.log.map Prod.snd) e with
  | none => .ok () (f.did mark e)
  | some (n, why) =>
    match e with
    | .write s data => .error why (f.did mark (.write s (data.take n)))
    | _ => .error why f

/-- Make what is missing on the way, from the top down. -/
def mkdirs (mark : τ) : Spot → List Segment → Act (Files τ) String Unit
  | _, [] => pure ()
  | spot, seg :: rest => do
    let f ← get
    match f.tree.go spot seg with
    | .outside => do
      perform os mark (.mkdir .outside)
      mkdirs mark .outside rest
    | .at p =>
      match f.tree.lookup p with
      | some .dir => mkdirs mark (.at p) rest
      | some _ => throw "File exists (os error 17)"
      | none => do
        perform os mark (.mkdir (.at p))
        mkdirs mark (.at p) rest

/-- `fs::create_dir_all`. -/
def createDirAll (mark : τ) : PathBuf → Act (Files τ) String Unit
  | .elsewhere => perform os mark (.mkdir .outside)
  | .below rel => mkdirs os mark (.at []) (segments rel)

/-- `OpenOptions` with `write`, `create` and `truncate`: the file that is written to from here. -/
def openFile (mark : τ) (path : PathBuf) (mode : ℕ) : Act (Files τ) String Spot := do
  let f ← get
  match f.tree.follow path with
  | .outside => do
    perform os mark (.create .outside mode)
    pure .outside
  | .at p =>
    if f.tree.lookup p.dropLast ≠ some .dir then
      throw "No such file or directory (os error 2)"
    else if f.tree.lookup p = some .dir then throw "Is a directory (os error 21)"
    else do
      perform os mark (.create (.at p) mode)
      pure (.at p)

/-! ### What is logged -/

section Logs

variable {os}

/-- All that was done is like this. -/
def Logs (P : τ × Effect → Prop) (f f' : Files τ) : Prop :=
  ∃ done, f'.log = f.log ++ done ∧ ∀ x ∈ done, P x

/-- All that was done bears this mark. -/
abbrev Marked (mark : τ) : Files τ → Files τ → Prop := Logs fun x => x.1 = mark

variable {P : τ × Effect → Prop} {mark : τ}

instance : Std.Refl (Logs P) :=
  ⟨fun f => ⟨[], (List.append_nil f.log).symm, fun _ h => absurd h List.not_mem_nil⟩⟩

instance : IsTrans (Files τ) (Logs P) where
  trans f g k hfg hgk := by
    obtain ⟨a, hg, ha⟩ := hfg
    obtain ⟨b, hk, hb⟩ := hgk
    exact ⟨a ++ b, by rw [hk, hg, List.append_assoc], List.forall_mem_append.mpr ⟨ha, hb⟩⟩

theorem logs_did (f : Files τ) (h : P (mark, e)) : Logs P f (f.did mark e) :=
  ⟨[(mark, e)], rfl, List.forall_mem_singleton.mpr h⟩

/-- A call that fails may have written a part. -/
theorem logs_perform (h : P (mark, e))
    (hpart : ∀ s data n, e = .write s data → P (mark, .write s (data.take n))) :
    Keeps (Logs P) (perform os mark e) := by
  intro f
  rw [perform]
  split
  · exact logs_did f h
  · split
    · exact logs_did f (hpart _ _ _ rfl)
    · exact Std.Refl.refl f

theorem logs_mkdirs (h : ∀ s, P (mark, .mkdir s)) (spot : Spot) (segs : List Segment) :
    Keeps (Logs P) (mkdirs os mark spot segs) := by
  have hmkdir : ∀ s, Keeps (Logs P) (perform os mark (.mkdir s)) := fun s =>
    logs_perform (h s) nofun
  induction segs generalizing spot with
  | nil => exact keeps_pure ()
  | cons seg rest ih =>
    intro f
    rw [mkdirs, get_bind]
    rcases f.tree.go spot seg with p | -
    · dsimp only
      rcases f.tree.lookup p with - | - | ⟨c, m⟩ | - | -
      · exact (hmkdir _).andThen (fun _ => ih _) f
      · exact ih _ f
      · exact Std.Refl.refl f
      · exact Std.Refl.refl f
      · exact Std.Refl.refl f
    · exact (hmkdir _).andThen (fun _ => ih _) f

theorem logs_createDirAll (h : ∀ s, P (mark, .mkdir s)) (path : PathBuf) :
    Keeps (Logs P) (createDirAll os mark path) := by
  rcases path with rel | -
  · exact logs_mkdirs h _ _
  · exact logs_perform (h _) nofun

theorem logs_openFile (h : ∀ s mode, P (mark, .create s mode)) (path : PathBuf) (mode : ℕ) :
    Keeps (Logs P) (openFile os mark path mode) := by
  have hcreate : ∀ s, Keeps (Logs P) (perform os mark (.create s mode)) := fun s =>
    logs_perform (h s mode) nofun
  intro f
  rw [openFile, get_bind]
  rcases f.tree.follow path with p | -
  · dsimp only
    split_ifs
    · exact Std.Refl.refl f
    · exact Std.Refl.refl f
    · exact (hcreate _).andThen (fun _ => keeps_pure _) f
  · exact (hcreate _).andThen (fun _ => keeps_pure _) f

theorem marked_perform (e : Effect) : Keeps (Marked mark) (perform os mark e) :=
  logs_perform rfl fun _ _ _ _ => rfl

theorem marked_createDirAll (path : PathBuf) : Keeps (Marked mark) (createDirAll os mark path) :=
  logs_createDirAll (fun _ => rfl) path

theorem marked_openFile (path : PathBuf) (mode : ℕ) :
    Keeps (Marked mark) (openFile os mark path mode) :=
  logs_openFile (fun _ _ => rfl) path mode

end Logs

/-! ### Plain paths -/

/-- A path made of plain names, or the directory itself. -/
def ofParts (parts : List Segment) : PathBuf := .below (join parts)

theorem push_ofParts (h : ∀ n ∈ parts, Plain n) {part : Segment} (hpart : Plain part) :
    (ofParts parts).push part = ofParts (parts ++ [part]) := by
  have hhead : part.head? ≠ some '/' := fun hh => hpart.not_mem (List.mem_of_mem_head? hh)
  rw [ofParts, PathBuf.push, if_neg hhead]
  by_cases hnil : parts = []
  · have hone : join [part] = part := List.intercalate_singleton
    rw [hnil, if_pos (show join [] = [] from rfl), ofParts, List.nil_append, hone]
  · rw [if_neg fun hj => hnil ((join_eq_nil h).mp hj), ofParts, join_concat hnil]

theorem foldl_push (h : ∀ n ∈ parts, Plain n) :
    parts.foldl PathBuf.push (.below []) = ofParts parts := by
  induction parts using List.reverseRecOn with
  | nil => rfl
  | append_singleton parts part ih =>
    rw [List.foldl_append, ih fun n hn => h n (List.mem_append_left _ hn)]
    exact push_ofParts (fun n hn => h n (List.mem_append_left _ hn))
      (h part (List.mem_append_right _ (List.mem_singleton_self part)))

theorem parent_ofParts (h : ∀ n ∈ parts, Plain n) (hne : parts ≠ []) :
    (ofParts parts).parent = ofParts parts.dropLast := by
  rw [ofParts, PathBuf.parent, if_neg fun hj => hne ((join_eq_nil h).mp hj),
    segments_join hne h, ofParts]

/-! ### Staying inside -/

/-- A directory or a file that is made or written below the directory. -/
inductive Effect.Inside : Effect → Prop
  | mkdir {p : Place} (hne : p ≠ []) (h : ∀ n ∈ p, Plain n) : Inside (.mkdir (.at p))
  | create {p : Place} (hne : p ≠ []) (h : ∀ n ∈ p, Plain n) (mode : ℕ) : Inside (.create (.at p) mode)
  | write {p : Place} (hne : p ≠ []) (h : ∀ n ∈ p, Plain n) (data : Bytes) :
    Inside (.write (.at p) data)

def Tree.NoSymlink (t : Tree) : Prop := ∀ p, t p ≠ some .symlink

/-- What was done was done inside, and left no link and no device behind. -/
structure Held (f f' : Files τ) : Prop where
  noSymlink : f'.tree.NoSymlink
  noSpecial : ∀ p, f'.tree p = some .special → f.tree p = some .special
  inside : ∀ x ∈ f'.log, x ∈ f.log ∨ x.2.Inside

/-- Where there is no symbolic link, it stays inside. -/
def Confined (f f' : Files τ) : Prop := f.tree.NoSymlink → Held f f'

theorem Held.refl {f : Files τ} (h : f.tree.NoSymlink) : Held f f :=
  ⟨h, fun _ => id, fun _ => .inl⟩

instance : Std.Refl (Confined (τ := τ)) := ⟨fun _ => Held.refl⟩

instance : IsTrans (Files τ) Confined where
  trans f g k hfg hgk h := by
    obtain ⟨hlink, hspecial, hin⟩ := hfg h
    obtain ⟨hlink', hspecial', hin'⟩ := hgk hlink
    refine ⟨hlink', fun p hp => hspecial p (hspecial' p hp), fun x hx => ?_⟩
    rcases hin' x hx with hx | hx
    · exact hin x hx
    · exact .inr hx

/-- Such a call puts a directory or a file at its place, or nothing changes there. -/
theorem Tree.apply_eq (t : Tree) (he : e.Inside) (p : Place) :
    t.apply e p = t p ∨ t.apply e p = some .dir ∨ ∃ c m, t.apply e p = some (.file c m) := by
  have hupdate : ∀ (q : Place) (n : Node), (n = .dir ∨ ∃ c m, n = .file c m) →
      Function.update t q (some n) p = t p ∨ Function.update t q (some n) p = some .dir ∨
        ∃ c m, Function.update t q (some n) p = some (.file c m) := by
    intro q n hn
    by_cases hp : p = q
    · subst hp
      rw [Function.update_self]
      rcases hn with rfl | ⟨c, m, rfl⟩
      · exact .inr (.inl rfl)
      · exact .inr (.inr ⟨c, m, rfl⟩)
    · rw [Function.update_of_ne hp]
      exact .inl rfl
  cases he with
  | mkdir => exact hupdate _ .dir (.inl rfl)
  | @create q =>
    rw [apply]
    rcases t q with - | - | ⟨c, m⟩ | - | -
    all_goals first
      | exact .inl rfl
      | exact hupdate q _ (.inr ⟨_, _, rfl⟩)
  | @write q =>
    rw [apply]
    rcases t q with - | - | ⟨c, m⟩ | - | -
    all_goals first
      | exact .inl rfl
      | exact hupdate q _ (.inr ⟨_, _, rfl⟩)

theorem held_did {f : Files τ} (hf : f.tree.NoSymlink) (mark : τ) (he : e.Inside) :
    Held f (f.did mark e) where
  noSymlink p := by
    rcases f.tree.apply_eq he p with hp | hp | ⟨c, m, hp⟩
    · exact fun hs => hf p (hp.symm.trans hs)
    · exact fun hs => nomatch hp.symm.trans hs
    · exact fun hs => nomatch hp.symm.trans hs
  noSpecial p hs := by
    rcases f.tree.apply_eq he p with hp | hp | ⟨c, m, hp⟩
    · exact hp.symm.trans hs
    · exact nomatch hp.symm.trans hs
    · exact nomatch hp.symm.trans hs
  inside x hx := by
    rcases List.mem_append.mp hx with hx | hx
    · exact .inl hx
    · rw [List.mem_singleton.mp hx]
      exact .inr he

variable {os} {mark : τ}

theorem keeps_perform (he : e.Inside) : Keeps Confined (perform os mark e) := by
  intro f hf
  rw [perform]
  split
  · exact held_did hf mark he
  · rcases he with ⟨hne, h⟩ | ⟨hne, h, mode⟩ | ⟨hne, h, data⟩
    · exact Held.refl hf
    · exact Held.refl hf
    · exact held_did hf mark (.write hne h _)

theorem Tree.go_of_plain {t : Tree} (ht : t.NoSymlink) (p : Place) {n : Segment} (hn : Plain n) :
    t.go (.at p) n = .at (p ++ [n]) := by
  rw [go, if_neg (not_or.mpr ⟨hn.ne_nil, hn.ne_dot⟩), if_neg hn.ne_dotdot, if_neg (ht _)]

theorem Tree.go_nil (t : Tree) (p : Place) : t.go (.at p) [] = .at p := by
  rw [go, if_pos (.inl rfl)]

theorem plain_concat {p : Place} (hp : ∀ n ∈ p, Plain n) {n : Segment} (hn : Plain n) :
    ∀ m ∈ p ++ [n], Plain m := by
  intro m hm
  rcases List.mem_append.mp hm with hm | hm
  · exact hp m hm
  · rwa [List.mem_singleton.mp hm]

theorem keeps_mkdirs {p : Place} (hp : ∀ n ∈ p, Plain n) {segs : List Segment}
    (hsegs : ∀ n ∈ segs, n = [] ∨ Plain n) : Keeps Confined (mkdirs os mark (.at p) segs) := by
  induction segs generalizing p with
  | nil => exact keeps_pure ()
  | cons seg rest ih =>
    intro f hf
    -- Where the next segment leads, its name is plain.
    obtain ⟨q, hgo, hq⟩ : ∃ q, f.tree.go (.at p) seg = .at q ∧ ∀ n ∈ q, Plain n := by
      rcases hsegs seg List.mem_cons_self with rfl | hseg
      · exact ⟨p, f.tree.go_nil p, hp⟩
      · exact ⟨p ++ [seg], Tree.go_of_plain hf p hseg, plain_concat hp hseg⟩
    have hrest := ih hq fun n hn => hsegs n (List.mem_cons_of_mem seg hn)
    rw [mkdirs, get_bind, hgo]
    dsimp only
    rcases hlookup : f.tree.lookup q with - | - | ⟨c, m⟩ | - | -
    · have hne : q ≠ [] := by
        rintro rfl
        rw [Tree.lookup, if_pos rfl] at hlookup
        cases hlookup
      have hmkdir : Keeps Confined (perform os mark (.mkdir (.at q))) :=
        keeps_perform (.mkdir hne hq)
      exact hmkdir.andThen (fun _ => hrest) f hf
    · exact hrest f hf
    · exact Held.refl hf
    · exact Held.refl hf
    · exact Held.refl hf

theorem segments_of_parts (h : ∀ n ∈ parts, Plain n) :
    ∀ n ∈ segments (join parts), n = [] ∨ Plain n := by
  intro n hn
  by_cases hne : parts = []
  · rw [hne] at hn
    exact .inl (List.mem_singleton.mp hn)
  · rw [segments_join hne h] at hn
    exact .inr (h n hn)

/-- A directory with a plain path is made inside, with what is missing above it. -/
theorem keeps_createDirAll (h : ∀ n ∈ parts, Plain n) :
    Keeps Confined (createDirAll os mark (ofParts parts)) :=
  keeps_mkdirs (fun _ hn => absurd hn List.not_mem_nil) (segments_of_parts h)

theorem Tree.foldl_go {t : Tree} (ht : t.NoSymlink) (p : Place) (h : ∀ n ∈ parts, Plain n) :
    parts.foldl t.go (.at p) = .at (p ++ parts) := by
  induction parts generalizing p with
  | nil => rw [List.foldl_nil, List.append_nil]
  | cons n parts ih =>
    rw [List.foldl_cons, go_of_plain ht p (h n List.mem_cons_self),
      ih _ fun m hm => h m (List.mem_cons_of_mem n hm), List.append_assoc, List.singleton_append]

theorem Tree.follow_ofParts {t : Tree} (ht : t.NoSymlink) (h : ∀ n ∈ parts, Plain n)
    (hne : parts ≠ []) : t.follow (ofParts parts) = .at parts := by
  rw [ofParts, follow, segments_join hne h, foldl_go ht [] h, List.nil_append]

/-- A file with a plain path is opened inside. -/
theorem keeps_openFile (h : ∀ n ∈ parts, Plain n) (hne : parts ≠ []) (mode : ℕ) :
    Keeps Confined (openFile os mark (ofParts parts) mode) := by
  intro f hf
  rw [openFile, get_bind, Tree.follow_ofParts hf h hne]
  dsimp only
  split_ifs
  · exact Held.refl hf
  · exact Held.refl hf
  · have hopen : Keeps Confined (perform os mark (.create (.at parts) mode)) :=
      keeps_perform (.create hne h mode)
    exact hopen.andThen (fun _ => keeps_pure _) f hf

theorem openFile_spot (h : ∀ n ∈ parts, Plain n) (hne : parts ≠ []) {mode : ℕ} {f f' : Files τ}
    {s : Spot} (hf : f.tree.NoSymlink) (hopen : openFile os mark (ofParts parts) mode f = .ok s f')
    : s = .at parts := by
  rw [openFile, get_bind, Tree.follow_ofParts hf h hne] at hopen
  dsimp only at hopen
  split_ifs at hopen
  · cases hopen
  · cases hopen
  · obtain ⟨-, g, -, hopen⟩ := Act.bind_eq_ok hopen
    cases hopen
    rfl

end Hop.Runner.Extract
