import Hop.Lib.Fallible
import Hop.Runner.Disk

/-!
# The target of a name in an archive

`runner/src/host/extract/mod.rs`, `safe_join`: a name is cleaned up by its text alone, the way Go's
`filepath.Join` does it, and a name that leads over the top is refused. What comes out is a path of
plain names below the directory (`safeJoin_eq_some`).
-/

namespace Hop.Runner.Extract

open Act Path

/-- The errors of unpacking. -/
inductive HostError
  | io (op : String) (path : PathBuf) (why : String)
  | archive (archive why : String)
  | illegalPath (archive name : String)
  | extractType (extract : String)
  | spawn (program : String) (why : String)

inductive Kind
  | tar
  | zip

def Kind.name : Kind → String
  | tar => "tar"
  | zip => "zip"

/-- The directory that is unpacked in. -/
def dest : PathBuf := .below []

/-- One component of a name, onto the stack of those before it. -/
def stackPart (kind : Kind) (name : String) (parts : List Segment) (part : Segment) :
    Except HostError (List Segment) :=
  if part = [] ∨ part = dot then .ok parts
  else if part = dotdot then
    if parts = [] then .error (.illegalPath kind.name name) else .ok parts.dropLast
  else .ok (parts ++ [part])

/-- `safe_join`; none: it is the directory itself. -/
def safeJoin (kind : Kind) (name : String) : Except HostError (Option PathBuf) := do
  let parts ← (segments name.toList).foldlM (stackPart kind name) []
  if parts = [] then .ok none else .ok (some (parts.foldl PathBuf.push dest))

theorem stackPart_plain {kind : Kind} {name : String} {parts parts' : List Segment}
    {part : Segment} (h : ∀ n ∈ parts, Plain n) (hpart : '/' ∉ part)
    (hstep : stackPart kind name parts part = .ok parts') : ∀ n ∈ parts', Plain n := by
  rw [stackPart] at hstep
  split_ifs at hstep with hdot hup hnil
  · cases hstep
    exact h
  · cases hstep
    exact fun n hn => h n (List.dropLast_subset parts hn)
  · cases hstep
    exact plain_concat h ⟨fun hn => hdot (.inl hn), fun hn => hdot (.inr hn), hup, hpart⟩

theorem foldlM_stackPart_plain {kind : Kind} {name : String} {segs parts parts' : List Segment}
    (h : ∀ n ∈ parts, Plain n) (hsegs : ∀ s ∈ segs, '/' ∉ s)
    (hrun : segs.foldlM (stackPart kind name) parts = .ok parts') : ∀ n ∈ parts', Plain n := by
  induction segs generalizing parts with
  | nil =>
    cases hrun
    exact h
  | cons seg segs ih =>
    rw [List.foldlM_cons] at hrun
    obtain ⟨mid, hmid, hrun⟩ := Hop.bind_eq_ok hrun
    have hplain := stackPart_plain h (hsegs seg List.mem_cons_self) hmid
    exact ih hplain (fun s hs => hsegs s (List.mem_cons_of_mem seg hs)) hrun

/-- **What `safe_join` lets through** is a path of plain names below the directory. -/
theorem safeJoin_eq_some {kind : Kind} {name : String} {path : PathBuf}
    (h : safeJoin kind name = .ok (some path)) :
    ∃ parts, parts ≠ [] ∧ (∀ n ∈ parts, Plain n) ∧ path = ofParts parts := by
  obtain ⟨parts, hrun, h⟩ := Hop.bind_eq_ok h
  have hplain : ∀ n ∈ parts, Plain n :=
    foldlM_stackPart_plain (fun _ hn => absurd hn List.not_mem_nil)
      (fun s hs => not_mem_of_mem_segments hs) hrun
  split_ifs at h with hnil
  · cases h
  · obtain rfl : parts.foldl PathBuf.push dest = path := by
      cases h
      rfl
    exact ⟨parts, hnil, hplain, foldl_push hplain⟩

/-! ### Staying inside -/

/-- The reader of an archive, and the files. -/
abbrev Work (σ τ : Type) : Type := σ × Files τ

/-- The files are as before but for what was done inside. -/
abbrev Stays {σ τ : Type} (w w' : Work σ τ) : Prop := Confined w.2 w'.2

section Stays

variable {σ τ : Type} {os : Os} (mark : σ → τ)

instance : Std.Refl (Stays (σ := σ) (τ := τ)) := ⟨fun w => Std.Refl.refl w.2⟩

instance : IsTrans (Work σ τ) Stays := ⟨fun _ _ _ h h' => trans_of Confined h h'⟩

theorem stays_createDirAll {parts : List Segment} (h : ∀ n ∈ parts, Plain n)
    (f : String → HostError) :
    Keeps Stays (onSnd fun s => mapError f (createDirAll os (mark s) (ofParts parts))) :=
  Keeps.onSnd_mapError (Keeps.onSnd (fun _ => keeps_createDirAll h) fun _ _ _ hs => hs) f

/-- A file is opened inside, below directories that are made, and from then on it is that file. -/
theorem stays_opening {parts : List Segment} (hne : parts ≠ []) (h : ∀ n ∈ parts, Plain n)
    (mode : ℕ) {α : Type} {rest : Spot → Act (Work σ τ) HostError α}
    (hrest : ∀ f, f = .at parts → Keeps Stays (rest f)) :
    Keeps Stays (do
      onSnd fun s => mapError (.io "mkdir" (ofParts parts).parent)
        (createDirAll os (mark s) (ofParts parts).parent)
      let f ← onSnd fun s => mapError (.io "create" (ofParts parts))
        (openFile os (mark s) (ofParts parts) mode)
      rest f) := by
  have hparent : ∀ n ∈ parts.dropLast, Plain n := fun n hn => h n (List.dropLast_subset parts hn)
  rw [parent_ofParts h hne]
  refine (stays_createDirAll mark hparent _).andThen fun _ w hw => ?_
  refine bind_keeps (r := Stays) ?_ (fun f w' hopen => hrest f ?_ w') hw
  · exact Keeps.onSnd_mapError (Keeps.onSnd (fun _ => keeps_openFile h hne mode)
      fun _ _ _ hs => hs) _ w
  · exact openFile_spot h hne hw (mapError_eq_ok (onSnd_eq_ok hopen).1)

end Stays

end Hop.Runner.Extract
