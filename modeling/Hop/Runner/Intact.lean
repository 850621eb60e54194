import Hop.Runner.Extract

/-!
# Whether a corrupt archive is reported

A member of an archive has its checksum and its length behind it (gzip) or in the directory (zip).
Zip and bzip2 check every member before an unpacking succeeds. A gzip stream is checked where its
reader comes to the end of a member; but the tar reader ends at the first block of zeros, and the
member that this block is in is then not read to its end.

Whether an archive is one of these is said of its text, the bytes that the stream gives when it is
read alone (`Gzip.text`): of the blocks of the tar archive in it, and of the members that they are in
(`Tar.cut`). `checked_extract_iff`: these are exactly the archives of which unchecked bytes are
unpacked.
-/

namespace Hop.Runner.Extract

open Act

/-- Every member of which bytes were written was read to its end, and matched. -/
def Outcome.Checked (o : Outcome) : Prop := ∀ x ∈ o.files.log, x.2.data ≠ [] → o.intact x.1 = true

variable {σ ρ : Type}

/-! ### Tar archives in a text -/

namespace Tar

/-- What kind of thing a header is for. -/
def kindOf (block : Bytes) : UInt8 := (block[156]?).getD 0

/-- How many bytes follow a header. -/
def sizeOf (block : Bytes) (pending : Pending) : ℕ :=
  pending.size.getD ((octal (field block 124 12)).toOption.getD 0)

/-- What fills the last block of them. -/
def padding (size : ℕ) : ℕ := (blockLen - size % blockLen) % blockLen

/-- Whether they go to a file. -/
def toFile (block : Bytes) (pending : Pending) : Bool :=
  (kindOf block = 48 ∨ kindOf block = 0 ∨ kindOf block = 55) ∧
    ((safeJoin .tar (pending.path.getD (headerName block))).toOption.bind id).isSome

/-- What is waiting behind them. -/
def behind (block : Bytes) (pending : Pending) (body : Bytes) : Pending :=
  if kindOf block = 76 then { pending with size := none, path := some (text body) }
  else if kindOf block = 120 then (parsePax { pending with size := none } body).toOption.getD {}
  else { pending with size := none, path := none }

/-- Whether, where a header should be, there is first a block of zeros, and it ends in a member that
bytes of a file come from; `given` are the members of such bytes so far. -/
def cutFrom : ℕ → Pending → List ℕ → List (ℕ × UInt8) → Bool
  | 0, _, _, _ => false
  | n + 1, pending, given, t =>
    let block := (t.take blockLen).map Prod.snd
    if block.length < blockLen then false
    else if block.all (· = 0) then (t.take blockLen).getLast?.any fun x => x.1 ∈ given
    else
      let body := (t.drop blockLen).take (sizeOf block pending)
      let rest := (t.drop blockLen).drop (sizeOf block pending + padding (sizeOf block pending))
      cutFrom n (behind block pending (body.map Prod.snd))
        (if toFile block pending then given ++ body.map Prod.fst else given) rest

/-- Whether a tar archive in a text of members ends before the end of a member that bytes of a file
come from. -/
def cut (t : List (ℕ × UInt8)) : Bool := cutFrom (t.length + 1) {} [] t

end Tar

/-! ### What is written while a stream is read -/

/-- Bytes with this mark were written. -/
def Files.Wrote {τ : Type} (f : Files τ) (k : τ) : Prop := ∃ x ∈ f.log, x.2.data ≠ [] ∧ x.1 = k

/-- These bytes were written, each with its mark, and nothing else. -/
def Given (f : Files ℕ) (p : List (ℕ × UInt8)) (f' : Files ℕ) : Prop :=
  ∀ k, f'.Wrote k ↔ f.Wrote k ∨ ∃ x ∈ p, x.1 = k

theorem Given.refl (f : Files ℕ) : Given f [] f := fun _ =>
  (or_iff_left fun ⟨_, hx, _⟩ => List.not_mem_nil hx).symm

theorem Given.trans {f f' f'' : Files ℕ} {p q : List (ℕ × UInt8)} (h : Given f p f')
    (h' : Given f' q f'') : Given f (p ++ q) f'' := by
  intro k
  rw [h' k, h k, or_assoc]
  refine or_congr_right ⟨?_, ?_⟩
  · rintro (⟨x, hx, hk⟩ | ⟨x, hx, hk⟩)
    · exact ⟨x, List.mem_append_left q hx, hk⟩
    · exact ⟨x, List.mem_append_right p hx, hk⟩
  · rintro ⟨x, hx, hk⟩
    rcases List.mem_append.mp hx with hx | hx
    · exact .inl ⟨x, hx, hk⟩
    · exact .inr ⟨x, hx, hk⟩

/-- A call that writes nothing. -/
theorem given_of_logs {f f' : Files ℕ} (h : Logs (fun x => x.2.data = []) f f') : Given f [] f' := by
  obtain ⟨done, hlog, hdone⟩ := h
  intro k
  rw [or_iff_left fun ⟨_, hx, _⟩ => List.not_mem_nil hx, Files.Wrote, Files.Wrote, hlog]
  refine ⟨fun ⟨x, hx, hne, hk⟩ => ?_, fun ⟨x, hx, h⟩ => ⟨x, List.mem_append_left done hx, h⟩⟩
  rcases List.mem_append.mp hx with hx | hx
  · exact ⟨x, hx, hne, hk⟩
  · exact absurd (hdone x hx) hne

theorem perform_eq_ok {os : Os} {k : ℕ} {e : Effect} {f f' : Files ℕ}
    (h : perform os k e f = .ok () f') : f' = f.did k e := by
  rw [perform] at h
  split at h
  · cases h
    rfl
  · split at h
    · cases h
    · cases h

/-- A piece that is written is given to its file. -/
theorem given_of_write {os : Os} {k : ℕ} {s : Spot} {b : Bytes} (hb : b ≠ []) {f f' : Files ℕ}
    (h : perform os k (.write s b) f = .ok () f') : Given f (b.map (Prod.mk k)) f' := by
  intro j
  rw [perform_eq_ok h, Files.Wrote, Files.did]
  constructor
  · rintro ⟨x, hx, hne, hj⟩
    rcases List.mem_append.mp hx with hx | hx
    · exact .inl ⟨x, hx, hne, hj⟩
    · rw [List.mem_singleton.mp hx] at hj
      obtain ⟨c, hc⟩ := List.exists_mem_of_ne_nil b hb
      exact .inr ⟨(k, c), List.mem_map_of_mem hc, hj⟩
  · rintro (⟨x, hx, hne, hj⟩ | ⟨x, hx, hj⟩)
    · exact ⟨x, List.mem_append_left _ hx, hne, hj⟩
    · obtain ⟨c, -, rfl⟩ := List.mem_map.mp hx
      exact ⟨(k, .write s b), List.mem_append_right _ List.mem_cons_self, hb, hj⟩

/-! ### Pieces of a text -/

section Gz

variable {R : Reader σ} {os : Os}

open Gzip (Passes Sound)

theorem poll_ne_none {n : ℕ} {g g' : Gzip σ} : (Gzip.reader R).poll n g ≠ .ok none g' := fun h =>
  mapError_other_ne ((Gzip.reader R).poll_eq_none h)

/-- **What a copy takes out of a stream** is the next piece of the text; less than was asked for: the
stream is at its end. `Q` is what is made of the pieces. -/
theorem copy_passes {τ : Type} {cap n : ℕ} {emit : Gzip σ → Bytes → Act τ String Unit}
    {Q : τ → List (ℕ × UInt8) → τ → Prop} (hnil : ∀ t, Q t [] t)
    (hcons : ∀ {g b t t' p u}, b ≠ [] → emit g b t = .ok () t' → Q t' p u →
      Q t (b.map (Prod.mk g.2.begun) ++ p) u)
    (hcap : 0 < n → 0 < cap) (hmax : cap < 2 ^ 32) {w w' : Gzip σ × τ} {got : ℕ}
    (h : (Gzip.reader R).copy cap n emit w = .ok got w') (hw : Sound w.1.2) :
    ∃ p, Passes R w.1 p w'.1 ∧ Q w.2 p w'.2 ∧ p.length = got ∧ got ≤ n ∧
      (got < n → w'.1.2.isOpen = false ∧ Gzip.text R w'.1 = []) ∧
      (p ≠ [] → got = n → w'.1.2.isOpen = true ∧ p.getLast?.map Prod.fst = some w'.1.2.begun) := by
  have hrun := loop_induction (h := (Gzip.reader R).copyTurn_descends cap n emit)
    (P := fun before w x => before ≤ n → Sound w.1.2 → ∀ got w', x = .ok got w' →
      ∃ p, Passes R w.1 p w'.1 ∧ Q w.2 p w'.2 ∧ before + p.length = got ∧ got ≤ n ∧
      (got < n → w'.1.2.isOpen = false ∧ Gzip.text R w'.1 = []) ∧
      (p ≠ [] → got = n → w'.1.2.isOpen = true ∧ p.getLast?.map Prod.fst = some w'.1.2.begun) ∧
      (before = n → w'.1 = w.1)) ?_ ?_ ?_ 0 w
  · obtain ⟨p, hp, hq, hlen, hle, hend, hlast, -⟩ := hrun (Nat.zero_le n) hw got w' h
    exact ⟨p, hp, hq, (Nat.zero_add _).symm.trans hlen, hle, hend, hlast⟩
  · intro before w before' w₁ hturn ih hbefore hw got w' hx
    obtain ⟨hlt, o, ho, hpoll, hsome⟩ := (Gzip.reader R).copyTurn_eq_more hturn
    rcases o with - | b
    · exact absurd hpoll poll_ne_none
    obtain ⟨rfl, hemit⟩ := hsome
    have hb : b ≠ [] := fun hnil => ho (congrArg some hnil)
    have hread := (Gzip.reader R).poll_eq_some hpoll
    have hlen := (Gzip.reader R).length_le hread
    have hpos : 0 < min cap (n - before) := by
      have hcap := hcap (by omega)
      omega
    obtain ⟨hpasses, hopen, -⟩ := Gzip.read_passes R (mapError_eq_ok hread) hpos
      ((min_le_left _ _).trans_lt hmax) hw
    obtain ⟨p, hp, hq, hgot, hle, hend, hlast, hsame⟩ := ih (by omega) hpasses.sound got w' hx
    refine ⟨b.map (Prod.mk w₁.1.2.begun) ++ p, hpasses.trans hp, hcons hb hemit hq, ?_, hle, hend,
      fun _ hfull => ?_, fun hfull => absurd hfull hlt.ne⟩
    · rw [List.length_append, List.length_map, ← Nat.add_assoc]
      exact hgot
    · rcases List.eq_nil_or_concat p with rfl | ⟨q, x, rfl⟩
      · -- There are enough: nothing more is read.
        rw [hsame (by rw [List.length_nil] at hgot; omega), List.append_nil, List.getLast?_map]
        obtain ⟨c, hc⟩ := Option.isSome_iff_exists.mp (List.getLast?_isSome.mpr hb)
        exact ⟨hopen hb, by rw [hc]; rfl⟩
      · rw [List.getLast?_append_of_ne_nil _ (by simp)]
        exact hlast (by simp) hfull
  · intro before w got w₁ hturn hbefore hw got' w' hx
    cases hx
    obtain ⟨rfl, hfiles⟩ := (Gzip.reader R).copyTurn_eq_done hturn
    rcases Nat.lt_or_ge got n with hlt | hge
    · obtain ⟨hread, -⟩ := (Gzip.reader R).copyTurn_eq_end hturn hlt
      have hpos : 0 < min cap (n - got) := by
        have hcap := hcap (by omega)
        omega
      obtain ⟨hpasses, -, hend⟩ := Gzip.read_passes R (mapError_eq_ok hread) hpos
        ((min_le_left _ _).trans_lt hmax) hw
      refine ⟨[], hpasses, ?_, rfl, hbefore, fun _ => hend rfl, fun hne => absurd rfl hne,
        fun hfull => absurd hfull hlt.ne⟩
      rw [hfiles]
      exact hnil _
    · rw [(Gzip.reader R).copyTurn_full hge] at hturn
      cases hturn
      exact ⟨[], .refl hw, hnil _, rfl, hbefore, fun hlt => absurd hge (Nat.not_le.mpr hlt),
        fun hne => absurd rfl hne, fun _ => rfl⟩
  · intro _ _ _ _ _ _ _ _ _ hx
    cases hx

/-- What is gathered is the next piece of the text. -/
theorem gather_passes {n : ℕ} (hmax : n < 2 ^ 32) {g g' : Gzip σ} {b : Bytes}
    (h : (Gzip.reader R).gather n g = .ok b g') (hg : Sound g.2) :
    ∃ p, Passes R g p g' ∧ p.map Prod.snd = b ∧ p.length ≤ n ∧
      (p.length < n → g'.2.isOpen = false ∧ Gzip.text R g' = []) ∧
      (p ≠ [] → p.length = n → g'.2.isOpen = true ∧ p.getLast?.map Prod.fst = some g'.2.begun) := by
  obtain ⟨⟨got, buf⟩, mid, hcopy, h⟩ := Act.bind_eq_ok h
  cases h
  obtain ⟨p, hp, hq, rfl, hle, hend, hlast⟩ := copy_passes
    (Q := fun buf p buf' => buf' = buf ++ p.map Prod.snd) (fun buf => by simp)
    (fun {g b t t' p u} _ hemit hq => by
      obtain rfl : t' = t ++ b := (congrArg state hemit).symm
      rw [hq, List.map_append, List.map_map, List.append_assoc]
      congr 2
      exact (List.map_id b).symm)
    id hmax (withLocal_eq_ok hcopy) hg
  exact ⟨p, hp, hq.symm, hle, hend, hlast⟩

/-- What is skipped is the next piece of the text. -/
theorem skip_passes {n : ℕ} {g g' : Gzip σ} (h : Tar.skip (Gzip.reader R) n g = .ok () g')
    (hg : Sound g.2) : ∃ p, Passes R g p g' ∧ p.length = n := by
  obtain ⟨⟨got, u⟩, mid, hcopy, h⟩ := Act.bind_eq_ok h
  dsimp only at h
  split_ifs at h with hgot
  · cases h
  · cases h
    obtain ⟨p, hp, -, hlen, -⟩ := copy_passes (Q := fun _ _ _ => True) (fun _ => trivial)
      (fun _ _ _ => trivial) (fun _ => by decide) (by decide)
      (withLocal_eq_ok (mapError_eq_ok hcopy)) hg
    exact ⟨p, hp, hlen.trans (not_not.mp hgot)⟩

theorem readSpecial_passes {size max : ℕ} (hmax : max < 2 ^ 32) {g g' : Gzip σ} {b : Bytes}
    (h : Tar.readSpecial (Gzip.reader R) size max g = .ok b g') (hg : Sound g.2) :
    ∃ p, Passes R g p g' ∧ p.length = size ∧ p.map Prod.snd = b := by
  rw [Tar.readSpecial] at h
  split_ifs at h with hsize
  · cases h
  · obtain ⟨buf, mid, hgather, h⟩ := Act.bind_eq_ok h
    split_ifs at h with hlen
    · cases h
    · cases h
      obtain ⟨p, hp, rfl, -⟩ := gather_passes ((Nat.not_lt.mp hsize).trans_lt hmax)
        (mapError_eq_ok hgather) hg
      rw [List.length_map] at hlen
      exact ⟨p, hp, not_not.mp hlen, rfl⟩

/-- What is written to a file is the next piece of the text. -/
theorem writeFile_passes {path : PathBuf} {size mode : ℕ} {w w' : Work (Gzip σ) ℕ}
    (h : Tar.writeFile (Gzip.reader R) os gzMembers path size mode w = .ok () w') (hw : Sound w.1.2) :
    ∃ p, Passes R w.1 p w'.1 ∧ p.length = size ∧ Given w.2 p w'.2 := by
  obtain ⟨u₁, w₁, hmkdir, hrest⟩ := Act.bind_eq_ok h
  obtain ⟨f, w₂, hopen, hrest⟩ := Act.bind_eq_ok hrest
  obtain ⟨got, w₃, hcopy, hrest⟩ := Act.bind_eq_ok hrest
  obtain ⟨hmkdir, hsame₁⟩ := onSnd_eq_ok hmkdir
  obtain ⟨hopen, hsame₂⟩ := onSnd_eq_ok hopen
  have hquiet : Given w.2 [] w₂.2 := given_of_logs (trans_of _
    ((logs_createDirAll (P := fun x => x.2.data = []) (fun _ => rfl) _).of_ok (mapError_eq_ok hmkdir))
    ((logs_openFile (P := fun x => x.2.data = []) (fun _ _ => rfl) _ _).of_ok (mapError_eq_ok hopen)))
  split_ifs at hrest with hgot
  · cases hrest
  · cases hrest
    obtain ⟨p, hp, hq, hlen, -⟩ := copy_passes (Q := Given) Given.refl
      (fun hb hemit hq => (given_of_write hb hemit).trans hq) (fun _ => by decide) (by decide)
      (mapError_eq_ok hcopy) (by rw [hsame₂, hsame₁]; exact hw)
    rw [hsame₂, hsame₁] at hp
    exact ⟨p, hp, hlen.trans (not_not.mp hgot), hquiet.trans hq⟩

/-! ### Tar in gzip -/

theorem item_passes {kind : UInt8} {block : Bytes} {size : ℕ} {target : Option PathBuf}
    {w w' : Work (Gzip σ) ℕ}
    (h : Tar.item (Gzip.reader R) os gzMembers kind block size target w = .ok () w')
    (hw : Sound w.1.2) : ∃ p, Passes R w.1 p w'.1 ∧ p.length = size ∧
      Given w.2 (if (kind = 48 ∨ kind = 0 ∨ kind = 55) ∧ target.isSome then p else []) w'.2 := by
  have hskip : ∀ {v v' : Work (Gzip σ) ℕ}, onFst (Tar.skip (Gzip.reader R) size) v = .ok () v' →
      Sound v.1.2 → ∃ p, Passes R v.1 p v'.1 ∧ p.length = size ∧ v'.2 = v.2 := by
    intro v v' h hv
    obtain ⟨hskip, hfiles⟩ := onFst_eq_ok h
    obtain ⟨p, hp, hlen⟩ := skip_passes hskip hv
    exact ⟨p, hp, hlen, hfiles⟩
  rcases target with - | path
  · obtain ⟨p, hp, hlen, hfiles⟩ := hskip h hw
    refine ⟨p, hp, hlen, ?_⟩
    rw [if_neg (by simp), hfiles]
    exact .refl _
  · rw [Tar.item] at h
    split_ifs at h with hdir hfile
    · obtain ⟨u, w₁, hmkdir, hrest⟩ := Act.bind_eq_ok h
      obtain ⟨hmkdir, hsame⟩ := onSnd_eq_ok hmkdir
      obtain ⟨p, hp, hlen, hfiles⟩ := hskip hrest (by rw [hsame]; exact hw)
      rw [hsame] at hp
      refine ⟨p, hp, hlen, ?_⟩
      rw [if_neg (fun h => absurd h.1 (by rw [hdir]; decide)), hfiles]
      exact given_of_logs
        ((logs_createDirAll (P := fun x => x.2.data = []) (fun _ => rfl) _).of_ok (mapError_eq_ok hmkdir))
    · obtain ⟨mode, w₁, hmode, hrest⟩ := Act.bind_eq_ok h
      obtain ⟨-, rfl⟩ := fromExcept_eq_ok hmode
      obtain ⟨p, hp, hlen, hgiven⟩ := writeFile_passes hrest hw
      refine ⟨p, hp, hlen, ?_⟩
      rw [if_pos ⟨hfile, rfl⟩]
      exact hgiven
    · obtain ⟨p, hp, hlen, hfiles⟩ := hskip h hw
      refine ⟨p, hp, hlen, ?_⟩
      rw [if_neg fun h => hfile h.1, hfiles]
      exact .refl _

/-- **What follows a header** in the text, and what of it is written. -/
theorem entry_passes {block : Bytes} {pending pending' : Tar.Pending} {w w' : Work (Gzip σ) ℕ}
    (h : Tar.entry (Gzip.reader R) os gzMembers block pending w = .ok pending' w')
    (hw : Sound w.1.2) : ∃ body pad, Passes R w.1 (body ++ pad) w'.1 ∧
      body.length = Tar.sizeOf block pending ∧ pad.length = Tar.padding body.length ∧
      pending' = Tar.behind block pending (body.map Prod.snd) ∧
      Given w.2 (if Tar.toFile block pending then body else []) w'.2 := by
  obtain ⟨u, w₁, hsum, hrest⟩ := Act.bind_eq_ok h
  obtain ⟨headerSize, w₂, hread, hkinds⟩ := Act.bind_eq_ok hrest
  obtain ⟨hoctal, rfl⟩ := fromExcept_eq_ok hread
  obtain ⟨-, rfl⟩ := fromExcept_eq_ok hsum
  have hsize : pending.size.getD headerSize = Tar.sizeOf block pending := by
    rw [Tar.sizeOf, hoctal]
    rfl
  dsimp only at hkinds
  rw [hsize] at hkinds
  -- The padding behind the bytes.
  have hpadding : ∀ {v v' : Work (Gzip σ) ℕ} {body : List (ℕ × UInt8)}, Passes R w₂.1 body v.1 →
      body.length = Tar.sizeOf block pending →
      onFst (Tar.skipPadding (Gzip.reader R) (Tar.sizeOf block pending)) v = .ok () v' →
      ∃ pad, Passes R w₂.1 (body ++ pad) v'.1 ∧ pad.length = Tar.padding body.length ∧ v'.2 = v.2 := by
    intro v v' body hbody hlen hskip
    obtain ⟨hskip, hfiles⟩ := onFst_eq_ok hskip
    obtain ⟨pad, hpad, hpadLen⟩ := skip_passes hskip hbody.sound
    exact ⟨pad, hbody.trans hpad, by rw [hpadLen, hlen]; rfl, hfiles⟩
  split_ifs at hkinds with hname hpax
  · obtain ⟨name, w₃, hspecial, hrest⟩ := Act.bind_eq_ok hkinds
    obtain ⟨u', w₄, hskip, hlast⟩ := Act.bind_eq_ok hrest
    cases hlast
    obtain ⟨hspecial, hfiles⟩ := onFst_eq_ok hspecial
    obtain ⟨body, hbody, hlen, rfl⟩ := readSpecial_passes (by decide) hspecial hw
    obtain ⟨pad, hpad, hpadLen, hfiles'⟩ := hpadding hbody hlen hskip
    refine ⟨body, pad, hpad, hlen, hpadLen, ?_, ?_⟩
    · rw [Tar.behind, Tar.kindOf, if_pos hname]
    · rw [if_neg (by rw [Tar.toFile, Tar.kindOf, hname]; simp), hfiles', hfiles]
      exact .refl _
  · obtain ⟨records, w₃, hspecial, hrest⟩ := Act.bind_eq_ok hkinds
    obtain ⟨u', w₄, hskip, hlast⟩ := Act.bind_eq_ok hrest
    obtain ⟨hparse, rfl⟩ := fromExcept_eq_ok hlast
    obtain ⟨hspecial, hfiles⟩ := onFst_eq_ok hspecial
    obtain ⟨body, hbody, hlen, rfl⟩ := readSpecial_passes (by decide) hspecial hw
    obtain ⟨pad, hpad, hpadLen, hfiles'⟩ := hpadding hbody hlen hskip
    refine ⟨body, pad, hpad, hlen, hpadLen, ?_, ?_⟩
    · rw [Tar.behind, Tar.kindOf, if_neg hname, if_pos hpax, hparse]
      rfl
    · rw [if_neg (by rw [Tar.toFile, Tar.kindOf, hpax]; simp), hfiles', hfiles]
      exact .refl _
  · obtain ⟨target, w₃, htarget, hrest⟩ := Act.bind_eq_ok hkinds
    obtain ⟨u', w₄, hitem, hrest'⟩ := Act.bind_eq_ok hrest
    obtain ⟨u'', w₅, hskip, hlast⟩ := Act.bind_eq_ok hrest'
    cases hlast
    obtain ⟨hjoin, rfl⟩ := fromExcept_eq_ok htarget
    obtain ⟨body, hbody, hlen, hgiven⟩ := item_passes hitem hw
    obtain ⟨pad, hpad, hpadLen, hfiles'⟩ := hpadding hbody hlen hskip
    have hfile : Tar.toFile block pending = decide ((((block[156]?).getD 0 = 48 ∨
        (block[156]?).getD 0 = 0 ∨ (block[156]?).getD 0 = 55) ∧ target.isSome = true)) := by
      rw [Tar.toFile, hjoin]
      rfl
    refine ⟨body, pad, hpad, hlen, hpadLen, ?_, ?_⟩
    · rw [Tar.behind, Tar.kindOf, if_neg hname, if_neg hpax]
    · rw [hfiles', hfile]
      simpa only [decide_eq_true_iff] using hgiven

/-- **A turn that goes on** takes a header and what follows it out of the text. -/
theorem turn_passes {pending pending' : Tar.Pending} {w w' : Work (Gzip σ) ℕ}
    (h : Tar.turn (Gzip.reader R) os gzMembers pending w = .ok (.more pending') w')
    (hw : Sound w.1.2) : ∃ p body pad, Passes R w.1 (p ++ (body ++ pad)) w'.1 ∧
      p.length = Tar.blockLen ∧ (p.map Prod.snd).all (· = 0) = false ∧
      body.length = Tar.sizeOf (p.map Prod.snd) pending ∧ pad.length = Tar.padding body.length ∧
      pending' = Tar.behind (p.map Prod.snd) pending (body.map Prod.snd) ∧
      Given w.2 (if Tar.toFile (p.map Prod.snd) pending then body else []) w'.2 := by
  obtain ⟨o, mid, hblock, h⟩ := Act.bind_eq_ok h
  obtain ⟨hblock, hfiles⟩ := onFst_eq_ok hblock
  rcases o with - | block
  · cases h
  · dsimp only at h
    split_ifs at h with hzero
    · cases h
    · obtain ⟨p', w'', hentry, h⟩ := Act.bind_eq_ok h
      cases h
      obtain ⟨b, s, hgather, hb⟩ := Act.bind_eq_ok hblock
      split_ifs at hb with hnil hshort
      · cases hb
      · cases hb
      · cases hb
        obtain ⟨p, hp, rfl, hle, -⟩ := gather_passes (by decide) (mapError_eq_ok hgather) hw
        rw [List.length_map] at hshort
        obtain ⟨body, pad, hbody, hlen, hpad, hpending, hgiven⟩ := entry_passes hentry hp.sound
        rw [← hfiles]
        exact ⟨p, body, pad, hp.trans hbody, le_antisymm hle (Nat.not_lt.mp hshort),
          Bool.eq_false_iff.mpr hzero, hlen, hpad, hpending, hgiven⟩

/-- The last turn: the text is at its end, or a block of zeros is taken out of it. -/
theorem lastTurn_passes {pending : Tar.Pending} {w w' : Work (Gzip σ) ℕ}
    (h : Tar.turn (Gzip.reader R) os gzMembers pending w = .ok (.done ()) w') (hw : Sound w.1.2) :
    w'.2 = w.2 ∧ ∃ p, Passes R w.1 p w'.1 ∧ (p = [] ∧ w'.1.2.isOpen = false ∧ Gzip.text R w'.1 = [] ∨
      p.length = Tar.blockLen ∧ (p.map Prod.snd).all (· = 0) = true ∧ w'.1.2.isOpen = true ∧
        p.getLast?.map Prod.fst = some w'.1.2.begun) := by
  obtain ⟨hfiles, hlast⟩ := Tar.turn_eq_done.mp h
  refine ⟨hfiles, ?_⟩
  obtain hblock | ⟨block, hblock, hzero⟩ := hlast
  · obtain ⟨b, s, hgather, hb⟩ := Act.bind_eq_ok hblock
    split_ifs at hb with hnil hshort
    · cases hb
      obtain ⟨p, hp, hbytes, -, hend, -⟩ := gather_passes (by decide) (mapError_eq_ok hgather) hw
      obtain rfl : p = [] := List.map_eq_nil_iff.mp (hbytes.trans hnil)
      exact ⟨[], hp, .inl ⟨rfl, hend (by decide)⟩⟩
    · cases hb
    · cases hb
  · obtain ⟨b, s, hgather, hb⟩ := Act.bind_eq_ok hblock
    split_ifs at hb with hnil hshort
    · cases hb
    · cases hb
    · cases hb
      obtain ⟨p, hp, rfl, hle, -, hfull⟩ := gather_passes (by decide) (mapError_eq_ok hgather) hw
      rw [List.length_map] at hshort
      have hlen : p.length = Tar.blockLen := le_antisymm hle (Nat.not_lt.mp hshort)
      have hne : p ≠ [] := fun h => hnil (by rw [h]; rfl)
      exact ⟨p, hp, .inr ⟨hlen, hzero, hfull hne hlen⟩⟩

/-- **The turns of an unpacking are the rounds of `cutFrom` over the text.** -/
theorem extractTar_cut {w w' : Work (Gzip σ) ℕ}
    (h : Tar.extractTar (Gzip.reader R) os gzMembers w = .ok () w') (hw : Sound w.1.2)
    (hlog : ∀ k, ¬ w.2.Wrote k) : Sound w'.1.2 ∧ (∀ k, w'.2.Wrote k → 0 < k ∧ k ≤ w'.1.2.begun) ∧
      (Tar.cut (Gzip.text R w.1) = true ↔ w'.1.2.isOpen = true ∧ w'.2.Wrote w'.1.2.begun) := by
  have hrun := loop_induction (h := Tar.turn_descends (Gzip.reader R) os gzMembers)
    (P := fun pending w x => ∀ given n, Sound w.1.2 → (∀ k, w.2.Wrote k ↔ k ∈ given) →
      (∀ k ∈ given, 0 < k ∧ k ≤ w.1.2.begun) → (Gzip.text R w.1).length < n → ∀ w', x = .ok () w' →
      Sound w'.1.2 ∧ (∀ k, w'.2.Wrote k → 0 < k ∧ k ≤ w'.1.2.begun) ∧
      (Tar.cutFrom n pending given (Gzip.text R w.1) = true ↔
        w'.1.2.isOpen = true ∧ w'.2.Wrote w'.1.2.begun)) ?_ ?_ ?_ {} w
  · exact hrun [] _ hw (fun k => iff_of_false (hlog k) List.not_mem_nil)
      (fun k hk => absurd hk List.not_mem_nil) (Nat.lt_succ_self _) w' h
  · intro pending w pending' w₁ hturn ih given n hw hgiven hmarks hn w' hx
    obtain ⟨p, body, pad, hpasses, hp, hzero, hbody, hpad, rfl, hfiles⟩ := turn_passes hturn hw
    have htext := hpasses.text
    rcases n with - | n
    · exact absurd hn (Nat.not_lt_zero _)
    -- The pieces of the text are those that `cutFrom` takes.
    have htake : (Gzip.text R w.1).take Tar.blockLen = p := by
      rw [htext, List.append_assoc, List.take_left' hp]
    have hdrop : (Gzip.text R w.1).drop Tar.blockLen = body ++ (pad ++ Gzip.text R w₁.1) := by
      rw [htext, List.append_assoc, List.drop_left' hp, List.append_assoc]
    have hcut : Tar.cutFrom (n + 1) pending given (Gzip.text R w.1) =
        Tar.cutFrom n (Tar.behind (p.map Prod.snd) pending (body.map Prod.snd))
          (if Tar.toFile (p.map Prod.snd) pending then given ++ body.map Prod.fst else given)
          (Gzip.text R w₁.1) := by
      have hlen : ¬ (p.map Prod.snd).length < Tar.blockLen := by
        rw [List.length_map, hp]
        exact lt_irrefl _
      have hrest : (body ++ (pad ++ Gzip.text R w₁.1)).drop (body.length + Tar.padding body.length) =
          Gzip.text R w₁.1 := by
        rw [← hpad, ← List.append_assoc, ← List.length_append, List.drop_left]
      rw [Tar.cutFrom, htake, hdrop]
      dsimp only
      rw [if_neg hlen, hzero, if_neg Bool.false_ne_true, ← hbody, List.take_left, hrest]
    rw [hcut]
    have hmem : ∀ k, w₁.2.Wrote k ↔
        k ∈ if Tar.toFile (p.map Prod.snd) pending then given ++ body.map Prod.fst else given := by
      intro k
      rw [hfiles k, hgiven k]
      split_ifs
      · rw [List.mem_append, List.mem_map]
      · exact or_iff_left fun ⟨_, hx, _⟩ => List.not_mem_nil hx
    refine ih _ n hpasses.sound hmem (fun k hk => ?_) ?_ w' hx
    · rcases (hfiles k).mp ((hmem k).mpr hk) with hold | ⟨x, hx, rfl⟩
      · obtain ⟨hpos, hle⟩ := hmarks k ((hgiven k).mp hold)
        exact ⟨hpos, hle.trans hpasses.begun⟩
      · refine hpasses.marks x (List.mem_append_right p (List.mem_append_left pad ?_))
        split_ifs at hx
        · exact hx
        · exact absurd hx List.not_mem_nil
    · rw [htext, List.length_append, List.length_append, hp] at hn
      have hblock : 0 < Tar.blockLen := by decide
      omega
  · intro pending w u w₁ hturn given n hw hgiven hmarks hn w' hx
    cases hx
    obtain ⟨hfiles, p, hpasses, hlast⟩ := lastTurn_passes hturn hw
    have htext := hpasses.text
    refine ⟨hpasses.sound, fun k hk => ?_, ?_⟩
    · obtain ⟨hpos, hle⟩ := hmarks k ((hgiven k).mp (hfiles ▸ hk))
      exact ⟨hpos, hle.trans hpasses.begun⟩
    rcases n with - | n
    · exact absurd hn (Nat.not_lt_zero _)
    rcases hlast with ⟨rfl, hclosed, hend⟩ | ⟨hp, hzero, hopen, hmark⟩
    · rw [hend] at htext
      have hlen : (([] : Bytes).length < Tar.blockLen) := by decide
      rw [htext, hclosed, List.nil_append, Tar.cutFrom, List.take_nil, List.map_nil]
      dsimp only
      rw [if_pos hlen]
      exact iff_of_false Bool.false_ne_true fun h => absurd h.1 Bool.false_ne_true
    · have htake : (Gzip.text R w.1).take Tar.blockLen = p := by
        rw [htext, List.take_left' hp]
      have hlen : ¬ (p.map Prod.snd).length < Tar.blockLen := by
        rw [List.length_map, hp]
        exact lt_irrefl _
      rw [Tar.cutFrom, htake]
      dsimp only
      rw [if_neg hlen, if_pos hzero, hopen, hfiles, hgiven, and_iff_right rfl]
      obtain ⟨x, hx, hbegun⟩ := Option.map_eq_some_iff.mp hmark
      rw [hx, Option.any_some, decide_eq_true_iff, hbegun]
  · intro _ _ _ _ _ _ _ _ _ _ _ _ hx
    cases hx

end Gz

/-! ### Zip -/

section Zip

variable {F : SeekReader σ} {os : Os}

/-- Pieces that were written to a file, one after the other. -/
def writes (k : ℕ) (f : Spot) (pieces : List Bytes) : List (ℕ × Effect) :=
  pieces.map fun b => (k, .write f b)

/-- What is copied is what is counted. -/
theorem copyChecked_eq_ok {ρ : Type} {R : Reader ρ} {k max : ℕ} {f : Spot} {path : PathBuf}
    {p p' : ρ × Files ℕ} {sum : ℕ × ℕ} (h : Zip.copyChecked R os k f max path p = .ok sum p') :
    ∃ pieces, p'.2.log = p.2.log ++ writes k f pieces ∧
      sum.1 = min pieces.flatten.length (2 ^ 64 - 1) ∧
      sum.2 = Crc32.sum (Crc32.update Crc32.new pieces.flatten) := by
  have hrun := loop_induction (h := Zip.copyTurn_descends R os k f max path)
    (P := fun before p x => before.1 ≤ 2 ^ 64 - 1 → ∀ sum p', x = .ok sum p' →
      ∃ pieces, p'.2.log = p.2.log ++ writes k f pieces ∧
        sum.1 = min (before.1 + pieces.flatten.length) (2 ^ 64 - 1) ∧
        sum.2 = Crc32.sum (Crc32.update before.2 pieces.flatten))
    (fun before p after mid hturn ih hbefore sum p' hx => by
      obtain ⟨o, p₁, hpoll, hturn⟩ := Act.bind_eq_ok hturn
      obtain ⟨-, hfiles⟩ := onFst_eq_ok hpoll
      rcases o with - | b
      · cases hturn
        obtain ⟨pieces, hlog, hsum⟩ := ih hbefore sum p' hx
        exact ⟨pieces, by rw [hlog, hfiles], hsum⟩
      · rcases b with - | ⟨c, cs⟩
        · cases hturn
        · obtain ⟨u, p₂, hensure, hrest⟩ := Act.bind_eq_ok hturn
          obtain ⟨-, rfl⟩ := ensure_eq_ok hensure
          obtain ⟨u', p₃, hwrite, hlast⟩ := Act.bind_eq_ok hrest
          cases hlast
          have hdid := perform_eq_ok (mapError_eq_ok (onSnd_eq_ok hwrite).1)
          obtain ⟨pieces, hlog, hlen, hcrc⟩ := ih (min_le_right _ _) sum p' hx
          refine ⟨(c :: cs) :: pieces, ?_, ?_, ?_⟩
          · rw [hlog, hdid, hfiles, Files.did, List.append_assoc]
            rfl
          · rw [hlen, List.flatten_cons, List.length_append]
            dsimp only
            omega
          · rw [hcrc, List.flatten_cons, Crc32.update, Crc32.update, Crc32.update,
              List.foldl_append])
    (fun before p after mid hturn hbefore sum p' hx => by
      cases hx
      obtain ⟨o, p₁, hpoll, hturn⟩ := Act.bind_eq_ok hturn
      obtain ⟨-, hfiles⟩ := onFst_eq_ok hpoll
      rcases o with - | b
      · cases hturn
      · rcases b with - | ⟨c, cs⟩
        · cases hturn
          exact ⟨[], by rw [hfiles]; exact (List.append_nil _).symm,
            (min_eq_left hbefore).symm, rfl⟩
        · obtain ⟨u, p₂, -, hturn⟩ := Act.bind_eq_ok hturn
          obtain ⟨u', p₃, -, hturn⟩ := Act.bind_eq_ok hturn
          cases hturn)
    (fun _ _ _ _ _ _ _ _ hx => by cases hx) (0, Crc32.new) p
  obtain ⟨pieces, hlog, hlen, hcrc⟩ := hrun (Nat.zero_le _) sum p' h
  exact ⟨pieces, hlog, by rw [hlen, Nat.zero_add], hcrc⟩

theorem copyEntry_eq_ok {k : ℕ} {e : Zip.Entry} {f : Spot} {target : PathBuf}
    {w w' : Work σ ℕ} {sum : ℕ × ℕ} (h : Zip.copyEntry F os k e f target w = .ok sum w') :
    ∃ pieces, w'.2.log = w.2.log ++ writes k f pieces ∧
      sum.1 = min pieces.flatten.length (2 ^ 64 - 1) ∧
      sum.2 = Crc32.sum (Crc32.update Crc32.new pieces.flatten) := by
  rw [Zip.copyEntry] at h
  split_ifs at h
  · obtain ⟨q, hcopy, rfl⟩ := onFstAs_eq_ok h
    have hsum := copyChecked_eq_ok hcopy
    exact hsum
  · obtain ⟨q, hcopy, rfl⟩ := onFstAs_eq_ok h
    have hsum := copyChecked_eq_ok hcopy
    exact hsum
  · cases h

theorem written_append (k : ℕ) (log done : List (ℕ × Effect)) :
    written k (log ++ done) = written k log ++ written k done := by
  rw [written, List.filter_append, List.flatMap_append]
  rfl

/-- What is written with no mark but another, or with no bytes, does not count. -/
theorem written_eq_nil {k : ℕ} {l : List (ℕ × Effect)} (h : ∀ x ∈ l, x.1 = k → x.2.data = []) :
    written k l = [] := by
  rw [written, List.flatMap_eq_nil_iff]
  intro x hx
  obtain ⟨hx, hk⟩ := List.mem_filter.mp hx
  exact h x hx (of_decide_eq_true hk)

theorem written_writes (k : ℕ) (f : Spot) (pieces : List Bytes) :
    written k (writes k f pieces) = pieces.flatten := by
  have hall : (writes k f pieces).filter (fun x => x.1 = k) = writes k f pieces := by
    refine List.filter_eq_self.mpr fun x hx => ?_
    obtain ⟨b, -, rfl⟩ := List.mem_map.mp hx
    exact decide_eq_true rfl
  rw [written, hall, writes, List.flatMap_map]
  exact List.flatMap_id

/-- **An entry is checked**: what was written of it has the length and the checksum that the
directory says. -/
theorem extractEntry_intact {k : ℕ} {e : Zip.Entry} {target : PathBuf} {w w' : Work σ ℕ}
    (h : Zip.extractEntry F os k e target w = .ok () w') :
    ∃ done, w'.2.log = w.2.log ++ done ∧ (∀ x ∈ done, x.1 = k) ∧ e.intact (written k done) = true := by
  obtain ⟨u₁, w₁, hensure, hrest⟩ := Act.bind_eq_ok h
  obtain ⟨u₂, w₂, hseek, hrest⟩ := Act.bind_eq_ok hrest
  obtain ⟨u₃, w₃, hmkdir, hrest⟩ := Act.bind_eq_ok hrest
  obtain ⟨f, w₄, hopen, hrest⟩ := Act.bind_eq_ok hrest
  obtain ⟨sum, w₅, hcopy, hlast⟩ := Act.bind_eq_ok hrest
  obtain ⟨-, rfl⟩ := ensure_eq_ok hensure
  obtain ⟨⟨hsize, hcrc⟩, rfl⟩ := ensure_eq_ok hlast
  obtain ⟨pieces, hlog, hlen, hsum⟩ := copyEntry_eq_ok hcopy
  -- Nothing is written before the file is there.
  let P : ℕ × Effect → Prop := fun x => x.1 = k ∧ x.2.data = []
  have hquiet : Logs P w₂.2 w₄.2 := trans_of (Logs P)
    ((logs_createDirAll (P := P) (fun _ => ⟨rfl, rfl⟩) _).of_ok
      (mapError_eq_ok (onSnd_eq_ok hmkdir).1))
    ((logs_openFile (P := P) (fun _ _ => ⟨rfl, rfl⟩) _ _).of_ok
      (mapError_eq_ok (onSnd_eq_ok hopen).1))
  obtain ⟨before, hbefore, hall⟩ := hquiet
  refine ⟨before ++ writes k f pieces, ?_, ?_, ?_⟩
  · rw [hlog, hbefore, (onFst_eq_ok hseek).2, List.append_assoc]
  · refine List.forall_mem_append.mpr ⟨fun x hx => (hall x hx).1, fun x hx => ?_⟩
    obtain ⟨b, -, rfl⟩ := List.mem_map.mp hx
    rfl
  · rw [written_append, written_eq_nil fun x hx _ => (hall x hx).2, written_writes, List.nil_append,
      Zip.Entry.intact, decide_eq_true_iff]
    exact ⟨hlen ▸ hsize, hsum ▸ hcrc⟩

/-- What is done for an entry bears its number, and what is written of it is intact. -/
theorem item_intact {k : ℕ} {e : Zip.Entry} {w w' : Work σ ℕ}
    (h : Zip.item F os k e w = .ok () w') : ∃ done, w'.2.log = w.2.log ++ done ∧
      (∀ x ∈ done, x.1 = k) ∧ ((∃ x ∈ done, x.2.data ≠ []) → e.intact (written k done) = true) := by
  obtain ⟨target, w₁, hjoin, hrest⟩ := Act.bind_eq_ok h
  obtain ⟨-, rfl⟩ := fromExcept_eq_ok hjoin
  rcases target with - | target
  · cases hrest
    exact ⟨[], (List.append_nil _).symm, fun _ hx => absurd hx List.not_mem_nil,
      fun ⟨_, hx, _⟩ => absurd hx List.not_mem_nil⟩
  · dsimp only at hrest
    split_ifs at hrest
    · let P : ℕ × Effect → Prop := fun x => x.1 = k ∧ x.2.data = []
      obtain ⟨done, hlog, hall⟩ := (logs_createDirAll (P := P) (fun _ => ⟨rfl, rfl⟩) target).of_ok
        (mapError_eq_ok (onSnd_eq_ok hrest).1)
      exact ⟨done, hlog, fun x hx => (hall x hx).1, fun ⟨x, hx, hne⟩ => absurd (hall x hx).2 hne⟩
    · obtain ⟨done, hlog, hall, hintact⟩ := extractEntry_intact hrest
      exact ⟨done, hlog, hall, fun _ => hintact⟩

/-- **When all is done**, what was written of each entry is intact. -/
theorem extractEntries_intact {k : ℕ} {es : List Zip.Entry} {p p' : Work σ ℕ × List Zip.Entry}
    (hk : k = p.2.length + 1) (hmarks : ∀ x ∈ p.1.2.log, x.1 < k)
    (hp : ∀ x ∈ p.1.2.log, x.2.data ≠ [] → Zip.intact p.2 p.1.2.log x.1 = true)
    (h : Zip.extractEntries F os k es p = .ok () p') :
    ∀ x ∈ p'.1.2.log, x.2.data ≠ [] → Zip.intact p'.2 p'.1.2.log x.1 = true := by
  induction es generalizing k p with
  | nil =>
    cases h
    exact hp
  | cons e es ih =>
    obtain ⟨u, p₁, hitem, hrest⟩ := Act.bind_eq_ok h
    obtain ⟨u', p₂, hdone, hrest⟩ := Act.bind_eq_ok hrest
    cases hdone
    obtain ⟨hitem, hentries⟩ := onFst_eq_ok hitem
    obtain ⟨done, hlog, hall, hintact⟩ := item_intact hitem
    have hold : ∀ j < k, written j p₁.1.2.log = written j p.1.2.log := fun j hj => by
      rw [hlog, written_append, written_eq_nil (l := done) fun x hx hxj =>
        absurd ((hall x hx).symm.trans hxj) hj.ne', List.append_nil]
    refine ih (by rw [hk, hentries, List.length_append, List.length_singleton]) (fun x hx => ?_)
      (fun x hx hne => ?_) hrest
    · rw [hlog] at hx
      rcases List.mem_append.mp hx with hx | hx
      · exact (hmarks x hx).trans (Nat.lt_succ_self k)
      · rw [hall x hx]
        exact Nat.lt_succ_self k
    · rw [hlog] at hx
      change Zip.intact (p₁.2 ++ [e]) p₁.1.2.log x.1 = true
      rw [hentries]
      rcases List.mem_append.mp hx with hx | hx
      · -- An entry before this one.
        have hbefore := hp x hx hne
        have hlt := hmarks x hx
        rcases hmark : x.1 with - | j
        · rw [hmark] at hbefore
          exact hbefore
        · rw [hmark] at hbefore hlt
          rw [Zip.intact, hold _ hlt, List.getElem?_append_left (by omega)]
          exact hbefore
      · rw [hall x hx, hk, Zip.intact, List.getElem?_concat_length, Option.any_some, hlog,
          written_append, written_eq_nil (l := p.1.2.log) fun y hy hyk =>
            absurd (hyk.trans hk.symm) (hmarks y hy).ne, List.nil_append, ← hk]
        exact hintact ⟨x, hx, hne⟩

end Zip

/-! ### The three formats -/

section Formats

variable (A : Archive σ ρ) (os : Os)

/-- What is known of the program for bzip2: it goes on member by member, and it exits with success
only if every member it gave bytes of was read to its end and matched. -/
structure Process.Strict (P : Process ρ) : Prop where
  begun_le : ∀ n, Keeps (fun s s' => P.begun s ≤ P.begun s') (P.out.read n)
  intact : ∀ s status, P.wait s = .ok (true, status) → ∀ k ≤ P.begun s, P.intact s k = true

/-- A gzip stream in which the tar archive ends before the end of a member that a file comes from. -/
def CutShort (how : String) : Prop :=
  (how = "tar.gz" ∨ how = "tgz") ∧ ∃ s g, A.opened = .ok s ∧
    Gzip.memberHeader A.file.toReader (Gzip.unopened s) = .ok () g ∧
    Tar.cut (Gzip.text A.file.toReader g) = true

variable {A os}

theorem result_of_eq_ok {S : Type} {files : S → Files ℕ} {intact : S → ℕ → Bool}
    {r : EStateM.Result HostError S Unit} (h : (Outcome.of files intact r).result = .ok ()) :
    ∃ s, r = .ok () s := by
  rcases r with ⟨⟨⟩, s⟩ | ⟨e, s⟩
  · exact ⟨s, rfl⟩
  · cases h

theorem checked_extractTarGz_iff {how : String} (hhow : how = "tar.gz" ∨ how = "tgz") {tree : Tree}
    (hok : (extractTarGz A os ⟨tree, []⟩).result = .ok ()) :
    (extractTarGz A os ⟨tree, []⟩).Checked ↔ ¬ CutShort A how := by
  rw [extractTarGz] at hok ⊢
  rcases hopened : A.opened with e | s
  · rw [hopened] at hok
    cases hok
  rw [hopened] at hok
  dsimp only at hok ⊢
  rcases hheader : Gzip.memberHeader A.file.toReader (Gzip.unopened s) with ⟨u, g⟩ | ⟨e, g⟩
  · rw [hheader] at hok
    dsimp only at hok ⊢
    obtain ⟨w', hrun⟩ := result_of_eq_ok hok
    obtain ⟨hsound, -, -⟩ := Gzip.sound_memberHeader _ hheader (Gzip.sound_unopened s) rfl
    have hnone : ∀ k, ¬ (⟨tree, []⟩ : Files ℕ).Wrote k := by
      rintro k ⟨x, hx, -⟩
      exact List.not_mem_nil hx
    obtain ⟨hsound', hmarks, hcut⟩ := extractTar_cut hrun hsound hnone
    have hshort : CutShort A how ↔ Tar.cut (Gzip.text A.file.toReader g) = true := by
      constructor
      · rintro ⟨-, s', g', hs, hg, h⟩
        cases hopened.symm.trans hs
        cases hheader.symm.trans hg
        exact h
      · exact fun h => ⟨hhow, s, g, hopened, hheader, h⟩
    rw [hrun, hshort, hcut]
    -- A member that was written and is not intact is the one that is open at the end.
    have hbegun := hsound'.begun
    constructor
    · rintro hchecked ⟨hopen, x, hx, hne, hmark⟩
      have hintact := hchecked x hx hne
      have hpos := (hmarks x.1 ⟨x, hx, hne, rfl⟩).1
      have hle := (hsound'.intact_iff hpos).mp hintact
      rw [if_pos hopen] at hbegun
      omega
    · intro hnot x hx hne
      obtain ⟨hpos, hle⟩ := hmarks x.1 ⟨x, hx, hne, rfl⟩
      refine (hsound'.intact_iff hpos).mpr ?_
      by_cases hopen : w'.1.2.isOpen = true
      · have hother : x.1 ≠ w'.1.2.begun := fun hmark => hnot ⟨hopen, x, hx, hne, hmark⟩
        rw [if_pos hopen] at hbegun
        omega
      · rw [if_neg hopen] at hbegun
        omega
  · rw [hheader] at hok
    cases hok

theorem begun_drain (hstrict : A.bzip2.Strict) (s : ρ) :
    A.bzip2.begun s ≤ A.bzip2.begun (drain A s) := by
  have hmono : IsTrans ρ fun s s' => A.bzip2.begun s ≤ A.bzip2.begun s' :=
    ⟨fun _ _ _ h h' => Nat.le_trans h h'⟩
  have hrefl : Std.Refl fun s s' => A.bzip2.begun s ≤ A.bzip2.begun s' := ⟨fun _ => le_rfl⟩
  exact A.bzip2.out.keeps_withLocal_copy
    (fun n => A.bzip2.out.keeps_poll_of (hstrict.begun_le n)) Tar.copyBuf
    (A.bzip2.out.rank s + 1) () (fun _ => pure ()) s

/-- A program that exited with success has checked all that was read of its output. -/
theorem finish_eq_ok (hstrict : A.bzip2.Strict) {tool : String} {s : ρ}
    {result : Except HostError Unit} (h : (finish A tool s result).2 = .ok ()) :
    ∀ k ≤ A.bzip2.begun s, A.bzip2.intact (finish A tool s result).1 k = true := by
  rw [finish] at h ⊢
  rcases hwait : A.bzip2.wait (drain A s) with e | ⟨success, status⟩
  · simp only [hwait] at h
    cases h
  · simp only [hwait] at h ⊢
    rcases result with e | u
    · cases h
    · dsimp only at h ⊢
      split_ifs at h ⊢ with hsuccess
      obtain rfl : success = true := Bool.not_eq_false _ ▸ hsuccess
      exact fun k hk => hstrict.intact _ status hwait k (hk.trans (begun_drain hstrict s))

/-- The reader of the program's output moves on, and no mark is ahead of it. -/
structure Along (P : Process ρ) (w w' : Work ρ ℕ) : Prop where
  reads : P.begun w.1 ≤ P.begun w'.1
  behind : (∀ x ∈ w.2.log, x.1 ≤ P.begun w.1) → ∀ x ∈ w'.2.log, x.1 ≤ P.begun w'.1

instance (P : Process ρ) : Std.Refl (Along P) := ⟨fun _ => ⟨le_rfl, id⟩⟩

instance (P : Process ρ) : IsTrans (Work ρ ℕ) (Along P) where
  trans _ _ _ h h' := ⟨h.reads.trans h'.reads, fun hw => h'.behind (h.behind hw)⟩

theorem Along.marked {P : Process ρ} {s : ρ} {f f' : Files ℕ} (h : Marked (P.begun s) f f') :
    Along P (s, f) (s, f') := by
  obtain ⟨done, hlog, hdone⟩ := h
  refine ⟨le_rfl, fun hw x hx => ?_⟩
  change x ∈ f'.log at hx
  rw [hlog] at hx
  rcases List.mem_append.mp hx with hx | hx
  · exact hw x hx
  · exact (hdone x hx).le

theorem Along.read {P : Process ρ} {s s' : ρ} (h : P.begun s ≤ P.begun s') (f : Files ℕ) :
    Along P (s, f) (s', f) :=
  ⟨h, fun hw x hx => (hw x hx).trans h⟩

/-- What an unpacking does is marked with where its reader is then. -/
theorem eachCall_along {P : Process ρ} (hstrict : P.Strict) :
    Tar.EachCall P.out os P.begun (Along P) where
  poll n t s := .read (P.out.keeps_poll_of (hstrict.begun_le n) s) t
  createDirAll parts _ := Keeps.onSnd (fun _ => marked_createDirAll _) fun _ _ _ => .marked
  writeFile parts _ _ size mode := by
    have hsnd : ∀ {α : Type} {m : ρ → Act (Files ℕ) HostError α},
        (∀ s, Keeps (Marked (P.begun s)) (m s)) → Keeps (Along P) (onSnd m) :=
      fun h => Keeps.onSnd h fun _ _ _ => .marked
    refine (hsnd fun s => (marked_createDirAll _).mapError _).andThen fun _ => ?_
    refine (hsnd fun s => (marked_openFile _ _).mapError _).andThen fun f => ?_
    refine (Keeps.mapError (P.out.keeps_copy (fun m => ?_) ?_) _).andThen fun got => ?_
    · exact Keeps.onFst_of fun t s => .read (P.out.keeps_poll_of (hstrict.begun_le m) s) t
    · -- A piece is written behind the call of `read` that gave it.
      intro m s b s' t hr
      exact trans_of (Along P) (.read ((hstrict.begun_le m).of_ok hr) t)
        (.marked (marked_perform _ t))
    · split_ifs
      · exact keeps_throw _
      · exact keeps_pure _

theorem checked_extractTarBz2 (hstrict : A.bzip2.Strict) {tree : Tree}
    (hok : (extractTarBz2 A os ⟨tree, []⟩).result = .ok ()) :
    (extractTarBz2 A os ⟨tree, []⟩).Checked := by
  rw [extractTarBz2] at hok ⊢
  rcases hopened : A.opened with e | _
  · rw [hopened] at hok
    cases hok
  rw [hopened] at hok
  rcases htool : A.tool with - | tool
  · rw [htool] at hok
    cases hok
  rw [htool] at hok
  rcases hspawned : A.spawned with e | s
  · rw [hspawned] at hok
    cases hok
  rw [hspawned] at hok
  dsimp only at hok ⊢
  split_ifs at hok ⊢ with hpiped
  have halong := (eachCall_along hstrict).extractTar A.bzip2.out os A.bzip2.begun (s, ⟨tree, []⟩)
  intro x hx _
  dsimp only at hok hx ⊢
  rw [files_of] at hx
  exact finish_eq_ok hstrict hok x.1
    (halong.behind (fun y hy => absurd hy List.not_mem_nil) x hx)

theorem checked_extractZip {tree : Tree} (hok : (extractZip A os ⟨tree, []⟩).result = .ok ()) :
    (extractZip A os ⟨tree, []⟩).Checked := by
  rw [extractZip] at hok ⊢
  rcases hopened : A.opened with e | s
  · rw [hopened] at hok
    cases hok
  rw [hopened] at hok
  dsimp only at hok ⊢
  obtain ⟨p, hrun⟩ := result_of_eq_ok hok
  rw [hrun]
  obtain ⟨entries, p₁, hdirectory, hrest⟩ := Act.bind_eq_ok hrun
  obtain ⟨hdirectory, hdone⟩ := onFst_eq_ok hdirectory
  have hfiles := (onFst_eq_ok hdirectory).2
  have hnone : ∀ x, x ∉ p₁.1.2.log := fun x hx => by
    rw [hfiles] at hx
    exact List.not_mem_nil hx
  exact extractEntries_intact (by rw [hdone]; rfl) (fun x hx => absurd hx (hnone x))
    (fun x hx => absurd hx (hnone x)) hrest

/-- **A corrupt archive is reported**, but for one whose tar archive ends before the end of a gzip
member that a file comes from: if an unpacking succeeds, then every member of which it wrote bytes was
read to its end, and its checksum and its length matched, if and only if the archive is not such a
one. -/
theorem checked_extract_iff (hstrict : A.bzip2.Strict) (how : String) (tree : Tree)
    (hok : (extract A os how ⟨tree, []⟩).result = .ok ()) :
    (extract A os how ⟨tree, []⟩).Checked ↔ ¬ CutShort A how := by
  have hother : how ≠ "tar.gz" → how ≠ "tgz" → ¬ CutShort A how := by
    rintro h h' ⟨hhow | hhow, -⟩
    · exact h hhow
    · exact h' hhow
  unfold extract at hok ⊢
  split at hok
  · exact checked_extractTarGz_iff (.inl rfl) hok
  · exact checked_extractTarGz_iff (.inr rfl) hok
  · exact iff_of_true (checked_extractTarBz2 hstrict hok) (hother (by decide) (by decide))
  · exact iff_of_true (checked_extractTarBz2 hstrict hok) (hother (by decide) (by decide))
  · exact iff_of_true (checked_extractZip hok) (hother (by decide) (by decide))
  · cases hok

end Formats

theorem strict_ofBytes (data output : Bytes) : (Archive.ofBytes data output).bzip2.Strict :=
  ⟨fun _ _ => le_rfl, fun _ _ _ _ _ => rfl⟩

/-! ### A checksum that is not read, and one that is -/

theorem checked_of_seen {o : Outcome} {log : List (Bool × ℕ × Effect)} (h : o.seen = (true, log))
    (hall : ∀ x ∈ log, x.1 = true) : o.Checked := by
  obtain ⟨-, hlog⟩ := Outcome.seen_eq h
  intro x hx _
  exact hall (o.intact x.1, x) (hlog ▸ List.mem_map_of_mem hx)

theorem not_checked_of_seen {o : Outcome} {log : List (Bool × ℕ × Effect)} (h : o.seen = (true, log))
    {x : ℕ × Effect} (hx : (false, x) ∈ log) (hne : x.2.data ≠ []) : ¬ o.Checked := by
  obtain ⟨-, rfl⟩ := Outcome.seen_eq h
  obtain ⟨y, hy, hmark⟩ := List.mem_map.mp hx
  obtain ⟨hintact, rfl⟩ := Prod.mk.inj hmark
  exact fun hchecked => Bool.false_ne_true (hintact.symm.trans (hchecked y hy hne))

/-- One file and the block of zeros, as one stored block in a gzip member, with zeros for its
checksum and its length. -/
def badSum : Bytes :=
  [0x1f, 0x8b, 8, 0, 0, 0, 0, 0, 0, 3] ++ [1, 0x00, 0x06, 0xff, 0xf9] ++ fileEntry "a" "1140" ++
    List.replicate 512 0 ++ List.replicate 8 0

theorem seen_badSum :
    (extract (.ofBytes badSum []) willing "tar.gz" ⟨fun _ => none, []⟩).seen =
      (true, [(false, 1, .create (.at [['a']]) 420), (false, 1, .write (.at [['a']]) (utf8 "x"))]) := by
  decide +kernel

/-- A zip archive with the same file. -/
def zipped : Bytes :=
  [0x50, 0x4b, 3, 4, 10, 0, 0, 0, 0, 0, 0, 0, 0, 0, 0x83, 0x16, 0xdc, 0x8c, 1, 0, 0, 0, 1, 0, 0, 0,
    1, 0, 0, 0] ++ utf8 "ax" ++
  [0x50, 0x4b, 1, 2, 0x1e, 3, 10, 0, 0, 0, 0, 0, 0, 0, 0, 0, 0x83, 0x16, 0xdc, 0x8c, 1, 0, 0, 0,
    1, 0, 0, 0, 1, 0, 0, 0, 0, 0, 0, 0, 0, 0, 0, 0, 0xa4, 0x81, 0, 0, 0, 0] ++ utf8 "a" ++
  [0x50, 0x4b, 5, 6, 0, 0, 0, 0, 1, 0, 1, 0, 0x2f, 0, 0, 0, 0x20, 0, 0, 0, 0, 0]

theorem seen_zipped :
    (extract (.ofBytes zipped []) willing "zip" ⟨fun _ => none, []⟩).seen =
      (true, [(true, 1, .create (.at [['a']]) 420), (true, 1, .write (.at [['a']]) (utf8 "x"))]) := by
  decide +kernel

/-- The file in the zip archive is checked, and the other archive is cut short. -/
theorem checked_extract_samples :
    ((extract (.ofBytes zipped []) willing "zip" ⟨fun _ => none, []⟩).Checked ∧
      ¬ CutShort (.ofBytes zipped []) "zip") ∧ CutShort (.ofBytes badSum []) "tar.gz" := by
  have hzipped := checked_extract_iff (strict_ofBytes zipped []) "zip" (fun _ => none)
    (Outcome.seen_eq seen_zipped).1
  have hchecked := checked_of_seen seen_zipped (by
    intro x hx
    rcases List.mem_pair.mp hx with rfl | rfl
    · rfl
    · rfl)
  have hbad := checked_extract_iff (strict_ofBytes badSum []) "tar.gz" (fun _ => none)
    (Outcome.seen_eq seen_badSum).1
  have hnot := not_checked_of_seen seen_badSum (List.mem_cons_of_mem _ List.mem_cons_self)
    (show utf8 "x" ≠ [] by decide)
  exact ⟨⟨hchecked, hzipped.mp hchecked⟩, not_not.mp fun h => hnot (hbad.mpr h)⟩

/-- The file is written, the archive is unpacked, and the wrong checksum was not read. -/
theorem badSum_unpacked :
    (extract (.ofBytes badSum []) willing "tar.gz" ⟨fun _ => none, []⟩).result = .ok () ∧
      ¬ (extract (.ofBytes badSum []) willing "tar.gz" ⟨fun _ => none, []⟩).Checked :=
  ⟨(Outcome.seen_eq seen_badSum).1,
    not_checked_of_seen seen_badSum (List.mem_cons_of_mem _ List.mem_cons_self)
      (show utf8 "x" ≠ [] by decide)⟩

end Hop.Runner.Extract
