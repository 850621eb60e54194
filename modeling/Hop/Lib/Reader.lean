import Hop.Lib.Act
import Hop.Lib.Text

/-!
# Readers

A `Reader` is any source of bytes with the contract of `std::io::Read`: it is asked for at most `n`
bytes and gives some, or none at its end, or an error; it may say that it was interrupted. A reader
has finitely many bytes and interruptions in it, and its `rank` counts them.

The loops of the standard library (`copy`, `gather`) take pieces until there are enough bytes. What
every call of `read` keeps, they keep (`keeps_copy`, `keeps_gather`).
-/

namespace Hop

variable {n : ℕ}

/-- An error of a call of `read`. -/
inductive IoError
  | interrupted
  | other (why : String)

/-- A source of bytes. -/
structure Reader (σ : Type) where
  read : ℕ → Act σ IoError Bytes
  /-- A bound on what may still come. -/
  rank : σ → ℕ
  length_le : ∀ {n s b s'}, read n s = .ok b s' → b.length ≤ n
  rank_data : ∀ {n s b s'}, read n s = .ok b s' → b.length + rank s' ≤ rank s
  rank_interrupted : ∀ {n s s'}, read n s = .error .interrupted s' → rank s' < rank s
  rank_failed : ∀ {n s e s'}, read n s = .error e s' → rank s' ≤ rank s

namespace Reader

open Act

variable {σ τ : Type} (R : Reader σ)
variable {emit : σ → Bytes → Act τ String Unit}

/-- No more can come than before. -/
abbrev Sinks : σ → σ → Prop := fun s s' => R.rank s' ≤ R.rank s

instance : Std.Refl R.Sinks := ⟨fun _ => le_rfl⟩

instance : IsTrans σ R.Sinks := ⟨fun _ _ _ h h' => h'.trans h⟩

theorem keeps_read (n : ℕ) : Keeps R.Sinks (R.read n) := by
  intro s
  rcases h : R.read n s with ⟨b, s'⟩ | ⟨e, s'⟩
  · exact (Nat.le_add_left _ _).trans (R.rank_data h)
  · exact R.rank_failed h

/-- One call of `read`; none: it was interrupted. -/
def poll (n : ℕ) : Act σ String (Option Bytes) := fun s =>
  match R.read n s with
  | .ok b s' => .ok (some b) s'
  | .error .interrupted s' => .ok none s'
  | .error (.other why) s' => .error why s'

/-- What a call of `read` keeps, also if it was interrupted. -/
theorem keeps_poll_of {q : σ → σ → Prop} (h : Keeps q (R.read n)) : Keeps q (R.poll n) := by
  intro s
  have hs := h s
  rw [poll]
  rcases hr : R.read n s with ⟨b, s'⟩ | ⟨- | why, s'⟩ <;> rwa [hr] at hs

theorem keeps_poll (n : ℕ) : Keeps R.Sinks (R.poll n) := R.keeps_poll_of (R.keeps_read n)

theorem poll_eq_some {s s' : σ} {b : Bytes} (h : R.poll n s = .ok (some b) s') :
    R.read n s = .ok b s' := by
  rw [poll] at h
  rcases hr : R.read n s with ⟨b, t⟩ | ⟨- | why, t⟩
  all_goals
    rw [hr] at h
    cases h
  rfl

theorem poll_eq_none {s s' : σ} (h : R.poll n s = .ok none s') :
    R.read n s = .error .interrupted s' := by
  rw [poll] at h
  rcases hr : R.read n s with ⟨b, t⟩ | ⟨- | why, t⟩
  all_goals
    rw [hr] at h
    cases h
  rfl

/-- A call that gave a byte or was interrupted was not for nothing. -/
theorem rank_poll {s s' : σ} {o : Option Bytes} (h : R.poll n s = .ok o s') (ho : o ≠ some []) :
    R.rank s' < R.rank s := by
  rcases o with - | b
  · exact R.rank_interrupted (R.poll_eq_none h)
  · have hlen : 0 < b.length := List.length_pos_iff.mpr fun hb => ho (by rw [hb])
    have hrank := R.rank_data (R.poll_eq_some h)
    omega

/-! ### The loops of the standard library -/

/-- One more piece: the end is reached, or it is handed on. -/
def copyTurn (cap n : ℕ) (emit : σ → Bytes → Act τ String Unit) (got : ℕ) :
    Act (σ × τ) String (Turn ℕ ℕ) :=
  if n ≤ got then pure (.done got)
  else do
    match ← onFst (R.poll (min cap (n - got))) with
    | none => pure (.more got)
    | some [] => pure (.done got)
    | some b => do
      onSnd fun s => emit s b
      pure (.more (got + b.length))

/-- A turn that goes on was interrupted, or handed a piece on. -/
theorem copyTurn_eq_more {cap got got' : ℕ} {p p' : σ × τ}
    (h : R.copyTurn cap n emit got p = .ok (.more got') p') :
    got < n ∧ ∃ o, o ≠ some [] ∧ R.poll (min cap (n - got)) p.1 = .ok o p'.1 ∧
      match o with
      | none => got' = got ∧ p'.2 = p.2
      | some b => got' = got + b.length ∧ emit p'.1 b p.2 = .ok () p'.2 := by
  rw [copyTurn] at h
  split_ifs at h with hn
  · cases h
  · refine ⟨Nat.not_le.mp hn, ?_⟩
    obtain ⟨o, mid, hpoll, h⟩ := Act.bind_eq_ok h
    obtain ⟨hp, hmid⟩ := onFst_eq_ok hpoll
    rcases o with - | b
    · cases h
      exact ⟨none, nofun, hp, rfl, hmid⟩
    · cases b with
      | nil => cases h
      | cons b bs =>
        obtain ⟨u, q, hemitted, h⟩ := Act.bind_eq_ok h
        obtain ⟨he, hq⟩ := onSnd_eq_ok hemitted
        cases h
        rw [hmid, ← hq] at he
        refine ⟨some (b :: bs), nofun, ?_, rfl, he⟩
        rw [hq]
        exact hp

theorem copyTurn_eq_done {cap got got' : ℕ} {p p' : σ × τ}
    (h : R.copyTurn cap n emit got p = .ok (.done got') p') :
    got' = got ∧ p'.2 = p.2 := by
  rw [copyTurn] at h
  split_ifs at h with hn
  · cases h
    exact ⟨rfl, rfl⟩
  · obtain ⟨o, mid, hpoll, h⟩ := Act.bind_eq_ok h
    rcases o with - | b
    · cases h
    · cases b with
      | nil =>
        cases h
        exact ⟨rfl, (onFst_eq_ok hpoll).2⟩
      | cons b bs =>
        obtain ⟨u, q, hemitted, h⟩ := Act.bind_eq_ok h
        cases h

/-- A turn that ends the loop too early is at the end of the reader. -/
theorem copyTurn_eq_end {cap got got' : ℕ} {p p' : σ × τ}
    (h : R.copyTurn cap n emit got p = .ok (.done got') p') (hlt : got < n) :
    R.read (min cap (n - got)) p.1 = .ok [] p'.1 ∧ p'.2 = p.2 := by
  rw [copyTurn, if_neg (Nat.not_le.mpr hlt)] at h
  obtain ⟨o, mid, hpoll, h⟩ := Act.bind_eq_ok h
  obtain ⟨hp, hmid⟩ := onFst_eq_ok hpoll
  rcases o with - | b
  · cases h
  · cases b with
    | nil =>
      cases h
      exact ⟨R.poll_eq_some hp, hmid⟩
    | cons b bs =>
      obtain ⟨u, q, hemitted, h⟩ := Act.bind_eq_ok h
      cases h

theorem copyTurn_full {cap got : ℕ} {p : σ × τ} (h : n ≤ got) :
    R.copyTurn cap n emit got p = .ok (.done got) p := by
  rw [copyTurn, if_pos h]
  rfl

theorem copyTurn_descends (cap n : ℕ) (emit : σ → Bytes → Act τ String Unit) :
    Descends (fun _ p => R.rank p.1) (R.copyTurn cap n emit) := by
  intro got p got' p' h
  obtain ⟨-, o, ho, hpoll, -⟩ := R.copyTurn_eq_more h
  exact R.rank_poll hpoll ho

/-- `io::copy` of at most `n` bytes, in pieces of at most `cap`: how many there were. -/
def copy (cap n : ℕ) (emit : σ → Bytes → Act τ String Unit) : Act (σ × τ) String ℕ :=
  loop (fun _ p => R.rank p.1) (R.copyTurn cap n emit) (R.copyTurn_descends cap n emit) 0

/-- Read until there are `n` bytes or no more: `read_to_end` of at most `n` bytes, and the loop of
`read_exact`. -/
def gather (n : ℕ) : Act σ String Bytes := do
  let (_, b) ← withLocal [] (R.copy n n fun _ b => modify (· ++ b))
  pure b

/-- `read_exact`. -/
def readExact (n : ℕ) : Act σ String Bytes := do
  let b ← R.gather n
  if b.length < n then throw "failed to fill whole buffer" else pure b

/-- What every piece keeps, with the readers before and behind it, the copy keeps. -/
theorem keeps_copy {r : σ × τ → σ × τ → Prop} [Std.Refl r] [IsTrans (σ × τ) r] {cap : ℕ}
    (hpoll : ∀ m, Keeps r (onFst (R.poll m)))
    (hemit : ∀ m s b s' t, R.read m s = .ok b s' → r (s, t) (s', state (emit s' b t))) :
    Keeps r (R.copy cap n emit) := by
  refine Keeps.loop (fun got => ?_) 0
  rw [copyTurn]
  split_ifs with hn
  · exact keeps_pure _
  · intro p
    rcases hp : R.poll (min cap (n - got)) p.1 with ⟨o, s'⟩ | ⟨e, s'⟩
    · rcases o with - | b
      · rw [bind_of_ok (onFst_of_ok hp)]
        exact (hpoll (min cap (n - got))).of_ok (onFst_of_ok hp)
      · rw [bind_of_ok (onFst_of_ok hp)]
        cases b with
        | nil => exact (hpoll (min cap (n - got))).of_ok (onFst_of_ok hp)
        | cons b bs =>
          have hr := hemit _ p.1 (b :: bs) s' p.2 (R.poll_eq_some hp)
          rcases he : emit s' (b :: bs) p.2 with ⟨u, t⟩ | ⟨e, t⟩
          · rw [he] at hr
            dsimp only
            rw [bind_of_ok (onSnd_of_ok (m := fun s => emit s (b :: bs)) he)]
            exact hr
          · rw [he] at hr
            have hfail : onSnd (fun s => emit s (b :: bs)) (s', p.2) = .error e (s', t) := by
              rw [onSnd, he]
            dsimp only
            rw [bind_of_error hfail]
            exact hr
    · have hr := hpoll (min cap (n - got)) p
      have hfail : onFst (T := τ) (R.poll (min cap (n - got))) p = .error e (s', p.2) := by
        rw [onFst, hp]
      rw [bind_of_error hfail]
      rw [hfail] at hr
      exact hr

/-- Bytes come out of the reader, and are then gone from it. -/
theorem rank_gather {s s' : σ} {b : Bytes} (h : R.gather n s = .ok b s') :
    b.length + R.rank s' ≤ R.rank s := by
  let r : σ × Bytes → σ × Bytes → Prop := fun p q =>
    q.2.length + R.rank q.1 ≤ p.2.length + R.rank p.1
  have : Std.Refl r := ⟨fun _ => le_rfl⟩
  have : IsTrans (σ × Bytes) r := ⟨fun _ _ _ h h' => h'.trans h⟩
  obtain ⟨⟨got, buf⟩, mid, hcopy, h⟩ := Act.bind_eq_ok h
  cases h
  have hkeep : Keeps r (R.copy n n fun _ b => modify (· ++ b)) := by
    refine R.keeps_copy (fun m => ?_) ?_
    · refine (R.keeps_poll m).onFst fun s s' t hs => ?_
      exact Nat.add_le_add_left hs _
    · intro m s c s' t hr
      have hrank := R.rank_data hr
      change (t ++ c).length + R.rank s' ≤ t.length + R.rank s
      rw [List.length_append]
      omega
  have hr := hkeep.of_ok (withLocal_eq_ok hcopy)
  simpa [r] using hr

/-- Not more bytes than asked for. -/
theorem length_gather {s s' : σ} {b : Bytes} (h : R.gather n s = .ok b s') :
    b.length ≤ n := by
  obtain ⟨⟨got, buf⟩, mid, hcopy, h⟩ := Act.bind_eq_ok h
  cases h
  -- The pieces are counted, and no turn asks for more than is left.
  have hcount := loop_induction (h := R.copyTurn_descends n n fun _ b => modify (· ++ b))
    (P := fun got p x => p.2.length = got → got ≤ n → ∀ m p', x = .ok m p' → p'.2.length ≤ n)
    (fun got p got' p' hturn ih hlen hle => by
      obtain ⟨hlt, o, ho, hpoll, hsome⟩ := R.copyTurn_eq_more hturn
      rcases o with - | c
      · obtain ⟨rfl, hp⟩ := hsome
        exact ih (by rw [hp, hlen]) hle
      · obtain ⟨rfl, hemit⟩ := hsome
        have hp : p'.2 = p.2 ++ c := (congrArg state hemit).symm
        have hroom := R.length_le (R.poll_eq_some hpoll)
        refine ih (by rw [hp, List.length_append, hlen]) ?_
        omega)
    (fun got p got' p' hturn hlen hle m p'' hx => by
      cases hx
      rw [(R.copyTurn_eq_done hturn).2, hlen]
      exact hle)
    (fun _ _ _ _ _ _ _ _ _ hx => nomatch hx) 0 (s, [])
  exact hcount rfl (Nat.zero_le n) got (s', b) (withLocal_eq_ok hcopy)

section Keeps

variable {r : σ → σ → Prop} [Std.Refl r] [IsTrans σ r]

/-- What every call keeps, a copy keeps that does nothing else to the reader. -/
theorem keeps_withLocal_copy (hpoll : ∀ m, Keeps r (R.poll m)) (cap n : ℕ) (t : τ)
    (emit : Bytes → Act τ String Unit) :
    Keeps r (withLocal t (R.copy cap n fun _ b => emit b)) := by
  have : Std.Refl fun p q : σ × τ => r p.1 q.1 := ⟨fun p => Std.Refl.refl p.1⟩
  have : IsTrans (σ × τ) fun p q => r p.1 q.1 := ⟨fun p q u h h' => trans_of r h h'⟩
  refine Keeps.withLocal (R.keeps_copy (fun m => ?_) ?_)
  · exact (hpoll m).onFst fun _ _ _ hs => hs
  · intro m s b s' t hr
    have hs := hpoll m s
    rw [poll, hr] at hs
    exact hs

theorem keeps_gather (hpoll : ∀ m, Keeps r (R.poll m)) (n : ℕ) : Keeps r (R.gather n) :=
  (R.keeps_withLocal_copy hpoll n n [] _).andThen fun _ => keeps_pure _

end Keeps

variable {R}

/-! ### Bytes at a place -/

/-- A reader of bytes that are all there; its state is where it is in them. -/
def cursor (data : Bytes) : Reader ℕ where
  read n := fun pos => .ok ((data.drop pos).take n) (pos + ((data.drop pos).take n).length)
  rank pos := data.length - pos
  length_le h := by
    cases h
    exact List.length_take_le _ _
  rank_data h := by
    cases h
    rw [List.length_take, List.length_drop]
    omega
  rank_interrupted h := nomatch h
  rank_failed h := nomatch h

end Reader

end Hop
