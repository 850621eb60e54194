import Mathlib

/-!
# Computations that move a state and can fail

What such a computation did before it failed stays done. Two kinds of facts are proved about one:
what it does to the state whatever its outcome (`Keeps`, for any preorder on states), and what it
returns (`bind_of_ok`, and back `bind_eq_ok`).

A loop is given by its turn (`loop`), with a number that each turn which goes on lowers, so every
loop ends. `Keeps.loop` carries a fact about one turn over the loop; `loop_induction` is the
induction over the turns of a run.
-/

namespace Hop

/-- A computation that moves a state and can fail. -/
abbrev Act (S ε α : Type) : Type := EStateM ε S α

namespace Act

open EStateM (Result)

variable {S T ε ε' α β : Type}
variable {m : Act S ε α} {s : S} {a : α} {f : α → Act S ε β}

/-- The state of a result, also of a failure. -/
def state : Result ε S α → S
  | .ok _ s => s
  | .error _ s => s

@[simp] theorem state_ok (a : α) (s : S) : state (Result.ok a s : Result ε S α) = s := rfl

@[simp] theorem state_error (e : ε) (s : S) : state (Result.error e s : Result ε S α) = s := rfl

/-! ### One after the other -/

theorem pure_apply (a : α) (s : S) : (pure a : Act S ε α) s = .ok a s := rfl

theorem bind_of_ok {s' : S} (h : m s = .ok a s') : (m >>= f) s = f a s' := by
  change EStateM.bind m f s = f a s'
  rw [EStateM.bind, h]

theorem bind_of_error {s' : S} {e : ε} (h : m s = .error e s') : (m >>= f) s = .error e s' := by
  change EStateM.bind m f s = .error e s'
  rw [EStateM.bind, h]

theorem bind_congr_left {s' : S} (h : m s = m s') : (m >>= f) s = (m >>= f) s' := by
  change EStateM.bind m f s = EStateM.bind m f s'
  rw [EStateM.bind, EStateM.bind, h]

theorem bind_eq_ok {s'' : S} {b : β} (h : (m >>= f) s = .ok b s'') :
    ∃ a s', m s = .ok a s' ∧ f a s' = .ok b s'' := by
  rcases hm : m s with ⟨a, s'⟩ | ⟨e, s'⟩
  · rw [bind_of_ok hm] at h
    exact ⟨a, s', rfl, h⟩
  · rw [bind_of_error hm] at h
    cases h

theorem get_bind (f : S → Act S ε β) (s : S) : (get >>= f) s = f s s := rfl

/-- A result that needs no state. -/
def fromExcept : Except ε α → Act S ε α
  | .ok a => pure a
  | .error e => throw e

theorem fromExcept_eq_ok {x : Except ε α} {s' : S} (h : fromExcept x s = .ok a s') :
    x = .ok a ∧ s' = s := by
  rcases x with e | x
  · cases h
  · cases h
    exact ⟨rfl, rfl⟩

/-- Go on only if this holds. -/
def ensure (c : Prop) [Decidable c] (e : ε) : Act S ε Unit := if c then pure () else throw e

theorem ensure_eq_ok {c : Prop} [Decidable c] {e : ε} {s' : S} (h : ensure c e s = .ok () s') :
    c ∧ s' = s := by
  rw [ensure] at h
  split_ifs at h with hc
  · cases h
    exact ⟨hc, rfl⟩
  · cases h

theorem ensure_of {c : Prop} [Decidable c] (hc : c) {e : ε} :
    ensure c e s = .ok () s := by
  rw [ensure, if_pos hc]
  rfl

/-- Only if this holds. -/
def onlyIf (c : Prop) [Decidable c] (m : Act S ε Unit) : Act S ε Unit :=
  if c then m else pure ()

/-- The same with another error. -/
def mapError (f : ε → ε') (m : Act S ε α) : Act S ε' α := fun s =>
  match m s with
  | .ok a s' => .ok a s'
  | .error e s' => .error (f e) s'

theorem mapError_eq_ok {f : ε → ε'} {s' : S} (h : mapError f m s = .ok a s') : m s = .ok a s' := by
  rw [mapError] at h
  rcases hm : m s with ⟨b, t⟩ | ⟨e, t⟩
  · rw [hm] at h
    cases h
    rfl
  · rw [hm] at h
    cases h

/-! ### A part of a state -/

/-- A computation on the first part of a state. -/
def onFst (m : Act S ε α) : Act (S × T) ε α := fun p =>
  match m p.1 with
  | .ok a s => .ok a (s, p.2)
  | .error e s => .error e (s, p.2)

/-- A computation on the second part of a state, which sees the first. -/
def onSnd (m : S → Act T ε α) : Act (S × T) ε α := fun p =>
  match m p.1 p.2 with
  | .ok a t => .ok a (p.1, t)
  | .error e t => .error e (p.1, t)

/-- A computation with a second part of its own. -/
def withLocal (init : T) (m : Act (S × T) ε α) : Act S ε (α × T) := fun s =>
  match m (s, init) with
  | .ok a p => .ok (a, p.2) p.1
  | .error e p => .error e p.1

/-- A computation that has the first part of a state in another form. -/
def onFstAs {U : Type} (into : S → U) (back : U → S) (m : Act (U × T) ε α) : Act (S × T) ε α :=
  fun p =>
    match m (into p.1, p.2) with
    | .ok a q => .ok a (back q.1, q.2)
    | .error e q => .error e (back q.1, q.2)

theorem onFst_of_ok {s' : S} {t : T} (h : m s = .ok a s') :
    onFst m (s, t) = .ok a (s', t) := by
  rw [onFst, h]

theorem onSnd_of_ok {m : S → Act T ε α} {t t' : T} (h : m s t = .ok a t') :
    onSnd m (s, t) = .ok a (s, t') := by
  rw [onSnd, h]

theorem onFst_eq_ok {p q : S × T} (h : onFst m p = .ok a q) :
    m p.1 = .ok a q.1 ∧ q.2 = p.2 := by
  rw [onFst] at h
  rcases hm : m p.1 with ⟨b, s⟩ | ⟨e, s⟩
  · rw [hm] at h
    cases h
    exact ⟨rfl, rfl⟩
  · rw [hm] at h
    cases h

theorem onFst_eq_error {p q : S × T} {e : ε} (h : onFst m p = .error e q) :
    m p.1 = .error e q.1 ∧ q.2 = p.2 := by
  rw [onFst] at h
  rcases hm : m p.1 with ⟨b, s⟩ | ⟨e, s⟩
  · rw [hm] at h
    cases h
  · rw [hm] at h
    cases h
    exact ⟨rfl, rfl⟩

theorem onSnd_eq_ok {m : S → Act T ε α} {p q : S × T} (h : onSnd m p = .ok a q) :
    m p.1 p.2 = .ok a q.2 ∧ q.1 = p.1 := by
  rw [onSnd] at h
  rcases hm : m p.1 p.2 with ⟨b, t⟩ | ⟨e, t⟩
  · rw [hm] at h
    cases h
    exact ⟨rfl, rfl⟩
  · rw [hm] at h
    cases h

theorem onFstAs_eq_ok {U : Type} {into : S → U} {back : U → S} {m : Act (U × T) ε α} {p q : S × T}
    (h : onFstAs into back m p = .ok a q) :
    ∃ r, m (into p.1, p.2) = .ok a r ∧ q = (back r.1, r.2) := by
  rw [onFstAs] at h
  rcases hm : m (into p.1, p.2) with ⟨b, r⟩ | ⟨e, r⟩
  · rw [hm] at h
    cases h
    exact ⟨r, rfl, rfl⟩
  · rw [hm] at h
    cases h

theorem withLocal_eq_ok {init : T} {m : Act (S × T) ε α} {s' : S} {r : α × T}
    (h : withLocal init m s = .ok r s') : m (s, init) = .ok r.1 (s', r.2) := by
  rw [withLocal] at h
  rcases hm : m (s, init) with ⟨b, p⟩ | ⟨e, p⟩
  · rw [hm] at h
    cases h
    rfl
  · rw [hm] at h
    cases h

/-! ### What is kept, whatever the outcome -/

/-- Wherever it ends, the state is related to the one it began in. -/
def Keeps (r : S → S → Prop) (m : Act S ε α) : Prop := ∀ s, r s (state (m s))

section Keeps

variable {r : S → S → Prop}

theorem Keeps.of_ok (h : Keeps r m) {s' : S} (hm : m s = .ok a s') :
    r s s' := by
  have hs := h s
  rwa [hm] at hs

theorem Keeps.mapError (h : Keeps r m) (f : ε → ε') :
    Keeps r (mapError f m) := by
  intro s
  have hs := h s
  rw [Act.mapError]
  rcases hm : m s with ⟨a, s'⟩ | ⟨e, s'⟩
  · rwa [hm] at hs
  · rwa [hm] at hs

/-- What a part keeps beside each rest, the whole keeps. -/
theorem Keeps.onFst_of {r : S × T → S × T → Prop} (h : ∀ t, Keeps (fun s s' => r (s, t) (s', t)) m)
    : Keeps r (Act.onFst m) := by
  rintro ⟨s, t⟩
  have hs := h t s
  rw [Act.onFst]
  rcases hm : m s with ⟨a, s'⟩ | ⟨e, s'⟩
  · rwa [hm] at hs
  · rwa [hm] at hs

/-- A part of the state is related as a part is, the rest is as it was. -/
theorem Keeps.onFst {r : S × T → S × T → Prop} {q : S → S → Prop} (h : Keeps q m)
    (hr : ∀ s s' t, q s s' → r (s, t) (s', t)) : Keeps r (onFst m) :=
  Keeps.onFst_of fun t s => hr s _ t (h s)

theorem Keeps.onSnd {r : S × T → S × T → Prop} {q : S → T → T → Prop} {m : S → Act T ε α}
    (h : ∀ s, Keeps (q s) (m s)) (hr : ∀ s t t', q s t t' → r (s, t) (s, t')) :
    Keeps r (onSnd m) := by
  rintro ⟨s, t⟩
  have hs := hr s t _ (h s t)
  rw [Act.onSnd]
  rcases hm : m s t with ⟨a, t'⟩ | ⟨e, t'⟩
  · rwa [hm] at hs
  · rwa [hm] at hs

theorem Keeps.onSnd_mapError {r : S × T → S × T → Prop} {m : S → Act T ε α} (h : Keeps r (Act.onSnd m))
    (f : ε → ε') : Keeps r (Act.onSnd fun s => Act.mapError f (m s)) := by
  rintro ⟨s, t⟩
  have hs := h (s, t)
  rw [Act.onSnd] at hs ⊢
  dsimp only at hs ⊢
  rw [Act.mapError]
  rcases hm : m s t with ⟨a, t'⟩ | ⟨e, t'⟩
  · rwa [hm] at hs
  · rwa [hm] at hs

theorem Keeps.withLocal {init : T} {m : Act (S × T) ε α} (h : Keeps (fun p q => r p.1 q.1) m) :
    Keeps r (withLocal init m) := by
  intro s
  have hs := h (s, init)
  rw [Act.withLocal]
  rcases hm : m (s, init) with ⟨a, p⟩ | ⟨e, p⟩
  · rwa [hm] at hs
  · rwa [hm] at hs

theorem keeps_ensure [Std.Refl r] (c : Prop) [Decidable c] (e : ε) :
    Keeps r (ensure c e : Act S ε Unit) := by
  intro s
  rw [ensure]
  split_ifs
  · exact Std.Refl.refl s
  · exact Std.Refl.refl s

theorem keeps_onlyIf [Std.Refl r] (c : Prop) [Decidable c] {m : Act S ε Unit} (hm : Keeps r m) :
    Keeps r (onlyIf c m) := by
  rw [onlyIf]
  split_ifs
  · exact hm
  · exact fun s => Std.Refl.refl s

/-- What comes first matters to what comes behind it only by what it returns. -/
theorem bind_keeps [IsTrans S r] (hm : r s (state (m s)))
    (hf : ∀ a s', m s = .ok a s' → r s' (state (f a s'))) :
    r s (state ((m >>= f) s)) := by
  rcases h : m s with ⟨a, s'⟩ | ⟨e, s'⟩
  · rw [h] at hm
    rw [bind_of_ok h]
    exact Trans.trans hm (hf a s' h)
  · rw [h] at hm
    rwa [bind_of_error h]

theorem Keeps.bind [IsTrans S r] (hm : Keeps r m)
    (hf : ∀ s a s', m s = .ok a s' → r s' (state (f a s'))) : Keeps r (m >>= f) :=
  fun s => bind_keeps (hm s) (hf s)

theorem Keeps.andThen [IsTrans S r] (hm : Keeps r m) (hf : ∀ a, Keeps r (f a)) :
    Keeps r (m >>= f) :=
  hm.bind fun _ a s' _ => hf a s'

variable [Std.Refl r]

theorem keeps_pure (a : α) : Keeps r (pure a : Act S ε α) := fun s => Std.Refl.refl s

theorem keeps_throw (e : ε) : Keeps r (throw e : Act S ε α) := fun s => Std.Refl.refl s

theorem keeps_get : Keeps r (get : Act S ε S) := fun s => Std.Refl.refl s

theorem keeps_fromExcept (x : Except ε α) : Keeps r (fromExcept x : Act S ε α) := by
  rcases x with e | a
  · exact keeps_throw e
  · exact keeps_pure a

end Keeps

/-! ### What is used up -/

/-- A number goes down by so much if all goes well, and does not go up if it fails. A negative `c`
allows it to go up. -/
structure Lowers (μ : S → ℕ) (c : ℤ) (m : Act S ε α) : Prop where
  of_ok : ∀ {s a s'}, m s = .ok a s' → (μ s' : ℤ) + c ≤ μ s
  of_error : ∀ {s e s'}, m s = .error e s' → μ s' ≤ μ s

section Lowers

variable {μ : S → ℕ} {c : ℤ}

theorem Lowers.weaken (h : Lowers μ c m) {c' : ℤ} (hc : c' ≤ c) :
    Lowers μ c' m where
  of_ok hm := by
    have hlow := h.of_ok hm
    omega
  of_error := h.of_error

theorem lowers_pure (a : α) : Lowers μ 0 (pure a : Act S ε α) where
  of_ok hm := by
    cases hm
    omega
  of_error hm := nomatch hm

theorem lowers_throw (e : ε) (c : ℤ) : Lowers μ c (throw e : Act S ε α) where
  of_ok hm := nomatch hm
  of_error hm := by
    cases hm
    omega

theorem lowers_fromExcept (x : Except ε α) : Lowers μ 0 (fromExcept x : Act S ε α) := by
  rcases x with e | a
  · exact lowers_throw e 0
  · exact lowers_pure a

theorem lowers_ensure (p : Prop) [Decidable p] (e : ε) :
    Lowers μ 0 (ensure p e : Act S ε Unit) := by
  rw [ensure]
  split_ifs
  · exact lowers_pure ()
  · exact lowers_throw e 0

theorem lowers_onlyIf (p : Prop) [Decidable p] {m : Act S ε Unit} (hm : Lowers μ 0 m) :
    Lowers μ 0 (onlyIf p m) := by
  rw [onlyIf]
  split_ifs
  · exact hm
  · exact lowers_pure ()

theorem Lowers.of_keeps (h : Keeps (fun s s' => μ s' ≤ μ s) m) :
    Lowers μ 0 m where
  of_ok {s a s'} hm := by
    have hle : μ s' ≤ μ s := h.of_ok hm
    omega
  of_error {s e s'} hm := by
    have hle := h s
    rwa [hm] at hle

theorem Lowers.keeps (h : Lowers μ 0 m) : Keeps (fun s s' => μ s' ≤ μ s) m := by
  intro s
  rcases hm : m s with ⟨a, s'⟩ | ⟨e, s'⟩
  · have hs := h.of_ok hm
    rw [state_ok]
    omega
  · exact h.of_error hm

/-- One after the other, both lower it. -/
theorem Lowers.bind {d : ℤ} (hm : Lowers μ c m) (hc : 0 ≤ c)
    (hf : ∀ s a s', m s = .ok a s' → Lowers μ d (f a)) : Lowers μ (c + d) (m >>= f) where
  of_ok h := by
    obtain ⟨a, s', hfirst, hsecond⟩ := bind_eq_ok h
    have hlow := hm.of_ok hfirst
    have hlow' := (hf _ a s' hfirst).of_ok hsecond
    omega
  of_error {s e s''} h := by
    rcases hfirst : m s with ⟨a, s'⟩ | ⟨e', s'⟩
    · rw [bind_of_ok hfirst] at h
      have hlow := hm.of_ok hfirst
      have hlow' := (hf s a s' hfirst).of_error h
      omega
    · rw [bind_of_error hfirst] at h
      cases h
      exact hm.of_error hfirst

theorem Lowers.andPure (hm : Lowers μ c m) (f : α → β) :
    Lowers μ c (m >>= fun a => pure (f a)) where
  of_ok h := by
    obtain ⟨a, s', hfirst, hsecond⟩ := bind_eq_ok h
    cases hsecond
    exact hm.of_ok hfirst
  of_error {s e s''} h := by
    rcases hfirst : m s with ⟨a, s'⟩ | ⟨e', s'⟩
    · rw [bind_of_ok hfirst] at h
      cases h
    · rw [bind_of_error hfirst] at h
      cases h
      exact hm.of_error hfirst

theorem Lowers.andThen {d : ℤ} (hm : Lowers μ c m) (hc : 0 ≤ c) (hf : ∀ a, Lowers μ d (f a)) :
    Lowers μ (c + d) (m >>= f) :=
  hm.bind hc fun _ a _ _ => hf a

end Lowers

/-! ### What is returned -/

/-- Where all goes well, the state before, what is returned and the state after are related. -/
def Ends (P : S → α → S → Prop) (m : Act S ε α) : Prop :=
  ∀ s a s', m s = .ok a s' → P s a s'

section Ends

variable {P : S → β → S → Prop}

theorem ends_pure {b : β} (h : ∀ s, P s b s) : Ends P (pure b : Act S ε β) := by
  intro s a s' hm
  cases hm
  exact h s

theorem ends_throw (e : ε) : Ends P (throw e : Act S ε β) := by
  intro s a s' hm
  cases hm

/-- What the first returns matters to the second, with the state it leaves. -/
theorem Ends.bind {Q : S → α → S → Prop} (hm : Ends Q m)
    (hf : ∀ a, Ends (fun s' b s'' => ∀ s, Q s a s' → P s b s'') (f a)) : Ends P (m >>= f) := by
  intro s b s'' h
  obtain ⟨a, s', hfirst, hsecond⟩ := bind_eq_ok h
  exact hf a s' b s'' hsecond s (hm s a s' hfirst)

theorem Ends.mono {Q : S → β → S → Prop} {m : Act S ε β} (hm : Ends Q m)
    (h : ∀ s b s', Q s b s' → P s b s') : Ends P m := fun s b s' hs => h s b s' (hm s b s' hs)

end Ends

/-! ### Loops -/

/-- What a turn of a loop says: go on, or this is the result. -/
inductive Turn (α β : Type)
  | more (a : α)
  | done (b : β)

/-- Each turn that goes on lowers the rank. -/
def Descends (rank : α → S → ℕ) (body : α → Act S ε (Turn α β)) : Prop :=
  ∀ a s a' s', body a s = .ok (.more a') s' → rank a' s' < rank a s

/-- Take turns until one is the last. -/
def loop (rank : α → S → ℕ) (body : α → Act S ε (Turn α β)) (h : Descends rank body) (a : α)
    (s : S) : Result ε S β :=
  match _hb : body a s with
  | .ok (.more a') s' => loop rank body h a' s'
  | .ok (.done b) s' => .ok b s'
  | .error e s' => .error e s'
termination_by rank a s
decreasing_by exact h a s a' s' _hb

section Loop

variable {rank : α → S → ℕ} {body : α → Act S ε (Turn α β)} {h : Descends rank body}

theorem loop_more {a' : α} {s' : S} (hb : body a s = .ok (.more a') s') :
    loop rank body h a s = loop rank body h a' s' := by
  rw [loop]
  split
  · rename_i h'
    rw [hb] at h'
    cases h'
    rfl
  · rename_i h'
    rw [hb] at h'
    cases h'
  · rename_i h'
    rw [hb] at h'
    cases h'

theorem loop_done {b : β} {s' : S} (hb : body a s = .ok (.done b) s') :
    loop rank body h a s = .ok b s' := by
  rw [loop]
  split
  · rename_i h'
    rw [hb] at h'
    cases h'
  · rename_i h'
    rw [hb] at h'
    cases h'
    rfl
  · rename_i h'
    rw [hb] at h'
    cases h'

theorem loop_error {e : ε} {s' : S} (hb : body a s = .error e s') :
    loop rank body h a s = .error e s' := by
  rw [loop]
  split
  · rename_i h'
    rw [hb] at h'
    cases h'
  · rename_i h'
    rw [hb] at h'
    cases h'
  · rename_i h'
    rw [hb] at h'
    cases h'
    rfl

/-- A run is what its first turn makes of it. -/
theorem loop_congr {s' : S} (hb : body a s = body a s') :
    loop rank body h a s = loop rank body h a s' := by
  rcases hs : body a s' with ⟨a' | b, t⟩ | ⟨e, t⟩
  · rw [loop_more (hb.trans hs), loop_more hs]
  · rw [loop_done (hb.trans hs), loop_done hs]
  · rw [loop_error (hb.trans hs), loop_error hs]

/-- **The rule for loops**: a fact about the result of a run holds if it holds where a turn ends the
loop, and is handed back over a turn that goes on. -/
theorem loop_induction {P : α → S → Result ε S β → Prop}
    (more : ∀ a s a' s', body a s = .ok (.more a') s' →
      P a' s' (loop rank body h a' s') → P a s (loop rank body h a' s'))
    (done : ∀ a s b s', body a s = .ok (.done b) s' → P a s (.ok b s'))
    (error : ∀ a s e s', body a s = .error e s' → P a s (.error e s')) (a : α) (s : S) :
    P a s (loop rank body h a s) := by
  induction hn : rank a s using Nat.strongRecOn generalizing a s with
  | ind n ih =>
    subst hn
    rcases hb : body a s with ⟨a' | b, s'⟩ | ⟨e, s'⟩
    · rw [loop_more hb]
      exact more a s a' s' hb (ih _ (h a s a' s' hb) a' s' rfl)
    · rw [loop_done hb]
      exact done a s b s' hb
    · rw [loop_error hb]
      exact error a s e s' hb

/-- What each turn keeps, the loop keeps. -/
theorem Keeps.loop {r : S → S → Prop} [IsTrans S r] (hbody : ∀ a, Keeps r (body a)) (a : α) :
    Keeps r (loop rank body h a) := by
  intro s
  refine loop_induction (P := fun _ s x => r s (state x)) ?_ ?_ ?_ a s
  · intro a s a' s' hb hrest
    exact Trans.trans ((hbody a).of_ok hb) hrest
  · intro a s b s' hb
    exact (hbody a).of_ok hb
  · intro a s e s' hb
    have hs := hbody a s
    rwa [hb] at hs

theorem Lowers.loop {μ : S → ℕ} (hbody : ∀ a, Lowers μ 0 (body a)) (a : α) :
    Lowers μ 0 (loop rank body h a) := by
  have : IsTrans S fun s s' => μ s' ≤ μ s := ⟨fun _ _ _ h h' => Nat.le_trans h' h⟩
  exact Lowers.of_keeps (Keeps.loop (fun a => (hbody a).keeps) a)

/-- What holds at the start of each turn of a run, and what the last turn makes of it. -/
theorem Ends.loop {I : S → α → S → Prop} {P : S → β → S → Prop}
    (hmore : ∀ s₀ a s a' s', I s₀ a s → body a s = .ok (.more a') s' → I s₀ a' s')
    (hdone : ∀ s₀ a s b s', I s₀ a s → body a s = .ok (.done b) s' → P s₀ b s') (a : α) :
    Ends (fun s b s' => ∀ s₀, I s₀ a s → P s₀ b s') (loop rank body h a) := by
  intro s b s' hloop s₀ hI
  have hall := loop_induction (h := h)
    (P := fun a s x => ∀ b s', x = .ok b s' → I s₀ a s → P s₀ b s')
    (fun a s a' s' hb ih b s'' hx hI => ih b s'' hx (hmore s₀ a s a' s' hI hb))
    (fun a s b s' hb c s'' hx hI => by
      cases hx
      exact hdone s₀ a s _ _ hI hb)
    (fun a s e s' hb c s'' hx hI => by cases hx) a s
  exact hall b s' hloop hI

end Loop

end Act

end Hop
