import Hop.Cloudflared.Layout

/-!
# The language of a pattern

`Matches s n i j`: the node `n` matches the text `s` from the position `i` to `j`. `runs_code`: that
is what a way through the code of the node is, from its first address to behind its last.
-/

namespace Hop.Cloudflared

open Relation

/-! ### Which texts a node matches -/

section Matches

variable (s : Bytes)

mutual

/-- The node matches the text from `i` to `j`. -/
def Matches : Node → ℕ → ℕ → Prop
  | .empty, i, j => j = i
  | .set set, i, j => (∃ b, s[i]? = some b ∧ set.has b = true) ∧ j = i + 1
  | .begin, i, j => i = 0 ∧ j = i
  | .endText, i, j => i = s.length ∧ j = i
  | .concat items, i, j => MatchesAll items i j
  | .alt arms, i, j => MatchesOne arms i j
  | .rep node min max, i, j =>
    ∃ k, min ≤ k ∧ (∀ m ∈ max, k ≤ m) ∧ Times (fun i j => Matches node i j) k i j

/-- The nodes match one after the other. -/
def MatchesAll : List Node → ℕ → ℕ → Prop
  | [], i, j => j = i
  | node :: nodes, i, j => ∃ m, Matches node i m ∧ MatchesAll nodes m j

/-- One of the nodes matches. -/
def MatchesOne : List Node → ℕ → ℕ → Prop
  | [], _, _ => False
  | node :: nodes, i, j => Matches node i j ∨ MatchesOne nodes i j

end

end Matches

/-! ### Ways through a program -/

variable {prog : List Inst} {s : Bytes} {a b c e : ℕ} {M N : ℕ → ℕ → Prop}

/-- One step of a thread: its address and its position. -/
inductive Step (prog : List Inst) (s : Bytes) : ℕ × ℕ → ℕ × ℕ → Prop
  | set {pc i : ℕ} {set : ByteSet} {x : UInt8} (h : prog[pc]? = some (.set set))
    (hx : s[i]? = some x) (hset : set.has x = true) : Step prog s (pc, i) (pc + 1, i + 1)
  | first {pc i a b : ℕ} (h : prog[pc]? = some (.split a b)) : Step prog s (pc, i) (a, i)
  | second {pc i a b : ℕ} (h : prog[pc]? = some (.split a b)) : Step prog s (pc, i) (b, i)
  | jmp {pc i t : ℕ} (h : prog[pc]? = some (.jmp t)) : Step prog s (pc, i) (t, i)
  | begin {pc : ℕ} (h : prog[pc]? = some .begin) : Step prog s (pc, 0) (pc + 1, 0)
  | endText {pc : ℕ} (h : prog[pc]? = some .endText) :
    Step prog s (pc, s.length) (pc + 1, s.length)

section Step

variable {i p j : ℕ}

theorem step_set {set : ByteSet} (h : prog[a]? = some (.set set)) :
    Step prog s (a, i) (p, j) ↔ p = a + 1 ∧ (∃ x, s[i]? = some x ∧ set.has x = true) ∧ j = i + 1 := by
  constructor
  · intro hstep
    cases hstep with
    | set ha hx hset => rw [h] at ha; cases ha; exact ⟨rfl, ⟨_, hx, hset⟩, rfl⟩
    | first ha | second ha | jmp ha | begin ha | endText ha => rw [h] at ha; cases ha
  · rintro ⟨rfl, ⟨x, hx, hset⟩, rfl⟩
    exact .set h hx hset

theorem step_split {x y : ℕ} (h : prog[a]? = some (.split x y)) :
    Step prog s (a, i) (p, j) ↔ (p = x ∨ p = y) ∧ j = i := by
  constructor
  · intro hstep
    cases hstep with
    | first ha => rw [h] at ha; cases ha; exact ⟨.inl rfl, rfl⟩
    | second ha => rw [h] at ha; cases ha; exact ⟨.inr rfl, rfl⟩
    | set ha | jmp ha | begin ha | endText ha => rw [h] at ha; cases ha
  · rintro ⟨rfl | rfl, rfl⟩
    · exact .first h
    · exact .second h

theorem step_jmp {t : ℕ} (h : prog[a]? = some (.jmp t)) :
    Step prog s (a, i) (p, j) ↔ p = t ∧ j = i := by
  constructor
  · intro hstep
    cases hstep with
    | jmp ha => rw [h] at ha; cases ha; exact ⟨rfl, rfl⟩
    | set ha | first ha | second ha | begin ha | endText ha => rw [h] at ha; cases ha
  · rintro ⟨rfl, rfl⟩
    exact .jmp h

theorem step_begin (h : prog[a]? = some .begin) :
    Step prog s (a, i) (p, j) ↔ p = a + 1 ∧ i = 0 ∧ j = i := by
  constructor
  · intro hstep
    cases hstep with
    | begin ha => exact ⟨rfl, rfl, rfl⟩
    | set ha | first ha | second ha | jmp ha | endText ha => rw [h] at ha; cases ha
  · rintro ⟨rfl, rfl, rfl⟩
    exact .begin h

theorem step_endText (h : prog[a]? = some .endText) :
    Step prog s (a, i) (p, j) ↔ p = a + 1 ∧ i = s.length ∧ j = i := by
  constructor
  · intro hstep
    cases hstep with
    | endText ha => exact ⟨rfl, rfl, rfl⟩
    | set ha | first ha | second ha | jmp ha | begin ha => rw [h] at ha; cases ha
  · rintro ⟨rfl, rfl, rfl⟩
    exact .endText h

/-- From `found` no step leads on. -/
theorem not_step_found (h : prog[a]? = some .found) : ¬ Step prog s (a, i) (p, j) := by
  intro hstep
  cases hstep with
  | set ha | first ha | second ha | jmp ha | begin ha | endText ha => rw [h] at ha; cases ha

end Step

/-- The addresses from `a` up to `b` do `M`: a way in at `a` that leaves them leaves at `b`, with a
match, and there is a way for each match. -/
structure Runs (prog : List Inst) (s : Bytes) (a b : ℕ) (M : ℕ → ℕ → Prop) : Prop where
  le : a ≤ b
  unfound : ∀ {c}, a ≤ c → c < b → prog[c]? ≠ some .found
  inside : ∀ {c i p j}, a ≤ c → c < b → Step prog s (c, i) (p, j) → a ≤ p ∧ p ≤ b
  exits : ∀ {k i p j}, Times (Step prog s) k (a, i) (p, j) → (p < a ∨ b ≤ p) →
    ∃ i' k', k' ≤ k ∧ M i i' ∧ Times (Step prog s) k' (b, i') (p, j)
  enters : ∀ {i i'}, M i i' → ReflTransGen (Step prog s) (a, i) (b, i')

/-- The same with a second way out: at `e` with `M`, at `b` with `N`. -/
structure Forks (prog : List Inst) (s : Bytes) (a b e : ℕ) (M N : ℕ → ℕ → Prop) : Prop where
  le : a ≤ b
  unfound : ∀ {c}, a ≤ c → c < b → prog[c]? ≠ some .found
  inside : ∀ {c i p j}, a ≤ c → c < b → Step prog s (c, i) (p, j) → a ≤ p ∧ p ≤ b ∨ p = e
  exits : ∀ {k i p j}, Times (Step prog s) k (a, i) (p, j) → (p < a ∨ b ≤ p) →
    ∃ i' k', k' ≤ k ∧ (M i i' ∧ Times (Step prog s) k' (e, i') (p, j) ∨
      N i i' ∧ Times (Step prog s) k' (b, i') (p, j))
  entersFar : ∀ {i i'}, M i i' → ReflTransGen (Step prog s) (a, i) (e, i')
  enters : ∀ {i i'}, N i i' → ReflTransGen (Step prog s) (a, i) (b, i')

namespace Runs

theorem congr {M' : ℕ → ℕ → Prop} (h : Runs prog s a b M) (hM : ∀ i j, M i j ↔ M' i j) :
    Runs prog s a b M' where
  le := h.le
  unfound := h.unfound
  inside := h.inside
  exits hway hp := by
    obtain ⟨i', k', hk, hi, hrest⟩ := h.exits hway hp
    exact ⟨i', k', hk, (hM _ _).mp hi, hrest⟩
  enters hi := h.enters ((hM _ _).mpr hi)

theorem nothing : Runs prog s a a (fun i j => j = i) where
  le := le_rfl
  unfound hc hlt := absurd hlt (by omega)
  inside hc hlt := absurd hlt (by omega)
  exits {k i p j} hway _ := ⟨i, k, le_rfl, rfl, hway⟩
  enters hi := by rw [hi]

/-- One instruction, from all that it does. -/
theorem one {x : Inst} (ha : prog[a]? = some x) (hx : x ≠ .found)
    (h : ∀ i p j, Step prog s (a, i) (p, j) ↔ p = a + 1 ∧ M i j) :
    Runs prog s a (a + 1) M where
  le := Nat.le_succ a
  unfound {c} hc hlt heq := by
    obtain rfl : c = a := by omega
    rw [ha] at heq
    exact hx (Option.some_injective _ heq)
  inside {c i p j} hc hlt hstep := by
    obtain rfl : c = a := by omega
    obtain ⟨rfl, -⟩ := (h i p j).mp hstep
    omega
  exits {k i p j} hway hp := by
    rcases k with - | k
    · cases hway
      omega
    · obtain ⟨⟨c, i'⟩, hstep, hrest⟩ := hway
      obtain ⟨rfl, hM⟩ := (h i c i').mp hstep
      exact ⟨i', k, Nat.le_succ k, hM, hrest⟩
  enters {i i'} hi := .single ((h i (a + 1) i').mpr ⟨rfl, hi⟩)

theorem andThen (h : Runs prog s a c M) (h' : Runs prog s c b N) :
    Runs prog s a b (fun i j => ∃ m, M i m ∧ N m j) where
  le := h.le.trans h'.le
  unfound {d} hd hlt := by
    rcases Nat.lt_or_ge d c with hfirst | hsecond
    · exact h.unfound hd hfirst
    · exact h'.unfound hsecond hlt
  inside {d i p j} hd hlt hstep := by
    have hle := h.le
    have hle' := h'.le
    rcases Nat.lt_or_ge d c with hfirst | hsecond
    · have := h.inside hd hfirst hstep
      omega
    · have := h'.inside hsecond hlt hstep
      omega
  exits {k i p j} hway hp := by
    have hle := h.le
    have hle' := h'.le
    obtain ⟨m, k₁, hk₁, hM, hrest⟩ := h.exits hway (by omega)
    obtain ⟨i', k₂, hk₂, hN, hlast⟩ := h'.exits hrest (by omega)
    exact ⟨i', k₂, hk₂.trans hk₁, ⟨m, hM, hN⟩, hlast⟩
  enters := by
    rintro i i' ⟨m, hM, hN⟩
    exact (h.enters hM).trans (h'.enters hN)

/-- A split in front whose second way leads to `e`, as `x?` begins. -/
theorem option (hsplit : prog[a]? = some (.split (a + 1) e)) (h : Runs prog s (a + 1) c M)
    {F G : ℕ → ℕ → Prop} (hrest : Forks prog s c b e F G) :
    Forks prog s a b e (fun i j => j = i ∨ ∃ m, M i m ∧ F m j) (fun i j => ∃ m, M i m ∧ G m j) where
  le := by
    have hle := h.le
    have hle' := hrest.le
    omega
  unfound {d} hd hlt heq := by
    rcases Nat.lt_trichotomy d a with hbad | rfl | hin
    · omega
    · rw [hsplit] at heq
      cases heq
    · rcases Nat.lt_or_ge d c with hfirst | hsecond
      · exact h.unfound hin hfirst heq
      · exact hrest.unfound hsecond hlt heq
  inside {d i p j} hd hlt hstep := by
    have hle := h.le
    have hle' := hrest.le
    rcases Nat.lt_trichotomy d a with hbad | rfl | hin
    · omega
    · obtain ⟨rfl | rfl, -⟩ := (step_split hsplit).mp hstep
      · omega
      · exact .inr rfl
    · rcases Nat.lt_or_ge d c with hfirst | hsecond
      · have := h.inside hin hfirst hstep
        omega
      · have := hrest.inside hsecond hlt hstep
        omega
  exits {k i p j} hway hp := by
    have hle := h.le
    have hle' := hrest.le
    rcases k with - | k
    · cases hway
      omega
    · obtain ⟨⟨d, i₁⟩, hstep, hway⟩ := hway
      obtain ⟨rfl | rfl, rfl⟩ := (step_split hsplit).mp hstep
      · obtain ⟨m, k₁, hk₁, hM, hway⟩ := h.exits hway (by omega)
        obtain ⟨i', k₂, hk₂, ⟨hF, hway⟩ | ⟨hG, hway⟩⟩ := hrest.exits hway (by omega)
        · exact ⟨i', k₂, by omega, .inl ⟨.inr ⟨m, hM, hF⟩, hway⟩⟩
        · exact ⟨i', k₂, by omega, .inr ⟨⟨m, hM, hG⟩, hway⟩⟩
      · exact ⟨i₁, k, Nat.le_succ k, .inl ⟨.inl rfl, hway⟩⟩
  entersFar := by
    rintro i i' (rfl | ⟨m, hM, hF⟩)
    · exact .single (.second hsplit)
    · exact .head (.first hsplit) ((h.enters hM).trans (hrest.entersFar hF))
  enters := by
    rintro i i' ⟨m, hM, hG⟩
    exact .head (.first hsplit) ((h.enters hM).trans (hrest.enters hG))

/-- A split in front whose first way ends with a jump to `e`, as an arm does. -/
theorem arm (hsplit : prog[a]? = some (.split (a + 1) (c + 1))) (h : Runs prog s (a + 1) c M)
    (hjmp : prog[c]? = some (.jmp e)) {F G : ℕ → ℕ → Prop}
    (hrest : Forks prog s (c + 1) b e F G) :
    Forks prog s a b e (fun i j => M i j ∨ F i j) G where
  le := by
    have hle := h.le
    have hle' := hrest.le
    omega
  unfound {d} hd hlt heq := by
    rcases Nat.lt_trichotomy d a with hbad | rfl | hin
    · omega
    · rw [hsplit] at heq
      cases heq
    · rcases Nat.lt_trichotomy d c with hfirst | rfl | hsecond
      · exact h.unfound hin hfirst heq
      · rw [hjmp] at heq
        cases heq
      · exact hrest.unfound hsecond hlt heq
  inside {d i p j} hd hlt hstep := by
    have hle := h.le
    have hle' := hrest.le
    rcases Nat.lt_trichotomy d a with hbad | rfl | hin
    · omega
    · obtain ⟨rfl | rfl, -⟩ := (step_split hsplit).mp hstep
      · omega
      · omega
    · rcases Nat.lt_trichotomy d c with hfirst | rfl | hsecond
      · have := h.inside hin hfirst hstep
        omega
      · obtain ⟨rfl, -⟩ := (step_jmp hjmp).mp hstep
        exact .inr rfl
      · have := hrest.inside hsecond hlt hstep
        omega
  exits {k i p j} hway hp := by
    have hle := h.le
    have hle' := hrest.le
    rcases k with - | k
    · cases hway
      omega
    · obtain ⟨⟨d, i₁⟩, hstep, hway⟩ := hway
      obtain ⟨rfl | rfl, rfl⟩ := (step_split hsplit).mp hstep
      · obtain ⟨m, k₁, hk₁, hM, hway⟩ := h.exits hway (by omega)
        rcases k₁ with - | k₁
        · cases hway
          omega
        · obtain ⟨⟨d, i₂⟩, hstep, hway⟩ := hway
          obtain ⟨rfl, rfl⟩ := (step_jmp hjmp).mp hstep
          exact ⟨i₂, k₁, by omega, .inl ⟨.inl hM, hway⟩⟩
      · obtain ⟨i', k₂, hk₂, ⟨hF, hway⟩ | hG⟩ := hrest.exits hway (by omega)
        · exact ⟨i', k₂, by omega, .inl ⟨.inr hF, hway⟩⟩
        · exact ⟨i', k₂, by omega, .inr hG⟩
  entersFar := by
    rintro i i' (hM | hF)
    · exact .head (.first hsplit) ((h.enters hM).trans (.single (.jmp hjmp)))
    · exact .head (.second hsplit) (hrest.entersFar hF)
  enters hG := .head (.second hsplit) (hrest.enters hG)

/-- A loop: a split in front, and a jump back behind. -/
theorem star (hsplit : prog[a]? = some (.split (a + 1) (c + 1))) (h : Runs prog s (a + 1) c M)
    (hjmp : prog[c]? = some (.jmp a)) : Runs prog s a (c + 1) (fun i j => ∃ k, Times M k i j) where
  le := by
    have hle := h.le
    omega
  unfound {d} hd hlt heq := by
    rcases Nat.lt_trichotomy d a with hbad | rfl | hin
    · omega
    · rw [hsplit] at heq
      cases heq
    · rcases Nat.lt_or_ge d c with hfirst | hlast
      · exact h.unfound hin hfirst heq
      · obtain rfl : d = c := by omega
        rw [hjmp] at heq
        cases heq
  inside {d i p j} hd hlt hstep := by
    have hle := h.le
    rcases Nat.lt_trichotomy d a with hbad | rfl | hin
    · omega
    · obtain ⟨rfl | rfl, -⟩ := (step_split hsplit).mp hstep
      · omega
      · omega
    · rcases Nat.lt_or_ge d c with hfirst | hlast
      · have := h.inside hin hfirst hstep
        omega
      · obtain rfl : d = c := by omega
        obtain ⟨rfl, -⟩ := (step_jmp hjmp).mp hstep
        omega
  exits {k i p j} hway hp := by
    have hle := h.le
    -- each round takes a step at least, so the way gets shorter
    induction k using Nat.strongRecOn generalizing i with
    | ind k ih =>
      rcases k with - | k
      · cases hway
        omega
      · obtain ⟨⟨d, i₁⟩, hstep, hway⟩ := hway
        obtain ⟨rfl | rfl, rfl⟩ := (step_split hsplit).mp hstep
        · obtain ⟨m, k₁, hk₁, hM, hbody⟩ := h.exits hway (by omega)
          rcases k₁ with - | k₁
          · cases hbody
            omega
          · obtain ⟨⟨d, i₂⟩, hback, hrest⟩ := hbody
            obtain ⟨rfl, rfl⟩ := (step_jmp hjmp).mp hback
            obtain ⟨i', k₂, hk₂, ⟨n, hn⟩, hlast⟩ := ih k₁ (by omega) hrest
            exact ⟨i', k₂, by omega, ⟨n + 1, hn.cons hM⟩, hlast⟩
        · exact ⟨i₁, k, Nat.le_succ k, ⟨0, rfl⟩, hway⟩
  enters := by
    rintro i i' ⟨k, hk⟩
    induction k generalizing i with
    | zero =>
      rw [hk]
      exact .single (.second hsplit)
    | succ k ih =>
      obtain ⟨m, hM, hk⟩ := hk
      exact .head (.first hsplit) ((h.enters hM).trans (.head (.jmp hjmp) (ih hk)))

theorem times {R : ℕ → ℕ → Prop} (hR : ∀ a b, R a b → Runs prog s a b M) {k : ℕ}
    (h : Times R k a b) : Runs prog s a b (Times M k) := by
  induction k generalizing a with
  | zero =>
    cases h
    exact nothing
  | succ k ih =>
    obtain ⟨c, hc, h⟩ := h
    exact (hR a c hc).andThen (ih h)

/-- A code that is only left at its end. -/
theorem toForks (h : Runs prog s a b M) (e : ℕ) : Forks prog s a b e (fun _ _ => False) M where
  le := h.le
  unfound := h.unfound
  inside hc hlt hstep := .inl (h.inside hc hlt hstep)
  exits hway hp := by
    obtain ⟨i', k', hk, hM, hrest⟩ := h.exits hway hp
    exact ⟨i', k', hk, .inr ⟨hM, hrest⟩⟩
  entersFar hi := hi.elim
  enters := h.enters

/-- Both ways out lead to the same end. -/
theorem ofForks (h : Forks prog s a b b M N) : Runs prog s a b (fun i j => M i j ∨ N i j) where
  le := h.le
  unfound := h.unfound
  inside {c i p j} hc hlt hstep := by
    have hle := h.le
    have := h.inside hc hlt hstep
    omega
  exits hway hp := by
    obtain ⟨i', k', hk, ⟨hM, hrest⟩ | ⟨hN, hrest⟩⟩ := h.exits hway hp
    · exact ⟨i', k', hk, .inl hM, hrest⟩
    · exact ⟨i', k', hk, .inr hN, hrest⟩
  enters := by
    rintro i i' (hM | hN)
    · exact h.entersFar hM
    · exact h.enters hN

end Runs

/-! ### The code of a node -/

theorem Forks.congr {M' N' : ℕ → ℕ → Prop} (h : Forks prog s a b e M N)
    (hM : ∀ i j, M i j ↔ M' i j) (hN : ∀ i j, N i j ↔ N' i j) : Forks prog s a b e M' N' := by
  obtain rfl : M = M' := funext₂ fun i j => propext (hM i j)
  obtain rfl : N = N' := funext₂ fun i j => propext (hN i j)
  exact h

theorem forks_codeOptions {R : ℕ → ℕ → Prop} (hR : ∀ a b, R a b → Runs prog s a b M) {k : ℕ}
    (h : CodeOptions prog R k a b e) :
    Forks prog s a b e (fun i j => ∃ l < k, Times M l i j) (Times M k) := by
  induction k generalizing a with
  | zero =>
    cases h
    refine (Runs.nothing.toForks e).congr (fun i j => ?_) fun i j => Iff.rfl
    exact ⟨False.elim, fun ⟨l, hl, _⟩ => absurd hl (Nat.not_lt_zero l)⟩
  | succ k ih =>
    obtain ⟨c, hsplit, hc, hrest⟩ := h
    refine ((hR _ c hc).option hsplit (ih hrest)).congr (fun i j => ?_) fun i j => Iff.rfl
    constructor
    · rintro (rfl | ⟨m, hm, l, hl, hrest⟩)
      · exact ⟨0, Nat.succ_pos k, rfl⟩
      · exact ⟨l + 1, Nat.succ_lt_succ hl, m, hm, hrest⟩
    · rintro ⟨l, hl, hrest⟩
      rcases l with - | l
      · exact .inl hrest
      · obtain ⟨m, hm, hrest⟩ := hrest
        exact .inr ⟨m, hm, l, Nat.lt_of_succ_lt_succ hl, hrest⟩

theorem runs_codeAll {items : List Node}
    (hitems : ∀ n ∈ items, ∀ a b, Code prog n a b → Runs prog s a b (Matches s n))
    (h : CodeAll prog items a b) : Runs prog s a b (MatchesAll s items) := by
  induction items generalizing a with
  | nil =>
    cases h
    exact Runs.nothing
  | cons n ns ih =>
    rw [List.forall_mem_cons] at hitems
    obtain ⟨c, hc, hrest⟩ := h
    exact (hitems.1 a c hc).andThen (ih hitems.2 hrest)

theorem forks_codeArms {arms : List Node} (hne : arms ≠ [])
    (harms : ∀ n ∈ arms, ∀ a b, Code prog n a b → Runs prog s a b (Matches s n))
    (h : CodeArms prog arms a b e) : ∃ M N, Forks prog s a b e M N ∧
      ∀ i j, M i j ∨ N i j ↔ MatchesOne s arms i j := by
  induction arms generalizing a with
  | nil => exact absurd rfl hne
  | cons n ns ih =>
    rw [List.forall_mem_cons] at harms
    rcases ns with - | ⟨n', ns⟩
    · rw [CodeArms] at h
      refine ⟨_, _, (harms.1 a b h).toForks e, fun i j => ?_⟩
      rw [MatchesOne, MatchesOne, or_false, false_or]
    · rw [CodeArms] at h
      · obtain ⟨c, hsplit, hc, hjmp, hrest⟩ := h
        obtain ⟨F, G, hforks, hFG⟩ := ih (List.cons_ne_nil _ _) harms.2 hrest
        refine ⟨_, _, (harms.1 _ c hc).arm hsplit hjmp hforks, fun i j => ?_⟩
        rw [MatchesOne, ← hFG, or_assoc]
      · intro hcons
        cases hcons

/-- The code of a node does what the node matches. -/
theorem runs_code {n : Node} (hn : n.Built) (h : Code prog n a b) :
    Runs prog s a b (Matches s n) := by
  induction n using Node.induct generalizing a b with
  | empty =>
    cases h
    exact Runs.nothing
  | set set =>
    obtain ⟨h, rfl⟩ := h
    exact Runs.one h (fun hfound => by cases hfound) fun i p j => step_set h
  | begin =>
    obtain ⟨h, rfl⟩ := h
    exact Runs.one h (fun hfound => by cases hfound) fun i p j => step_begin h
  | endText =>
    obtain ⟨h, rfl⟩ := h
    exact Runs.one h (fun hfound => by cases hfound) fun i p j => step_endText h
  | concat items ih =>
    rw [Node.Built, builtAll_iff] at hn
    exact runs_codeAll (fun n hmem a b hc => ih n hmem (hn n hmem) hc) h
  | alt arms ih =>
    rw [Node.Built, builtAll_iff] at hn
    obtain ⟨M, N, hforks, hMN⟩ := forks_codeArms hn.1
      (fun n hmem a b hc => ih n hmem (hn.2 n hmem) hc) h
    exact (Runs.ofForks hforks).congr hMN
  | rep node min max ih =>
    rw [Node.Built] at hn
    have hnode : ∀ a b, Code prog node a b → Runs prog s a b (Matches s node) :=
      fun a b hc => ih hn.1 hc
    rcases max with - | max
    · obtain ⟨c, htimes, d, hsplit, hbody, hjmp, rfl⟩ := h
      have hmin := Runs.times hnode htimes
      refine (hmin.andThen ((hnode _ d hbody).star hsplit hjmp)).congr fun i j => ?_
      constructor
      · rintro ⟨m, hm, k, hk⟩
        exact ⟨min + k, Nat.le_add_right _ _, fun _ hmax => (by cases hmax), hm.append hk⟩
      · rintro ⟨k, hk, -, htimes⟩
        obtain ⟨m, hm, hrest⟩ := Times.split (l := k - min) (k := min)
          (by rwa [Nat.add_sub_cancel' hk])
        exact ⟨m, hm, _, hrest⟩
    · obtain ⟨c, htimes, hoptions⟩ := h
      have hmin := Runs.times hnode htimes
      have hle := (hn.2.2 max rfl).1
      refine (hmin.andThen (Runs.ofForks (forks_codeOptions hnode hoptions))).congr fun i j => ?_
      constructor
      · rintro ⟨m, hm, ⟨l, hl, hrest⟩ | hrest⟩
        · refine ⟨min + l, Nat.le_add_right _ _, fun n hn => ?_, hm.append hrest⟩
          cases hn
          omega
        · refine ⟨min + (max - min), Nat.le_add_right _ _, fun n hn => ?_, hm.append hrest⟩
          cases hn
          omega
      · rintro ⟨k, hk, hmax, htimes⟩
        have hkmax := hmax max rfl
        obtain ⟨m, hm, hrest⟩ := Times.split (l := k - min) (k := min)
          (by rwa [Nat.add_sub_cancel' hk])
        refine ⟨m, hm, ?_⟩
        rcases Nat.lt_or_ge (k - min) (max - min) with hlt | hge
        · exact .inl ⟨_, hlt, hrest⟩
        · exact .inr ((show k - min = max - min by omega) ▸ hrest)

end Hop.Cloudflared
