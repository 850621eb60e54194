import Hop.Lib.Machine
import Hop.Lead.Lease

/-!
# The generation of the lease as a fencing token

The documentation of `LeaseState::generation` says that it grows with every change of leader
and is therefore usable as a fencing token. A *history* is the list of the successful writes
of the record, each with its owner and its generation; the token fences if of two writes by
different owners the later one always carries the larger generation.

Renewals and take-overs keep that. A release deletes the record, and with it the only memory
of the generation: the next claim creates the record with generation 1 again. So the token
fences exactly in the runs in which a record is only ever created by an owner that nobody
else wrote before (`generation_fences_iff`).
-/

namespace Hop.Lead

variable {g : ℕ} {ws : History} {o : String} {m : MemLease} {c : Claim}

/-! ### Histories of one key -/

/-- The successful writes of the record, oldest first: owner and generation. -/
abbrev History : Type := List (String × ℕ)

/-- Of two writes by different owners the later one carries the larger generation. -/
def History.Fences (ws : History) : Prop :=
  ws.Pairwise fun a b => a.1 ≠ b.1 → a.2 < b.2

/-- The inductive form of `Fences`: generations never fall, start at 1, and stay there until
a second owner writes. -/
structure History.Fenced (ws : History) : Prop where
  mono : ws.Pairwise fun a b => a.2 ≤ b.2 ∧ (a.1 ≠ b.1 → a.2 < b.2)
  pos : ∀ w ∈ ws, 1 ≤ w.2
  alone : ∀ o, (∀ w ∈ ws, w.1 = o) → ∀ w ∈ ws, w.2 = 1

namespace History

theorem Fenced.nil : Fenced [] := ⟨List.Pairwise.nil, by simp, by simp⟩

theorem Fenced.fences (h : Fenced ws) : ws.Fences := h.mono.imp fun h => h.2

/-- One more write fits if it fits after every earlier one. -/
theorem Fenced.concat (h : Fenced ws) (hle : ∀ a ∈ ws, a.2 ≤ g ∧ (a.1 ≠ o → a.2 < g)) (hg : 1 ≤ g)
    (halone : (∀ w ∈ ws, w.1 = o) → g = 1) : Fenced (ws ++ [(o, g)]) where
  mono := by
    refine List.pairwise_append.mpr ⟨h.mono, List.pairwise_singleton _ _, ?_⟩
    intro a ha b hb
    obtain rfl := List.mem_singleton.mp hb
    exact hle a ha
  pos := by
    intro w hw
    rcases List.mem_append.mp hw with hw | hw
    · exact h.pos w hw
    · obtain rfl := List.mem_singleton.mp hw
      exact hg
  alone := by
    intro o' ho w hw
    have hws : ∀ w ∈ ws, w.1 = o' := fun w hw => ho w (List.mem_append_left _ hw)
    have ho' : o = o' := ho (o, g) (by simp)
    rcases List.mem_append.mp hw with hw | hw
    · exact h.alone o' hws w hw
    · obtain rfl := List.mem_singleton.mp hw
      exact halone (ho' ▸ hws)

/-- No write of a fenced history is above the last one. -/
theorem Fenced.le_last (h : Fenced (ws ++ [(o, g)])) {a : String × ℕ} (ha : a ∈ ws ++ [(o, g)]) :
    a.2 ≤ g ∧ (a.1 ≠ o → a.2 < g) := by
  rcases List.mem_append.mp ha with ha | ha
  · exact (List.pairwise_append.mp h.mono).2.2 a ha (o, g) (by simp)
  · obtain rfl := List.mem_singleton.mp ha
    exact ⟨le_rfl, fun hne => absurd rfl hne⟩

/-- The holder writes again with its own generation. -/
theorem Fenced.renewed (h : Fenced (ws ++ [(o, g)])) :
    Fenced (ws ++ [(o, g)] ++ [(o, g)]) :=
  h.concat (fun _ ha => h.le_last ha) (h.pos (o, g) (by simp))
    fun ho => h.alone o ho (o, g) (by simp)

/-- Another owner takes over with the next generation. -/
theorem Fenced.takenOver {o' : String} (h : Fenced (ws ++ [(o, g)])) (hne : o ≠ o') :
    Fenced (ws ++ [(o, g)] ++ [(o', g + 1)]) := by
  refine h.concat (fun a ha => ?_) (by omega) fun ho => absurd (ho (o, g) (by simp)) hne
  have := (h.le_last ha).1
  exact ⟨by omega, fun _ => by omega⟩

/-- The record is created by the only owner that ever wrote it. -/
theorem Fenced.created (h : Fenced ws) (ho : ∀ w ∈ ws, w.1 = o) :
    Fenced (ws ++ [(o, 1)]) :=
  h.concat (fun a ha => ⟨(h.alone o ho a ha).le, fun hne => absurd (ho a ha) hne⟩) le_rfl
    fun _ => rfl

/-- What a fencing history says about its last write. -/
theorem Fences.concat_lt (h : Fences (ws ++ [(o, g)])) {a : String × ℕ} (ha : a ∈ ws)
    (hne : a.1 ≠ o) : a.2 < g :=
  (List.pairwise_append.mp h).2.2 a ha (o, g) (by simp) hne

end History

/-! ### What a call of a claimant can do -/

theorem repr_injective : Function.Injective Nat.repr := by
  intro m n h
  have hd : Nat.toDigits 10 m = Nat.toDigits 10 n := by
    simpa [Nat.repr] using congrArg String.toList h
  have := congrArg (Nat.ofDigitChars 10 · 0) hd
  simpa using this

theorem repr_ne_empty (n : ℕ) : Nat.repr n ≠ "" := by
  intro h
  have := congrArg String.toList h
  simp [Nat.repr, Nat.toDigits_ne_nil] at this

namespace Claim

/-- The call changed nothing that matters. -/
def Idle (c : Claim) (m : MemLease) (c' : Claim) (m' : MemLease) : Prop :=
  c' = c ∧ m'.state = m.state ∧ m'.seq = m.seq

/-- The call wrote the record with generation `g`. -/
def Wrote (c : Claim) (m : MemLease) (g : ℕ) (c' : Claim) (m' : MemLease) : Prop :=
  c' = { c with handle := Nat.repr (m.seq + 1), generation := g } ∧
    m'.seq = m.seq + 1 ∧
    ∃ expiresAt, m'.state = some (⟨g, expiresAt, c.owner⟩, Nat.repr (m.seq + 1))

/-- A write of `refresh` either fails its condition or puts the record there. -/
theorem refresh_cases (c : Claim) (m : MemLease) (before : String) (g : ℕ) (now : Nanos) :
    (m.allows before = true ∧
      Wrote c m g (c.refresh m before g now).2.1 (c.refresh m before g now).2.2) ∨
    (m.allows before = false ∧ (c.refresh m before g now).1 = .error .held ∧
      Idle c m (c.refresh m before g now).2.1 (c.refresh m before g now).2.2) := by
  unfold refresh
  dsimp only [LeaseStore.write]
  unfold MemLease.write
  cases h : m.allows before
  · exact Or.inr ⟨rfl, rfl, rfl, rfl, rfl⟩
  · exact Or.inl ⟨rfl, rfl, rfl, _, rfl⟩

/-- The ways in which a claim writes: create, refresh the own record, take over. -/
def ClaimWrites (c : Claim) (m : MemLease) (now : Nanos) (g : ℕ) : Prop :=
  (m.state = none ∧ g = 1) ∨
  ∃ st h, m.state = some (st, h) ∧
    ((st.owner = c.owner ∧ g = st.generation) ∨
      (st.owner ≠ c.owner ∧ st.expiresAt < now ∧ g = satAdd u64Max st.generation 1))

theorem tryClaim_cases (c : Claim) (m : MemLease) (now : Nanos) :
    Idle c m (c.tryClaim m now).2.1 (c.tryClaim m now).2.2 ∨
      ∃ g, ClaimWrites c m now g ∧ Wrote c m g (c.tryClaim m now).2.1 (c.tryClaim m now).2.2 := by
  obtain ⟨state, seq, reads⟩ := m
  unfold tryClaim
  dsimp only [LeaseStore.read, MemLease.read]
  cases state with
  | none =>
    rcases c.refresh_cases ⟨none, seq, reads + 1⟩ "" 1 now with h | h
    · exact Or.inr ⟨1, Or.inl ⟨rfl, rfl⟩, h.2⟩
    · exact Or.inl h.2.2
  | some r =>
    obtain ⟨st, handle⟩ := r
    dsimp only
    split_ifs with ho he
    · rcases c.refresh_cases ⟨some (st, handle), seq, reads + 1⟩ handle st.generation now
        with h | h
      · exact Or.inr ⟨_, Or.inr ⟨st, handle, rfl, Or.inl ⟨ho, rfl⟩⟩, h.2⟩
      · exact Or.inl h.2.2
    · rcases c.refresh_cases ⟨some (st, handle), seq, reads + 1⟩ handle
        (satAdd u64Max st.generation 1) now with h | h
      · exact Or.inr ⟨_, Or.inr ⟨st, handle, rfl, Or.inr ⟨ho, he, rfl⟩⟩, h.2⟩
      · exact Or.inl h.2.2
    · exact Or.inl ⟨rfl, rfl, rfl⟩

/-- A claim that has a way to write writes, since nobody calls in between. -/
theorem tryClaim_of_writes (c : Claim) {now : Nanos} (hh : ∀ st h, m.state = some (st, h) → h ≠ "")
    (hg : ClaimWrites c m now g) :
    Wrote c m g (c.tryClaim m now).2.1 (c.tryClaim m now).2.2 := by
  obtain ⟨state, seq, reads⟩ := m
  unfold tryClaim
  dsimp only [LeaseStore.read, MemLease.read]
  rcases hg with ⟨rfl, rfl⟩ | ⟨st, handle, rfl, hg⟩
  · rcases c.refresh_cases ⟨none, seq, reads + 1⟩ "" 1 now with h | h
    · exact h.2
    · simp [MemLease.allows] at h
  · have hne := hh st handle rfl
    have key : ∀ g, Wrote c ⟨some (st, handle), seq, reads⟩ g
        (c.refresh (⟨some (st, handle), seq, reads + 1⟩ : MemLease) handle g now).2.1
        (c.refresh (⟨some (st, handle), seq, reads + 1⟩ : MemLease) handle g now).2.2 := by
      intro g
      rcases c.refresh_cases ⟨some (st, handle), seq, reads + 1⟩ handle g now with h | h
      · exact h.2
      · simp [MemLease.allows, hne] at h
    rcases hg with ⟨ho, rfl⟩ | ⟨ho, he, rfl⟩
    · simpa only [ho, if_true] using key _
    · simpa only [ho, he, if_true, if_false] using key _

theorem tryBecomeLeader_snd (c : Claim) (m : MemLease) (now : Nanos) :
    (c.tryBecomeLeader m now).2 = (c.tryClaim m now).2 := by
  unfold tryBecomeLeader
  split <;> simp_all

/-- A renewal writes like a claim if it holds no handle, and otherwise only on its handle. -/
theorem renewWrite_cases (c : Claim) (m : MemLease) (now : Nanos) :
    Idle c m (c.renewWrite m now).2.1 (c.renewWrite m now).2.2 ∨
      ∃ g, (c.handle = "" ∧ ClaimWrites c m now g ∨
          (c.handle ≠ "" ∧ m.allows c.handle = true ∧ g = c.generation)) ∧
        Wrote c m g (c.renewWrite m now).2.1 (c.renewWrite m now).2.2 := by
  unfold renewWrite
  by_cases hh : c.handle = ""
  · simp only [hh, if_true]
    rcases c.tryClaim_cases m now with h | ⟨g, hg, h⟩
    · exact Or.inl h
    · exact Or.inr ⟨g, Or.inl ⟨trivial, hg⟩, h⟩
  · rw [if_neg hh]
    unfold refresh
    dsimp only [LeaseStore.write]
    unfold MemLease.write
    cases ha : m.allows c.handle
    · exact Or.inl ⟨rfl, rfl, rfl⟩
    · exact Or.inr ⟨c.generation, Or.inr ⟨hh, rfl, rfl⟩, rfl, rfl, _, rfl⟩

theorem renewWrite_of_empty (c : Claim) (m : MemLease) (now : Nanos) (hh : c.handle = "") :
    c.renewWrite m now = c.tryClaim m now := by
  unfold renewWrite
  rw [if_pos hh]

theorem renew_snd (c : Claim) (m : MemLease) (now : Nanos) :
    (c.renew m now).2 = (c.renewWrite m now).2 := by
  unfold renew
  split <;> simp_all

/-- A release forgets the handle; the record is gone or as it was. -/
theorem release_cases (c : Claim) (m : MemLease) :
    (c.release m).1 = { c with handle := "" } ∧ (c.release m).2.seq = m.seq ∧
      ((c.release m).2.state = none ∨ (c.release m).2.state = m.state) := by
  unfold release
  dsimp only [LeaseStore.delete]
  unfold MemLease.delete
  split_ifs with hh
  · exact ⟨by rw [← hh], rfl, Or.inr rfl⟩
  · split
    · exact ⟨rfl, rfl, Or.inr rfl⟩
    · split_ifs
      · exact ⟨rfl, rfl, Or.inr rfl⟩
      · exact ⟨rfl, rfl, Or.inl rfl⟩

end Claim

/-! ### Runs of several claimants on one key -/

/-- Claimants on one key, with the history of its writes. -/
structure Contest (ι : Type) where
  claims : ι → Claim
  store : MemLease
  writes : History

/-- The calls a claimant makes. -/
inductive ContestEvent (ι : Type)
  | tryBecomeLeader (i : ι) (now : Nanos)
  | renew (i : ι) (now : Nanos)
  | release (i : ι)

namespace Contest

variable {ι : Type} [DecidableEq ι]

/-- The write a call made, if it made one: every write takes a new handle. -/
def written (m m' : MemLease) : History :=
  if m'.seq = m.seq then []
  else (m'.state.map fun r => (r.1.owner, r.1.generation)).toList

/-- The claimant `i` has called and left the claim `c` and the store `m`. -/
def after (s : Contest ι) (i : ι) (r : Claim × MemLease) : Contest ι where
  claims := Function.update s.claims i r.1
  store := r.2
  writes := s.writes ++ written s.store r.2

def step (s : Contest ι) : ContestEvent ι → Option (Contest ι)
  | .tryBecomeLeader i now => some (s.after i ((s.claims i).tryBecomeLeader s.store now).2)
  | .renew i now => some (s.after i ((s.claims i).renew s.store now).2)
  | .release i => some (s.after i ((s.claims i).release s.store))

/-- Fresh claimants with different owners on a key without a record. -/
def start (owner : ι → String) (ttl : ι → Nanos) : Contest ι where
  claims i := Claim.new (owner i) (ttl i)
  store := MemLease.new
  writes := []

/-- What the protocol keeps, whatever the claimants do as long as the history is fenced: the
record is the last write, and a handle that fits it belongs to its owner. -/
structure Inv (s : Contest ι) : Prop where
  fenced : s.writes.Fenced
  owners : Function.Injective fun i => (s.claims i).owner
  handle : ∀ i, (s.claims i).handle = "" ∨ ∃ k ≤ s.store.seq, (s.claims i).handle = Nat.repr k
  record : ∀ st h, s.store.state = some (st, h) → h = Nat.repr s.store.seq
  last : ∀ st h, s.store.state = some (st, h) → ∃ ws, s.writes = ws ++ [(st.owner, st.generation)]
  own : ∀ i st h, s.store.state = some (st, h) → (s.claims i).handle = h →
    st.owner = (s.claims i).owner ∧ st.generation = (s.claims i).generation

end Contest

/-- The claimants on one key, as a machine. -/
def contestMachine (ι : Type) [DecidableEq ι] : Machine (Contest ι) (ContestEvent ι) where
  Init s := ∃ owner ttl, Function.Injective owner ∧ s = Contest.start owner ttl
  step := Contest.step

namespace Contest

variable {ι : Type} [DecidableEq ι]
variable {s : Contest ι}

omit [DecidableEq ι] in
theorem inv_start {owner : ι → String} (h : Function.Injective owner) (ttl : ι → Nanos) :
    (start owner ttl).Inv where
  fenced := .nil
  owners := h
  handle _ := Or.inl rfl
  record := by simp [start, MemLease.new]
  last := by simp [start, MemLease.new]
  own := by simp [start, MemLease.new]

theorem owners_after (s : Contest ι) (i : ι) (ho : c.owner = (s.claims i).owner) :
    (fun j => ((s.after i (c, m)).claims j).owner) = fun j => (s.claims j).owner := by
  funext j
  rcases eq_or_ne j i with rfl | hj
  · simp [after, ho]
  · simp [after, hj]

/-- A call that writes nothing keeps the invariant: the record is gone or the same, and the
handle is gone or the same. -/
theorem Inv.idle (h : s.Inv) (i : ι) (ho : c.owner = (s.claims i).owner)
    (hh : c.handle = "" ∨ c.handle = (s.claims i).handle ∧ c.generation = (s.claims i).generation)
    (hseq : m.seq = s.store.seq) (hst : m.state = none ∨ m.state = s.store.state) :
    (s.after i (c, m)).Inv := by
  have hw : (s.after i (c, m)).writes = s.writes := by simp [after, written, hseq]
  have hst' : ∀ st h, m.state = some (st, h) → s.store.state = some (st, h) := by
    intro st h hm
    rcases hst with hst | hst
    · simp [hst] at hm
    · rwa [← hst]
  constructor
  · rw [hw]
    exact h.fenced
  · rw [owners_after s i ho]
    exact h.owners
  · intro j
    rcases eq_or_ne j i with rfl | hj
    · rcases hh with hh | hh
      · simp [after, hh]
      · simpa [after, hh, hseq] using h.handle j
    · simpa [after, hj, hseq] using h.handle j
  · intro st hd hm
    simpa [after, hseq] using h.record st hd (hst' st hd hm)
  · intro st hd hm
    rw [hw]
    exact h.last st hd (hst' st hd hm)
  · intro j st hd hm hj
    have hm' := hst' st hd hm
    rcases eq_or_ne j i with rfl | hji
    · simp only [after, Function.update_self] at hj ⊢
      rcases hh with hh | hh
      · have := h.record st hd hm'
        exact absurd (this.symm.trans (hj.symm.trans hh)) (repr_ne_empty _)
      · rw [ho, hh.2]
        exact h.own j st hd hm' (hh.1.symm.trans hj)
    · simp only [after, Function.update_of_ne hji] at hj ⊢
      exact h.own j st hd hm' hj

/-- What a call that wrote adds to the history. -/
theorem writes_of_wrote {i : ι} (hw : (s.claims i).Wrote s.store g c m) :
    (s.after i (c, m)).writes = s.writes ++ [((s.claims i).owner, g)] := by
  obtain ⟨-, hseq, e, hst⟩ := hw
  simp [after, written, hseq, hst]

/-- A call that writes keeps the invariant if the write keeps the history fenced: the new
handle is one that nobody has seen. -/
theorem Inv.wrote (h : s.Inv) (i : ι) (hw : (s.claims i).Wrote s.store g c m)
    (hf : (s.writes ++ [((s.claims i).owner, g)]).Fenced) : (s.after i (c, m)).Inv := by
  have hws := writes_of_wrote hw
  obtain ⟨hc, hseq, e, hst⟩ := hw
  constructor
  · rwa [hws]
  · rw [owners_after s i (by rw [hc])]
    exact h.owners
  · intro j
    rcases eq_or_ne j i with rfl | hj
    · exact Or.inr ⟨m.seq, le_rfl, by simp [after, hc, hseq]⟩
    · rcases h.handle j with hj' | ⟨k, hk, hj'⟩
      · exact Or.inl (by simpa [after, hj] using hj')
      · exact Or.inr ⟨k, by simp only [after]; omega, by simpa [after, hj] using hj'⟩
  · intro st hd hm
    have hm : m.state = some (st, hd) := hm
    rw [hst] at hm
    cases hm
    simp [after, hseq]
  · intro st hd hm
    have hm : m.state = some (st, hd) := hm
    rw [hst] at hm
    cases hm
    exact ⟨s.writes, hws⟩
  · intro j st hd hm hj
    have hm : m.state = some (st, hd) := hm
    rw [hst] at hm
    cases hm
    rcases eq_or_ne j i with rfl | hji
    · simp [after, hc]
    · simp only [after, Function.update_of_ne hji] at hj
      -- every handle that was given out before has a smaller number
      rcases h.handle j with hj' | ⟨k, hk, hj'⟩
      · exact absurd (hj.symm.trans hj') (repr_ne_empty _)
      · have := repr_injective (hj'.symm.trans hj)
        omega

/-! ### When the token fences -/

/-- A claim by `i` is safe for the token: it creates the record only if nobody else ever wrote
it, and it takes the record over only if there is a next generation. -/
def ClaimFences (s : Contest ι) (i : ι) (now : Nanos) : Prop :=
  (s.store.state = none → ∀ w ∈ s.writes, w.1 = (s.claims i).owner) ∧
    ∀ st h, s.store.state = some (st, h) → st.owner ≠ (s.claims i).owner →
      st.expiresAt < now → st.generation < u64Max

/-- The condition on one call. -/
def KeepsToken (s : Contest ι) : ContestEvent ι → Prop
  | .tryBecomeLeader i now => s.ClaimFences i now
  | .renew i now => (s.claims i).handle = "" → s.ClaimFences i now
  | .release _ => True

omit [DecidableEq ι] in
/-- A write of a safe claim keeps the history fenced. -/
theorem Inv.fenced_claim (h : s.Inv) {i : ι} {now : Nanos} (hok : s.ClaimFences i now)
    (hg : (s.claims i).ClaimWrites s.store now g) :
    (s.writes ++ [((s.claims i).owner, g)]).Fenced := by
  rcases hg with ⟨hst, rfl⟩ | ⟨st, hd, hst, hg⟩
  · exact h.fenced.created (hok.1 hst)
  · obtain ⟨ws, hws⟩ := h.last st hd hst
    have hf := h.fenced
    rw [hws] at hf ⊢
    rcases hg with ⟨ho, rfl⟩ | ⟨ho, he, rfl⟩
    · rw [← ho]
      exact hf.renewed
    · have := hok.2 st hd hst ho he
      rw [satAdd_of_le (by omega)]
      exact hf.takenOver ho

omit [DecidableEq ι] in
/-- A write on a remembered handle repeats the last write. -/
theorem Inv.fenced_renew (h : s.Inv) {i : ι} (hh : (s.claims i).handle ≠ "")
    (ha : s.store.allows (s.claims i).handle = true) :
    (s.writes ++ [((s.claims i).owner, (s.claims i).generation)]).Fenced := by
  rcases hst : s.store.state with - | ⟨st, hd⟩
  · simp [MemLease.allows, hst, hh] at ha
  · have hd' : hd = (s.claims i).handle := by
      simpa [MemLease.allows, hst, hh] using ha
    obtain ⟨ho, hg⟩ := h.own i st hd hst hd'.symm
    obtain ⟨ws, hws⟩ := h.last st hd hst
    have hf := h.fenced
    rw [← ho, ← hg, hws]
    rw [hws] at hf
    exact hf.renewed

/-- A claim that writes and leaves the history fencing was safe. -/
theorem Inv.claimFences (h : s.Inv) {i : ι} {now : Nanos}
    (hwr : ∀ g, (s.claims i).ClaimWrites s.store now g → (s.claims i).Wrote s.store g c m)
    (hf : (s.after i (c, m)).writes.Fences) : s.ClaimFences i now := by
  constructor
  · intro hst w hw
    rw [writes_of_wrote (hwr 1 (Or.inl ⟨hst, rfl⟩))] at hf
    by_contra hne
    have := hf.concat_lt hw hne
    have := h.fenced.pos w hw
    omega
  · intro st hd hst ho he
    rw [writes_of_wrote (hwr _ (Or.inr ⟨st, hd, hst, Or.inr ⟨ho, he, rfl⟩⟩))] at hf
    obtain ⟨ws, hws⟩ := h.last st hd hst
    have hlt := hf.concat_lt (a := (st.owner, st.generation)) (by simp [hws]) ho
    exact lt_of_lt_of_le hlt (satAdd_le_max _ _ _)

omit [DecidableEq ι] in
/-- The handle of the record is never the empty one. -/
theorem Inv.handle_ne (h : s.Inv) (st : LeaseState) (hd : String)
    (hst : s.store.state = some (st, hd)) : hd ≠ "" := by
  rw [h.record st hd hst]
  exact repr_ne_empty _

/-- One call that meets the condition keeps the invariant. -/
theorem Inv.step {s' : Contest ι} (h : s.Inv) {e : ContestEvent ι} (hs : s.step e = some s')
    (hok : s.KeepsToken e) : s'.Inv := by
  cases e with
  | tryBecomeLeader i now =>
    obtain rfl : s.after i _ = s' := Option.some.inj hs
    rw [Claim.tryBecomeLeader_snd]
    rcases (s.claims i).tryClaim_cases s.store now with ⟨hc, hst, hseq⟩ | ⟨g, hg, hw⟩
    · exact h.idle i (by rw [hc]) (Or.inr (by rw [hc]; exact ⟨rfl, rfl⟩)) hseq (Or.inr hst)
    · exact h.wrote i hw (h.fenced_claim hok hg)
  | renew i now =>
    obtain rfl : s.after i _ = s' := Option.some.inj hs
    rw [Claim.renew_snd]
    rcases (s.claims i).renewWrite_cases s.store now with ⟨hc, hst, hseq⟩ | ⟨g, hg, hw⟩
    · exact h.idle i (by rw [hc]) (Or.inr (by rw [hc]; exact ⟨rfl, rfl⟩)) hseq (Or.inr hst)
    · refine h.wrote i hw ?_
      rcases hg with ⟨hh, hg⟩ | ⟨hh, ha, rfl⟩
      · exact h.fenced_claim (hok hh) hg
      · exact h.fenced_renew hh ha
  | release i =>
    obtain rfl : s.after i _ = s' := Option.some.inj hs
    obtain ⟨hc, hseq, hst⟩ := (s.claims i).release_cases s.store
    exact h.idle i (c := ((s.claims i).release s.store).1) (by rw [hc]) (Or.inl (by rw [hc]))
      hseq hst

/-- One call that leaves the history fencing met the condition. -/
theorem Inv.keepsToken {s' : Contest ι} (h : s.Inv) {e : ContestEvent ι} (hs : s.step e = some s')
    (hf : s'.writes.Fences) : s.KeepsToken e := by
  cases e with
  | tryBecomeLeader i now =>
    obtain rfl : s.after i _ = s' := Option.some.inj hs
    rw [Claim.tryBecomeLeader_snd] at hf
    exact h.claimFences (fun g hg => (s.claims i).tryClaim_of_writes h.handle_ne hg) hf
  | renew i now =>
    intro hh
    obtain rfl : s.after i _ = s' := Option.some.inj hs
    rw [Claim.renew_snd, Claim.renewWrite_of_empty _ _ _ hh] at hf
    exact h.claimFences (fun g hg => (s.claims i).tryClaim_of_writes h.handle_ne hg) hf
  | release i => trivial

end Contest

/-- **The generation fences exactly as long as no owner creates the record anew**: in every
run, of two writes by different owners the later one carries the larger generation, in every
state the run passes, if and only if no call of the run creates the record after another owner
wrote it (nor takes it over at the last generation there is). -/
theorem generation_fences_iff {ι : Type} [DecidableEq ι] (s : Contest ι)
    (es : List (ContestEvent ι)) (hs : (contestMachine ι).Init s) :
    (contestMachine ι).Always (fun s => s.writes.Fences) s es ↔
      (contestMachine ι).Along Contest.KeepsToken s es := by
  obtain ⟨owner, ttl, ho, rfl⟩ := hs
  exact Machine.always_iff_along (K := Contest.Inv) (fun s h => h.fenced.fences)
    (fun s e s' h hs hok => h.step hs hok) (fun s e s' h hs hf => h.keepsToken hs hf)
    (Contest.inv_start ho ttl)

/-- Two fresh claimants with leases of 30. -/
def twoClaimants : Contest Bool :=
  Contest.start (fun i => if i then "10.0.0.1:8080" else "10.0.0.2:8080") fun _ => 30

theorem init_twoClaimants : (contestMachine Bool).Init twoClaimants :=
  ⟨_, _, by unfold Function.Injective; decide, rfl⟩

/-- A take-over after expiry fences: the second claimant gets generation 2. -/
theorem generation_fences_takeover :
    (contestMachine Bool).Init twoClaimants ∧
      (contestMachine Bool).Always (fun s => s.writes.Fences) twoClaimants
        [.tryBecomeLeader true 0, .renew true 10, .tryBecomeLeader false 41] := by
  refine ⟨init_twoClaimants, (generation_fences_iff _ _ init_twoClaimants).mpr ?_⟩
  rintro _ ⟨⟩
  refine ⟨⟨fun _ w hw => ?_, fun _ _ h => ?_⟩, ?_⟩
  · cases hw
  · cases h
  rintro _ ⟨⟩
  refine ⟨fun h => ?_, ?_⟩
  · exact absurd h (by decide)
  rintro _ ⟨⟩
  refine ⟨⟨fun h => ?_, fun _ _ h _ _ => ?_⟩, trivial⟩
  · cases h
  · cases h
    decide

/-- A release in between does not: both claimants write generation 1, without a single
take-over. -/
theorem generation_reused_after_release :
    (contestMachine Bool).Init twoClaimants ∧
      ¬ (contestMachine Bool).Always (fun s => s.writes.Fences) twoClaimants
        [.tryBecomeLeader true 0, .release true, .tryBecomeLeader false 1] := by
  refine ⟨init_twoClaimants, fun h => ?_⟩
  have hf : History.Fences [("10.0.0.1:8080", 1), ("10.0.0.2:8080", 1)] := h.last rfl
  simp [History.Fences] at hf

end Hop.Lead
