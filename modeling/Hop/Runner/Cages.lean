import Hop.Lib.Machine
import Hop.Runner.HopRunner

/-!
# The books of the runner

Which task holds which cage stands in three places: the cages by task, the tasks by slot, and the
number of images that stream. `cages_exact` says that they agree in every run, that no call on
behalf of a task goes to another slot than the one the kernel last gave to that task, and that a
cage is forgotten only when the kernel confirmed its stop or refused it.

One exit is not like that: a chunk of an image that the kernel did not answer counts as refused, and
the cage is forgotten although the kernel may still hold the slot.
-/

namespace Hop.Runner

/-! ### What the kernel was asked -/

/-- A call of the kernel, with its answer. -/
inductive Call
  | start (spec : StartSpec) (reply : Except SysError Slot)
  | stream (slot : Slot) (chunk : Bytes) (reply : Except SysError Streamed)
  | stop (slot : Slot) (reply : Except SysError Unit)
  | status (slot : Slot) (reply : Except SysError SlotStatus)
  | occupied (after : Slot) (reply : Except SysError (List Slot))
  | nextLog (reply : Except SysError (Option Bytes))

namespace Call

/-- The slot that a call is about. -/
def target : Call → Option Slot
  | .stream slot _ _ | .stop slot _ | .status slot _ => some slot
  | .start _ _ | .occupied _ _ | .nextLog _ => none

/-- The slot that the kernel gave. -/
def gift : Call → Option Slot
  | .start _ (.ok slot) => some slot
  | _ => none

theorem gift_of_target {call : Call} {slot : Slot} (h : call.target = some slot) :
    call.gift = none := by
  cases call <;> first | rfl | cases h

end Call

/-- The kernel answered, with whatever error. -/
def SysError.answered : SysError → Bool
  | .noCapacity _ | .refused _ => true
  | .unreachable _ | .notConfirmed => false

/-- A chunk of an image that the kernel did not answer. -/
def Call.unanswered : Call → Bool
  | .stream _ _ (.error e) => !e.answered
  | _ => false

/-- The kernel confirmed the stop of the slot, or refused its image. -/
def Call.frees (slot : Slot) : Call → Bool
  | .stop s (.ok ()) => s = slot
  | .stream s _ (.error e) => s = slot && e.answered
  | .stream s _ (.ok (.failed _)) => s = slot
  | _ => false

/-- A kernel with the calls that it got. -/
structure Logged (S : Type) where
  sys : S
  calls : List Call

section

variable {S : Type} [SystemApi S]

instance : SystemApi (Logged S) where
  startSlot k spec :=
    let (reply, sys) := SystemApi.startSlot k.sys spec
    (reply, ⟨sys, k.calls ++ [.start spec reply]⟩)
  streamImage k slot chunk :=
    let (reply, sys) := SystemApi.streamImage k.sys slot chunk
    (reply, ⟨sys, k.calls ++ [.stream slot chunk reply]⟩)
  stopSlot k slot timeoutMs :=
    let (reply, sys) := SystemApi.stopSlot k.sys slot timeoutMs
    (reply, ⟨sys, k.calls ++ [.stop slot reply]⟩)
  slotStatus k slot :=
    let (reply, sys) := SystemApi.slotStatus k.sys slot
    (reply, ⟨sys, k.calls ++ [.status slot reply]⟩)
  occupied k after :=
    let (reply, sys) := SystemApi.occupied k.sys after
    (reply, ⟨sys, k.calls ++ [.occupied after reply]⟩)
  nextLogLine k :=
    let (reply, sys) := SystemApi.nextLogLine k.sys
    (reply, ⟨sys, k.calls ++ [.nextLog reply]⟩)

/-! What a call leaves in the log. -/

theorem startSlot_logged (k : Logged S) (spec : StartSpec) : ∃ reply sys,
    SystemApi.startSlot k spec = (reply, ⟨sys, k.calls ++ [.start spec reply]⟩) := ⟨_, _, rfl⟩

theorem streamImage_logged (k : Logged S) (slot : Slot) (chunk : Bytes) : ∃ reply sys,
    SystemApi.streamImage k slot chunk = (reply, ⟨sys, k.calls ++ [.stream slot chunk reply]⟩) :=
  ⟨_, _, rfl⟩

theorem stopSlot_logged (k : Logged S) (slot : Slot) (timeoutMs : ℕ) : ∃ reply sys,
    SystemApi.stopSlot k slot timeoutMs = (reply, ⟨sys, k.calls ++ [.stop slot reply]⟩) :=
  ⟨_, _, rfl⟩

theorem slotStatus_logged (k : Logged S) (slot : Slot) : ∃ reply sys,
    SystemApi.slotStatus k slot = (reply, ⟨sys, k.calls ++ [.status slot reply]⟩) := ⟨_, _, rfl⟩

theorem occupied_logged (k : Logged S) (after : Slot) : ∃ reply sys,
    SystemApi.occupied k after = (reply, ⟨sys, k.calls ++ [.occupied after reply]⟩) := ⟨_, _, rfl⟩

theorem nextLogLine_logged (k : Logged S) : ∃ reply sys,
    SystemApi.nextLogLine k = (reply, ⟨sys, k.calls ++ [.nextLog reply]⟩) := ⟨_, _, rfl⟩

end

/-! ### The books -/

namespace HopRunner

variable {S T : Type}

/-- The cages by task, the tasks by slot, and the number of images that stream. -/
def books (r : HopRunner S) : Types.Map Cage × SortedMap Slot String × ℕ :=
  (r.cages, r.inUse, r.downloads)

/-- **The books agree.** -/
structure Exact (r : HopRunner S) : Prop where
  slots : ∀ slot id, r.inUse.get? slot = some id ↔ r.slotOf id = some slot
  downloads : r.downloads = r.cages.countVal fun c => c.phase.isStreaming
  bound : r.downloads ≤ maxConcurrentDownloads

theorem books_eq {r : HopRunner S} {r' : HopRunner T} (h : r'.books = r.books) :
    r'.cages = r.cages ∧ r'.inUse = r.inUse ∧ r'.downloads = r.downloads := by
  simpa [books, Prod.ext_iff] using h

theorem slotOf_congr {r : HopRunner S} {r' : HopRunner T} (h : r'.cages = r.cages) (id : String) :
    r'.slotOf id = r.slotOf id := by
  rw [slotOf, slotOf, h]

theorem Exact.congr {r : HopRunner S} {r' : HopRunner T} (h : r.Exact) (hb : r'.books = r.books) :
    r'.Exact := by
  obtain ⟨hcages, hinUse, hdown⟩ := books_eq hb
  refine ⟨fun slot id => ?_, ?_, ?_⟩
  · rw [hinUse, slotOf_congr hcages]
    exact h.slots slot id
  · rw [hdown, hcages]
    exact h.downloads
  · rw [hdown]
    exact h.bound

theorem Exact.new (sys : S) (attrs : Types.Map String) : (new sys attrs).Exact := by
  refine ⟨fun slot id => ?_, rfl, Nat.zero_le _⟩
  constructor <;> intro h <;> cases h

variable {r r' : HopRunner S} {id : String}

/-- The slot of one task changes, and the tasks by slot with it. -/
theorem slots_change (h : ∀ slot id, r.inUse.get? slot = some id ↔ r.slotOf id = some slot)
    {o n : Option Slot} (hold : r.slotOf id = o)
    (hfree : ∀ slot, n = some slot → r.inUse.get? slot = none ∨ o = some slot)
    (hid : r'.slotOf id = n) (hrest : ∀ k, k ≠ id → r'.slotOf k = r.slotOf k)
    (hinUse : ∀ slot, r'.inUse.get? slot =
      if n = some slot then some id else if o = some slot then none else r.inUse.get? slot) :
    ∀ slot k, r'.inUse.get? slot = some k ↔ r'.slotOf k = some slot := by
  intro slot k
  rw [hinUse]
  by_cases hk : k = id
  · subst hk
    rw [hid]
    by_cases hnew : n = some slot
    · simp [hnew]
    · simp only [hnew, if_false, iff_false]
      split_ifs with hwas
      · simp
      · rw [h, hold]
        exact hwas
  · rw [hrest k hk, ← h]
    by_cases hnew : n = some slot
    · simp only [hnew, if_true, Option.some.injEq]
      refine ⟨fun heq => absurd heq.symm hk, fun hin => ?_⟩
      rcases hfree slot hnew with hnone | hwas
      · rw [hnone] at hin
        cases hin
      · have := (h slot id).mpr (hold.trans hwas)
        exact (Option.some.inj (this.symm.trans hin))
    · simp only [hnew, if_false]
      split_ifs with hwas
      · have := (h slot id).mpr (hold.trans hwas)
        rw [this]
        simpa using fun heq : id = k => hk heq.symm
      · rfl

theorem slotOf_insert (cages : Types.Map Cage) (cage : Cage) (k : String) :
    ((cages.insert id cage).get? k).bind (fun c => c.phase.slot?) =
      if id = k then cage.phase.slot? else (cages.get? k).bind fun c => c.phase.slot? := by
  rw [SortedMap.get?_insert]
  split_ifs <;> rfl

theorem slotOf_dropCage (r : HopRunner S) (id k : String) :
    (r.dropCage id).slotOf k = if id = k then none else r.slotOf k := by
  unfold dropCage
  cases hcage : r.cages.get? id with
  | none =>
    split_ifs with hk
    · rw [slotOf, ← hk, hcage]
      rfl
    · rfl
  | some cage =>
    simp only [slotOf, SortedMap.get?_erase]
    split_ifs <;> rfl

/-- The cage of a task is forgotten. -/
theorem Exact.dropCage (h : r.Exact) (id : String) : (r.dropCage id).Exact := by
  cases hcage : r.cages.get? id with
  | none =>
    have : r.dropCage id = r := by simp [HopRunner.dropCage, hcage]
    rwa [this]
  | some cage =>
    have hold : r.slotOf id = cage.phase.slot? := by simp [slotOf, hcage]
    have hcount := SortedMap.countVal_erase (fun c : Cage => c.phase.isStreaming) hcage
    refine ⟨slots_change h.slots hold (n := none) (by simp) ?_ (fun k hk => ?_)
      fun slot => ?_, ?_, ?_⟩
    · simp [slotOf_dropCage]
    · rw [slotOf_dropCage, if_neg (Ne.symm hk)]
    · simp only [HopRunner.dropCage, hcage, reduceCtorEq, if_false]
      cases cage.phase.slot? with
      | none => simp
      | some s => simp [SortedMap.get?_erase]
    · simp only [HopRunner.dropCage, hcage]
      rw [h.downloads, hcount]
      split_ifs <;> simp
    · have := h.bound
      simp only [HopRunner.dropCage, hcage]
      split_ifs <;> omega

/-- A task gets a cage that had none. -/
theorem Exact.insert (h : r.Exact) {cage : Cage} (hnone : r.cages.get? id = none)
    (hfree : ∀ slot, cage.phase.slot? = some slot → r.inUse.get? slot = none)
    (hstream : cage.phase.isStreaming = false) (hcages : r'.cages = r.cages.insert id cage)
    (hinUse : r'.inUse = match cage.phase.slot? with
      | some slot => r.inUse.insert slot id
      | none => r.inUse)
    (hdown : r'.downloads = r.downloads) : r'.Exact := by
  have hold : r.slotOf id = none := by simp [slotOf, hnone]
  refine ⟨slots_change h.slots hold (n := cage.phase.slot?) (fun slot hs => .inl (hfree slot hs))
    ?_ (fun k hk => ?_) fun slot => ?_, ?_, ?_⟩
  · rw [slotOf, hcages, slotOf_insert, if_pos rfl]
  · rw [slotOf, hcages, slotOf_insert, if_neg (Ne.symm hk)]
    rfl
  · rw [hinUse]
    cases cage.phase.slot? with
    | none => simp
    | some s => simp [SortedMap.get?_insert]
  · rw [hdown, hcages, SortedMap.countVal_insert _ _ hnone, h.downloads, hstream]
    rfl
  · rw [hdown]
    exact h.bound

theorem slotOf_setPhase {cage : Cage} (hcage : r.cages.get? id = some cage) (phase : Phase)
    (k : String) : (r.setPhase id phase).slotOf k = if id = k then phase.slot? else r.slotOf k := by
  simp only [setPhase, slotOf, SortedMap.get?_modify]
  split_ifs with hk
  · rw [← hk, hcage]
    rfl
  · rfl

/-- The cage of a task goes into another phase: it gets its slot then or keeps it. -/
theorem Exact.setPhase (h : r.Exact) {cage : Cage} (hcage : r.cages.get? id = some cage)
    {phase : Phase}
    (hfree : ∀ slot, phase.slot? = some slot →
      r.inUse.get? slot = none ∨ cage.phase.slot? = some slot)
    (hcages : r'.cages = (r.setPhase id phase).cages)
    (hinUse : ∀ slot, r'.inUse.get? slot = if phase.slot? = some slot then some id
      else if cage.phase.slot? = some slot then none else r.inUse.get? slot)
    (hdown : (r'.downloads + if cage.phase.isStreaming then 1 else 0) =
      r.downloads + if phase.isStreaming then 1 else 0)
    (hbound : r'.downloads ≤ maxConcurrentDownloads) : r'.Exact := by
  have hold : r.slotOf id = cage.phase.slot? := by simp [slotOf, hcage]
  have hslot : ∀ k, r'.slotOf k = (r.setPhase id phase).slotOf k := slotOf_congr hcages
  refine ⟨slots_change h.slots hold hfree ?_ (fun k hk => ?_) hinUse, ?_, hbound⟩
  · rw [hslot, slotOf_setPhase hcage, if_pos rfl]
  · rw [hslot, slotOf_setPhase hcage, if_neg (Ne.symm hk)]
  · have hset : r'.cages = (r.cages.erase id).insert id { cage with phase := phase } := by
      rw [hcages, HopRunner.setPhase, SortedMap.insert_erase_self, SortedMap.modify_of_some hcage]
    have hgone : (r.cages.erase id).get? id = none := by simp [SortedMap.get?_erase]
    have hcount := SortedMap.countVal_erase (fun c : Cage => c.phase.isStreaming) hcage
    rw [hset, SortedMap.countVal_insert _ _ hgone]
    have := h.downloads
    simp only at hcount ⊢
    omega

/-! ### What an operation on a task does -/

/-- The kernel gave the slot free. -/
def Freed (calls : List Call) (slot : Slot) : Prop := ∃ call ∈ calls, call.frees slot = true

/-- What an operation on behalf of a task may do to the books, by the calls that it made. -/
inductive Outcome (r : HopRunner (Logged S)) (id : String) (calls : List Call) :
    HopRunner (Logged S) → Prop
  | same {q : HopRunner (Logged S)} (h : q.books = r.books) : Outcome r id calls q
  /-- The start waits for its image. -/
  | queued {q : HopRunner (Logged S)} {spec : StartSpec} (hnone : r.cages.get? id = none)
      (h : q.books = (r.cages.insert id ⟨.queued spec, false⟩, r.inUse, r.downloads)) :
      Outcome r id calls q
  /-- The reason of the end was logged. -/
  | flagged {q : HopRunner (Logged S)}
      (h : q.books = (r.cages.modify id fun c => { c with faultLogged := true }, r.inUse,
        r.downloads)) : Outcome r id calls q
  /-- The start goes on, on the same slot. -/
  | turned {q : HopRunner (Logged S)} {cage : Cage} (phase : Phase)
      (hcage : r.cages.get? id = some cage) (hslot : phase.slot? = cage.phase.slot?)
      (hstream : phase.isStreaming = true → cage.phase.isStreaming = true)
      (h : q.books = ((r.setPhase id phase).cages, r.inUse,
        if cage.phase.isStreaming && !phase.isStreaming then r.downloads - 1 else r.downloads)) :
      Outcome r id calls q
  /-- The kernel gave a slot. -/
  | begun {q : HopRunner (Logged S)} {cage : Cage} {slot : Slot} (size : ℕ)
      (hcage : r.cages.get? id = some cage) (hqueued : cage.phase.slot? = none)
      (hroom : r.downloads < maxConcurrentDownloads)
      (hgift : ∃ spec, calls = [Call.start spec (.ok slot)])
      (h : q.books = ((r.setPhase id (.streaming slot 0 size)).cages, r.inUse.insert slot id,
        r.downloads + 1)) : Outcome r id calls q
  /-- The cage is forgotten. -/
  | dropped {q : HopRunner (Logged S)}
      (hfreed : ∀ slot, r.slotOf id = some slot → Freed calls slot ∨
        ∃ call ∈ calls, call.unanswered = true)
      (h : q.books = (r.dropCage id).books) : Outcome r id calls q

theorem Outcome.exact {r q : HopRunner (Logged S)} {calls : List Call}
    (ho : Outcome r id calls q) (h : r.Exact)
    (hgift : ∀ call ∈ calls, ∀ slot, call.gift = some slot → r.inUse.get? slot = none) :
    q.Exact := by
  cases ho with
  | same hb => exact h.congr hb
  | @queued spec hnone hb =>
    obtain ⟨hcages, hinUse, hdown⟩ := (by simpa only [books, Prod.ext_iff] using hb :
      q.cages = r.cages.insert id ⟨.queued spec, false⟩ ∧ q.inUse = r.inUse ∧
        q.downloads = r.downloads)
    exact h.insert hnone (by simp [Phase.slot?]) rfl hcages hinUse hdown
  | flagged hb =>
    obtain ⟨hcages, hinUse, hdown⟩ := (by simpa [books, Prod.ext_iff] using hb :
      q.cages = r.cages.modify id (fun c => { c with faultLogged := true }) ∧
        q.inUse = r.inUse ∧ q.downloads = r.downloads)
    refine ⟨fun slot k => ?_, ?_, ?_⟩
    · rw [hinUse, h.slots, slotOf, slotOf, hcages, SortedMap.get?_modify]
      split_ifs with hk
      · rw [← hk, Option.bind_map]
        rfl
      · rfl
    · rw [hdown, hcages, SortedMap.countVal_modify]
      · exact h.downloads
      · exact fun _ _ => rfl
    · exact hdown ▸ h.bound
  | @turned cage phase hcage hslot hstream hb =>
    obtain ⟨hcages, hinUse, hdown⟩ := (by simpa only [books, Prod.ext_iff] using hb :
      q.cages = (r.setPhase id phase).cages ∧ q.inUse = r.inUse ∧ q.downloads =
        if cage.phase.isStreaming && !phase.isStreaming then r.downloads - 1 else r.downloads)
    have hold : r.slotOf id = cage.phase.slot? := by simp [slotOf, hcage]
    have hcount := SortedMap.countVal_erase (fun c : Cage => c.phase.isStreaming) hcage
    have hbound := h.bound
    have hdownloads := h.downloads
    refine h.setPhase hcage (fun slot hs => .inr (hslot ▸ hs)) hcages (fun slot => ?_) ?_ ?_
    · rw [hinUse, hslot]
      split_ifs with hs
      · exact (h.slots slot id).mpr (hold.trans hs)
      · rfl
    · rw [hdown]
      cases hold : cage.phase.isStreaming <;> cases hnew : phase.isStreaming
      · simp
      · exact absurd (hstream hnew) (by simp [hold])
      · simp only [hold, if_true] at hcount
        simp
        omega
      · simp
    · rw [hdown]
      split_ifs <;> omega
  | @begun cage slot size hcage hqueued hroom hspec hb =>
    obtain ⟨hcages, hinUse, hdown⟩ := (by simpa only [books, Prod.ext_iff] using hb :
      q.cages = (r.setPhase id (.streaming slot 0 size)).cages ∧ q.inUse = r.inUse.insert slot id ∧
        q.downloads = r.downloads + 1)
    obtain ⟨spec, rfl⟩ := hspec
    have hfree := hgift _ List.mem_cons_self slot rfl
    have hnot : cage.phase.isStreaming = false := by
      cases hp : cage.phase <;> simp_all [Phase.slot?, Phase.isStreaming]
    refine h.setPhase hcage (fun s hs => ?_) hcages (fun s => ?_) ?_ ?_
    · cases hs
      exact .inl hfree
    · rw [hinUse, hqueued, SortedMap.get?_insert]
      simp [Phase.slot?]
    · rw [hdown, hnot]
      simp [Phase.isStreaming]
    · omega
  | dropped hfreed hb => exact (h.dropCage id).congr hb

/-- The calls of an operation go to the slot of its task, and to none if it has none. -/
def Aimed (r : HopRunner (Logged S)) (id : String) (calls : List Call) : Prop :=
  ∀ call ∈ calls, call.target = r.slotOf id

theorem Aimed.snoc {r : HopRunner (Logged S)} {calls : List Call} {call : Call}
    (h : Aimed r id calls) (hcall : r.slotOf id = call.target) : Aimed r id (calls ++ [call]) := by
  intro c hmem
  rcases List.mem_append.mp hmem with hmem | hmem
  · exact h c hmem
  · rw [List.mem_singleton.mp hmem, hcall]

theorem Aimed.one {r : HopRunner (Logged S)} {call : Call} (hcall : r.slotOf id = call.target) :
    Aimed r id [call] := by
  simp [Aimed, hcall]

/-- What an operation on behalf of a task does. -/
def Acts (r : HopRunner (Logged S)) (id : String) (q : HopRunner (Logged S)) : Prop :=
  ∃ calls, q.sys.calls = r.sys.calls ++ calls ∧ Aimed r id calls ∧ Outcome r id calls q

/-- An operation that asks the kernel nothing. -/
theorem Acts.silent {r q : HopRunner (Logged S)} (hsys : q.sys = r.sys) (ho : Outcome r id [] q) :
    Acts r id q :=
  ⟨[], by simp [hsys], by simp [Aimed], ho⟩

theorem dropCage_sys (r : HopRunner T) (id : String) : (r.dropCage id).sys = r.sys := by
  unfold dropCage
  split <;> rfl

/-- Forgetting does not depend on what the kernel has become, nor on the specification. -/
theorem books_dropCage {p : HopRunner T} {r : HopRunner T} (h : p.books = r.books) :
    (p.dropCage id).books = (r.dropCage id).books := by
  obtain ⟨hcages, hinUse, hdown⟩ := books_eq h
  unfold dropCage
  rw [hcages]
  cases r.cages.get? id with
  | none => exact h
  | some cage => simp [books, hinUse, hdown]

theorem books_dropCage_setPhase {r : HopRunner T} {cage : Cage} {phase : Phase}
    (hcage : r.cages.get? id = some cage) (hslot : phase.slot? = cage.phase.slot?)
    (hstream : phase.isStreaming = cage.phase.isStreaming) :
    ((r.setPhase id phase).dropCage id).books = (r.dropCage id).books := by
  have hget : (r.setPhase id phase).cages.get? id = some { cage with phase := phase } := by
    simp [setPhase, SortedMap.get?_modify, hcage]
  have herase : (r.setPhase id phase).cages.erase id = r.cages.erase id := by
    rw [setPhase, SortedMap.modify_of_some hcage, SortedMap.erase_insert_self]
  unfold dropCage
  rw [hget, hcage]
  simp only [books, herase, hslot, hstream]
  rfl

variable {r q : HopRunner (Logged S)}

/-- The cage is forgotten after these calls. -/
theorem Acts.drop {sys : Logged S} {calls : List Call} (hsys : sys.calls = r.sys.calls ++ calls)
    (haimed : Aimed r id calls)
    (hfreed : ∀ slot, r.slotOf id = some slot → Freed calls slot ∨
      ∃ call ∈ calls, call.unanswered = true) :
    Acts r id (({ r with sys := sys } : HopRunner (Logged S)).dropCage id) :=
  ⟨calls, by rw [dropCage_sys, hsys], haimed, .dropped hfreed (books_dropCage rfl)⟩

theorem acts_start (r : HopRunner (Logged S)) (req : StartRequest)
    (hnone : r.cages.get? req.taskId = none) : Acts r req.taskId (r.start req).2 := by
  unfold start
  cases r.spec req with
  | error e => exact .silent rfl (.same rfl)
  | ok spec => exact .silent rfl (.queued hnone rfl)

/-- An operation that leaves the books alone and stops neither a slot that is held nor `own`. -/
def Spares (own : Slot) (r q : HopRunner (Logged S)) : Prop :=
  q.books = r.books ∧ ∃ calls, q.sys.calls = r.sys.calls ++ calls ∧
    ∀ slot reply, Call.stop slot reply ∈ calls → slot ≠ own ∧ r.inUse.get? slot = none

theorem Spares.refl (own : Slot) (r : HopRunner (Logged S)) : Spares own r r :=
  ⟨rfl, [], by simp, by simp⟩

theorem Spares.trans {own : Slot} {p : HopRunner (Logged S)} (h : Spares own r q)
    (h' : Spares own q p) : Spares own r p := by
  obtain ⟨hbooks, calls, hcalls, hstops⟩ := h
  obtain ⟨hbooks', calls', hcalls', hstops'⟩ := h'
  refine ⟨hbooks'.trans hbooks, calls ++ calls', by rw [hcalls', hcalls, List.append_assoc], ?_⟩
  intro slot reply hmem
  rcases List.mem_append.mp hmem with hmem | hmem
  · exact hstops slot reply hmem
  · rw [← (books_eq hbooks).2.1]
    exact hstops' slot reply hmem

/-- One call of the kernel. -/
theorem Spares.call {own : Slot} {k : Logged S} {call : Call}
    (hk : k.calls = r.sys.calls ++ [call])
    (hstop : ∀ slot reply, call = .stop slot reply → slot ≠ own ∧ r.inUse.get? slot = none) :
    Spares own r { r with sys := k } :=
  ⟨rfl, [call], hk, fun slot reply hmem => hstop slot reply (List.mem_singleton.mp hmem).symm⟩

variable [SystemApi S]

theorem acts_imageBegin (r : HopRunner (Logged S)) (id : String) (size : ℕ) :
    Acts r id (r.imageBegin id size).2 := by
  unfold imageBegin
  split
  · exact .silent rfl (.same rfl)
  · rename_i spec flag hcage
    have hnone : r.slotOf id = none := by simp [slotOf, hcage, Phase.slot?]
    split_ifs with hsize hbusy
    · exact .silent (dropCage_sys r id) (.dropped (by simp [hnone]) rfl)
    · exact .silent rfl (.same rfl)
    · dsimp only
      generalize ({ spec with imageSize := size } : StartSpec) = spec'
      obtain ⟨reply, sys, hcall⟩ := startSlot_logged (r.setPhase id (.queued spec')).sys spec'
      rw [hcall]
      cases reply with
      | error e =>
        refine ⟨[.start spec' (.error e)], ?_, ?_, .dropped (by simp [hnone]) ?_⟩
        · simp [dropCage_sys, setPhase]
        · exact .one hnone
        · have hsame : ({ r.setPhase id (.queued spec') with
              sys := ⟨sys, r.sys.calls ++ [.start spec' (.error e)]⟩ } :
                HopRunner (Logged S)).books = (r.setPhase id (.queued spec')).books := rfl
          exact (books_dropCage hsame).trans (books_dropCage_setPhase hcage rfl rfl)
      | ok slot =>
        refine ⟨[.start spec' (.ok slot)], rfl, .one hnone, ?_⟩
        refine .begun size hcage rfl (by omega) ⟨spec', rfl⟩ ?_
        simp only [books, setPhase, Prod.mk.injEq, and_true]
        refine SortedMap.ext_get? fun k => ?_
        simp only [SortedMap.get?_modify]
        split_ifs
        · rw [Option.map_map]
          rfl
        · rfl
  · exact .silent rfl (.same rfl)

/-- A stream is broken off. -/
theorem acts_breakOff {slot : Slot} {sys : Logged S} {calls : List Call}
    (hof : r.slotOf id = some slot) (hsys : sys.calls = r.sys.calls ++ calls)
    (haimed : Aimed r id calls) (why : String) :
    Acts r id (({ r with sys := sys } : HopRunner (Logged S)).breakOff id slot why).2 := by
  obtain ⟨reply, sys', hcall⟩ := stopSlot_logged sys slot hopStopTimeoutMs
  rw [hsys, List.append_assoc] at hcall
  unfold breakOff
  dsimp only
  rw [hcall]
  cases reply with
  | error e => exact ⟨_, rfl, haimed.snoc hof, .same rfl⟩
  | ok u =>
    refine .drop rfl (haimed.snoc hof) fun s hs => .inl ⟨.stop slot (.ok u), by simp, ?_⟩
    cases hof.symm.trans hs
    simp [Call.frees]

/-- The image is placed: the cage is armed, and its status is asked. -/
theorem acts_armed {cage : Cage} {slot : Slot} {sys : Logged S} {calls : List Call}
    (hcage : r.cages.get? id = some cage) (hslot : cage.phase.slot? = some slot)
    (hstream : cage.phase.isStreaming = true) (hsys : sys.calls = r.sys.calls ++ calls)
    (haimed : Aimed r id calls) :
    Acts r id (({ ({ r with sys := sys } : HopRunner (Logged S)).setPhase id (.armed slot) with
      downloads := r.downloads - 1 } : HopRunner (Logged S)).booted slot).2 := by
  have hof : r.slotOf id = some slot := by simp [slotOf, hcage, hslot]
  obtain ⟨reply, sys', hcall⟩ := slotStatus_logged sys slot
  rw [hsys, List.append_assoc] at hcall
  have hturned : ∀ sys : Logged S, Outcome r id (calls ++ [Call.status slot reply])
      { ({ r with sys := sys } : HopRunner (Logged S)).setPhase id (.armed slot) with
        downloads := r.downloads - 1 } := by
    intro sys
    have harmed : (Phase.armed slot).isStreaming = false := rfl
    refine .turned (.armed slot) hcage hslot.symm (fun h => absurd h (by simp [harmed])) ?_
    simp [books, setPhase, hstream, harmed]
  unfold booted
  dsimp only [setPhase]
  rw [hcall]
  cases reply <;> exact ⟨_, rfl, haimed.snoc hof, hturned _⟩

theorem acts_imageChunk (r : HopRunner (Logged S)) (id : String) (chunk : Bytes) :
    Acts r id (r.imageChunk id chunk).2 := by
  unfold imageChunk
  split
  · exact .silent rfl (.same rfl)
  · rename_i slot done size flag hcage
    have hof : r.slotOf id = some slot := by simp [slotOf, hcage, Phase.slot?]
    dsimp only
    by_cases hsize : size < satAdd u64Max done chunk.length
    · rw [if_pos hsize]
      exact acts_breakOff hof (List.append_nil _).symm (by simp [Aimed]) _
    rw [if_neg hsize]
    obtain ⟨reply, sys, hcall⟩ := streamImage_logged r.sys slot chunk
    have haimed : Aimed r id [Call.stream slot chunk reply] := .one hof
    rw [hcall]
    cases reply with
    | error e =>
      refine .drop rfl haimed fun s hs => ?_
      cases hof.symm.trans hs
      cases hans : e.answered with
      | true => exact .inl ⟨_, List.mem_singleton.mpr rfl, by simp [Call.frees, hans]⟩
      | false => exact .inr ⟨_, List.mem_singleton.mpr rfl, by simp [Call.unanswered, hans]⟩
    | ok streamed =>
      cases streamed with
      | failed e =>
        refine .drop rfl haimed fun s hs => .inl ⟨_, List.mem_singleton.mpr rfl, ?_⟩
        cases hof.symm.trans hs
        simp [Call.frees]
      | more =>
        dsimp only
        split_ifs with hmore
        · refine ⟨_, rfl, haimed, ?_⟩
          exact .turned (.streaming slot (satAdd u64Max done chunk.length) size) hcage rfl
            (fun _ => rfl) rfl
        · exact acts_breakOff hof rfl haimed _
      | placed =>
        dsimp only
        by_cases hlast : satAdd u64Max done chunk.length = size
        · rw [if_pos hlast]
          exact acts_armed hcage rfl rfl rfl haimed
        · rw [if_neg hlast]
          exact acts_breakOff hof rfl haimed _
  · exact .silent rfl (.same rfl)

theorem acts_stop (r : HopRunner (Logged S)) (id : String) : Acts r id (r.stop id).2 := by
  unfold stop
  cases hcage : r.cages.get? id with
  | none => exact .silent rfl (.same rfl)
  | some cage =>
    have hof : r.slotOf id = cage.phase.slot? := by simp [slotOf, hcage]
    dsimp only
    cases hslot : cage.phase.slot? with
    | none => exact .silent (dropCage_sys r id) (.dropped (by simp [hof, hslot]) rfl)
    | some slot =>
      rw [hslot] at hof
      obtain ⟨reply, sys, hcall⟩ := stopSlot_logged r.sys slot hopStopTimeoutMs
      dsimp only
      rw [hcall]
      cases reply with
      | error e => exact ⟨_, rfl, Aimed.one hof, .same rfl⟩
      | ok u =>
        refine .drop rfl (.one hof) fun s hs => .inl ⟨_, List.mem_singleton.mpr rfl, ?_⟩
        cases hof.symm.trans hs
        simp [Call.frees]

theorem acts_logEndOnce {slot : Slot} {sys : Logged S} {calls : List Call}
    (hof : r.slotOf id = some slot) (hsys : sys.calls = r.sys.calls ++ calls)
    (haimed : Aimed r id calls) :
    Acts r id (({ r with sys := sys } : HopRunner (Logged S)).logEndOnce id slot).2 := by
  unfold logEndOnce
  cases hcage : r.cages.get? id with
  | none => exact ⟨calls, hsys, haimed, .same rfl⟩
  | some cage =>
    dsimp only
    split_ifs with hlogged
    · exact ⟨calls, hsys, haimed, .same rfl⟩
    obtain ⟨reply, sys', hcall⟩ := slotStatus_logged sys slot
    rw [hsys, List.append_assoc] at hcall
    rw [hcall]
    cases reply <;> exact ⟨_, rfl, haimed.snoc hof, .flagged rfl⟩

theorem acts_status (r : HopRunner (Logged S)) (id : String) (pid : Slot) :
    Acts r id (r.status id pid).2 := by
  unfold status
  split_ifs with hpid
  · exact .silent rfl (.same rfl)
  cases hof : r.slotOf id with
  | none => exact .silent rfl (.same rfl)
  | some slot =>
    obtain ⟨reply, sys, hcall⟩ := slotStatus_logged r.sys slot
    dsimp only
    rw [hcall]
    cases reply with
    | error e => exact ⟨_, rfl, Aimed.one hof, .same rfl⟩
    | ok s =>
      dsimp only
      split_ifs with hon hwhy
      · exact ⟨_, rfl, Aimed.one hof, .same rfl⟩
      · have hend : Acts r id (({ r with
            sys := ⟨sys, r.sys.calls ++ [.status slot (.ok s)]⟩ } : HopRunner (Logged S)).logEndOnce
              id slot).2 := acts_logEndOnce hof rfl (.one hof)
        rcases hres : logEndOnce _ id slot with ⟨_ | _, q⟩ <;> rw [hres] at hend <;> exact hend
      · exact ⟨_, rfl, Aimed.one hof, .same rfl⟩

theorem acts_usage (r : HopRunner (Logged S)) (id : String) : Acts r id (r.usage id).2 := by
  unfold usage
  cases hof : r.slotOf id with
  | none => exact .silent rfl (.same rfl)
  | some slot =>
    obtain ⟨reply, sys, hcall⟩ := slotStatus_logged r.sys slot
    dsimp only
    rw [hcall]
    cases reply <;> exact ⟨_, rfl, Aimed.one hof, .same rfl⟩

/-! ### What the other operations do -/

/-- What a runner took over, and whom it asked for. -/
theorem adoptRunning_spec (pairs : List (String × Slot)) (r : HopRunner (Logged S)) :
    ∃ calls, (adoptRunning pairs r).2.sys.calls = r.sys.calls ++ calls ∧
      (∀ call ∈ calls, ∃ p ∈ pairs, call.target = some p.2) ∧
      (r.Exact → (adoptRunning pairs r).2.Exact) ∧
      (∀ id slot, r.slotOf id = some slot → (adoptRunning pairs r).2.slotOf id = some slot) ∧
      ∀ id slot, (adoptRunning pairs r).2.slotOf id = some slot →
        r.slotOf id = some slot ∨ (id, slot) ∈ pairs := by
  induction pairs generalizing r with
  | nil => exact ⟨[], by simp [adoptRunning], by simp, id, fun _ _ h => h, fun _ _ h => .inl h⟩
  | cons p rest ih =>
    obtain ⟨id, slot⟩ := p
    -- What the rest does after the status of this slot was asked, from whatever books.
    have hrest : ∀ (q : HopRunner (Logged S)) (calls : List Call),
        q.sys.calls = r.sys.calls ++ calls →
        (∀ call ∈ calls, call.target = some slot) → (r.Exact → q.Exact) →
        (∀ k s, r.slotOf k = some s → q.slotOf k = some s) →
        (∀ k s, q.slotOf k = some s → r.slotOf k = some s ∨ (k, s) = (id, slot)) →
        ∃ calls, (adoptRunning rest q).2.sys.calls = r.sys.calls ++ calls ∧
          (∀ call ∈ calls, ∃ p ∈ (id, slot) :: rest, call.target = some p.2) ∧
          (r.Exact → (adoptRunning rest q).2.Exact) ∧
          (∀ k s, r.slotOf k = some s → (adoptRunning rest q).2.slotOf k = some s) ∧
          ∀ k s, (adoptRunning rest q).2.slotOf k = some s →
            r.slotOf k = some s ∨ (k, s) ∈ (id, slot) :: rest := by
      intro q calls hcalls haimed hexact hkeep hnew
      obtain ⟨more, hmore, hmoreAimed, hmoreExact, hmoreKeep, hmoreNew⟩ := ih q
      refine ⟨calls ++ more, by rw [hmore, hcalls, List.append_assoc], ?_,
        fun h => hmoreExact (hexact h), fun k s h => hmoreKeep k s (hkeep k s h), ?_⟩
      · intro call hmem
        rcases List.mem_append.mp hmem with hmem | hmem
        · exact ⟨_, List.mem_cons_self, haimed call hmem⟩
        · obtain ⟨p, hp, htarget⟩ := hmoreAimed call hmem
          exact ⟨p, List.mem_cons_of_mem _ hp, htarget⟩
      · intro k s h
        rcases hmoreNew k s h with h | h
        · rcases hnew k s h with h | h
          · exact .inl h
          · exact .inr (h ▸ List.mem_cons_self)
        · exact .inr (List.mem_cons_of_mem _ h)
    unfold adoptRunning
    split_ifs with hskip
    · exact hrest r [] (by simp) (by simp) (fun h => h) (fun _ _ h => h) fun _ _ h => .inl h
    obtain ⟨-, hnocage, hfree⟩ := by simpa only [not_or] using hskip
    rw [Bool.not_eq_true, Option.isSome_eq_false_iff, Option.isNone_iff_eq_none] at hnocage hfree
    obtain ⟨reply, sys, hcall⟩ := slotStatus_logged r.sys slot
    rw [hcall]
    cases reply with
    | error e =>
      refine ⟨_, rfl, fun call hmem => ⟨_, List.mem_cons_self, ?_⟩, fun h => h.congr rfl,
        fun _ _ h => h, fun _ _ h => .inl h⟩
      rw [List.mem_singleton.mp hmem]
      rfl
    | ok s =>
      dsimp only
      split_ifs with hstate
      · exact hrest _ [.status slot (.ok s)] rfl (by simp [Call.target]) (fun h => h.congr rfl)
          (fun _ _ h => h) fun _ _ h => .inl h
      · have hadopt := hrest { r with
            sys := ⟨sys, r.sys.calls ++ [.status slot (.ok s)]⟩
            inUse := r.inUse.insert slot id
            cages := r.cages.insert id ⟨.armed slot, false⟩ }
          [.status slot (.ok s)] rfl (by simp [Call.target])
          (fun h => h.insert hnocage (fun s hs => by cases hs; exact hfree) rfl rfl rfl rfl) ?_ ?_
        · rcases hres : adoptRunning rest _ with ⟨_ | _, q⟩ <;> rw [hres] at hadopt <;> exact hadopt
        · intro k t h
          rw [slotOf, slotOf_insert]
          split_ifs with hk
          · rw [slotOf, ← hk, hnocage] at h
            cases h
          · exact h
        · intro k t h
          rw [slotOf, slotOf_insert] at h
          split_ifs at h with hk
          · cases h
            exact .inr (by rw [hk])
          · exact .inl h

theorem spares_sweepPage (own : Slot) (page : List Slot) (r : HopRunner (Logged S)) :
    Spares own r (sweepPage own page r).2 := by
  induction page generalizing r with
  | nil => exact .refl own r
  | cons slot rest ih =>
    unfold sweepPage
    split_ifs with hskip
    · exact ih r
    obtain ⟨hown, hfree⟩ := by simpa only [not_or] using hskip
    rw [Bool.not_eq_true, Option.isSome_eq_false_iff, Option.isNone_iff_eq_none] at hfree
    obtain ⟨reply, sys, hcall⟩ := slotStatus_logged r.sys slot
    rw [hcall]
    have hasked : Spares own r { r with sys := ⟨sys, r.sys.calls ++ [.status slot reply]⟩ } :=
      .call rfl (by simp)
    cases reply with
    | error e => exact hasked
    | ok s =>
      dsimp only
      split_ifs with hstate
      · exact hasked.trans (ih _)
      obtain ⟨reply, sys', hstop⟩ :=
        stopSlot_logged (⟨sys, r.sys.calls ++ [.status slot (.ok s)]⟩ : Logged S) slot
          hopStopTimeoutMs
      have hown' : ∀ t reply', Call.stop slot reply = .stop t reply' →
          t ≠ own ∧ r.inUse.get? t = none := by
        intro t reply' heq
        cases heq
        exact ⟨hown, hfree⟩
      have hstopped := hasked.trans (Spares.call (k := ⟨sys', _⟩) rfl hown')
      rw [hstop]
      cases reply with
      | error e => exact hstopped
      | ok u =>
        have hrest := hstopped.trans (ih _)
        dsimp only at hrest ⊢
        rcases hres : sweepPage own rest _ with ⟨_ | stopped, q⟩ <;> rw [hres] at hrest <;>
          exact hrest

theorem spares_sweepStrays (own : Slot) (pages : ℕ) (after : Slot) (r : HopRunner (Logged S)) :
    Spares own r (sweepStrays own pages after r).2 := by
  induction pages generalizing after r with
  | zero => exact .refl own r
  | succ pages ih =>
    obtain ⟨reply, sys, hcall⟩ := occupied_logged r.sys after
    unfold sweepStrays
    rw [hcall]
    have hasked : Spares own r { r with sys := ⟨sys, r.sys.calls ++ [.occupied after reply]⟩ } :=
      .call rfl (by simp)
    cases reply with
    | error e => exact hasked
    | ok page =>
      dsimp only
      cases page.getLast? with
      | none => exact hasked
      | some last =>
        have hpage := hasked.trans (spares_sweepPage own page _)
        dsimp only
        rcases hres : sweepPage own page _ with ⟨e | stopped, q⟩ <;> rw [hres] at hpage
        · exact hpage
        have hrest := hpage.trans (ih last q)
        rcases hmore : sweepStrays own pages last q with ⟨_ | _ | more, p⟩ <;>
          rw [hmore] at hrest <;> simpa [hmore] using hrest

theorem spares_pumpConsole (own : Slot) (lines : ℕ) (r : HopRunner (Logged S)) :
    Spares own r (pumpConsole lines r).2 := by
  induction lines generalizing r with
  | zero => exact .refl own r
  | succ lines ih =>
    obtain ⟨reply, sys, hcall⟩ := nextLogLine_logged r.sys
    unfold pumpConsole
    rw [hcall]
    have hasked : Spares own r { r with sys := ⟨sys, r.sys.calls ++ [.nextLog reply]⟩ } :=
      .call rfl (by simp)
    rcases reply with e | _ | line
    · exact hasked
    · exact hasked
    · exact hasked.trans (ih _)

/-! ### What an operation does to the slots -/

omit [SystemApi S] in
/-- The slot of another task stays. The task itself keeps its slot, loses it to the kernel, or gets
one that the kernel gave. -/
theorem Outcome.slots {calls : List Call} (ho : Outcome r id calls q) :
    (∀ k, k ≠ id → q.slotOf k = r.slotOf k) ∧
      (q.slotOf id = r.slotOf id ∨
        (q.slotOf id = none ∧ ∀ slot, r.slotOf id = some slot → Freed calls slot ∨
          ∃ call ∈ calls, call.unanswered = true) ∨
        ∃ spec slot, r.slotOf id = none ∧ q.slotOf id = some slot ∧
          calls = [.start spec (.ok slot)]) := by
  cases ho with
  | same hb =>
    have hslots := slotOf_congr (books_eq hb).1
    exact ⟨fun k _ => hslots k, .inl (hslots id)⟩
  | @queued spec hnone hb =>
    have hcages : q.cages = r.cages.insert id ⟨.queued spec, false⟩ := congrArg Prod.fst hb
    refine ⟨fun k hk => ?_, .inl ?_⟩
    · rw [slotOf, hcages, slotOf_insert, if_neg (Ne.symm hk)]
      rfl
    · rw [slotOf, hcages, slotOf_insert, if_pos rfl, slotOf, hnone]
      rfl
  | flagged hb =>
    have hcages : q.cages = r.cages.modify id fun c => { c with faultLogged := true } :=
      congrArg Prod.fst hb
    have hslots : ∀ k, q.slotOf k = r.slotOf k := by
      intro k
      rw [slotOf, slotOf, hcages, SortedMap.get?_modify]
      split_ifs with hk
      · rw [← hk, Option.bind_map]
        rfl
      · rfl
    exact ⟨fun k _ => hslots k, .inl (hslots id)⟩
  | turned phase hcage hslot hstream hb =>
    have hcages : q.cages = (r.setPhase id phase).cages := congrArg Prod.fst hb
    have hslots := slotOf_setPhase hcage phase
    refine ⟨fun k hk => ?_, .inl ?_⟩
    · rw [slotOf_congr hcages, hslots, if_neg (Ne.symm hk)]
    · rw [slotOf_congr hcages, hslots, if_pos rfl, hslot]
      simp [slotOf, hcage]
  | @begun _ slot size hcage hqueued hroom hspec hb =>
    have hcages : q.cages = (r.setPhase id (.streaming slot 0 size)).cages := congrArg Prod.fst hb
    have hslots := slotOf_setPhase hcage (.streaming slot 0 size)
    obtain ⟨spec, hspec⟩ := hspec
    refine ⟨fun k hk => ?_, .inr (.inr ⟨spec, slot, ?_, ?_, hspec⟩)⟩
    · rw [slotOf_congr hcages, hslots, if_neg (Ne.symm hk)]
    · simpa [slotOf, hcage] using hqueued
    · rw [slotOf_congr hcages, hslots, if_pos rfl]
      rfl
  | dropped hfreed hb =>
    have hcages : q.cages = (r.dropCage id).cages := congrArg Prod.fst hb
    refine ⟨fun k hk => ?_, .inr (.inl ⟨?_, hfreed⟩)⟩
    · rw [slotOf_congr hcages, slotOf_dropCage, if_neg (Ne.symm hk)]
    · rw [slotOf_congr hcages, slotOf_dropCage, if_pos rfl]

end HopRunner

/-! ### Runs of the runner -/

/-- An operation of the runner. -/
inductive Op
  | start (req : StartRequest)
  | imageBegin (id : String) (size : ℕ)
  | imageChunk (id : String) (chunk : Bytes)
  | stop (id : String)
  | status (id : String) (pid : Slot)
  | usage (id : String)
  | adoptRunning (pairs : List (String × Slot))
  | sweepStrays (own : Slot) (pages : ℕ)
  | pumpConsole (lines : ℕ)

namespace Op

/-- The task that an operation is for. -/
def taskId : Op → Option String
  | .start req => some req.taskId
  | .imageBegin id _ | .imageChunk id _ | .stop id | .status id _ | .usage id => some id
  | .adoptRunning _ | .sweepStrays _ _ | .pumpConsole _ => none

end Op

/-- A runner on a kernel, and the slot that the kernel last gave to each task, in this life of the
runner or in an earlier one. -/
structure Held (S : Type) where
  runner : HopRunner (Logged S)
  gave : String → Option Slot

namespace Held

open HopRunner

variable {S : Type} [SystemApi S]

/-- The runner after an operation. -/
def exec (h : Held S) : Op → HopRunner (Logged S)
  | .start req => (h.runner.start req).2
  | .imageBegin id size => (h.runner.imageBegin id size).2
  | .imageChunk id chunk => (h.runner.imageChunk id chunk).2
  | .stop id => (h.runner.stop id).2
  | .status id pid => (h.runner.status id pid).2
  | .usage id => (h.runner.usage id).2
  | .adoptRunning pairs => (HopRunner.adoptRunning pairs h.runner).2
  | .sweepStrays own pages => (HopRunner.sweepStrays own pages 0 h.runner).2
  | .pumpConsole lines => (HopRunner.pumpConsole lines h.runner).2

/-- The calls of the kernel that an operation makes. -/
def calls (h : Held S) (op : Op) : List Call :=
  (h.exec op).sys.calls.drop h.runner.sys.calls.length

/-- What the kernel last gave to a task, after an operation. -/
def gaveAfter (h : Held S) (op : Op) (id : String) : Option Slot :=
  if op.taskId = some id then ((h.calls op).findSome? Call.gift).or (h.gave id) else h.gave id

def step (h : Held S) (op : Op) : Option (Held S) :=
  some { runner := h.exec op, gave := h.gaveAfter op }

/-- The identifier of a task is not used again while its cage exists, and the kernel gives no slot
that this runner holds. -/
def Proper (h : Held S) (op : Op) : Prop :=
  (match op with
    | .start req => h.runner.cages.get? req.taskId = none
    | _ => True) ∧
  ∀ call ∈ h.calls op, ∀ slot ∈ call.gift, h.runner.inUse.get? slot = none

/-- The kernel answers every chunk of an image, and a runner takes a task over on the slot that the
kernel last gave to it. -/
def Answered (h : Held S) (op : Op) : Prop :=
  (∀ call ∈ h.calls op, call.unanswered = false) ∧
  match op with
  | .adoptRunning pairs => ∀ p ∈ pairs, h.gave p.1 = some p.2
  | _ => True

instance (h : Held S) (op : Op) : Decidable (h.Proper op) := by
  unfold Proper
  cases op <;> infer_instance

instance (h : Held S) (op : Op) : Decidable (h.Answered op) := by
  unfold Answered
  cases op <;> infer_instance

/-- **An operation reaches no slot of another task.** -/
structure Right (h : Held S) (op : Op) : Prop where
  /-- A call for a task goes to the slot that the kernel last gave to it. -/
  aimed : ∀ id, op.taskId = some id → ∀ call ∈ h.calls op, ∀ slot, call.target = some slot →
    h.gave id = some slot
  /-- So do the questions about the tasks that are to be taken over. -/
  adopts : ∀ pairs, op = .adoptRunning pairs → ∀ call ∈ h.calls op, ∀ slot,
    call.target = some slot → ∃ id, (id, slot) ∈ pairs ∧ h.gave id = some slot
  /-- A sweep stops neither a slot that is held nor its own. -/
  spares : ∀ own pages, op = .sweepStrays own pages → ∀ slot reply,
    Call.stop slot reply ∈ h.calls op → slot ≠ own ∧ h.runner.inUse.get? slot = none
  /-- A slot is forgotten only when the kernel confirmed its stop or refused it. -/
  forgets : ∀ id slot, h.runner.slotOf id = some slot → (h.exec op).slotOf id ≠ some slot →
    Freed (h.calls op) slot

/-- The books are exact, and who holds a slot holds the one that the kernel gave. -/
structure Sound (h : Held S) : Prop where
  exact : h.runner.Exact
  given : ∀ id slot, h.runner.slotOf id = some slot → h.gave id = some slot

variable {h : Held S} {op : Op}

theorem calls_eq {new : List Call}
    (hsys : (h.exec op).sys.calls = h.runner.sys.calls ++ new) : h.calls op = new := by
  rw [calls, hsys, List.drop_left]

/-- An operation for a task. -/
theorem sound_acts {id : String} (hid : op.taskId = some id) (hacts : Acts h.runner id (h.exec op))
    (hs : h.Sound) (hproper : h.Proper op) (hanswered : h.Answered op) :
    h.Right op ∧ Sound ⟨h.exec op, h.gaveAfter op⟩ := by
  obtain ⟨new, hsys, haimed, hout⟩ := hacts
  have hnew := calls_eq hsys
  have hgifts := hproper.2
  have hanswers := hanswered.1
  rw [hnew] at hgifts hanswers
  obtain ⟨hother, hself⟩ := hout.slots
  refine ⟨⟨?_, ?_, ?_, ?_⟩, hout.exact hs.exact hgifts, ?_⟩
  · intro k hk call hmem slot htarget
    cases hid.symm.trans hk
    rw [hnew] at hmem
    exact hs.given id slot ((haimed call hmem).symm.trans htarget)
  · rintro pairs rfl
    cases hid
  · rintro own pages rfl
    cases hid
  · intro k slot hk hgone
    rw [hnew]
    by_cases hkid : k = id
    · subst hkid
      rcases hself with hsame | ⟨-, hfreed⟩ | ⟨-, s, hnone, -, -⟩
      · exact absurd (hsame.trans hk) hgone
      · refine (hfreed slot hk).resolve_right ?_
        rintro ⟨call, hmem, hun⟩
        rw [hanswers call hmem] at hun
        cases hun
      · cases hnone.symm.trans hk
    · exact absurd ((hother k hkid).trans hk) hgone
  · intro k slot hk
    change h.gaveAfter op k = some slot
    by_cases hkid : k = id
    · subst hkid
      rw [gaveAfter, if_pos hid, hnew]
      rcases hself with hsame | ⟨hnone, -⟩ | ⟨spec, s, -, hs', hcalls⟩
      · -- A task that has a slot makes no call that gives one.
        have hold := hsame.symm.trans hk
        have hnogift : new.findSome? Call.gift = none := by
          rw [List.findSome?_eq_none_iff]
          exact fun call hmem => Call.gift_of_target ((haimed call hmem).trans hold)
        rw [hnogift]
        exact hs.given k slot hold
      · cases hnone.symm.trans hk
      · cases hs'.symm.trans hk
        rw [hcalls]
        rfl
    · rw [gaveAfter, hid, if_neg fun heq => hkid (Option.some.inj heq).symm]
      exact hs.given k slot ((hother k hkid).symm.trans hk)

/-- An operation that leaves the books alone and stops no slot that is held. -/
theorem sound_spares (own : Slot) (hid : op.taskId = none)
    (hadopt : ∀ pairs, op ≠ .adoptRunning pairs)
    (hown : ∀ slot pages, op = .sweepStrays slot pages → slot = own)
    (hspares : Spares own h.runner (h.exec op)) (hs : h.Sound) :
    h.Right op ∧ Sound ⟨h.exec op, h.gaveAfter op⟩ := by
  obtain ⟨hbooks, new, hsys, hstops⟩ := hspares
  have hnew := calls_eq hsys
  have hslots := slotOf_congr (books_eq hbooks).1
  refine ⟨⟨?_, ?_, ?_, ?_⟩, hs.exact.congr hbooks, ?_⟩
  · intro k hk
    cases hid.symm.trans hk
  · exact fun pairs hop => absurd hop (hadopt pairs)
  · intro slot pages hop
    rw [hnew, hown slot pages hop]
    exact hstops
  · intro k slot hk hgone
    exact absurd ((hslots k).trans hk) hgone
  · intro k slot hk
    change h.gaveAfter op k = some slot
    rw [gaveAfter, hid, if_neg (by simp)]
    exact hs.given k slot ((hslots k).symm.trans hk)

theorem sound_adopt {pairs : List (String × Slot)} (hs : h.Sound)
    (hanswered : h.Answered (.adoptRunning pairs)) :
    h.Right (.adoptRunning pairs) ∧
      Sound ⟨h.exec (.adoptRunning pairs), h.gaveAfter (.adoptRunning pairs)⟩ := by
  obtain ⟨new, hsys, haimed, hexact, hkeep, hback⟩ := adoptRunning_spec pairs h.runner
  have hnew : h.calls (.adoptRunning pairs) = new := calls_eq hsys
  have hpairs : ∀ p ∈ pairs, h.gave p.1 = some p.2 := hanswered.2
  refine ⟨⟨?_, ?_, ?_, ?_⟩, hexact hs.exact, ?_⟩
  · intro k hk
    cases hk
  · intro pairs' hop call hmem slot htarget
    cases hop
    rw [hnew] at hmem
    obtain ⟨p, hp, hslot⟩ := haimed call hmem
    cases htarget.symm.trans hslot
    exact ⟨p.1, hp, hpairs p hp⟩
  · intro own pages hop
    cases hop
  · intro k slot hk hgone
    exact absurd (hkeep k slot hk) hgone
  · intro k slot hk
    change h.gaveAfter (.adoptRunning pairs) k = some slot
    rw [gaveAfter, if_neg (by simp [Op.taskId])]
    rcases hback k slot hk with hold | hp
    · exact hs.given k slot hold
    · exact hpairs _ hp

/-- **One operation.** -/
theorem sound_step (hs : h.Sound) (hproper : h.Proper op) (hanswered : h.Answered op) :
    h.Right op ∧ Sound ⟨h.exec op, h.gaveAfter op⟩ := by
  cases op with
  | start req => exact sound_acts rfl (acts_start h.runner req hproper.1) hs hproper hanswered
  | imageBegin id size =>
    exact sound_acts rfl (acts_imageBegin h.runner id size) hs hproper hanswered
  | imageChunk id chunk =>
    exact sound_acts rfl (acts_imageChunk h.runner id chunk) hs hproper hanswered
  | stop id => exact sound_acts rfl (acts_stop h.runner id) hs hproper hanswered
  | status id pid => exact sound_acts rfl (acts_status h.runner id pid) hs hproper hanswered
  | usage id => exact sound_acts rfl (acts_usage h.runner id) hs hproper hanswered
  | adoptRunning pairs => exact sound_adopt hs hanswered
  | sweepStrays own pages =>
    exact sound_spares own rfl (by simp) (by simp +contextual)
      (spares_sweepStrays own pages 0 h.runner) hs
  | pumpConsole lines =>
    exact sound_spares 0 rfl (by simp) (by simp) (spares_pumpConsole 0 lines h.runner) hs

end Held

/-- The runs of a runner on a kernel. It begins with empty books. -/
def cageRuns (S : Type) [SystemApi S] : Machine (Held S) Op where
  Init h := h.runner.books = (.empty, .empty, 0)
  step := Held.step

/-- **The books of the runner are exact**: on any kernel, in every run in which the kernel answers
every chunk and a runner takes a task over on the slot that the kernel last gave to it. -/
theorem cages_exact {S : Type} [SystemApi S] (h : Held S) (ops : List Op)
    (hinit : (cageRuns S).Init h) (hproper : (cageRuns S).Along Held.Proper h ops)
    (hanswered : (cageRuns S).Along Held.Answered h ops) :
    (cageRuns S).Always (fun h => h.runner.Exact) h ops ∧ (cageRuns S).Along Held.Right h ops := by
  have hs : h.Sound := by
    have hcages : h.runner.cages = .empty := congrArg Prod.fst hinit
    refine ⟨(HopRunner.Exact.new h.runner.sys .empty).congr hinit, fun id slot hslot => ?_⟩
    rw [HopRunner.slotOf, hcages] at hslot
    cases hslot
  have hboth := hproper.and hanswered
  refine ⟨hboth.always (fun _ hs => hs.exact) ?_ hs, hboth.imp_of_invariant ?_ ?_ hs⟩
  · intro h op h' hs hstep hok
    cases hstep
    exact (Held.sound_step hs hok.1 hok.2).2
  · intro h op h' hs hstep hok
    cases hstep
    exact (Held.sound_step hs hok.1 hok.2).2
  · intro h op hs hok
    exact (Held.sound_step hs hok.1 hok.2).1

/-! ### A small kernel -/

/-- A kernel that gives the lowest free slot: the bytes that an image still needs (none: it runs),
and how many calls it answers before the connection breaks. -/
structure Board where
  slots : SortedMap Slot ℕ
  answers : ℕ

namespace Board

/-- An answer, if the connection holds. -/
def reply {α : Type} (k : Board) (f : Board → Except SysError α × Board) :
    Except SysError α × Board :=
  if k.answers = 0 then (.error (.unreachable "no answer"), k)
  else f { k with answers := k.answers - 1 }

/-- The lowest slot that is free. -/
def lowest (k : Board) : Slot :=
  (((List.range (k.slots.entries.length + 1)).map (· + 1)).find? fun slot =>
    (k.slots.get? slot).isNone).getD 0

def statusOf (k : Board) (slot : Slot) : SlotStatus :=
  { state := match k.slots.get? slot with
      | none => .empty
      | some 0 => .running
      | some _ => .streaming
    coreOn := k.slots.get? slot = some 0
    app := if k.slots.get? slot = some 0 then .ready else .empty
    exitCode := 0, memSys := 0, cores := 1, core := none, cpuPct := none, faultVec := 0 }

instance : SystemApi Board where
  startSlot k spec := k.reply fun k =>
    (.ok k.lowest, { k with slots := k.slots.insert k.lowest spec.imageSize })
  streamImage k slot chunk := k.reply fun k =>
    let left := (k.slots.get? slot).getD 0
    if chunk.length < left then
      (.ok .more, { k with slots := k.slots.insert slot (left - chunk.length) })
    else if chunk.length = left ∧ left ≠ 0 then
      (.ok .placed, { k with slots := k.slots.insert slot 0 })
    else (.error (.refused "no stream"), { k with slots := k.slots.erase slot })
  stopSlot k slot _ := k.reply fun k => (.ok (), { k with slots := k.slots.erase slot })
  slotStatus k slot := k.reply fun k => (.ok (k.statusOf slot), k)
  occupied k after := k.reply fun k =>
    (.ok ((k.slots.entries.map Prod.fst).filter fun slot => after < slot), k)
  nextLogLine k := k.reply fun k => (.ok none, k)

end Board

/-- A runner after a restart: slot 1 is its own, and the earlier one got slot 2 for `old`. -/
def secondLife (answers : ℕ) : Held Board where
  runner := .new ⟨⟨SortedMap.empty.insert 1 0 |>.insert 2 0 |>.insert 3 0, answers⟩, []⟩ .empty
  gave id := if id = "old" then some 2 else none

/-- It takes `old` over, sweeps the rest away, and starts, asks for and stops `web`. -/
def lifeOps : List Op :=
  [.adoptRunning [("old", 2)], .sweepStrays 1 3, .start { taskId := "web", jobName := "web" },
    .imageBegin "web" 3, .imageChunk "web" [1, 2], .imageChunk "web" [3], .status "web" 3,
    .usage "old", .pumpConsole 1, .stop "web"]

theorem cages_exact_second_life :
    (cageRuns Board).Init (secondLife 100) ∧
      ((cageRuns Board).run (secondLife 100) lifeOps).map (fun h => h.runner.inUse.entries) =
        some [(2, "old")] ∧
      (cageRuns Board).Always (fun h => h.runner.Exact) (secondLife 100) lifeOps ∧
      (cageRuns Board).Along Held.Right (secondLife 100) lifeOps :=
  ⟨rfl, by decide, cages_exact (secondLife 100) lifeOps rfl (by decide)
    (by decide)⟩

/-- A start whose second chunk gets no answer. -/
def cutOff : List Op :=
  [.start { taskId := "web", jobName := "web" }, .imageBegin "web" 3, .imageChunk "web" [1, 2],
    .imageChunk "web" [3]]

/-- The cage is forgotten, though the kernel neither confirmed a stop nor refused: it still holds
slot 4. -/
theorem forgotten_without_verdict :
    (cageRuns Board).Init (secondLife 2) ∧
      (cageRuns Board).Along Held.Proper (secondLife 2) cutOff ∧
      ((cageRuns Board).run (secondLife 2) cutOff).map (fun h =>
        (h.runner.slotOf "web", h.runner.sys.sys.slots.get? 4)) = some (none, some 1) ∧
      ¬ (cageRuns Board).Along Held.Right (secondLife 2) cutOff := by
  refine ⟨rfl, by decide, by decide, fun h => ?_⟩
  have hlast := ((((h _ rfl).2 _ rfl).2 _ rfl).2 _ rfl).1
  obtain ⟨call, hmem, hfrees⟩ := hlast.forgets "web" 4 (by decide) (by decide)
  rw [List.mem_singleton.mp hmem] at hfrees
  cases hfrees

end Hop.Runner
