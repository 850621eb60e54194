import Hop.Cloudflared.Parser

/-!
# The regular expression of an ingress path

`apps/cloudflared-lean/src/regex.rs`: the code generator, and the Pike machine that searches with
its program. Two things are kept that the source does not have: how often `emitNode` was called
(`Codegen.calls`), and whether a thread was dropped because an array was full (`Threads.lost`).
-/

namespace Hop.Cloudflared

open Act

/-! ### The code generator -/

/-- An instruction of the program. -/
inductive Inst
  /-- One byte of the set, then on. -/
  | set (s : ByteSet)
  /-- Both ways. -/
  | split (a b : ℕ)
  | jmp (t : ℕ)
  /-- Only at position 0. -/
  | begin
  /-- Only at the end. -/
  | endText
  /-- Found. -/
  | found

/-- The code generator: from nodes to instructions. -/
structure Codegen where
  /-- The program. -/
  prog : List Inst := []
  /-- How often `emitNode` was called. -/
  calls : ℕ := 0

namespace Codegen

/-- Counts a call of `emitNode`. -/
def tick : Act Codegen Error Unit := modify fun g => { g with calls := g.calls + 1 }

/-- The address of the next instruction. -/
def pc : Act Codegen Error ℕ := fun g =>
  if g.prog.length < maxProg then .ok g.prog.length g else .error .tooLarge g

/-- Adds an instruction; returns its address. -/
def emit (i : Inst) : Act Codegen Error ℕ := do
  let at' ← pc
  modify fun g => { g with prog := g.prog ++ [i] }
  pure at'

/-- Corrects an instruction (a jump that only now knows its target). -/
def patch (pc : ℕ) (i : Inst) : Act Codegen Error Unit :=
  modify fun g => { g with prog := g.prog.set pc i }

/-- Corrects several. -/
def patchAll (i : ℕ → Inst) : List ℕ → Act Codegen Error Unit
  | [] => pure ()
  | pc :: pcs => do
    patch pc (i pc)
    patchAll i pcs

/-- The same code `n` times. -/
def copies (body : Act Codegen Error Unit) : ℕ → Act Codegen Error Unit
  | 0 => pure ()
  | n + 1 => do
    body
    copies body n

/-- The code up to `n` times; returns the splits. -/
def options (body : Act Codegen Error Unit) : ℕ → List ℕ → Act Codegen Error (List ℕ)
  | 0, splits => pure splits
  | n + 1, splits => do
    let split ← emit (.split 0 0)
    body
    options body n (splits ++ [split])

/-- `x{min,max}`: `min` copies, then `x*` or `max - min` times `x?`. -/
def rep (body : Act Codegen Error Unit) (min : ℕ) (max : Option ℕ) : Act Codegen Error Unit := do
  copies body min
  match max with
  | none =>
    let top ← emit (.split 0 0)
    body
    let _ ← emit (.jmp top)
    let e ← pc
    patch top (.split (top + 1) e)
  | some max =>
    -- There is room for `maxRepeat` splits.
    let splits ← options body (Min.min (max - min) maxRepeat) []
    let e ← pc
    patchAll (fun s => .split (s + 1) e) splits

mutual

/-- The code of a node. -/
def emitNode : Node → Act Codegen Error Unit
  | .empty => tick
  | .set s => do
    tick
    let _ ← emit (.set s)
  | .begin => do
    tick
    let _ ← emit .begin
  | .endText => do
    tick
    let _ ← emit .endText
  | .concat items => do
    tick
    emitAll items
  | .alt arms => do
    tick
    let jumps ← emitArms arms []
    let e ← pc
    patchAll (fun _ => .jmp e) jumps
  | .rep node min max => do
    tick
    rep (emitNode node) min max

/-- The code of nodes one after the other. -/
def emitAll : List Node → Act Codegen Error Unit
  | [] => pure ()
  | node :: nodes => do
    emitNode node
    emitAll nodes

/-- `a|b|c`: a split for each arm but the last, each of these jumps to the end; returns the
jumps, of which there is room for 64. -/
def emitArms : List Node → List ℕ → Act Codegen Error (List ℕ)
  | [], jumps => pure jumps
  | [arm], jumps => do
    emitNode arm
    pure jumps
  | arm :: arms, jumps => do
    let split ← emit (.split 0 0)
    emitNode arm
    let j ← emit (.jmp 0)
    ensure (jumps.length < 64) .tooLarge
    let next ← pc
    patch split (.split (split + 1) next)
    emitArms arms (jumps ++ [j])

end

end Codegen

/-! ### The machine -/

/-- A list of threads: a sparse set of addresses. -/
structure Threads where
  /-- The addresses in the order in which they were added; there is room for `maxProg`. -/
  pcs : List ℕ := []
  /-- The addresses that are marked as in the list. -/
  on : Finset ℕ := ∅
  /-- Whether something was dropped because its array was full. -/
  lost : Bool := false

namespace Threads

/-- Adds `pc`; `false` if it was there. -/
def insert (t : Threads) (pc : ℕ) : Bool × Threads :=
  if maxProg ≤ pc then (false, t)
  else if pc ∈ t.on then (false, t)
  else if t.pcs.length < maxProg then
    (true, { t with pcs := t.pcs ++ [pc], on := Insert.insert pc t.on })
  else (true, { t with on := Insert.insert pc t.on, lost := true })

/-- Takes the marks off the addresses of the list, and empties it. -/
def clear (t : Threads) : Threads := { t with pcs := [], on := t.on \ t.pcs.toFinset }

/-- How many addresses are not marked. -/
def room (t : Threads) : ℕ := (Finset.range maxProg \ t.on).card

end Threads

/-- The stack of `add`, of `maxProg` addresses, with the threads. -/
def push (pc : ℕ) (st : List ℕ × Threads) : List ℕ × Threads :=
  if st.1.length < maxProg then (pc :: st.1, st.2) else (st.1, { st.2 with lost := true })

/-- What `add` pushes for an instruction at `pc`, the last one to be looked at first. -/
def targets (i : Option Inst) (pc pos len : ℕ) : List ℕ :=
  match i with
  | some (.jmp t) => [t]
  | some (.split a b) => [b, a]
  | some .begin => if pos = 0 then [pc + 1] else []
  | some .endText => if pos = len then [pc + 1] else []
  | _ => []

def Inst.isFound : Inst → Bool
  | .found => true
  | _ => false

theorem targets_length_le (i : Option Inst) (pc pos len : ℕ) :
    (targets i pc pos len).length ≤ 2 := by
  have hif : ∀ p : Prop, [Decidable p] → (if p then [pc + 1] else []).length ≤ 2 := by
    intro p _
    split_ifs
    · exact Nat.le_succ 1
    · exact Nat.zero_le 2
  match i with
  | none | some (.set _) | some .found => exact Nat.zero_le 2
  | some (.jmp _) => exact Nat.le_succ 1
  | some (.split _ _) => exact le_rfl
  | some .begin | some .endText => exact hif _

theorem push_length_le (pc : ℕ) (st : List ℕ × Threads) :
    (push pc st).1.length ≤ st.1.length + 1 := by
  rw [push]
  split_ifs
  · exact le_rfl
  · exact Nat.le_succ _

theorem push_on (pc : ℕ) (st : List ℕ × Threads) : (push pc st).2.on = st.2.on := by
  rw [push]
  split_ifs
  · rfl
  · rfl

/-- Pushes several. -/
def pushAll (pcs : List ℕ) (st : List ℕ × Threads) : List ℕ × Threads :=
  pcs.foldl (fun st pc => push pc st) st

theorem pushAll_length_le (pcs : List ℕ) (st : List ℕ × Threads) :
    (pushAll pcs st).1.length ≤ st.1.length + pcs.length := by
  induction pcs generalizing st with
  | nil => exact le_rfl
  | cons pc pcs ih =>
    have hfirst := push_length_le pc st
    have hrest := ih (push pc st)
    rw [pushAll, List.foldl_cons, List.length_cons]
    rw [pushAll] at hrest
    omega

theorem pushAll_on (pcs : List ℕ) (st : List ℕ × Threads) : (pushAll pcs st).2.on = st.2.on := by
  induction pcs generalizing st with
  | nil => rfl
  | cons pc pcs ih => exact (ih (push pc st)).trans (push_on pc st)

theorem Threads.room_insert {t t' : Threads} {pc : ℕ} (h : t.insert pc = (true, t')) :
    t'.room < t.room := by
  have hon : pc < maxProg ∧ pc ∉ t.on ∧ t'.on = Insert.insert pc t.on := by
    rw [insert] at h
    split_ifs at h with hout hmem hfull
    · cases h
    · cases h
    · cases h
      exact ⟨by omega, hmem, rfl⟩
    · cases h
      exact ⟨by omega, hmem, rfl⟩
  rw [room, room, hon.2.2]
  apply Finset.card_lt_card
  rw [Finset.ssubset_iff_of_subset (Finset.sdiff_subset_sdiff le_rfl (Finset.subset_insert _ _))]
  refine ⟨pc, Finset.mem_sdiff.mpr ⟨Finset.mem_range.mpr hon.1, hon.2.1⟩, fun hmem => ?_⟩
  exact (Finset.mem_sdiff.mp hmem).2 (Finset.mem_insert_self _ _)

/-- The loop of `add`: look at the addresses on the stack, and at all that lies behind them without
a byte; whether that reaches `found`. -/
def addLoop (prog : List Inst) (pos len : ℕ) (stack : List ℕ) (t : Threads) : Bool × Threads :=
  match stack with
  | [] => (false, t)
  | pc :: stack =>
    match _h : t.insert pc with
    | (false, _) => addLoop prog pos len stack t
    | (true, t') =>
      if (prog[pc]?).any Inst.isFound then (true, t')
      else
        addLoop prog pos len (pushAll (targets prog[pc]? pc pos len) (stack, t')).1
          (pushAll (targets prog[pc]? pc pos len) (stack, t')).2
termination_by 2 * t.room + stack.length
decreasing_by
  · rw [List.length_cons]
    omega
  · have hroom := Threads.room_insert _h
    have hlen := pushAll_length_le (targets prog[pc]? pc pos len) (stack, t')
    have htwo := targets_length_le prog[pc]? pc pos len
    have hon : (pushAll (targets prog[pc]? pc pos len) (stack, t')).2.room = t'.room := by
      rw [Threads.room, Threads.room, pushAll_on]
    rw [hon, List.length_cons]
    dsimp only at hlen
    omega

/-- A compiled path. -/
structure Regex where
  /-- The program. -/
  prog : List Inst
  /-- The pattern as it came in. -/
  src : Bytes

namespace Regex

/-- The program of a tree. -/
def compile (root : Node) : Act Codegen Error Unit := do
  Codegen.emitNode root
  let _ ← Codegen.emit .found

/-- The tree of a pattern. -/
def parse (pattern : Bytes) : Except Error Node :=
  match Parser.alt { s := pattern } with
  | .error e _ => .error e
  | .ok root p => if p.i ≠ p.s.length then .error (.paren p.i) else .ok root

/-- Compiles `pattern`. -/
def new (pattern : Bytes) : Except Error Regex :=
  match parse pattern with
  | .error e => .error e
  | .ok root =>
    match compile root {} with
    | .error e _ => .error e
    | .ok _ g => .ok ⟨g.prog, pattern⟩

/-- Adds the thread at `pc` with all that it reaches without a byte; `true` if that is `found`. -/
def add (r : Regex) (t : Threads) (pc pos len : ℕ) : Bool × Threads :=
  addLoop r.prog pos len (push pc ([], t)).1 (push pc ([], t)).2

/-- The threads that go on with the byte `b` at `pos`, and whether one of them finds. -/
def advance (r : Regex) (b : UInt8) (pos len : ℕ) : List ℕ → Threads → Bool × Threads
  | [], next => (false, next)
  | pc :: pcs, next =>
    match r.prog[pc]? with
    | some (.set set) =>
      if set.has b then
        match r.add next (pc + 1) (pos + 1) len with
        | (true, next) => (true, next)
        | (false, next) => advance r b pos len pcs next
      else advance r b pos len pcs next
    | _ => advance r b pos len pcs next

/-- The search from `pos` on, where `rest` is still to come; with the threads it ends with. -/
def search (r : Regex) (len : ℕ) : Bytes → ℕ → Threads → Threads → Bool × Threads × Threads
  | rest, pos, cur, next =>
    -- A new thread at each position: the search is not anchored.
    match r.add cur 0 pos len with
    | (true, cur) => (true, cur, next)
    | (false, cur) =>
      match rest with
      | [] => (false, next.clear, cur)
      | b :: rest =>
        match r.advance b pos len cur.pcs next.clear with
        | (true, next) => (true, cur, next)
        | (false, next) => search r len rest (pos + 1) next cur

/-- Whether the pattern matches somewhere in `s`. -/
def isMatch (r : Regex) (s : Bytes) : Bool := (r.search s.length s 0 {} {}).1

end Regex

end Hop.Cloudflared
