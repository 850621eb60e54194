import Hop.Lib.Act
import Hop.Lib.Text
import Hop.Types.Prim

/-!
# The pattern of an ingress path

`apps/cloudflared-lean/src/regex.rs`: the parser of the regular expressions. It returns a tree where
the source has an arena of nodes with indices; each index is used once there. A set of bytes is the
predicate that its 256 bits are. Allocations succeed.

`Parser.stacked` is not in the source: the most quantifiers that stood behind one atom so far.
-/

namespace Hop.Cloudflared

open Act

/-- `MAX_PROG`: the largest program. -/
def maxProg : ℕ := 512

/-- `MAX_REPEAT`: the largest repetition in `{n,m}`. -/
def maxRepeat : ℕ := 64

/-- `MAX_NEST`: the deepest nesting of groups. -/
def maxNest : ℕ := 32

/-- Why a pattern does not compile, with the offset. -/
inductive Error
  | paren (at' : ℕ)
  | class (at' : ℕ)
  | repeat (at' : ℕ)
  | unsupported (at' : ℕ)
  | tooLarge
deriving DecidableEq

/-- The byte of an ASCII character. -/
def ascii (c : Char) : UInt8 := c.toNat.toUInt8

/-! ### Sets of bytes -/

/-- A set of bytes. -/
abbrev ByteSet : Type := UInt8 → Bool

namespace ByteSet

def empty : ByteSet := fun _ => false

def add (s : ByteSet) (b : UInt8) : ByteSet := fun x => x == b || s x

def addRange (s : ByteSet) (lo hi : UInt8) : ByteSet := fun x => lo ≤ x && x ≤ hi || s x

def has (s : ByteSet) (b : UInt8) : Bool := s b

def invert (s : ByteSet) : ByteSet := fun x => !s x

def union (s o : ByteSet) : ByteSet := fun x => s x || o x

def isLower (b : UInt8) : Bool := ascii 'a' ≤ b && b ≤ ascii 'z'

def isUpper (b : UInt8) : Bool := ascii 'A' ≤ b && b ≤ ascii 'Z'

def toUpper (b : UInt8) : UInt8 := if isLower b then b - 32 else b

def toLower (b : UInt8) : UInt8 := if isUpper b then b + 32 else b

/-- Adds the other case of every ASCII letter. -/
def fold (s : ByteSet) : ByteSet := fun x =>
  s x || isLower x && s (toUpper x) || isUpper x && s (toLower x)

end ByteSet

/-! ### The parser -/

/-- A node of the parse. -/
inductive Node
  /-- Nothing (an empty branch). -/
  | empty
  /-- One byte of a set. -/
  | set (s : ByteSet)
  | begin
  | endText
  | concat (items : List Node)
  | alt (arms : List Node)
  /-- Repeated at least `min` times, at most `max` times. -/
  | rep (node : Node) (min : ℕ) (max : Option ℕ)

/-- What holds of every node if it holds of a node whenever it holds of the nodes in it. -/
theorem Node.induct {P : Node → Prop} (empty : P .empty) (set : ∀ s, P (.set s)) (begin : P .begin)
    (endText : P .endText) (concat : ∀ items, (∀ n ∈ items, P n) → P (.concat items))
    (alt : ∀ arms, (∀ n ∈ arms, P n) → P (.alt arms))
    (rep : ∀ node min max, P node → P (.rep node min max)) (n : Node) : P n := by
  refine @Node.rec P (fun ns => ∀ n ∈ ns, P n) empty set begin endText concat alt rep ?_ ?_ n
  · exact fun n hn => absurd hn List.not_mem_nil
  · intro n ns hn hns
    exact List.forall_mem_cons.mpr ⟨hn, hns⟩

mutual

/-- A node as the parser builds it: every alternation has an arm, and every repetition has bounds
that `braces` lets pass. -/
def Node.Built : Node → Prop
  | .concat items => BuiltAll items
  | .alt arms => arms ≠ [] ∧ BuiltAll arms
  | .rep node min max => node.Built ∧ min ≤ maxRepeat ∧ ∀ m ∈ max, min ≤ m ∧ m ≤ maxRepeat
  | _ => True

/-- So are all the nodes. -/
def BuiltAll : List Node → Prop
  | [] => True
  | node :: nodes => node.Built ∧ BuiltAll nodes

end

theorem builtAll_iff {nodes : List Node} : BuiltAll nodes ↔ ∀ n ∈ nodes, n.Built := by
  induction nodes with
  | nil => exact ⟨fun _ => nofun, fun _ => trivial⟩
  | cons n ns ih => rw [BuiltAll, List.forall_mem_cons, ih]

def Node.isAnchor : Node → Bool
  | .begin | .endText => true
  | _ => false

/-- The parser: recursive descent over the bytes of the pattern. -/
structure Parser where
  s : Bytes
  /-- The next byte. -/
  i : ℕ := 0
  /-- `(?i)`: letters in both cases. -/
  fold : Bool := false
  /-- How deep the groups are now. -/
  depth : ℕ := 0
  /-- The most quantifiers that stood behind one atom so far. -/
  stacked : ℕ := 0

namespace Parser

/-- How many bytes there are still to read. -/
def left (p : Parser) : ℕ := p.s.length - p.i

def peek : Act Parser Error (Option UInt8) := fun p => .ok p.s[p.i]? p

def skip (n : ℕ) : Act Parser Error Unit := fun p => .ok () { p with i := p.i + n }

/-- The byte that comes next, or the error where there is none. -/
def next (e : Error) : Act Parser Error UInt8 := fun p =>
  match p.s[p.i]? with
  | some c => .ok c { p with i := p.i + 1 }
  | none => .error e p

/-- The digits from `j` on, as a `u32` that saturates, and where they end. -/
def num (s : Bytes) (j : ℕ) : Option ℕ × ℕ :=
  let digits := (s.drop j).takeWhile isDigit
  (if digits = [] then none
    else some (digits.foldl (fun v c => satAdd u32Max (satMul u32Max v 10) (digitVal c)) 0),
    j + digits.length)

/-- What comes behind the first number of a repetition: the upper bound, and where the brace is. -/
def upper (s : Bytes) (min j : ℕ) : Option (Option ℕ × ℕ) :=
  if s[j]? = some (ascii '}') then some (some min, j)
  else if s[j]? = some (ascii ',') then
    let (m, j) := num s (j + 1)
    if s[j]? = some (ascii '}') then some (m, j) else none
  else none

/-- `{n}`, `{n,}` or `{n,m}`; none if it is no repetition, and then nothing is read. -/
def braces : Act Parser Error (Option (ℕ × Option ℕ)) := fun p =>
  match num p.s (p.i + 1) with
  | (none, _) => .ok none p
  | (some min, j) =>
    match upper p.s min j with
    | none => .ok none p
    | some (max, j) =>
      if maxRepeat < min ∨ ∃ m ∈ max, maxRepeat < m ∨ m < min then .error (.repeat p.i) p
      else .ok (some (min, max)) { p with i := j + 1 }

/-- The quantifier that comes next. -/
def quantifier : Act Parser Error (Option (ℕ × Option ℕ)) := do
  let c ← peek
  if c = some (ascii '*') then pure (some (0, none))
  else if c = some (ascii '+') then pure (some (1, none))
  else if c = some (ascii '?') then pure (some (0, some 1))
  -- A brace that is no repetition is a letter.
  else if c = some (ascii '{') then braces
  else pure none

/-- The atom with one more quantifier; `n` were read behind it before. -/
def quantifyTurn (a : Node × ℕ) : Act Parser Error (Turn (Node × ℕ) Node) := do
  let p ← get
  match ← quantifier with
  | none => pure (.done a.1)
  | some (min, max) =>
    modify fun q => if q.i = p.i then { q with i := q.i + 1 } else q
    ensure (a.1.isAnchor = false) (.repeat p.i)
    -- Lazy or greedy is the same for a yes or no.
    onlyIf ((← peek) = some (ascii '?')) (skip 1)
    modify fun q => { q with stacked := Max.max q.stacked (a.2 + 1) }
    pure (.more (.rep a.1 min max, a.2 + 1))

/-- A letter, with the other case under `(?i)`. -/
def literal (c : UInt8) : Act Parser Error ByteSet := fun p =>
  let set := ByteSet.empty.add c
  .ok (if p.fold then set.fold else set) p

/-- The class of `\d`, `\w`, `\s` and their opposites. -/
def perl (c : UInt8) : Option ByteSet :=
  let lower := ByteSet.toLower c
  let set :=
    if lower = ascii 'd' then some (ByteSet.empty.addRange (ascii '0') (ascii '9'))
    else if lower = ascii 'w' then
      some ((((ByteSet.empty.addRange (ascii '0') (ascii '9')).addRange (ascii 'a')
        (ascii 'z')).addRange (ascii 'A') (ascii 'Z')).add (ascii '_'))
    else if lower = ascii 's' then some ([32, 9, 10, 13, 12, 11].foldl ByteSet.add ByteSet.empty)
    else none
  set.map fun set => if ByteSet.isUpper c then set.invert else set

def isPunctuation (c : UInt8) : Bool :=
  33 ≤ c && c ≤ 47 || 58 ≤ c && c ≤ 64 || 91 ≤ c && c ≤ 96 || 123 ≤ c && c ≤ 126

/-- An escape as a letter, in a class or not. -/
def escapedByte (c : UInt8) : Option UInt8 :=
  if c = ascii 'n' then some 10
  else if c = ascii 't' then some 9
  else if c = ascii 'r' then some 13
  else if c = ascii 'f' then some 12
  else if c = ascii 'v' then some 11
  else if isPunctuation c then some c
  else none

/-- `o.ok_or(e)`. -/
def okOr {α : Type} (o : Option α) (e : Error) : Act Parser Error α :=
  match o with
  | some a => pure a
  | none => throw e

/-- An escape, behind the backslash at `at'`. -/
def escape (at' : ℕ) : Act Parser Error Node := do
  let c ← next (.unsupported at')
  match perl c with
  | some set => pure (.set set)
  | none =>
    if c = ascii 'A' then pure .begin
    else if c = ascii 'z' then pure .endText
    else do
      let b ← okOr (escapedByte c) (.unsupported at')
      let set ← literal b
      pure (.set set)

/-- The first byte of a member of a class, or a whole class `\d`; `c` was read. -/
def classLow (at' : ℕ) (c : UInt8) : Act Parser Error (ByteSet ⊕ UInt8) := do
  if c = ascii '\\' then
    let e ← next (.class at')
    match perl e with
    | some set => pure (.inl set)
    | none =>
      let p ← get
      let b ← okOr (escapedByte e) (.unsupported (p.i - 2))
      pure (.inr b)
  else
    let p ← get
    -- POSIX classes are not known.
    ensure (¬ (c = ascii '[' ∧ p.s[p.i]? = some (ascii ':'))) (.unsupported (p.i - 1))
    pure (.inr c)

/-- The last byte of a range. -/
def classHigh (at' : ℕ) : Act Parser Error UInt8 := do
  let hi ← next (.class at')
  if hi = ascii '\\' then
    let e ← next (.class at')
    okOr (escapedByte e) (.class at')
  else pure hi

/-- One member of a class. -/
def classTurn (at' : ℕ) (a : ByteSet × Bool) : Act Parser Error (Turn (ByteSet × Bool) ByteSet) := do
  let c ← next (.class at')
  if c = ascii ']' ∧ a.2 = false then pure (.done a.1)
  else
    match ← classLow at' c with
    | .inl set => pure (.more (a.1.union set, false))
    | .inr lo =>
      let p ← get
      if p.s[p.i]? = some (ascii '-') ∧ p.s[p.i + 1]?.any (· != ascii ']') then
        skip 1
        let hi ← classHigh at'
        ensure (lo ≤ hi) (.class at')
        pure (.more (a.1.addRange lo hi, false))
      else pure (.more (a.1.add lo, false))

/-! Every loop of the parser reads a byte in each turn, so it ends. -/

theorem lowers_peek : Lowers left 0 peek where
  of_ok h := by
    cases h
    omega
  of_error h := nomatch h

theorem lowers_get : Lowers left 0 (get : Act Parser Error Parser) where
  of_ok h := by
    cases h
    omega
  of_error h := nomatch h

theorem lowers_skip (n : ℕ) : Lowers left 0 (skip n) where
  of_ok {p _ p'} h := by
    cases h
    simp only [left]
    omega
  of_error h := nomatch h

theorem left_of_getElem? {p : Parser} {c : UInt8} (h : p.s[p.i]? = some c) :
    { p with i := p.i + 1 }.left + 1 ≤ p.left := by
  have hlt := (List.getElem?_eq_some_iff.mp h).1
  simp only [left]
  omega

theorem lowers_next (e : Error) : Lowers left 1 (next e) where
  of_ok {p c p'} h := by
    rw [next] at h
    rcases hc : p.s[p.i]? with - | b
    · rw [hc] at h
      cases h
    · rw [hc] at h
      cases h
      exact_mod_cast left_of_getElem? hc
  of_error {p e' p'} h := by
    rw [next] at h
    rcases hc : p.s[p.i]? with - | b
    · rw [hc] at h
      cases h
      exact le_rfl
    · rw [hc] at h
      cases h

theorem lowers_okOr {α : Type} (o : Option α) (e : Error) : Lowers left 0 (okOr o e) := by
  rcases o with - | a
  · exact lowers_throw e 0
  · exact lowers_pure a

theorem lowers_literal (c : UInt8) : Lowers left 0 (literal c) where
  of_ok h := by
    cases h
    omega
  of_error h := nomatch h

theorem lowers_classLow (at' : ℕ) (c : UInt8) : Lowers left 0 (classLow at' c) := by
  rw [classLow]
  split_ifs
  · refine ((lowers_next _).andThen (by omega) (d := 0) fun e => ?_).weaken (by omega)
    split
    · exact lowers_pure _
    · exact (lowers_get).andThen le_rfl fun p => (lowers_okOr _ _).andThen le_rfl fun b =>
        lowers_pure _
  · exact lowers_get.andThen le_rfl fun p => (lowers_ensure _ _).andThen le_rfl fun _ =>
      lowers_pure _

theorem lowers_classHigh (at' : ℕ) : Lowers left 0 (classHigh at') := by
  refine ((lowers_next _).andThen (by omega) (d := 0) fun hi => ?_).weaken (by omega)
  split_ifs
  · exact ((lowers_next _).andThen (by omega) (d := 0) fun e => lowers_okOr _ _).weaken (by omega)
  · exact lowers_pure _

theorem lowers_classTurn (at' : ℕ) (a : ByteSet × Bool) : Lowers left 1 (classTurn at' a) := by
  refine (lowers_next _).andThen (by omega) (d := 0) fun c => ?_
  split_ifs
  · exact lowers_pure _
  · refine (lowers_classLow at' c).andThen le_rfl (d := 0) fun low => ?_
    split
    · exact lowers_pure _
    · refine lowers_get.andThen le_rfl (d := 0) fun p => ?_
      split_ifs
      · exact (lowers_skip 1).andThen le_rfl fun _ => (lowers_classHigh at').andThen le_rfl fun hi =>
          (lowers_ensure _ _).andThen le_rfl fun _ => lowers_pure _
      · exact lowers_pure _

theorem classTurn_descends (at' : ℕ) : Descends (fun _ p => p.left) (classTurn at') := by
  intro a p a' p' h
  have hlow : (p'.left : ℤ) + 1 ≤ p.left := (lowers_classTurn at' a).of_ok h
  change p'.left < p.left
  omega

/-- A class, behind the bracket at `at'`. -/
def readClass (at' : ℕ) : Act Parser Error ByteSet := do
  let c ← peek
  let negate := decide (c = some (ascii '^'))
  onlyIf (negate = true) (skip 1)
  let set ← loop (fun _ p => p.left) (classTurn at') (classTurn_descends at') (.empty, true)
  let p ← get
  let set := if p.fold then set.fold else set
  pure (if negate then set.invert else set)

/-- What a parser of the inside of a group must keep: it does not go back. -/
abbrev Forward (α : Type) : Type := { m : Act Parser Error α // Lowers left 0 m }

variable (inner : Forward Node)

/-- The inside of a group, and the bracket behind it. -/
def nested (at' : ℕ) : Act Parser Error Node := do
  modify fun p => { p with depth := p.depth + 1 }
  let p ← get
  ensure (p.depth ≤ maxNest) (.unsupported at')
  let node ← inner.1
  let c ← peek
  ensure (c = some (ascii ')')) (.paren at')
  skip 1
  modify fun p => { p with depth := p.depth - 1 }
  pure node

/-- A group, behind the bracket at `at'`. -/
def group (at' : ℕ) : Act Parser Error Node := do
  let p ← get
  if p.s[p.i]? = some (ascii '?') then
    match (p.s.drop (p.i + 1)).take 2 with
    | [a, b] =>
      if a = ascii 'i' ∧ b = ascii ')' ∧ at' = 0 then
        modify fun p => { p with fold := true, i := p.i + 3 }
        pure .empty
      else if a = ascii ':' then
        skip 2
        nested inner at'
      else throw (.unsupported at')
    | _ => throw (.unsupported at')
  else nested inner at'

/-- The atom that begins with `c`, which was read at `at'`. -/
def atomOf (at' : ℕ) (c : UInt8) : Act Parser Error Node := do
  if c = ascii '(' then group inner at'
  else if c = ascii '[' then
    let set ← readClass at'
    pure (.set set)
  else if c = ascii '.' then pure (.set (ByteSet.empty.add 10).invert)
  else if c = ascii '^' then pure .begin
  else if c = ascii '$' then pure .endText
  else if c = ascii '\\' then escape at'
  else if c = ascii '*' ∨ c = ascii '+' ∨ c = ascii '?' then throw (.repeat at')
  else if c = ascii ')' then throw (.paren at')
  else
    let set ← literal c
    pure (.set set)

/-- One atom. -/
def atom : Act Parser Error Node := do
  let p ← get
  match p.s[p.i]? with
  | none => pure .empty
  | some c =>
    skip 1
    atomOf inner p.i c

theorem lowers_modify {f : Parser → Parser} (h : ∀ p, (f p).left ≤ p.left) :
    Lowers left 0 (modify f : Act Parser Error Unit) where
  of_ok {p _ p'} hm := by
    cases hm
    have hle := h p
    omega
  of_error hm := nomatch hm

theorem lowers_readClass (at' : ℕ) : Lowers left 0 (readClass at') := by
  refine lowers_peek.andThen le_rfl (d := 0) fun c => ?_
  refine (lowers_onlyIf _ (lowers_skip 1)).andThen le_rfl (d := 0) fun _ => ?_
  refine (Lowers.loop (fun a => (lowers_classTurn at' a).weaken (by omega)) _).andThen le_rfl
    (d := 0) fun set => ?_
  exact lowers_get.andThen le_rfl fun p => lowers_pure _

theorem lowers_nested (at' : ℕ) : Lowers left 0 (nested inner at') := by
  refine Lowers.andThen (lowers_modify fun _ => ?_) le_rfl (d := 0) fun _ => ?_
  · exact le_rfl
  refine lowers_get.andThen le_rfl (d := 0) fun p => ?_
  refine (lowers_ensure _ _).andThen le_rfl (d := 0) fun _ => ?_
  refine inner.2.andThen le_rfl (d := 0) fun node => ?_
  refine lowers_peek.andThen le_rfl (d := 0) fun c => ?_
  refine (lowers_ensure _ _).andThen le_rfl (d := 0) fun _ => ?_
  refine (lowers_skip 1).andThen le_rfl (d := 0) fun _ => ?_
  refine Lowers.andThen (lowers_modify fun _ => ?_) le_rfl (d := 0) fun _ => lowers_pure _
  exact le_rfl

theorem lowers_group (at' : ℕ) : Lowers left 0 (group inner at') := by
  refine lowers_get.andThen le_rfl (d := 0) fun p => ?_
  split_ifs
  · split
    · split_ifs
      · refine Lowers.andThen (lowers_modify fun p => ?_) le_rfl (d := 0) fun _ => lowers_pure _
        simp only [left]
        omega
      · exact (lowers_skip 2).andThen le_rfl fun _ => lowers_nested inner at'
      · exact lowers_throw _ _
    · exact lowers_throw _ _
  · exact lowers_nested inner at'

theorem lowers_escape (at' : ℕ) : Lowers left 0 (escape at') := by
  refine ((lowers_next _).andThen (by omega) (d := 0) fun c => ?_).weaken (by omega)
  split
  · exact lowers_pure _
  · split_ifs
    · exact lowers_pure _
    · exact lowers_pure _
    · exact (lowers_okOr _ _).andThen le_rfl fun b => (lowers_literal b).andThen le_rfl fun _ =>
        lowers_pure _

theorem lowers_atomOf (at' : ℕ) (c : UInt8) : Lowers left 0 (atomOf inner at' c) := by
  rw [atomOf]
  split_ifs
  · exact lowers_group inner at'
  · exact (lowers_readClass at').andThen le_rfl fun _ => lowers_pure _
  · exact lowers_pure _
  · exact lowers_pure _
  · exact lowers_pure _
  · exact lowers_escape at'
  · exact lowers_throw _ _
  · exact lowers_throw _ _
  · exact (lowers_literal c).andThen le_rfl fun _ => lowers_pure _

/-- An atom is read from where a byte is. -/
theorem atom_of_getElem? {p : Parser} {c : UInt8} (h : p.s[p.i]? = some c) :
    atom inner p = atomOf inner p.i c { p with i := p.i + 1 } := by
  rw [atom, get_bind, h]
  rfl

theorem le_of_num {s : Bytes} {j k : ℕ} {v : Option ℕ} (h : num s j = (v, k)) : j ≤ k := by
  rw [num] at h
  cases h
  exact Nat.le_add_right _ _

theorem le_of_upper {s : Bytes} {min j k : ℕ} {max : Option ℕ} (h : upper s min j = some (max, k)) :
    j ≤ k := by
  rw [upper] at h
  split_ifs at h with hclose hcomma
  · cases h
    exact le_rfl
  · dsimp only at h
    rcases hnum : num s (j + 1) with ⟨m, k'⟩
    rw [hnum] at h
    dsimp only at h
    split_ifs at h
    cases h
    have hle := le_of_num hnum
    omega

/-- A repetition is read to behind its brace. -/
theorem braces_eq_ok {p p' : Parser} {o : Option (ℕ × Option ℕ)} (h : braces p = .ok o p') :
    (o = none ∧ p' = p) ∨ ∃ min max k, o = some (min, max) ∧ p' = { p with i := k } ∧ p.i < k ∧
      min ≤ maxRepeat ∧ ∀ m ∈ max, min ≤ m ∧ m ≤ maxRepeat := by
  rw [braces] at h
  rcases hnum : num p.s (p.i + 1) with ⟨- | min, j⟩
  · rw [hnum] at h
    cases h
    exact .inl ⟨rfl, rfl⟩
  · rw [hnum] at h
    dsimp only at h
    rcases hupper : upper p.s min j with - | ⟨max, k⟩
    · rw [hupper] at h
      cases h
      exact .inl ⟨rfl, rfl⟩
    · rw [hupper] at h
      dsimp only at h
      split_ifs at h with hbound
      cases h
      have hj := le_of_num hnum
      have hk := le_of_upper hupper
      rw [not_or, not_lt] at hbound
      refine .inr ⟨min, max, k + 1, rfl, rfl, by omega, hbound.1, fun m hm => ?_⟩
      have hm' : ¬ (maxRepeat < m ∨ m < min) := fun hout => hbound.2 ⟨m, hm, hout⟩
      omega

theorem quantifier_eq_ok {p p' : Parser} {o : Option (ℕ × Option ℕ)}
    (h : quantifier p = .ok o p') :
    (o = none ∧ p' = p) ∨ ∃ min max k, o = some (min, max) ∧ p' = { p with i := k } ∧
      p.i < p.s.length ∧ p.i ≤ k ∧ min ≤ maxRepeat ∧ ∀ m ∈ max, min ≤ m ∧ m ≤ maxRepeat := by
  obtain ⟨c, q, hpeek, h⟩ := Act.bind_eq_ok h
  cases hpeek
  have hlt : ∀ b, p.s[p.i]? = some b → p.i < p.s.length := fun b hb =>
    (List.getElem?_eq_some_iff.mp hb).1
  split_ifs at h with hstar hplus hquestion hbrace
  · cases h
    exact .inr ⟨0, none, p.i, rfl, rfl, hlt _ hstar, le_rfl, Nat.zero_le _, nofun⟩
  · cases h
    exact .inr ⟨1, none, p.i, rfl, rfl, hlt _ hplus, le_rfl, by decide, nofun⟩
  · cases h
    refine .inr ⟨0, some 1, p.i, rfl, rfl, hlt _ hquestion, le_rfl, Nat.zero_le _, fun m hm => ?_⟩
    cases hm
    decide
  · rcases braces_eq_ok h with hnone | ⟨min, max, k, ho, hp', hk, hmin, hmax⟩
    · exact .inl hnone
    · exact .inr ⟨min, max, k, ho, hp', hlt _ hbrace, hk.le, hmin, hmax⟩
  · cases h
    exact .inl ⟨rfl, rfl⟩

/-- A turn of `quantifyTurn` reads no quantifier and ends, or reads one. -/
theorem quantifyTurn_eq_ok {a : Node × ℕ} {p p' : Parser} {t : Turn (Node × ℕ) Node}
    (h : quantifyTurn a p = .ok t p') :
    (t = .done a.1 ∧ p' = p) ∨ ∃ min max k, t = .more (.rep a.1 min max, a.2 + 1) ∧
      p' = { p with i := k, stacked := Max.max p.stacked (a.2 + 1) } ∧ p.i < p.s.length ∧
      p.i < k ∧ min ≤ maxRepeat ∧ ∀ m ∈ max, min ≤ m ∧ m ≤ maxRepeat := by
  rw [quantifyTurn, get_bind] at h
  obtain ⟨o, p₁, hquant, h⟩ := Act.bind_eq_ok h
  rcases quantifier_eq_ok hquant with ⟨rfl, rfl⟩ | ⟨min, max, k, rfl, rfl, hlt, hle, hmin, hmax⟩
  · cases h
    exact .inl ⟨rfl, rfl⟩
  · obtain ⟨_, p₂, hskip, h⟩ := Act.bind_eq_ok h
    obtain ⟨_, p₃, hanchor, hrest⟩ := Act.bind_eq_ok h
    obtain ⟨-, rfl⟩ := ensure_eq_ok hanchor
    obtain ⟨c, p₄, hpeek, hlast⟩ := Act.bind_eq_ok hrest
    obtain ⟨_, p₅, hlazy, hend⟩ := Act.bind_eq_ok hlast
    obtain ⟨k₁, hk₁, rfl⟩ : ∃ k₁, p.i < k₁ ∧ p₃ = { p with i := k₁ } := by
      cases hskip
      dsimp only
      split_ifs with hsame
      · exact ⟨k + 1, by omega, rfl⟩
      · exact ⟨k, by omega, rfl⟩
    cases hpeek
    obtain ⟨k₂, hk₂, rfl⟩ : ∃ k₂, p.i < k₂ ∧ p₅ = { p with i := k₂ } := by
      rw [onlyIf] at hlazy
      split_ifs at hlazy
      · cases hlazy
        exact ⟨k₁ + 1, by omega, rfl⟩
      · cases hlazy
        exact ⟨k₁, hk₁, rfl⟩
    cases hend
    exact .inr ⟨min, max, k₂, rfl, rfl, hlt, hk₂, hmin, hmax⟩

theorem quantifyTurn_descends : Descends (fun _ p => p.left) quantifyTurn := by
  intro a p a' p' h
  rcases quantifyTurn_eq_ok h with ⟨hdone, -⟩ | ⟨min, max, k, -, rfl, hlt, hk, -⟩
  · cases hdone
  · simp only [left]
    omega

/-- The quantifiers behind an atom. -/
def quantifiers (node : Node) : Act Parser Error Node :=
  loop (fun _ p => p.left) quantifyTurn quantifyTurn_descends (node, 0)

theorem lowers_braces : Lowers left 0 braces where
  of_ok {p o p'} h := by
    rcases braces_eq_ok h with ⟨-, rfl⟩ | ⟨min, max, k, -, rfl, hk, -, -⟩
    · omega
    · simp only [left]
      omega
  of_error {p e p'} h := by
    rw [braces] at h
    rcases hnum : num p.s (p.i + 1) with ⟨- | min, j⟩
    · rw [hnum] at h
      cases h
    · rw [hnum] at h
      dsimp only at h
      rcases hupper : upper p.s min j with - | ⟨max, k⟩
      · rw [hupper] at h
        cases h
      · rw [hupper] at h
        dsimp only at h
        split_ifs at h
        cases h
        exact le_rfl

theorem lowers_quantifyTurn (a : Node × ℕ) : Lowers left 0 (quantifyTurn a) := by
  refine lowers_get.andThen le_rfl (d := 0) fun p => ?_
  have hquant : Lowers left 0 quantifier := by
    refine lowers_peek.andThen le_rfl (d := 0) fun c => ?_
    split_ifs
    · exact lowers_pure _
    · exact lowers_pure _
    · exact lowers_pure _
    · exact lowers_braces
    · exact lowers_pure _
  refine hquant.andThen le_rfl (d := 0) fun o => ?_
  split
  · exact lowers_pure _
  · refine Lowers.andThen (lowers_modify fun q => ?_) le_rfl (d := 0) fun _ => ?_
    · split_ifs
      · simp only [left]
        omega
      · exact le_rfl
    refine (lowers_ensure _ _).andThen le_rfl (d := 0) fun _ => ?_
    refine lowers_peek.andThen le_rfl (d := 0) fun c => ?_
    refine (lowers_onlyIf _ (lowers_skip 1)).andThen le_rfl (d := 0) fun _ => ?_
    refine Lowers.andThen (lowers_modify fun q => ?_) le_rfl (d := 0) fun _ => lowers_pure _
    exact le_rfl

theorem lowers_quantifiers (node : Node) : Lowers left 0 (quantifiers node) :=
  Lowers.loop lowers_quantifyTurn (node, 0)

/-- One item of a branch, where the branch does not end. -/
def concatTurn (items : List Node) : Act Parser Error (Turn (List Node) (List Node)) := do
  match ← peek with
  | none => pure (.done items)
  | some c =>
    if c = ascii '|' ∨ c = ascii ')' then pure (.done items)
    else do
      let node ← atom inner
      let item ← quantifiers node
      pure (.more (items ++ [item]))

theorem lowers_atom : Lowers left 0 (atom inner) := by
  refine lowers_get.andThen le_rfl (d := 0) fun p => ?_
  split
  · exact lowers_pure _
  · exact (lowers_skip 1).andThen le_rfl fun _ => lowers_atomOf inner p.i _

theorem lowers_concatTurn (items : List Node) : Lowers left 0 (concatTurn inner items) := by
  refine lowers_peek.andThen le_rfl (d := 0) fun c => ?_
  split
  · exact lowers_pure _
  · split_ifs
    · exact lowers_pure _
    · exact (lowers_atom inner).andThen le_rfl fun node => (lowers_quantifiers node).andThen le_rfl
        fun item => lowers_pure _

theorem concatTurn_descends : Descends (fun _ p => p.left) (concatTurn inner) := by
  intro items p items' p' h
  obtain ⟨o, q, hpeek, h⟩ := Act.bind_eq_ok h
  cases hpeek
  rcases hc : p.s[p.i]? with - | c
  · rw [hc] at h
    cases h
  · rw [hc] at h
    dsimp only at h
    split_ifs at h
    · cases h
    obtain ⟨node, q, hatom, h⟩ := Act.bind_eq_ok h
    obtain ⟨item, q', hquant, h⟩ := Act.bind_eq_ok h
    cases h
    rw [atom_of_getElem? inner hc] at hatom
    have hbyte := left_of_getElem? hc
    have hfirst := (lowers_atomOf inner p.i c).of_ok hatom
    have hrest := (lowers_quantifiers node).of_ok hquant
    change p'.left < p.left
    omega

/-- `concat := repeat*`, up to a bar, a bracket or the end. -/
def concat : Act Parser Error Node := do
  let items ← loop (fun _ p => p.left) (concatTurn inner) (concatTurn_descends inner) []
  match items with
  | [] => pure .empty
  | [item] => pure item
  | items => pure (.concat items)

/-- One more arm, behind a bar. -/
def altTurn (arms : List Node) : Act Parser Error (Turn (List Node) (List Node)) := do
  let c ← peek
  if c = some (ascii '|') then
    skip 1
    let arm ← concat inner
    pure (.more (arms ++ [arm]))
  else pure (.done arms)

theorem lowers_concat : Lowers left 0 (concat inner) := by
  refine (Lowers.loop (lowers_concatTurn inner) []).andThen le_rfl (d := 0) fun items => ?_
  split
  · exact lowers_pure _
  · exact lowers_pure _
  · exact lowers_pure _

theorem lowers_altTurn (arms : List Node) : Lowers left 0 (altTurn inner arms) := by
  refine lowers_peek.andThen le_rfl (d := 0) fun c => ?_
  split_ifs
  · exact (lowers_skip 1).andThen le_rfl fun _ => (lowers_concat inner).andThen le_rfl fun _ =>
      lowers_pure _
  · exact lowers_pure _

theorem altTurn_descends : Descends (fun _ p => p.left) (altTurn inner) := by
  intro arms p arms' p' h
  obtain ⟨c, q, hpeek, h⟩ := Act.bind_eq_ok h
  cases hpeek
  split_ifs at h with hbar
  · obtain ⟨_, q, hskip, h⟩ := Act.bind_eq_ok h
    obtain ⟨arm, q', hconcat, h⟩ := Act.bind_eq_ok h
    cases h
    cases hskip
    have hbyte := left_of_getElem? hbar
    have hrest := (lowers_concat inner).of_ok hconcat
    change p'.left < p.left
    omega
  · cases h

/-- `alt := concat ('|' concat)*`. -/
def altOf : Act Parser Error Node := do
  let first ← concat inner
  let c ← peek
  if c = some (ascii '|') then
    let arms ← loop (fun _ p => p.left) (altTurn inner) (altTurn_descends inner) [first]
    pure (.alt arms)
  else pure first

theorem lowers_altOf : Lowers left 0 (altOf inner) := by
  refine (lowers_concat inner).andThen le_rfl (d := 0) fun first => ?_
  refine lowers_peek.andThen le_rfl (d := 0) fun c => ?_
  split_ifs
  · exact (Lowers.loop (lowers_altTurn inner) [first]).andThen le_rfl fun _ => lowers_pure _
  · exact lowers_pure _

/-- `alt` inside of groups, where `nest` more groups may be opened. Behind the last one no group is
read: `nested` refuses it before it reads what is inside. -/
def altIn : ℕ → Forward Node
  | 0 => ⟨altOf ⟨throw (.unsupported 0), lowers_throw _ 0⟩, lowers_altOf _⟩
  | nest + 1 => ⟨altOf (altIn nest), lowers_altOf _⟩

/-- `alt`. -/
def alt : Act Parser Error Node := (altIn maxNest).1

end Parser

end Hop.Cloudflared
