import Hop.Lib.SortedMap
import Hop.Lib.SortedVec
import Hop.Lib.Text

/-!
# The map of texts

`types/src/map.rs`: a sorted vector of pairs, whose insertions can fail. The order is that of the
bytes of a key (`str::cmp`). `Op.effect` says what an operation does to a finite map and `Op.Answers`
what it answers there; after any operations the map holds what they have put there
(`Map.Refines.run`).
-/

namespace Hop.Texts

universe u

variable {key : String} {i : ℕ}

/-- What `str::cmp` compares. -/
def byKey {V : Type u} (p : String × V) : Bytes := utf8 p.1

theorem byKey_mk {V : Type u} (p : String × V) (v : V) : byKey (p.1, v) = byKey p := rfl

/-- `Map`: pairs with strictly increasing keys. -/
abbrev Map (V : Type u) : Type u := SortedVec (@byKey V)

/-- `Error::OutOfMemory`, which is all that an insertion can fail with. -/
inductive OutOfMemory
  | outOfMemory
deriving DecidableEq

namespace Map

variable {V : Type u}

def pairs (m : Map V) : List (String × V) := m.rows

/-- Where a key is, or where it belongs. -/
def find (m : Map V) (key : String) : Except ℕ ℕ := SortedVec.find m (utf8 key)

/-- The value at a key. -/
def get (m : Map V) (key : String) : Option V :=
  match m.find key with
  | .ok i => m.pairs[i]?.map Prod.snd
  | .error _ => none

/-- The value at a key, which the caller then changes. -/
def getMut (m : Map V) (key : String) (f : V → V) : Option V × Map V :=
  match m.find key with
  | .ok i => (m.pairs[i]?.map Prod.snd, m.modifyAt i (fun p => (p.1, f p.2)) fun p => byKey_mk p _)
  | .error _ => (none, m)

/-- Sets a key to a value; the value before. `reserve` is whether there is room for one pair more. -/
def insert (m : Map V) (reserve : Bool) (key : String) (value : V) :
    Except OutOfMemory (Option V) × Map V :=
  match h : SortedVec.find m (byKey (key, value)) with
  | .ok i =>
    match m.pairs[i]? with
    | some slot => (.ok (some slot.2), m.modifyAt i (fun p => (p.1, value)) fun p => byKey_mk p _)
    | none => (.ok none, m)
  | .error i =>
    if reserve then (.ok none, m.insertAt (key, value) i h) else (.error .outOfMemory, m)

/-- Takes the pair at a key out. -/
def remove (m : Map V) (key : String) : Option V × Map V :=
  match m.find key with
  | .ok i => (m.pairs[i]?.map Prod.snd, m.removeAt i)
  | .error _ => (none, m)

/-- What `keep` makes of a pair: none, or the pair with another value. -/
def kept (keep : String → V → Bool × V) (p : String × V) : Option (String × V) :=
  if (keep p.1 p.2).1 then some (p.1, (keep p.1 p.2).2) else none

theorem kept_key {keep : String → V → Bool × V} {p q : String × V} (h : kept keep p = some q) :
    q.1 = p.1 := by
  rw [kept] at h
  split_ifs at h
  exact (congrArg Prod.fst (Option.some.inj h)).symm

/-- Keeps only the pairs that `keep` is true for; it may change their values. -/
def retain (m : Map V) (keep : String → V → Bool × V) : Map V :=
  m.filterMap (kept keep) fun _ _ h => congrArg utf8 (kept_key h)

/-- The pairs, in the order of the keys. -/
def iter (m : Map V) : List (String × V) := m.pairs

/-! ### What the operations do to the lookups -/

variable {m : Map V} {key key' : String} {value : V}

theorem get_eq (m : Map V) (key : String) :
    m.get key = (SortedVec.get m (utf8 key)).map Prod.snd := by
  rw [get]
  rcases hfind : m.find key with i | i
  · rw [SortedVec.find_error hfind]
    rfl
  · obtain ⟨p, hrow, hget⟩ := SortedVec.find_ok hfind
    rw [hget, ← hrow]
    rfl

/-- A lookup finds the pair with the key. -/
theorem get_eq_some_iff : m.get key = some value ↔ (key, value) ∈ m.pairs := by
  rw [get_eq, Option.map_eq_some_iff]
  constructor
  · rintro ⟨⟨k, v⟩, hget, rfl⟩
    obtain ⟨hmem, hkey⟩ := SortedVec.get_eq_some_iff.mp hget
    rw [← utf8_injective hkey]
    exact hmem
  · exact fun hmem => ⟨_, SortedVec.get_eq_some_iff.mpr ⟨hmem, rfl⟩, rfl⟩

/-- What is at the place that a search has found. -/
theorem find_ok (h : m.find key = .ok i) :
    m.pairs[i]?.map Prod.snd = m.get key ∧ (m.get key).isSome = true := by
  obtain ⟨p, hrow, hget⟩ := SortedVec.find_ok h
  have hvalue : m.get key = some p.2 := by
    rw [get_eq, hget]
    rfl
  exact ⟨(congrArg (Option.map Prod.snd) hrow).trans hvalue.symm, by rw [hvalue]; rfl⟩

theorem find_error (h : m.find key = .error i) : m.get key = none := by
  rw [get_eq, SortedVec.find_error h]
  rfl

/-- A change of the value at the place that a search has found. -/
theorem get_modifyAt (h : m.find key = .ok i) (f : V → V) (key' : String) :
    Map.get (m.modifyAt i (fun p => (p.1, f p.2)) fun p => byKey_mk p _) key' =
      if key' = key then (m.get key').map f else m.get key' := by
  rw [get_eq, get_eq, SortedVec.get_modifyAt _ h]
  by_cases hkey : key' = key
  · rw [if_pos hkey, if_pos (congrArg utf8 hkey), Option.map_map, Option.map_map]
    rfl
  · rw [if_neg hkey, if_neg fun hutf => hkey (utf8_injective hutf)]

theorem getMut_eq (m : Map V) (key : String) (f : V → V) :
    (m.getMut key f).1 = m.get key ∧ ∀ key', (m.getMut key f).2.get key' =
      if key' = key then (m.get key').map f else m.get key' := by
  rw [getMut]
  rcases hfind : m.find key with i | i
  · refine ⟨(find_error hfind).symm, fun key' => ?_⟩
    split_ifs with hkey
    · rw [hkey]
      dsimp only
      rw [find_error hfind]
      rfl
    · rfl
  · exact ⟨(find_ok hfind).1, get_modifyAt hfind f⟩

/-- An insertion at a key that is there. -/
theorem insert_ok (h : m.find key = .ok i) (reserve : Bool) (value : V) :
    m.insert reserve key value =
      (.ok (m.get key), m.modifyAt i (fun p => (p.1, value)) fun p => byKey_mk p _) := by
  obtain ⟨hrow, hsome⟩ := find_ok h
  rw [insert]
  split
  · rename_i j hfind
    obtain rfl : j = i := Except.ok.inj (hfind.symm.trans h)
    rcases hj : m.pairs[j]? with - | slot
    · rw [hj, Option.map_none] at hrow
      rw [← hrow] at hsome
      cases hsome
    · rw [hj, Option.map_some] at hrow
      rw [← hrow]
  · rename_i j hfind
    cases hfind.symm.trans h

/-- An insertion at a key that is not. -/
theorem insert_error {value : V} (h : SortedVec.find m (byKey (key, value)) = .error i)
    (reserve : Bool) : m.insert reserve key value =
      if reserve then (.ok none, m.insertAt (key, value) i h) else (.error .outOfMemory, m) := by
  rw [insert]
  split
  · rename_i j hfind
    cases hfind.symm.trans h
  · rename_i j hfind
    obtain rfl : j = i := Except.error.inj (hfind.symm.trans h)
    rfl

/-- An insertion where there is room, or where the key is. -/
theorem insert_of_room {reserve : Bool} (value : V)
    (h : reserve = true ∨ (m.get key).isSome = true) :
    (m.insert reserve key value).1 = .ok (m.get key) ∧ ∀ key',
      (m.insert reserve key value).2.get key' = if key' = key then some value else m.get key' := by
  rcases hfind : m.find key with i | i
  · have hnone := find_error hfind
    have hreserve : reserve = true := h.resolve_right fun hsome => by
      rw [hnone] at hsome
      cases hsome
    have hplace : SortedVec.find m (byKey (key, value)) = .error i := hfind
    rw [insert_error hplace, if_pos hreserve]
    refine ⟨congrArg Except.ok hnone.symm, fun key' => ?_⟩
    dsimp only
    rw [get_eq, get_eq, SortedVec.get_insertAt, show byKey (key, value) = utf8 key from rfl]
    by_cases hkey : key' = key
    · rw [if_pos hkey, if_pos (congrArg utf8 hkey)]
      rfl
    · rw [if_neg hkey, if_neg fun hutf => hkey (utf8_injective hutf)]
  · rw [insert_ok hfind]
    refine ⟨rfl, fun key' => (get_modifyAt hfind (fun _ => value) key').trans ?_⟩
    split_ifs with hkey
    · obtain ⟨v, hv⟩ := Option.isSome_iff_exists.mp (find_ok hfind).2
      rw [hkey, hv]
      rfl
    · rfl

/-- An insertion of a new key where there is no room. -/
theorem insert_of_full (h : m.get key = none) :
    m.insert false key value = (.error .outOfMemory, m) := by
  rcases hfind : m.find key with i | i
  · have hplace : SortedVec.find m (byKey (key, value)) = .error i := hfind
    rw [insert_error hplace, if_neg Bool.false_ne_true]
  · have hsome := (find_ok hfind).2
    rw [h] at hsome
    cases hsome

theorem remove_eq (m : Map V) (key : String) :
    (m.remove key).1 = m.get key ∧ ∀ key', (m.remove key).2.get key' =
      if key' = key then none else m.get key' := by
  rw [remove]
  rcases hfind : m.find key with i | i
  · refine ⟨(find_error hfind).symm, fun key' => ?_⟩
    split_ifs with hkey
    · exact hkey ▸ find_error hfind
    · rfl
  · refine ⟨(find_ok hfind).1, fun key' => ?_⟩
    dsimp only
    rw [get_eq, get_eq, SortedVec.get_removeAt hfind]
    by_cases hkey : key' = key
    · rw [if_pos hkey, if_pos (congrArg utf8 hkey)]
      rfl
    · rw [if_neg hkey, if_neg fun hutf => hkey (utf8_injective hutf)]

theorem get_retain (m : Map V) (keep : String → V → Bool × V) (key : String) :
    (m.retain keep).get key =
      (m.get key).bind fun v => if (keep key v).1 then some (keep key v).2 else none := by
  refine Option.ext fun value => ?_
  rw [get_eq_some_iff, Option.bind_eq_some_iff]
  show (key, value) ∈ m.pairs.filterMap (kept keep) ↔ _
  rw [List.mem_filterMap]
  constructor
  · rintro ⟨p, hp, hkept⟩
    obtain rfl : key = p.1 := kept_key hkept
    refine ⟨p.2, get_eq_some_iff.mpr hp, ?_⟩
    rw [kept] at hkept
    split_ifs at hkept ⊢ with hstays
    exact congrArg (Option.map Prod.snd) hkept
  · rintro ⟨v, hget, hkept⟩
    refine ⟨(key, v), get_eq_some_iff.mp hget, ?_⟩
    rw [kept]
    split_ifs at hkept ⊢ with hstays
    exact congrArg (Option.map (Prod.mk key)) hkept

theorem sorted_pairs (m : Map V) : m.pairs.Pairwise fun p q => utf8 p.1 < utf8 q.1 := m.sorted

end Map

/-! ### Runs of operations -/

/-- An operation; `ρ` is what is known of the room for an insertion. -/
inductive Op (V : Type u) (ρ : Type)
  | insert (room : ρ) (key : String) (value : V)
  | remove (key : String)
  | get (key : String)
  | getMut (key : String) (f : V → V)
  | retain (keep : String → V → Bool × V)
  | iter

/-- What an operation answers. -/
inductive Answer (V : Type u)
  | inserted (r : Except OutOfMemory (Option V))
  | value (v : Option V)
  | pairs (l : List (String × V))
  | done

/-- A finite map, as a function. -/
abbrev Held (V : Type u) : Type u := String → Option V

variable {V : Type u} {σ : Held V} {m : Map V}

/-- The operation, once it is known whether there is room. -/
def Op.mapRoom {ρ : Type} (fits : ρ → Bool) : Op V ρ → Op V Bool
  | .insert room key value => .insert (fits room) key value
  | .remove key => .remove key
  | .get key => .get key
  | .getMut key f => .getMut key f
  | .retain keep => .retain keep
  | .iter => .iter

/-- What an operation does to a finite map. -/
def Op.effect (σ : Held V) : Op V Bool → Held V
  | .insert room key value =>
    if room = true ∨ (σ key).isSome = true then Function.update σ key (some value) else σ
  | .remove key => Function.update σ key none
  | .getMut key f => Function.update σ key ((σ key).map f)
  | .retain keep => fun key =>
    (σ key).bind fun v => if (keep key v).1 then some (keep key v).2 else none
  | .get _ => σ
  | .iter => σ

/-- The pairs of a finite map, each once, in the order of the bytes of the keys. -/
def Lists (σ : Held V) (l : List (String × V)) : Prop :=
  (l.Pairwise fun p q => utf8 p.1 < utf8 q.1) ∧ ∀ key value, (key, value) ∈ l ↔ σ key = some value

/-- What an operation answers for a finite map. -/
def Op.Answers (σ : Held V) : Op V Bool → Answer V → Prop
  | .insert room key _, a => a = .inserted
    (if room = true ∨ (σ key).isSome = true then .ok (σ key) else .error .outOfMemory)
  | .remove key, a | .get key, a | .getMut key _, a => a = .value (σ key)
  | .retain _, a => a = .done
  | .iter, a => ∃ l, a = .pairs l ∧ Lists σ l

/-- An operation on the vector. -/
def Map.step (m : Map V) : Op V Bool → Answer V × Map V
  | .insert room key value => ((m.insert room key value).map .inserted id)
  | .remove key => (m.remove key).map .value id
  | .get key => (.value (m.get key), m)
  | .getMut key f => (m.getMut key f).map .value id
  | .retain keep => (.done, m.retain keep)
  | .iter => (.pairs m.iter, m)

/-- The vector has these lookups. -/
def Map.Refines (m : Map V) (σ : Held V) : Prop := ∀ key, m.get key = σ key

theorem Map.Refines.lists (h : m.Refines σ) : Lists σ m.pairs :=
  ⟨m.sorted_pairs, fun key value => by rw [← h key, Map.get_eq_some_iff]⟩

/-- **One operation** answers and does what it would on the finite map. -/
theorem Map.Refines.step (h : m.Refines σ) (op : Op V Bool) :
    op.Answers σ (m.step op).1 ∧ (m.step op).2.Refines (op.effect σ) := by
  have hupdate : ∀ {m' : Map V} {key : String} {o : Option V},
      (∀ key', m'.get key' = if key' = key then o else m.get key') →
      m'.Refines (Function.update σ key o) := by
    intro m' key o hget key'
    rw [hget key', Function.update_apply, h key']
  rcases op with ⟨room, key, value⟩ | key | key | ⟨key, f⟩ | keep | -
  · simp only [Op.Answers, Op.effect, ← h key]
    by_cases hroom : room = true ∨ (m.get key).isSome = true
    · obtain ⟨hanswer, hget⟩ := Map.insert_of_room value hroom
      rw [if_pos hroom, if_pos hroom]
      exact ⟨congrArg Answer.inserted hanswer, hupdate hget⟩
    · rw [if_neg hroom, if_neg hroom]
      obtain ⟨hfull, hnone⟩ := not_or.mp hroom
      rw [Bool.not_eq_true] at hfull
      rw [Option.not_isSome_iff_eq_none] at hnone
      rw [hfull, Map.step, Map.insert_of_full hnone]
      exact ⟨rfl, h⟩
  · obtain ⟨hanswer, hget⟩ := m.remove_eq key
    exact ⟨congrArg Answer.value (hanswer.trans (h key)), hupdate hget⟩
  · exact ⟨congrArg Answer.value (h key), h⟩
  · obtain ⟨hanswer, hget⟩ := m.getMut_eq key f
    refine ⟨congrArg Answer.value (hanswer.trans (h key)), hupdate fun key' => ?_⟩
    refine (hget key').trans ?_
    split_ifs with hkey
    · rw [hkey, h key]
    · rfl
  · refine ⟨rfl, fun key => ?_⟩
    refine (m.get_retain keep key).trans ?_
    rw [h key]
    rfl
  · exact ⟨⟨_, rfl, h.lists⟩, h⟩

theorem Map.refines_empty : Map.Refines (SortedVec.empty : Map V) fun _ => none := fun key => by
  rw [Map.get_eq, SortedVec.get_empty]
  rfl

/-- **Any operations**, one after the other. -/
theorem Map.Refines.run (h : m.Refines σ) (ops : List (Op V Bool)) :
    Map.Refines (ops.foldl (fun m op => (m.step op).2) m) (ops.foldl Op.effect σ) := by
  induction ops generalizing m σ with
  | nil => exact h
  | cons op ops ih => exact ih (h.step op).2

/-- An insertion that fails leaves the vector as it was. -/
theorem Map.step_failed {op : Op V Bool}
    (h : (m.step op).1 = .inserted (.error .outOfMemory)) : (m.step op).2 = m := by
  rcases op with ⟨room, key, value⟩ | key | key | ⟨key, f⟩ | keep | -
  · by_cases hroom : room = true ∨ (m.get key).isSome = true
    · have hanswer := (Map.insert_of_room value hroom).1
      rw [Map.step, Prod.map_fst, hanswer] at h
      cases h
    · obtain ⟨hfull, hnone⟩ := not_or.mp hroom
      rw [Bool.not_eq_true] at hfull
      rw [Option.not_isSome_iff_eq_none] at hnone
      rw [hfull, Map.step, Map.insert_of_full hnone]
      rfl
  all_goals cases h

/-! ### The last insertion -/

/-- The operation can change what is at the key. -/
def Op.Writes {ρ : Type} (key : String) : Op V ρ → Prop
  | .insert _ key' _ | .remove key' | .getMut key' _ => key' = key
  | .retain _ => True
  | .get _ | .iter => False

theorem Op.effect_of_not_writes {op : Op V Bool} (h : ¬ op.Writes key) :
    op.effect σ key = σ key := by
  rcases op with ⟨room, key', value⟩ | key' | key' | ⟨key', f⟩ | keep | -
  · rw [Op.effect]
    split_ifs
    · exact Function.update_of_ne (Ne.symm h) _ _
    · rfl
  · exact Function.update_of_ne (Ne.symm h) _ _
  · rfl
  · exact Function.update_of_ne (Ne.symm h) _ _
  · exact absurd trivial h
  · rfl

/-- The finite map after these operations. -/
def held (ops : List (Op V Bool)) : Held V := ops.foldl Op.effect fun _ => none

theorem foldl_effect_of_not_writes {ops : List (Op V Bool)} (h : ∀ op ∈ ops, ¬ op.Writes key) :
    ops.foldl Op.effect σ key = σ key := by
  induction ops generalizing σ with
  | nil => rfl
  | cons op ops ih =>
    rw [List.foldl_cons, ih fun op' hop => h op' (List.mem_cons_of_mem op hop)]
    exact Op.effect_of_not_writes (h op List.mem_cons_self)

/-- What was inserted last is there. -/
theorem held_of_insert {before after : List (Op V Bool)} (value : V)
    (h : ∀ op ∈ after, ¬ op.Writes key) :
    held (before ++ .insert true key value :: after) key = some value := by
  rw [held, List.foldl_append, List.foldl_cons, foldl_effect_of_not_writes h, Op.effect,
    if_pos (.inl rfl), Function.update_self]

/-- What was removed last is not. -/
theorem held_of_remove {before after : List (Op V Bool)} (h : ∀ op ∈ after, ¬ op.Writes key) :
    held (before ++ .remove key :: after) key = none := by
  rw [held, List.foldl_append, List.foldl_cons, foldl_effect_of_not_writes h, Op.effect,
    Function.update_self]

theorem held_of_not_writes {ops : List (Op V Bool)} (h : ∀ op ∈ ops, ¬ op.Writes key) :
    held ops key = none := foldl_effect_of_not_writes h

end Hop.Texts
