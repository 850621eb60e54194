import Hop.Types.Map

/-!
# The table of hopdns

`apps/hopdns/src/table.rs`: the map of the types again, but an insertion makes the key itself, which
can fail as well. Both are finite maps (`finite_maps`).
-/

namespace Hop.Dns.Tables

open Hop.Texts

universe u

/-- `Table`: `rows` with strictly increasing keys. -/
abbrev Table (V : Type u) : Type u := SortedVec (@byKey V)

namespace Table

variable {V : Type u}

def get (t : Table V) (key : String) : Option V := Map.get t key

def getMut (t : Table V) (key : String) (f : V → V) : Option V × Table V := Map.getMut t key f

/-- Puts a value at a key; the value before. The two flags are whether there is room for the bytes
of the key, and for one row more. -/
def insert (t : Table V) (room : Bool × Bool) (key : String) (value : V) :
    Except OutOfMemory (Option V) × Table V :=
  match h : SortedVec.find t (byKey (key, value)) with
  | .ok i => (.ok (t.rows[i]?.map Prod.snd), t.modifyAt i (fun p => (p.1, value)) fun p => byKey_mk p _)
  | .error i =>
    if !room.1 then (.error .outOfMemory, t)
    else if !room.2 then (.error .outOfMemory, t)
    else (.ok none, t.insertAt (key, value) i h)

def remove (t : Table V) (key : String) : Option V × Table V := Map.remove t key

/-- The rows, in the order of the keys. -/
def iter (t : Table V) : List (String × V) := Map.iter t

/-- An insertion needs room twice; else it is that of the map. -/
theorem insert_eq (t : Table V) (room : Bool × Bool) (key : String) (value : V) :
    t.insert room key value = Map.insert t (room.1 && room.2) key value := by
  rw [insert]
  split
  · rename_i i hfind
    rw [Map.insert_ok hfind]
    exact Prod.ext (congrArg Except.ok (Map.find_ok hfind).1) rfl
  · rename_i i hfind
    rw [Map.insert_error hfind]
    rcases room with ⟨- | -, - | -⟩
    · rfl
    · rfl
    · rfl
    · rfl

/-- An operation on the table. -/
def step (t : Table V) : Texts.Op V (Bool × Bool) → Answer V × Table V
  | .insert room key value => (t.insert room key value).map .inserted id
  | .remove key => (t.remove key).map .value id
  | .get key => (.value (t.get key), t)
  | .getMut key f => (t.getMut key f).map .value id
  | .retain keep => (.done, Map.retain t keep)
  | .iter => (.pairs t.iter, t)

theorem step_eq (t : Table V) (op : Texts.Op V (Bool × Bool)) :
    t.step op = Map.step t (op.mapRoom fun room => room.1 && room.2) := by
  rcases op with ⟨room, key, value⟩ | key | key | ⟨key, f⟩ | keep | -
  · exact congrArg (Prod.map Answer.inserted id) (t.insert_eq room key value)
  all_goals rfl

end Table

/-! ### Finite maps -/

/-- After any operations from the empty one, the rows are those of the finite map of the operations
that had room, and every operation answers from it and does to it what it should; one that finds no
room changes nothing. -/
def IsFiniteMap {S : Type u} {V : Type u} {ρ : Type} (empty : S) (rows : S → List (String × V))
    (step : S → Texts.Op V ρ → Answer V × S) (fits : ρ → Bool) : Prop :=
  ∀ ops : List (Texts.Op V ρ),
    let s := ops.foldl (fun s op => (step s op).2) empty
    let σ := held (ops.map (Texts.Op.mapRoom fits))
    Lists σ (rows s) ∧ ∀ op : Texts.Op V ρ, (op.mapRoom fits).Answers σ (step s op).1 ∧
      Lists ((op.mapRoom fits).effect σ) (rows (step s op).2) ∧
      ((step s op).1 = .inserted (.error .outOfMemory) → (step s op).2 = s)

theorem isFiniteMap_map (V : Type u) :
    IsFiniteMap (V := V) SortedVec.empty Map.pairs Map.step id := by
  intro ops
  have hroom : ∀ op : Texts.Op V Bool, op.mapRoom id = op := fun op => by
    rcases op with _ | _ | _ | _ | _ | _ <;> rfl
  have hops : ops.map (Texts.Op.mapRoom id) = ops := (List.map_congr_left fun op _ => hroom op).trans
    (List.map_id ops)
  rw [hops]
  have hrun := Map.refines_empty.run ops
  refine ⟨hrun.lists, fun op => ?_⟩
  obtain ⟨hanswer, hnext⟩ := hrun.step op
  rw [hroom op]
  exact ⟨hanswer, hnext.lists, Map.step_failed⟩

theorem isFiniteMap_table (V : Type u) :
    IsFiniteMap (V := V) SortedVec.empty Table.iter Table.step fun room => room.1 && room.2 := by
  intro ops
  have hfold : ops.foldl (fun (t : Table V) op => (t.step op).2) SortedVec.empty =
      (ops.map (Texts.Op.mapRoom fun room => room.1 && room.2)).foldl
        (fun m op => (Map.step m op).2) SortedVec.empty := by
    rw [List.foldl_map]
    refine congrArg (fun f => ops.foldl f SortedVec.empty) ?_
    funext t op
    rw [Table.step_eq]
  rw [hfold]
  have hrun := Map.refines_empty.run (ops.map (Texts.Op.mapRoom fun room => room.1 && room.2))
  refine ⟨hrun.lists, fun op => ?_⟩
  obtain ⟨hanswer, hnext⟩ := hrun.step (op.mapRoom fun room => room.1 && room.2)
  rw [Table.step_eq]
  exact ⟨hanswer, hnext.lists, Map.step_failed⟩

/-- **Both maps are finite maps**, and a finite map has at a key what was inserted last, until it is
removed. -/
theorem finite_maps (V : Type u) :
    IsFiniteMap (V := V) SortedVec.empty Map.pairs Map.step id ∧
    IsFiniteMap (V := V) SortedVec.empty Table.iter Table.step (fun room => room.1 && room.2) ∧
    ∀ (before after : List (Texts.Op V Bool)) (key : String), (∀ op ∈ after, ¬ op.Writes key) →
      (∀ value, held (before ++ .insert true key value :: after) key = some value) ∧
      held (before ++ .remove key :: after) key = none ∧ held after key = none :=
  ⟨isFiniteMap_map V, isFiniteMap_table V, fun _ _ _ hafter =>
    ⟨fun value => held_of_insert value hafter, held_of_remove hafter, held_of_not_writes hafter⟩⟩

/-- A key that is written twice beside one that finds no room for its bytes, in both maps. -/
theorem finite_maps_two :
    let held := held [.insert true "b" 2, .insert false "a" 1, .insert true "b" 3]
    Lists held (Map.pairs ([.insert true "b" 2, .insert false "a" 1, .insert true "b" 3].foldl
      (fun m op => (Map.step m op).2) SortedVec.empty)) ∧
    Lists held (Table.iter ([.insert (true, true) "b" 2, .insert (false, true) "a" 1,
      .insert (true, true) "b" 3].foldl (fun t op => (Table.step t op).2) SortedVec.empty)) ∧
    held "b" = some 3 := by
  obtain ⟨hmap, htable, hlast⟩ := finite_maps ℕ
  exact ⟨(hmap [.insert true "b" 2, .insert false "a" 1, .insert true "b" 3]).1,
    (htable [.insert (true, true) "b" 2, .insert (false, true) "a" 1, .insert (true, true) "b" 3]).1,
    (hlast [.insert true "b" 2, .insert false "a" 1] [] "b" fun _ h => absurd h List.not_mem_nil).1 3⟩

end Hop.Dns.Tables
