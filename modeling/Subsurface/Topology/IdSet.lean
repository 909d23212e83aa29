import Subsurface.Topology.Uuid
/-!
Sets of identifiers that remember insertion order.

A set keeps its members in slots, oldest first, and records beside them the
slot of each member. Inserting a member again changes nothing; inserting a
new one appends a slot. Removing a member empties its slot, so removing one
and inserting it again moves it to the end. Once the slots outnumber twice
the members by more than eight, the empty slots are dropped and the slot of
every member is recorded anew.
-/

namespace Subsurface

/-- An ordered set of identifiers: the members in slots, in insertion order,
and the slot of each member. The slot of a removed member stays empty until
the next compaction. -/
structure IdSet where
  /-- The slots, oldest first; `none` is the slot of a removed member. -/
  slots : List (Option Uuid)
  /-- Each member with the index of its slot. -/
  positions : List (Uuid × Nat)
  deriving DecidableEq, Inhabited

namespace IdSet

/-- The empty set. -/
def empty : IdSet := ⟨[], []⟩

/-- The members, oldest first. -/
def toList (s : IdSet) : List Uuid := s.slots.filterMap id

/-- Whether `id` is a member: whether it has a recorded slot. -/
def contains (s : IdSet) (id : Uuid) : Bool := (s.positions.lookup id).isSome

/-- Number of members: the number of recorded slots. -/
def size (s : IdSet) : Nat := s.positions.length

/-- Whether there is no member. -/
def isEmpty (s : IdSet) : Bool := s.positions.isEmpty

/-- The records `positions` with `i` as the slot of `id`, in place of the
record `id` had. -/
def record (positions : List (Uuid × Nat)) (id : Uuid) (i : Nat) : List (Uuid × Nat) :=
  if positions.any (·.1 == id) then positions.map fun e => if e.1 == id then (id, i) else e
  else positions ++ [(id, i)]

/-- Appends `id` in a new slot when absent; whether it was inserted. -/
def insert (s : IdSet) (id : Uuid) : Bool × IdSet :=
  if s.contains id then (false, s)
  else (true, ⟨s.slots ++ [some id], record s.positions id s.slots.length⟩)

/-- Drops the empty slots, then records the slot of every member anew. -/
def compact (s : IdSet) : IdSet :=
  let slots := s.slots.filter Option.isSome
  ⟨slots, slots.zipIdx.foldl (fun ps e => match e.1 with
    | some id => record ps id e.2
    | none => ps) s.positions⟩

/-- Empties slot `p`, the slot of `id`, and drops the record of `id`. -/
def vacate (s : IdSet) (id : Uuid) (p : Nat) : IdSet :=
  ⟨s.slots.set p none, s.positions.filter (·.1 != id)⟩

/-- Removes `id` when present, emptying its slot and compacting when the
slots outnumber twice the members by more than eight; whether it was
removed. -/
def erase (s : IdSet) (id : Uuid) : Bool × IdSet :=
  match s.positions.lookup id with
  | none => (false, s)
  | some p =>
    let t := s.vacate id p
    (true, if t.slots.length > 2 * t.size + 8 then t.compact else t)

/-- The set of the listed identifiers, later repetitions ignored. -/
def ofList (ids : List Uuid) : IdSet :=
  ids.foldl (fun s id => (s.insert id).2) empty

@[simp] theorem toList_empty : empty.toList = [] := rfl

@[simp] theorem contains_empty (id : Uuid) : empty.contains id = false := rfl

theorem toList_insert (s : IdSet) (id : Uuid) :
    (s.insert id).2.toList = if s.contains id then s.toList else s.toList ++ [id] := by
  unfold insert
  split <;> simp [toList]

@[simp] theorem insert_fst (s : IdSet) (id : Uuid) : (s.insert id).1 = !s.contains id := by
  unfold insert
  split <;> simp_all

@[simp] theorem erase_fst (s : IdSet) (id : Uuid) : (s.erase id).1 = s.contains id := by
  unfold erase contains
  split <;> rename_i h <;> simp [h]

end IdSet

end Subsurface
