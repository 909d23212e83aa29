import Subsurface.Topology.Catalog
import Subsurface.Topology.IdSet
import Subsurface.InPlace
/-!
The catalog as the three stores it keeps.

The components live in an arena of slots (`Arena`): registering fills the
slot freed last, or a new one, and removing frees its slot. An index records
the slot of each registered identifier, and for each kind an ordered set
lists the identifiers of that kind in registration order. Lookups go through
the index and then the arena; counts and listings by kind read the sets, and
the size counts the occupied slots.

Registering writes the arena, then the index, then the set of the kind.
Removing checks the kind, then takes the identifier out of the index and out
of the set of the kind it was asked for, and last takes the component out of
its slot; each write lands before the next step reads, so a failure at the
last step would leave the first two behind (`Store.remove`).
-/

namespace Subsurface

/-- Slots of components; `none` is a free slot. Freed slots are listed last
freed first, and registering reuses the head of that list before it adds a
slot. -/
structure Arena where
  slots : List (Option Component)
  free : List Nat
  deriving Inhabited

namespace Arena

/-- The empty arena. -/
def empty : Arena := ⟨[], []⟩

/-- The component in slot `key`. -/
def get? (a : Arena) (key : Nat) : Option Component := (a.slots[key]?).join

/-- Places `x` in the slot freed last, or in a new slot; its key. -/
def insert (a : Arena) (x : Component) : Nat × Arena :=
  match a.free with
  | key :: rest => (key, ⟨a.slots.set key (some x), rest⟩)
  | [] => (a.slots.length, ⟨a.slots ++ [some x], []⟩)

/-- Applies `f` to the component in slot `key`; `none` for a free slot. -/
def modify? (a : Arena) (key : Nat) (f : Component → Component) : Option Arena :=
  (a.get? key).map fun x => ⟨a.slots.set key (some (f x)), a.free⟩

/-- Takes the component out of slot `key` and frees the slot. -/
def remove (a : Arena) (key : Nat) : Option (Component × Arena) :=
  (a.get? key).map fun x => (x, ⟨a.slots.set key none, key :: a.free⟩)

/-- Number of components: the occupied slots. -/
def size (a : Arena) : Nat := a.slots.countP Option.isSome

end Arena

/-- The catalog's stores: the arena of components, the slot of each
registered identifier, and the identifiers of each kind. -/
structure Store where
  arena : Arena
  index : List (Uuid × Nat)
  byKind : ComponentKind → IdSet

namespace Store

/-- The empty catalog. -/
def empty : Store := ⟨Arena.empty, [], fun _ => IdSet.empty⟩

/-- The sets by kind with the set of `kind` replaced by `f` of it. -/
def updateKind (sets : ComponentKind → IdSet) (kind : ComponentKind) (f : IdSet → IdSet) :
    ComponentKind → IdSet :=
  fun k => if k = kind then f (sets kind) else sets k

/-- Whether `id` is registered: whether the index records it. -/
def contains (s : Store) (id : Uuid) : Bool := (s.index.lookup id).isSome

/-- The component registered under `id`: its slot in the index, then the
slot's component. -/
def get? (s : Store) (id : Uuid) : Option Component := (s.index.lookup id).bind s.arena.get?

/-- The component registered under `id`, whatever its kind. -/
def get (s : Store) (id : Uuid) : Except Error Component :=
  match s.get? id with
  | some x => .ok x
  | none => .error (.component (.unknownId id))

/-- The component registered under `id`, which must be of `kind`; a failed
lookup is reported as not found. -/
def getOfKind (s : Store) (id : Uuid) (kind : ComponentKind) : Except Error Component :=
  match s.get id with
  | .error _ => .error (.component (.notFound kind id))
  | .ok x => if x.kind = kind then .ok x else .error (.component (.wrongKind id kind x.kind))

/-- Registers a component whose identifier is known to be new: into the
arena, then the index, then the set of its kind. -/
def register (s : Store) (x : Component) : Store :=
  let placed := s.arena.insert x
  { arena := placed.2
    index := IdSet.record s.index x.id placed.1
    byKind := updateKind s.byKind x.kind fun ids => (ids.insert x.id).2 }

/-- Registers a component, refusing an identifier already registered. -/
def insert (s : Store) (x : Component) : Except Error Store :=
  if s.contains x.id then .error (.component (.duplicate x.id)) else .ok (s.register x)

/-- Registers a fresh component of `kind` under `id`. -/
def createWithId (s : Store) (kind : ComponentKind) (id : Uuid) : Except Error Store :=
  s.insert (Component.new id kind)

/-- Applies `f` to the component `id`, which must be of `kind`, in its slot. -/
def modifyOfKind (s : Store) (id : Uuid) (kind : ComponentKind) (f : Component → Component) :
    Except Error Store :=
  s.getOfKind id kind >>= fun _ =>
  match (s.index.lookup id).bind fun key => s.arena.modify? key f with
  | some a => .ok { s with arena := a }
  | none => .error (.component (.notFound kind id))

/-- Renames the component `id`, which must be of `kind`. -/
def setName (s : Store) (id : Uuid) (kind : ComponentKind) (name : String) : Except Error Store :=
  s.modifyOfKind id kind (·.rename name)

/-- Sets the type of the component `id`, which must be of the type's kind. -/
def setType (s : Store) (id : Uuid) (t : ComponentType) : Except Error Store :=
  s.modifyOfKind id t.kind (·.retype t)

/-- The slot of `id` in the index, or not found as a component of `kind`. -/
def keyOf (s : Store) (id : Uuid) (kind : ComponentKind) : Except Error Nat :=
  match s.index.lookup id with
  | some key => .ok key
  | none => .error (.component (.notFound kind id))

/-- The component in slot `key` taken out of the arena, or not found. -/
def takeSlot (s : Store) (key : Nat) (id : Uuid) (kind : ComponentKind) :
    Except Error (Component × Arena) :=
  match s.arena.remove key with
  | some taken => .ok taken
  | none => .error (.component (.notFound kind id))

/-- Unregisters the component `id`, which must be of `kind`, and returns it:
the kind is checked, then `id` leaves the index, then the set of `kind`,
and last its component leaves the arena. -/
def remove (id : Uuid) (kind : ComponentKind) : InPlace Store Component :=
  MonadState.get >>= fun s =>
  InPlace.lift (s.getOfKind id kind) >>= fun _ =>
  InPlace.lift (s.keyOf id kind) >>= fun key =>
  modify (fun s => { s with index := s.index.filter (·.1 != id) }) >>= fun _ =>
  modify (fun s =>
    { s with byKind := updateKind s.byKind kind fun ids => (ids.erase id).2 }) >>= fun _ =>
  MonadState.get >>= fun s =>
  InPlace.lift (s.takeSlot key id kind) >>= fun taken =>
  set { s with arena := taken.2 } >>= fun _ =>
  pure taken.1

/-- Identifiers of `kind`, in registration order. -/
def ids (s : Store) (kind : ComponentKind) : List Uuid := (s.byKind kind).toList

/-- Components of `kind`, in registration order: each listed identifier
looked up. -/
def ofKind (s : Store) (kind : ComponentKind) : List Component := (s.ids kind).filterMap s.get?

/-- Number of components of `kind`: the size of its set. -/
def count (s : Store) (kind : ComponentKind) : Nat := (s.byKind kind).size

/-- Number of components. -/
def size (s : Store) : Nat := s.arena.size

/-- Whether nothing is registered. -/
def isEmpty (s : Store) : Bool := s.size == 0

/-- Every component, grouped by kind, each group in registration order. -/
def all (s : Store) : List Component := ComponentKind.all.flatMap s.ofKind

/-- The first component of `kind` called `name`. -/
def findByName (s : Store) (kind : ComponentKind) (name : String) : Option Uuid :=
  ((s.ofKind kind).find? (·.name == name)).map (·.id)

end Store

end Subsurface
