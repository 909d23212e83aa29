import Subsurface.Topology.Component
import Subsurface.Error
/-!
The catalog of components of a model.

The catalog is the list of registered components in registration order, with
distinct identifiers. Queries by kind keep that order; the full listing
groups components by kind in the order of `ComponentKind.all`. A lookup
without a kind fails with `UnknownId`; a lookup with a kind fails with
`NotFound` for an unknown identifier and `WrongKind` for a component of
another kind.
-/

namespace Subsurface

/-- Registered components, oldest first. -/
structure Catalog where
  components : List Component
  deriving Inhabited

namespace Catalog

/-- The empty catalog. -/
def empty : Catalog := ⟨[]⟩

/-- The component registered under `id`. -/
def get? (c : Catalog) (id : Uuid) : Option Component := c.components.find? (·.id == id)

/-- Whether `id` is registered. -/
def contains (c : Catalog) (id : Uuid) : Bool := c.components.any (·.id == id)

/-- The component registered under `id`, whatever its kind. -/
def get (c : Catalog) (id : Uuid) : Except Error Component :=
  match c.get? id with
  | some x => .ok x
  | none => .error (.component (.unknownId id))

/-- The component registered under `id`, which must be of `kind`. -/
def getOfKind (c : Catalog) (id : Uuid) (kind : ComponentKind) : Except Error Component :=
  match c.get? id with
  | none => .error (.component (.notFound kind id))
  | some x => if x.kind = kind then .ok x else .error (.component (.wrongKind id kind x.kind))

/-- Registers a component whose identifier is known to be new. -/
def register (c : Catalog) (x : Component) : Catalog := ⟨c.components ++ [x]⟩

/-- Registers a component, refusing an identifier already registered. -/
def insert (c : Catalog) (x : Component) : Except Error Catalog :=
  if c.contains x.id then .error (.component (.duplicate x.id)) else .ok (c.register x)

/-- Registers a fresh component of `kind` under `id`. -/
def createWithId (c : Catalog) (kind : ComponentKind) (id : Uuid) : Except Error Catalog :=
  c.insert (Component.new id kind)

/-- Applies `f` to the component `id`. -/
def update (c : Catalog) (id : Uuid) (f : Component → Component) : Catalog :=
  ⟨c.components.map fun x => if x.id == id then f x else x⟩

/-- Renames the component `id`, which must be of `kind`. -/
def setName (c : Catalog) (id : Uuid) (kind : ComponentKind) (name : String) : Except Error Catalog := do
  let _ ← c.getOfKind id kind
  pure (c.update id (·.rename name))

/-- Sets the type of the component `id`, which must be of the type's kind. -/
def setType (c : Catalog) (id : Uuid) (t : ComponentType) : Except Error Catalog := do
  let _ ← c.getOfKind id t.kind
  pure (c.update id (·.retype t))

/-- Unregisters the component `id`, which must be of `kind`, and returns it. -/
def remove (c : Catalog) (id : Uuid) (kind : ComponentKind) : Except Error (Component × Catalog) := do
  let x ← c.getOfKind id kind
  pure (x, ⟨c.components.filter (·.id != id)⟩)

/-- Components of `kind`, oldest first. -/
def ofKind (c : Catalog) (kind : ComponentKind) : List Component :=
  c.components.filter (·.kind == kind)

/-- Identifiers of `kind`, oldest first. -/
def ids (c : Catalog) (kind : ComponentKind) : List Uuid := (c.ofKind kind).map (·.id)

/-- Number of components of `kind`. -/
def count (c : Catalog) (kind : ComponentKind) : Nat := (c.ofKind kind).length

/-- Number of components. -/
def size (c : Catalog) : Nat := c.components.length

/-- Whether nothing is registered. -/
def isEmpty (c : Catalog) : Bool := c.components.isEmpty

/-- Every component, grouped by kind, each group oldest first. -/
def all (c : Catalog) : List Component := ComponentKind.all.flatMap c.ofKind

/-- The first component of `kind` called `name`. -/
def findByName (c : Catalog) (kind : ComponentKind) (name : String) : Option Uuid :=
  ((c.ofKind kind).find? (·.name == name)).map (·.id)

end Catalog

end Subsurface
