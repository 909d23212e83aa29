import Subsurface.Model.Basic
import Subsurface.InPlace
/-!
Editing a geological model.

Most edits check their inputs before changing anything, so a failed edit
leaves the model as it was. Three write in steps, store after store
(`Model.Builder`): removing a collection drops its memberships before it
unregisters the collection, and keeps its items; removing an item drops its
relations and its mesh before it unregisters the item; adding a collection
with a type registers it before it sets the type. Each is run as a whole
(`InPlace.commit`), which keeps nothing of a failure.

When the horizons and stratigraphic units of a model are also the nodes of
a horizon stack, edits run locked: removing, renaming or retyping a horizon
or a unit is then refused, since the stack owns them. Adding them, and every
other edit, stays open.
-/

namespace Subsurface

namespace Model

/-- Refuses, when locked, an edit of a horizon or a stratigraphic unit. -/
def checkUnlocked (locked : Bool) (id : Uuid) (kind : ComponentKind) : Except Error Unit :=
  if locked && (kind == .horizon || kind == .stratigraphicUnit) then
    .error (.component (.stackManaged kind id))
  else .ok ()

/-- Registers a new component of `kind` under the fresh identifier `id`. -/
def addCollection (m : Model) (kind : ComponentKind) (id : Uuid) : Model :=
  { m with catalog := m.catalog.register (Component.new id kind) }

/-- Registers a new component of `kind` under `id`, refusing a registered
identifier. -/
def addCollectionWithId (m : Model) (kind : ComponentKind) (id : Uuid) : Except Error Model := do
  pure { m with catalog := ← m.catalog.createWithId kind id }

/-- Renames the component `id`, which must be of `kind`. -/
def setName (m : Model) (locked : Bool) (id : Uuid) (kind : ComponentKind) (name : String) :
    Except Error Model := do
  checkUnlocked locked id kind
  pure { m with catalog := ← m.catalog.setName id kind name }

/-- Sets the type of the fault `id`. -/
def setFaultType (m : Model) (id : Uuid) (t : FaultType) : Except Error Model := do
  pure { m with catalog := ← m.catalog.setType id (.fault t) }

/-- Sets the type of the horizon `id`. -/
def setHorizonType (m : Model) (locked : Bool) (id : Uuid) (t : HorizonType) : Except Error Model := do
  checkUnlocked locked id .horizon
  pure { m with catalog := ← m.catalog.setType id (.horizon t) }

namespace Builder

/-- Removes the collection `id` of `kind` as the builder does: it checks the
component and the lock, drops the memberships, then unregisters it. -/
def removeCollection (locked : Bool) (id : Uuid) (kind : ComponentKind) : InPlace Model Unit := do
  let _ ← InPlace.lift ((← get).catalog.getOfKind id kind)
  InPlace.lift (checkUnlocked locked id kind)
  modify fun m => { m with membership := (m.membership.removeNode id).2 }
  let (_, catalog) ← InPlace.lift ((← get).catalog.remove id kind)
  modify fun m => { m with catalog := catalog }

/-- Removes the item `id` of `kind` as the builder does: it checks the
component, drops its memberships, boundaries, internal relations and mesh,
then unregisters it. -/
def removeItem (id : Uuid) (kind : ComponentKind) : InPlace Model Unit := do
  let _ ← InPlace.lift ((← get).catalog.getOfKind id kind)
  modify fun m => { m with membership := (m.membership.removeNode id).2 }
  modify fun m => { m with boundaries := (m.boundaries.removeNode id).2 }
  modify fun m => { m with internals := (m.internals.removeNode id).2 }
  modify fun m => { m with meshes := m.meshes.erase id }
  let (_, catalog) ← InPlace.lift ((← get).catalog.remove id kind)
  modify fun m => { m with catalog := catalog }

/-- Registers a collection of the kind of `t` under the fresh identifier
`id`, then gives it the type `t`, as the builder does. -/
def addWithType (id : Uuid) (t : ComponentType) : InPlace Model Unit := do
  modify (·.addCollection t.kind id)
  InPlace.apply fun m => do pure { m with catalog := ← m.catalog.setType id t }

end Builder

/-- Removes the collection `id` of `kind` and its memberships. -/
def removeCollection (m : Model) (locked : Bool) (id : Uuid) (kind : ComponentKind) :
    Except Error Model :=
  (Builder.removeCollection locked id kind).commit m

/-- Removes the item `id` of `kind`, its mesh and its relations. -/
def removeItem (m : Model) (id : Uuid) (kind : ComponentKind) : Except Error Model :=
  (Builder.removeItem id kind).commit m

/-- Adds a collection of the kind of `t`, with the type `t`, under the fresh
identifier `id`. -/
def addWithType (m : Model) (id : Uuid) (t : ComponentType) : Except Error Model :=
  (Builder.addWithType id t).commit m

/-- Removes the component `id` of `kind`, as a collection or as an item. -/
def removeComponent (m : Model) (locked : Bool) (id : Uuid) (kind : ComponentKind) :
    Except Error Model :=
  if kind.isCollection then m.removeCollection locked id kind else m.removeItem id kind

/-- Adds an item of `kind` with its mesh, under the fresh identifier `id`
when `fresh`, and otherwise under `id` unless it is registered. -/
def addItem (m : Model) (kind : ComponentKind) (id : Uuid) (fresh : Bool) (mesh : SimplexMesh) :
    Except Error Model := do
  unless supportsItemKind m.dim kind do
    throw (.component (.unsupportedKind kind m.dim))
  let catalog ← if fresh then pure (m.catalog.register (Component.new id kind))
    else m.catalog.createWithId kind id
  pure { m with catalog := catalog, meshes := m.meshes.put id mesh }

/-- Replaces the mesh of the item `id` by one of the same kind. -/
def setItemMesh (m : Model) (id : Uuid) (mesh : SimplexMesh) : Except Error Model := do
  let c ← m.catalog.get id
  let expected := itemKindOf mesh.kind
  if c.kind ≠ expected then throw (.component (.wrongKind id expected c.kind))
  pure { m with meshes := m.meshes.put id mesh }

/-- Edits the vertex attributes of the mesh of `id`. -/
def editAttributes {α : Type} (m : Model) (id : Uuid)
    (f : VertexAttributes → Except Error (α × VertexAttributes)) : Except Error (α × Model) := do
  let x ← m.mesh id
  let (a, va) ← f x.attributes
  pure (a, { m with meshes := m.meshes.put id { x with attributes := va } })

/-- The item kind a collection kind gathers in a model of dimension `dim`. -/
def gatheredKind (dim : Nat) : ComponentKind → Option ComponentKind
  | .fault | .horizon => some (facetKind dim)
  | .faultBlock | .stratigraphicUnit => some (cellKind dim)
  | _ => none

/-- Adds `item` to `collection`: faults and horizons gather facets, fault
blocks and units gather cells. Adding it again changes nothing. -/
def addItemInCollection (m : Model) (item collection : Uuid) : Except Error Model := do
  let itemKind := (← m.catalog.get item).kind
  let collectionKind := (← m.catalog.get collection).kind
  match gatheredKind m.dim collectionKind with
  | none =>
    throw (.component (.invalidRelation item collection s!"a {collectionKind.text} is not a collection"))
  | some expected =>
    if itemKind ≠ expected then
      throw (.component (.invalidRelation item collection
        s!"a {collectionKind.text} gathers {expected.text} items, not {itemKind.text} items"))
    pure { m with membership := (m.membership.addEdge collection item).2 }

/-- Removes `item` from `collection`; whether it was there. -/
def removeItemFromCollection (m : Model) (item collection : Uuid) : Bool × Model :=
  let (found, r) := m.membership.removeEdge collection item
  (found, { m with membership := r })

/-- Adds `item`, which must be of `itemKind`, to `collection`, which must be
of `collectionKind`. -/
def addTyped (m : Model) (item : Uuid) (itemKind : ComponentKind) (collection : Uuid)
    (collectionKind : ComponentKind) : Except Error Model := do
  let _ ← m.catalog.getOfKind item itemKind
  let _ ← m.catalog.getOfKind collection collectionKind
  m.addItemInCollection item collection

/-- Checks that `facet` is a facet and `cell` a cell. -/
def checkFacetOfCell (m : Model) (facet cell : Uuid) : Except Error Unit := do
  let _ ← m.catalog.getOfKind facet (facetKind m.dim)
  let _ ← m.catalog.getOfKind cell (cellKind m.dim)

/-- Records that `boundary` bounds `incident`, unless it lies inside it. -/
def addBoundary (m : Model) (boundary incident : Uuid) : Except Error Model := do
  m.checkFacetOfCell boundary incident
  if m.internals.hasEdge incident boundary then
    throw (.component (.invalidRelation boundary incident "item is already internal"))
  pure { m with boundaries := (m.boundaries.addEdge incident boundary).2 }

/-- Records that `internal` lies inside `embedding`, unless it bounds it. -/
def addInternal (m : Model) (internal embedding : Uuid) : Except Error Model := do
  m.checkFacetOfCell internal embedding
  if m.boundaries.hasEdge embedding internal then
    throw (.component (.invalidRelation internal embedding "item is already a boundary"))
  pure { m with internals := (m.internals.addEdge embedding internal).2 }

/-- Forgets that `boundary` bounds `incident`; whether it did. -/
def removeBoundary (m : Model) (boundary incident : Uuid) : Bool × Model :=
  let (found, r) := m.boundaries.removeEdge incident boundary
  (found, { m with boundaries := r })

/-- Forgets that `internal` lies inside `embedding`; whether it did. -/
def removeInternal (m : Model) (internal embedding : Uuid) : Bool × Model :=
  let (found, r) := m.internals.removeEdge embedding internal
  (found, { m with internals := r })

/-- The content of `source` copied into `target`, which must be empty. -/
def copyInto (target source : Model) : Except Error Model :=
  if !target.isEmpty then .error (.component .notEmpty)
  else .ok { source with dim := target.dim }

/-- Declares the reference system of the coordinates. -/
def setCrs (m : Model) (crs : CrsInfo) : Model := { m with crs := some crs }

/-- Moves every mesh point from the current reference system to `target`;
no point moves when one fails. -/
def convertCrs (m : Model) (transform : CoordinateTransform) (target : CrsInfo) :
    Except Error Model := do
  let some source := m.crs | throw (.crs .unset)
  let meshes ← m.meshes.mapM fun (id, x) => do
    let coordinates ← x.coordinates.mapM fun p => transform p source target
    pure (id, { x with coordinates := coordinates })
  pure { m with meshes := meshes, crs := some target }

end Model

end Subsurface
