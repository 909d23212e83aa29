import Subsurface.Topology.Catalog
import Subsurface.Topology.Relation
import Subsurface.Mesh.Simplex
import Subsurface.Crs
/-!
Geological models: the components, the three relations between them, the
meshes of the items and the coordinate reference system.

A model of dimension 2 is a cross-section, built of lines (facets) and
surfaces (cells); a model of dimension 3 is built of surfaces (facets) and
blocks (cells). Collections gather items: faults and horizons gather facets,
fault blocks and stratigraphic units gather cells. A facet can bound a cell or
be internal to it.

The relations are stored parent first: a collection with its items, an
incident cell with its boundaries, an embedding cell with its internal items.
Meshes are kept by item identifier; a table entry is never duplicated, and
writing an entry again replaces it in place.
-/

namespace Subsurface

/-- Meshes by item identifier. -/
abbrev MeshTable := List (Uuid × SimplexMesh)

namespace MeshTable

/-- The mesh of `id`. -/
def get? (t : MeshTable) (id : Uuid) : Option SimplexMesh := t.lookup id

/-- Writes the mesh of `id`, replacing an existing one in place. -/
def put (t : MeshTable) (id : Uuid) (m : SimplexMesh) : MeshTable :=
  if t.any (·.1 == id) then t.map fun (k, v) => if k == id then (k, m) else (k, v)
  else t ++ [(id, m)]

/-- Drops the mesh of `id`. -/
def erase (t : MeshTable) (id : Uuid) : MeshTable := t.filter (·.1 != id)

end MeshTable

/-- A geological model of dimension `dim`. -/
structure Model where
  dim : Nat
  catalog : Catalog
  /-- Collections and their items. -/
  membership : Relation
  /-- Incident cells and their boundaries. -/
  boundaries : Relation
  /-- Embedding cells and their internal items. -/
  internals : Relation
  meshes : MeshTable
  crs : Option CrsInfo
  deriving Inhabited

namespace Model

/-- The model without components. -/
def empty (dim : Nat) : Model :=
  ⟨dim, Catalog.empty, Relation.empty, Relation.empty, Relation.empty, [], none⟩

/-- Extension of the files a model of this dimension is saved to. -/
def nativeExtension (dim : Nat) : String := if dim = 2 then "og_xsctn" else "og_strm"

/-- The item kind that fills space: surfaces in 2D, blocks in 3D. -/
def cellKind (dim : Nat) : ComponentKind := if dim = 2 then .surface else .block

/-- The item kind that separates cells: lines in 2D, surfaces in 3D. -/
def facetKind (dim : Nat) : ComponentKind := if dim = 2 then .line else .surface

/-- Whether items of `kind` can live in a model of this dimension. -/
def supportsItemKind (dim : Nat) (kind : ComponentKind) : Bool :=
  kind == cellKind dim || kind == facetKind dim

/-- Whether no component is registered. -/
def isEmpty (m : Model) : Bool := m.catalog.isEmpty

/-- The component `id`, whatever its kind. -/
def component (m : Model) (id : Uuid) : Except Error Component := m.catalog.get id

/-- Whether `id` is registered. -/
def hasComponent (m : Model) (id : Uuid) : Bool := m.catalog.contains id

/-- The component `id`, which must be of `kind`. -/
def componentOfKind (m : Model) (id : Uuid) (kind : ComponentKind) : Except Error Component :=
  m.catalog.getOfKind id kind

/-- Components of `kind`, oldest first. -/
def components (m : Model) (kind : ComponentKind) : List Component := m.catalog.ofKind kind

/-- Number of components of `kind`. -/
def nbComponents (m : Model) (kind : ComponentKind) : Nat := m.catalog.count kind

/-- The first component of `kind` called `name`. -/
def componentIdFromName (m : Model) (kind : ComponentKind) (name : String) : Option Uuid :=
  m.catalog.findByName kind name

/-- Items of a collection, in the order they were added. -/
def itemsOf (m : Model) (collection : Uuid) : List Uuid := m.membership.childrenOf collection

/-- Collections holding an item. -/
def collectionsOf (m : Model) (item : Uuid) : List Uuid := m.membership.parentsOf item

/-- Number of items of a collection. -/
def nbItems (m : Model) (collection : Uuid) : Nat := m.membership.nbChildren collection

/-- Number of collections holding an item. -/
def nbCollections (m : Model) (item : Uuid) : Nat := m.membership.nbParents item

/-- Whether `collection` holds `item`. -/
def isItemInCollection (m : Model) (item collection : Uuid) : Bool :=
  m.membership.hasEdge collection item

/-- Items of a collection that must be of `kind`. -/
def itemsOfKind (m : Model) (collection : Uuid) (kind : ComponentKind) : Except Error (List Uuid) := do
  let _ ← m.componentOfKind collection kind
  pure (m.itemsOf collection)

/-- Items bounding `item`. -/
def boundariesOf (m : Model) (item : Uuid) : List Uuid := m.boundaries.childrenOf item

/-- Items bounded by `item`. -/
def incidences (m : Model) (item : Uuid) : List Uuid := m.boundaries.parentsOf item

/-- Items inside `item`. -/
def internalItems (m : Model) (item : Uuid) : List Uuid := m.internals.childrenOf item

/-- Items that `item` lies inside. -/
def embeddings (m : Model) (item : Uuid) : List Uuid := m.internals.parentsOf item

/-- Whether `item` bounds `parent`. -/
def isBoundary (m : Model) (item parent : Uuid) : Bool := m.boundaries.hasEdge parent item

/-- Whether `item` lies inside `parent`. -/
def isInternal (m : Model) (item parent : Uuid) : Bool := m.internals.hasEdge parent item

/-- The mesh of an item. -/
def mesh (m : Model) (item : Uuid) : Except Error SimplexMesh :=
  match m.meshes.get? item with
  | some x => .ok x
  | none => .error (.component (.unknownId item))

/-- The item kind whose meshes have this mesh kind. -/
def itemKindOf : MeshKind → ComponentKind
  | .curve => .line
  | .surface => .surface
  | .solid => .block

/-- The mesh of an item that must be of `kind`: an item whose mesh has
another shape is reported with its registered kind. -/
def meshOfKind (m : Model) (item : Uuid) (kind : ComponentKind) : Except Error SimplexMesh := do
  let x ← m.mesh item
  if itemKindOf x.kind = kind then pure x
  else
    let c ← m.component item
    throw (.component (.wrongKind item kind c.kind))

/-- Box of every item mesh. -/
def boundingBox (m : Model) : Option Box :=
  match m.meshes.filterMap (·.2.boundingBox) with
  | [] => none
  | b :: bs => some (bs.foldl Box.addBox b)

/-- Item meshes in file order: facets, then cells, each oldest first. -/
def itemMeshes (m : Model) : List (Uuid × SimplexMesh) :=
  (m.catalog.ids (facetKind m.dim) ++ m.catalog.ids (cellKind m.dim)).filterMap fun id =>
    (m.meshes.get? id).map (id, ·)

end Model

end Subsurface
