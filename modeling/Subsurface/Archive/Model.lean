import Subsurface.Archive.File
import Subsurface.Model.Basic
/-!
Geological models in archives.

A model is written as its components grouped by kind, its three relations
as sorted per-node lists (children, then parents), the meshes of its facets
and cells, and its reference system. A mesh is written with flat coordinate
and vertex lists and its attributes in name order.

Reading rebuilds the model in the same order: components (a repeated
identifier fails), meshes (a mesh whose lists do not divide into points or
elements, whose attributes do not match its vertices, or whose elements are
invalid fails), the three relations (lists that do not describe one relation
fail), and the reference system.
-/

namespace Subsurface.Archive

/-! ## Components and relations -/

/-- A component type: the variant, then the type's tag. -/
def putComponentType : ComponentType → List UInt8
  | .fault t => putU32 0 ++ putU32 t.index
  | .horizon t => putU32 1 ++ putU32 t.index

/-- A component. -/
def putComponent (c : Component) : List UInt8 :=
  putUuid c.id ++ putU32 c.kind.index ++ putString c.name ++ putOption putComponentType c.type

/-- Per-node lists. -/
def putLists (lists : List (Uuid × List Uuid)) : List UInt8 :=
  putList (fun (k, vs) => putUuid k ++ putList putUuid vs) lists

/-- A relation, children lists then parent lists. -/
def putRelation (r : Relation) : List UInt8 := putLists r.childrenLists ++ putLists r.parentsLists

/-- Reads a component type. -/
def getComponentType : Decoder ComponentType := do
  match ← getVariant 2 with
  | 0 => do
    let i ← getVariant FaultType.all.length
    pure (.fault (FaultType.all.getD i .noType))
  | _ => do
    let i ← getVariant HorizonType.all.length
    pure (.horizon (HorizonType.all.getD i .noType))

/-- Reads a component. -/
def getComponent : Decoder Component := do
  let id ← getUuid
  let k ← getVariant ComponentKind.all.length
  let name ← getString
  let type ← getOption getComponentType
  pure ⟨id, ComponentKind.all.getD k .fault, name, type⟩

/-- Reads per-node lists. -/
def getLists : Decoder (List (Uuid × List Uuid)) :=
  getList (do
    let k ← getUuid
    let vs ← getList getUuid
    pure (k, vs))

/-- Per-node lists of both sides of a relation, as read. -/
structure RelationRecord where
  children : List (Uuid × List Uuid)
  parents : List (Uuid × List Uuid)

/-- Reads both sides of a relation. -/
def getRelation : Decoder RelationRecord := do
  let children ← getLists
  let parents ← getLists
  pure ⟨children, parents⟩

/-- The relation the lists describe. -/
def RelationRecord.restore (r : RelationRecord) : Except Error Relation :=
  match Relation.ofLists r.children r.parents with
  | some x => .ok x
  | none => .error (.archive .unexpectedFormat)

/-! ## Meshes -/

/-- An attribute as stored: name, dimension, raw values and flags. -/
structure AttributeRecord where
  name : String
  dimension : Nat
  values : List Binary64
  assigned : List Bool

/-- A mesh as stored. -/
structure MeshRecord where
  id : Uuid
  simplexSize : Nat
  coordinates : List Binary64
  elements : List Nat
  attributes : List AttributeRecord

/-- The stored form of the mesh of `id`. -/
def MeshRecord.ofMesh (id : Uuid) (m : SimplexMesh) : MeshRecord :=
  ⟨id, m.simplexSize, m.coordinates.toList.flatMap Array.toList, m.elements.toList.flatten,
    m.attributes.entries.map fun (name, a) => ⟨name, a.dimension, a.values.toList, a.assigned.toList⟩⟩

/-- Writes a stored attribute. -/
def putAttribute (a : AttributeRecord) : List UInt8 :=
  putString a.name ++ putU64 a.dimension ++ putList putFloat a.values ++ putList putBool a.assigned

/-- Writes a stored mesh. -/
def putMesh (m : MeshRecord) : List UInt8 :=
  putUuid m.id ++ putU64 m.simplexSize ++ putList putFloat m.coordinates ++
    putList putU64 m.elements ++ putList putAttribute m.attributes

/-- Reads a stored attribute. -/
def getAttribute : Decoder AttributeRecord := do
  let name ← getString
  let dimension ← getU64
  let values ← getList getFloat
  let assigned ← getList getBool
  pure ⟨name, dimension, values, assigned⟩

/-- Reads a stored mesh. -/
def getMesh : Decoder MeshRecord := do
  let id ← getUuid
  let k ← getU64
  let coordinates ← getList getFloat
  let elements ← getList getU64
  let attributes ← getList getAttribute
  pure ⟨id, k, coordinates, elements, attributes⟩

/-- Consecutive groups of `k` items; the items must divide into them. -/
def chunks {α : Type} (k : Nat) (xs : List α) (fuel : Nat) : List (List α) :=
  match fuel with
  | 0 => []
  | fuel + 1 => if xs.isEmpty then [] else xs.take k :: chunks k (xs.drop k) fuel

/-- Consecutive groups of `k` items, when the items divide into them. -/
def chunksExact? {α : Type} (k : Nat) (xs : List α) : Option (List (List α)) :=
  if k = 0 || xs.length % k ≠ 0 then none else some (chunks k xs xs.length)

/-- The mesh of a model of dimension `dim` that a stored mesh describes. -/
def MeshRecord.restore (dim : Nat) (r : MeshRecord) : Except Error SimplexMesh := do
  let bad : Error := .archive .unexpectedFormat
  let some points := chunksExact? dim r.coordinates | throw bad
  let attributes ← r.attributes.foldlM (fun (va : VertexAttributes) a => do
    if a.values.length ≠ Attribute.slotCount a.dimension a.assigned.length then throw bad
    match va.insertAttribute a.name ⟨a.dimension, a.values.toArray, a.assigned.toArray⟩ with
    | some va => pure va
    | none => throw bad) (VertexAttributes.new points.length)
  let some kind := MeshKind.ofSimplexSize? r.simplexSize | throw bad
  let some elements := chunksExact? kind.simplexSize r.elements | throw bad
  let mesh ← SimplexMesh.ofCoordinates kind (points.map List.toArray).toArray elements.toArray
  pure { mesh with attributes := attributes }

/-! ## Models -/

/-- A model as stored. -/
structure ModelRecord where
  components : List Component
  membership : RelationRecord
  boundaries : RelationRecord
  internals : RelationRecord
  meshes : List MeshRecord
  crs : Option CrsInfo

/-- Writes a reference system. -/
def putCrs (c : CrsInfo) : List UInt8 := putString c.authority ++ putString c.code ++ putString c.name

/-- Reads a reference system. -/
def getCrs : Decoder CrsInfo := do
  let authority ← getString
  let code ← getString
  let name ← getString
  pure ⟨authority, code, name⟩

/-- The payload of a model. -/
def putModel (m : Model) : List UInt8 :=
  putList putComponent m.catalog.all ++ putRelation m.membership ++
    putRelation m.boundaries ++ putRelation m.internals ++
    putList (fun (id, x) => putMesh (MeshRecord.ofMesh id x)) m.itemMeshes ++
    putOption putCrs m.crs

/-- Reads the payload of a model. -/
def getModel : Decoder ModelRecord := do
  let components ← getList getComponent
  let membership ← getRelation
  let boundaries ← getRelation
  let internals ← getRelation
  let meshes ← getList getMesh
  let crs ← getOption getCrs
  pure ⟨components, membership, boundaries, internals, meshes, crs⟩

/-- The model of dimension `dim` that a stored model describes. -/
def ModelRecord.restore (dim : Nat) (r : ModelRecord) : Except Error Model := do
  let catalog ← r.components.foldlM Catalog.insert Catalog.empty
  let meshes ← r.meshes.foldlM (fun (t : MeshTable) x => do
    pure (t.put x.id (← x.restore dim))) []
  let membership ← r.membership.restore
  let boundaries ← r.boundaries.restore
  let internals ← r.internals.restore
  pure ⟨dim, catalog, membership, boundaries, internals, meshes, r.crs⟩

end Subsurface.Archive

namespace Subsurface.Model

/-- The file bytes of the model saved at `path`. -/
def save (m : Model) (path : String) : Except Error (List UInt8) :=
  Archive.writeFile path (nativeExtension m.dim) (Archive.putModel m)

/-- The model of dimension `dim` read from the file bytes at `path`. -/
def load (dim : Nat) (path : String) (bytes : List UInt8) : Except Error Model := do
  let r ← Archive.readFile path (nativeExtension dim) Archive.getModel bytes
  r.restore dim

end Subsurface.Model
