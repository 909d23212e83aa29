import Subsurface.Stratigraphy.Mapping
import Subsurface.Stratigraphy.ItemMesh
import Subsurface.Stack.Basic
/-!
Stratigraphic models: a geological model with its horizon stack.

The stack orders the horizons and stratigraphic units of the model from
bottom to top; each horizon may have an isovalue, the value the implicit
function takes on it. The isovalues of the two horizons around the first
unit linked on both sides tell whether the implicit function grows upwards,
and from that direction a value of the implicit function lies above or under
a horizon, or inside a unit.

Queries on stratigraphic coordinates go to the model's operations, mappings
being built with the model's locator parameters. The queries here build the
mapping they need each time; `Stratigraphic` keeps them between queries.
-/

namespace Subsurface

/-- Encoded isovalues of horizons, at most one entry per horizon. -/
abbrev IsovalueMap := List (Uuid × Binary64)

namespace IsovalueMap

/-- The isovalue of `h`. -/
def get? (m : IsovalueMap) (h : Uuid) : Option Float := (m.lookup h).map Binary64.toFloat

/-- The encoded isovalue of `h`. -/
def encoded? (m : IsovalueMap) (h : Uuid) : Option Binary64 := m.lookup h

/-- Sets the encoded isovalue of `h`, replacing an existing one. -/
def insert (m : IsovalueMap) (h : Uuid) (v : Binary64) : IsovalueMap := (m.filter (·.1 != h)) ++ [(h, v)]

/-- Drops the isovalue of `h`. -/
def erase (m : IsovalueMap) (h : Uuid) : IsovalueMap := m.filter (·.1 != h)

/-- The entries sorted by horizon identifier. -/
def sorted (m : IsovalueMap) : List (Uuid × Binary64) := m.mergeSort fun a b => a.1.toNat ≤ b.1.toNat

end IsovalueMap

/-- A geological model with its horizon stack, the isovalues of its
horizons, and the parameters its mappings locate points with. -/
structure StratigraphicModel where
  model : Model
  stack : HorizonStack
  isovalues : IsovalueMap
  locator : LocatorParams

namespace StratigraphicModel

open Stratigraphy

/-- The model of dimension `dim` with no component, an empty stack and
default locator parameters. -/
def empty (dim : Nat) : StratigraphicModel := ⟨Model.empty dim, HorizonStack.empty dim, [], {}⟩

/-- A geological model with an empty stack. -/
def ofModel (m : Model) : StratigraphicModel := ⟨m, HorizonStack.empty m.dim, [], {}⟩

/-- The dimension of the model. -/
def dim (s : StratigraphicModel) : Nat := s.model.dim

/-- Extension of the files a model of this dimension is saved to. -/
def nativeExtension (dim : Nat) : String := if dim = 2 then "og_stgs" else "og_stgm"

/-- The identifiers of the model's components, then of the stack's nodes. -/
def ids (s : StratigraphicModel) : List Uuid := s.model.catalog.all.map (·.id) ++ s.stack.nodes

/-- The mapping of the cell `item`. -/
def mapping (s : StratigraphicModel) (item : Uuid) : Except Error MeshMapping :=
  s.model.meshMapping item s.locator

/-- The stratigraphic point of `vertex` of the cell `item`. -/
def coordinatesFromVertex (s : StratigraphicModel) (item : Uuid) (vertex : Nat) : Except Error Point :=
  s.model.stratigraphicCoordinates item vertex

/-- The image in stratigraphic space of a point of the cell `item`. -/
def coordinatesFromPoint (s : StratigraphicModel) (item : Uuid) (p : Point) : Except Error Point := do
  ((← s.mapping item).forward p).mapError .mapping

/-- The point of the cell `item` whose image is a stratigraphic point. -/
def geometricFromPoint (s : StratigraphicModel) (item : Uuid) (p : Point) : Except Error Point := do
  ((← s.mapping item).inverse p).mapError .mapping

/-- The box of stratigraphic space spanned by every attributed cell. -/
def boundingBox (s : StratigraphicModel) : Except Error (Option Box) :=
  s.model.stratigraphicBox none

/-- The implicit value at `vertex` of the mesh of `item`, of any kind. -/
def implicitValue (s : StratigraphicModel) (item : Uuid) (vertex : Nat) : Except Error Float := do
  let mesh ← s.model.mesh item
  match (mesh.attributes.value? implicitKey vertex).bind List.head? with
  | some x => pure x
  | none => throw (.mapping (.missingAttribute item vertex implicitKey))

/-- The implicit value at a point of the cell `item`. -/
def implicitValueAt (s : StratigraphicModel) (item : Uuid) (p : Point) : Except Error Float := do
  ((← s.mapping item).implicitValue p).mapError .mapping

/-- The isovalue of the stack horizon `h`, if set. -/
def horizonIsovalue (s : StratigraphicModel) (h : Uuid) : Except Error (Option Float) := do
  let _ ← s.stack.horizon h
  pure (s.isovalues.get? h)

/-- Whether the implicit function grows upwards: read on the first unit,
oldest first, that has a node both above and under it, when both have
isovalues. -/
def increasing (s : StratigraphicModel) : Option Bool := do
  let unit ← s.stack.units.find? fun u => (s.stack.above u.id).toBool && (s.stack.under u.id).toBool
  let above ← (s.stack.above unit.id).toOption
  let under ← (s.stack.under unit.id).toOption
  let a ← s.isovalues.encoded? above
  let b ← s.isovalues.encoded? under
  pure (b.lt a)

/-- Whether `value` lies above the level of `isovalue` along the stacking
direction. -/
def liesAbove (increasing : Bool) (value isovalue : Binary64) : Bool :=
  increasing == isovalue.le value

/-- Whether the implicit value `value` lies above the horizon `h`; the
stacking direction and the horizon's isovalue must be known. -/
def isAboveHorizon (s : StratigraphicModel) (value : Binary64) (h : Uuid) : Except Error Bool := do
  let some inc := s.increasing | throw (.stack .undefinedDirection)
  let some iso := s.isovalues.encoded? h | throw (.stack (.missingIsovalue h))
  pure (liesAbove inc value iso)

/-- Whether a unit holds `value`, from where the value lies against the
horizon under it and the one above it, each when known. -/
def holds (overBase overTop : Option Bool) : Bool :=
  match overBase, overTop with
  | some b, some t => b && !t
  | some b, none => b
  | none, some t => !t
  | none, none => false

/-- The first unit, oldest first, holding the implicit value `value`. -/
def containingUnit (s : StratigraphicModel) (value : Binary64) : Option Uuid := do
  let inc ← s.increasing
  let placed (h : Uuid) : Option Bool := (s.isovalues.encoded? h).map (liesAbove inc value)
  (s.stack.units.map (·.id)).find? fun u =>
    holds ((s.stack.under u).toOption.bind placed) ((s.stack.above u).toOption.bind placed)

/-- The folded elements of every cell with an implicit function. -/
def invalidElements (s : StratigraphicModel) : Except Error (List (Uuid × Nat)) :=
  s.model.invalidElements

/-- The facet `item` of the cell `parent` in stratigraphic space, as meshes
of facets: curves in 2D, triangulated surfaces in 3D. A mesh of another kind
refuses the item as if it were a cell. -/
def itemMeshes (s : StratigraphicModel) (parent item : Uuid) : Except Error (List SimplexMesh) := do
  let meshes ← s.model.stratigraphicItemMeshes parent item 1e-8
  let facetMesh : MeshKind := if s.dim = 2 then .curve else .surface
  if meshes.all (·.kind == facetMesh) then pure meshes
  else throw (.component (.wrongKind item (Model.facetKind s.dim) (Model.cellKind s.dim)))

end StratigraphicModel

end Subsurface
