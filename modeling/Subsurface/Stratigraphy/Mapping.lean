import Subsurface.Stratigraphy.Coordinates
import Subsurface.Mesh.Locate
/-!
Mappings between geometric and stratigraphic space over one cell mesh.

A mapping keeps, for each vertex, its geometric position, its stratigraphic
point when both attributes are set, and its implicit value when that one is
set. An element whose vertices all have points is mapped; when its image is
folded over, its first two vertices are exchanged so that the image is
positively oriented, and the geometric element follows the same order.

Forward, a geometric point is located among all elements and its weights
carry the stratigraphic points of the corners; a corner without a point
fails, naming the attribute it lacks. Backward, a stratigraphic point is
located among the mapped elements only, and its weights carry the geometric
corners. The implicit value at a geometric point is the weighted sum of the
implicit values of its corners.
-/

namespace Subsurface

open Stratigraphy

/-- A mesh mapping of the cell `item`, for models of dimension `dim`. -/
structure MeshMapping (K : Type := Float) [OfScientific K] where
  dim : Nat
  item : Uuid
  geometricPoints : Array (Point K)
  /-- The stratigraphic point of each vertex that has both attributes. -/
  stratigraphicPoints : Array (Option (Point K))
  /-- The implicit value of each vertex that has one. -/
  implicitValues : Array (Option K)
  /-- Every element, mapped ones positively oriented in stratigraphic space. -/
  elements : Array (List Nat)
  /-- Indices of the elements whose vertices all have stratigraphic points. -/
  mappedElements : Array Nat
  geometric : Locator K
  stratigraphic : Locator K

namespace MeshMapping

variable {K : Type} [Scalar K]

/-- The vertices of an element with the first two exchanged. -/
def swapFirstTwo {α : Type} : List α → List α
  | a :: b :: rest => b :: a :: rest
  | vs => vs

/-- The stratigraphic point of a vertex, none when an attribute is missing;
other attribute problems fail. -/
def pointOrMissing (d : Nat) (item : Uuid) (mesh : SimplexMesh) (v : Nat) :
    Except MappingError (Option (Point K)) :=
  match stratigraphicPoint d item mesh v with
  | .ok p => .ok (some p)
  | .error (.missingAttribute ..) => .ok none
  | .error e => .error e

/-- Adds one element: reoriented and recorded as mapped when all its
vertices have stratigraphic points. -/
def addElement (d : Nat) (points : Array (Option (Point K))) (acc : Array (List Nat) × Array Nat)
    (vs : List Nat) : Array (List Nat) × Array Nat :=
  let (elements, mapped) := acc
  match vs.mapM (points.getD · none) with
  | some image =>
    let vs := if isFolded d image then swapFirstTwo vs else vs
    (elements.push vs, mapped.push elements.size)
  | none => (elements.push vs, mapped)

/-- The mapping of the mesh of the cell `item` in dimension `d`. The mesh
must be made of full-dimensional simplices. -/
def build (d : Nat) (item : Uuid) (mesh : SimplexMesh) (params : LocatorParams K) :
    Except MappingError (MeshMapping K) := do
  if mesh.simplexSize ≠ d + 1 then
    throw (.invalidTopology
      s!"item {item.toText} has {mesh.simplexSize}-vertex elements, mapping needs {d + 1}")
  let vertices := List.range mesh.nbVertices
  let points := (← vertices.mapM (pointOrMissing d item mesh)).toArray
  let implicit := vertices.toArray.map fun v =>
    ((mesh.attributes.encoded? implicitKey v).bind List.head?).map Scalar.ofBinary64
  let (elements, mapped) := mesh.elements.foldl (addElement d points) (#[], #[])
  let filler := ((points.toList.filterMap id).head?).getD (Point.origin d)
  let geometric := Locator.build d mesh.points elements params
  let stratigraphic := Locator.build d (points.map (·.getD filler))
    (mapped.map (elements.getD · [])) params
  pure ⟨d, item, mesh.points, points, implicit, elements, mapped, geometric, stratigraphic⟩

/-- The stratigraphic point of a vertex, when it has one. -/
def vertexPoint (mp : MeshMapping K) (v : Nat) : Option (Point K) := mp.stratigraphicPoints.getD v none

/-- The missing attribute that leaves vertex `v` without a point: the
location when the implicit value is there, the implicit value otherwise. -/
def missing (mp : MeshMapping K) (v : Nat) : MappingError :=
  .missingAttribute mp.item v (if (mp.implicitValues.getD v none).isSome then locationKey else implicitKey)

/-- The image in stratigraphic space of a geometric point. -/
def forward (mp : MeshMapping K) (q : Point K) : Except MappingError (Point K) := do
  let some loc := mp.geometric.locate q | throw (.outsideMesh mp.item)
  let corners ← (mp.elements.getD loc.element []).mapM fun v =>
    match mp.vertexPoint v with
    | some p => pure p
    | none => throw (mp.missing v)
  pure (Point.interpolate mp.dim corners loc.weights)

/-- The geometric point whose image is a stratigraphic point. -/
def inverse (mp : MeshMapping K) (q : Point K) : Except MappingError (Point K) := do
  let some loc := mp.stratigraphic.locate q | throw (.outsideMesh mp.item)
  let e := mp.mappedElements.getD loc.element 0
  let corners := (mp.elements.getD e []).map (mp.geometricPoints.getD · #[])
  pure (Point.interpolate mp.dim corners loc.weights)

/-- The implicit value at a geometric point, summed corner by corner. -/
def implicitValue (mp : MeshMapping K) (q : Point K) : Except MappingError K := do
  let some loc := mp.geometric.locate q | throw (.outsideMesh mp.item)
  ((mp.elements.getD loc.element []).zip loc.weights).foldlM (fun acc (v, w) =>
    match mp.implicitValues.getD v none with
    | some x => pure (acc + w * x)
    | none => throw (.missingAttribute mp.item v implicitKey)) 0

end MeshMapping

namespace Model

/-- The mapping of the cell `item`. -/
def meshMapping (m : Model) (item : Uuid) (params : LocatorParams) : Except Error MeshMapping := do
  (MeshMapping.build m.dim item (← m.cellMesh item) params).mapError .mapping

end Model

end Subsurface
