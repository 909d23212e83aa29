import Subsurface.Model.Basic
import Subsurface.Geometry.Simplex
/-!
Stratigraphic coordinates of model vertices.

Each vertex of a cell mesh may carry two attributes: its stratigraphic
location, the first `d - 1` stratigraphic coordinates, and its implicit
function, whose first value is the last one. Together they give the vertex
a point of stratigraphic space, the image of its geometric position.

From these points come the box of stratigraphic space an item or the whole
model spans, the coordinates of one vertex, and the elements whose image is
folded over: those whose stratigraphic image has a negative orientation.
-/

namespace Subsurface

namespace Stratigraphy

/-- Attribute holding the first `d - 1` stratigraphic coordinates of a
vertex. -/
def locationKey : String := "stratigraphic_location"

/-- Attribute whose first value is the last stratigraphic coordinate of a
vertex. -/
def implicitKey : String := "implicit_function"

/-- The encoded stratigraphic coordinates of `vertex` of the mesh of `item`,
in dimension `d`: its location followed by its implicit value. A missing
location is reported before a missing implicit value, and both before a
location of the wrong length. -/
def stratigraphicCoordinates (d : Nat) (item : Uuid) (mesh : SimplexMesh) (vertex : Nat) :
    Except MappingError (Array Binary64) := do
  let some location := mesh.attributes.encoded? locationKey vertex
    | throw (.missingAttribute item vertex locationKey)
  let some implicit := (mesh.attributes.encoded? implicitKey vertex).bind List.head?
    | throw (.missingAttribute item vertex implicitKey)
  if location.length + 1 ≠ d then throw (.attributeDimension locationKey (d - 1) location.length)
  pure (location ++ [implicit]).toArray

/-- The stratigraphic point of `vertex` of the mesh of `item`. -/
def stratigraphicPoint {K : Type} [Scalar K] (d : Nat) (item : Uuid) (mesh : SimplexMesh)
    (vertex : Nat) : Except MappingError (Point K) :=
  Point.ofEncoded <$> stratigraphicCoordinates d item mesh vertex

/-- The encoded stratigraphic coordinates of a vertex, as a library error. -/
def vertexCoordinates (d : Nat) (item : Uuid) (mesh : SimplexMesh) (vertex : Nat) :
    Except Error (Array Binary64) :=
  (stratigraphicCoordinates d item mesh vertex).mapError .mapping

/-- The stratigraphic point of a vertex, as a library error. -/
def vertexPoint (d : Nat) (item : Uuid) (mesh : SimplexMesh) (vertex : Nat) : Except Error Point :=
  (stratigraphicPoint d item mesh vertex).mapError .mapping

/-- The box of the stratigraphic points of every vertex of the mesh of
`item`, none for a mesh without vertices; the first vertex without a point
fails. -/
def itemBox (d : Nat) (item : Uuid) (mesh : SimplexMesh) : Except Error (Option Box) :=
  (List.range mesh.nbVertices).foldlM (fun acc v => do
    let p ← vertexPoint d item mesh v
    pure (some (match acc with
      | some b => b.addPoint p
      | none => Box.ofPoint p))) none

/-- Whether the stratigraphic image of an element has a negative
orientation. -/
def isFolded {K : Type} [Scalar K] (d : Nat) (image : List (Point K)) : Bool :=
  match Simplex.orientation d image with
  | some o => o < 0
  | none => false

/-- The elements of the mesh of `item` whose stratigraphic image is folded
over, in element order; the first vertex without a point fails. -/
def foldedElements (d : Nat) (item : Uuid) (mesh : SimplexMesh) : Except Error (List Nat) := do
  let flags ← mesh.elements.toList.mapM fun vs => do
    pure (isFolded d (← vs.mapM (vertexPoint d item mesh)))
  pure (flags.zipIdx.filterMap fun (folded, e) => if folded then some e else none)

end Stratigraphy

namespace Model

open Stratigraphy

/-- The mesh of `item`, which must be a cell: a surface in 2D, a block in
3D. -/
def cellMesh (m : Model) (item : Uuid) : Except Error SimplexMesh := do
  let _ ← m.componentOfKind item (cellKind m.dim)
  m.mesh item

/-- The mesh of `item`, which must be a facet: a line in 2D, a surface in
3D. -/
def facetMesh (m : Model) (item : Uuid) : Except Error SimplexMesh := do
  let _ ← m.componentOfKind item (facetKind m.dim)
  m.mesh item

/-- Whether a mesh carries both stratigraphic attributes. -/
def hasStratigraphy (mesh : SimplexMesh) : Bool :=
  mesh.attributes.has locationKey && mesh.attributes.has implicitKey

/-- The box `acc` grown by the box of the cell `c` when its mesh carries both
stratigraphic attributes. -/
def addCellBox (m : Model) (acc : Option Box) (c : Component) : Except Error (Option Box) := do
  let mesh ← m.cellMesh c.id
  if !hasStratigraphy mesh then pure acc
  else
    match ← itemBox m.dim c.id mesh with
    | some b => pure (some (match acc with
      | some a => a.addBox b
      | none => b))
    | none => pure acc

/-- The box of stratigraphic space spanned by the cell `item`, or, without
an item, by every cell carrying both stratigraphic attributes. Every cell
must have a mesh; the cells are taken oldest first. -/
def stratigraphicBox (m : Model) : Option Uuid → Except Error (Option Box)
  | some item => do itemBox m.dim item (← m.cellMesh item)
  | none => (m.components (cellKind m.dim)).foldlM m.addCellBox none

/-- The stratigraphic point of `vertex` of the cell `item`. -/
def stratigraphicCoordinates (m : Model) (item : Uuid) (vertex : Nat) : Except Error Point := do
  let mesh ← m.cellMesh item
  if vertex ≥ mesh.nbVertices then
    throw (.mapping (.invalidTopology
      s!"vertex {vertex} out of range, item {item.toText} has {mesh.nbVertices}"))
  vertexPoint m.dim item mesh vertex

/-- The folded elements of every cell carrying an implicit function, as
pairs (cell, element), cells oldest first. -/
def invalidElements (m : Model) : Except Error (List (Uuid × Nat)) := do
  let lists ← (m.components (cellKind m.dim)).mapM fun c => do
    let mesh ← m.cellMesh c.id
    if !mesh.attributes.has implicitKey then pure []
    else pure ((← foldedElements m.dim c.id mesh).map (c.id, ·))
  pure lists.flatten

end Model

end Subsurface
