import Subsurface.Mesh.Attributes
import Subsurface.Geometry.Box
/-!
Simplicial meshes: points, elements of a fixed number of vertices, and
per-vertex attributes.

A curve has segments of two vertices, a surface triangles of three and a
solid tetrahedra of four. Vertex positions are kept as the encodings of
their coordinates, so that stored NaNs keep their bits. Every element must name existing, distinct
vertices: the first index at or beyond the vertex count is reported, then the
first vertex that occurs again later in the element.
-/

namespace Subsurface

/-- The three kinds of simplicial mesh. -/
inductive MeshKind where
  | curve
  | surface
  | solid
  deriving DecidableEq, Inhabited

namespace MeshKind

/-- Number of vertices of each element. -/
def simplexSize : MeshKind → Nat
  | .curve => 2
  | .surface => 3
  | .solid => 4

/-- The kind whose elements have `k` vertices. -/
def ofSimplexSize? : Nat → Option MeshKind
  | 2 => some .curve
  | 3 => some .surface
  | 4 => some .solid
  | _ => none

/-- Name of the kind. -/
def name : MeshKind → String
  | .curve => "curve"
  | .surface => "surface"
  | .solid => "solid"

/-- The kind of a name. -/
def ofName? : String → Option MeshKind
  | "curve" => some .curve
  | "surface" => some .surface
  | "solid" => some .solid
  | _ => none

end MeshKind

/-- A simplicial mesh: the encoded coordinates of every vertex, the
elements and the vertex attributes. -/
structure SimplexMesh where
  kind : MeshKind
  coordinates : Array (Array Binary64)
  elements : Array (List Nat)
  attributes : VertexAttributes
  deriving Inhabited

namespace SimplexMesh

/-- Checks element number `index` against `nbPoints` vertices. -/
def checkElement (nbPoints index : Nat) (element : List Nat) : Except Error Unit :=
  match element.find? (· ≥ nbPoints) with
  | some v => .error (.mapping (.invalidTopology s!"element {index} references vertex {v}, mesh has {nbPoints}"))
  | none =>
    match (element.zipIdx).find? (fun (a, i) => (element.drop (i + 1)).contains a) with
    | some (a, _) => .error (.mapping (.invalidTopology s!"element {index} repeats vertex {a}"))
    | none => .ok ()

/-- A mesh over the vertices of encoded coordinates `coordinates` and
`elements`, every element checked in order. -/
def ofCoordinates (kind : MeshKind) (coordinates : Array (Array Binary64))
    (elements : Array (List Nat)) : Except Error SimplexMesh := do
  for (e, i) in elements.toList.zipIdx do
    checkElement coordinates.size i e
  pure ⟨kind, coordinates, elements, VertexAttributes.new coordinates.size⟩

/-- A mesh over `points` and `elements`, every element checked in order. -/
def new (kind : MeshKind) (points : Array Point) (elements : Array (List Nat)) :
    Except Error SimplexMesh :=
  ofCoordinates kind (points.map Point.encode) elements

/-- The mesh with no vertex and no element. -/
def empty (kind : MeshKind) : SimplexMesh := ⟨kind, #[], #[], VertexAttributes.new 0⟩

/-- Number of vertices. -/
def nbVertices (m : SimplexMesh) : Nat := m.coordinates.size

/-- Positions of the vertices. -/
def points {K : Type} [Scalar K] (m : SimplexMesh) : Array (Point K) :=
  m.coordinates.map Point.ofEncoded

/-- Number of elements. -/
def nbElements (m : SimplexMesh) : Nat := m.elements.size

/-- Number of vertices per element. -/
def simplexSize (m : SimplexMesh) : Nat := m.kind.simplexSize

/-- Appends a vertex; every attribute gains an unassigned slot. -/
def addVertex (m : SimplexMesh) (p : Point) : Except Error (Nat × SimplexMesh) := do
  let attributes ← m.attributes.resize (m.nbVertices + 1)
  pure (m.nbVertices, { m with coordinates := m.coordinates.push p.encode, attributes := attributes })

/-- Appends an element after checking it. -/
def addElement (m : SimplexMesh) (e : List Nat) : Except Error (Nat × SimplexMesh) := do
  checkElement m.nbVertices m.elements.size e
  pure (m.elements.size, { m with elements := m.elements.push e })

/-- The same topology and attributes with the vertices moved to the encoded
coordinates `coordinates`. -/
def withCoordinates (m : SimplexMesh) (coordinates : Array (Array Binary64)) :
    Except Error SimplexMesh :=
  if coordinates.size ≠ m.nbVertices then
    .error (.mapping (.invalidTopology s!"expected {m.nbVertices} points, got {coordinates.size}"))
  else .ok { m with coordinates := coordinates }

/-- The same topology and attributes with the vertices moved to `points`. -/
def withPoints (m : SimplexMesh) (points : Array Point) : Except Error SimplexMesh :=
  m.withCoordinates (points.map Point.encode)

/-- Vertex indices of an element. -/
def elementVertices? (m : SimplexMesh) (e : Nat) : Option (List Nat) := m.elements[e]?

/-- Position of a vertex. -/
def point? (m : SimplexMesh) (v : Nat) : Option Point := m.coordinates[v]?.map Point.ofEncoded

/-- Positions of the vertices of an element. -/
def elementPoints? (m : SimplexMesh) (e : Nat) : Option (List Point) := do
  (← m.elementVertices? e).mapM m.point?

/-- Box of the vertices. -/
def boundingBox (m : SimplexMesh) : Option Box := Box.ofPoints m.points.toList

end SimplexMesh

end Subsurface
