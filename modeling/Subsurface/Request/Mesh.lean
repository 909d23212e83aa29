import Subsurface.Request.Naming
import Subsurface.Mesh.Locate
import Subsurface.Mesh.Delaunay
/-!
Requests on meshes: point location, Delaunay triangulation, simplicial
meshes and their attributes.

A mesh is given by its kind, points, elements and optional attribute values,
applied in order after the mesh is built; a mesh is written with its simplex
size, points, elements, and attributes by name, each with its dimension and
one value per vertex (null when unassigned).
-/

namespace Subsurface.Request

/-- Locator parameters; missing fields take their defaults. -/
def asLocatorParams (j : Json) : Reading LocatorParams := do
  let tolerance ← match opt j "tolerance" with
    | some v => asFloat v
    | none => pure 1e-8
  let outside ← match opt j "outside_tolerance" with
    | some v => asFloat v
    | none => pure 1e-6
  let strategy ← match opt j "strategy" with
    | some (.str "brute_force") => pure Strategy.bruteForce
    | some s@(.obj _) => pure (Strategy.grid (← needNat s "grid"))
    | some _ => reject "unknown strategy"
    | none => pure (Strategy.grid 16)
  pure ⟨tolerance, outside, strategy⟩

/-- Locator parameters as written. -/
def locatorParamsJson (p : LocatorParams) : Json :=
  .obj [("tolerance", .float p.tolerance), ("outside_tolerance", .float p.outsideTolerance),
    ("strategy", match p.strategy with
      | .bruteForce => .str "brute_force"
      | .grid n => .obj [("grid", .nat n)])]

/-- A location, or null. -/
def locationJson : Option Location → Json
  | some l => .obj [("element", .nat l.element), ("weights", floatsJson l.weights), ("inside", .bool l.inside)]
  | none => .null

/-- Answers `locate`: the location of every query point. -/
def locateAnswer (j : Json) : Reading Json := do
  let d ← needDim j [1, 2, 3]
  let points ← needPoints d j "points"
  let elements ← asListOf (asListOf asNat) (← need j "elements")
  let params ← match opt j "params" with
    | some p => asLocatorParams p
    | none => pure {}
  let queries ← needPoints d j "queries"
  let locator := Locator.build d points.toArray elements.toArray params
  pure (.arr (queries.map fun q => locationJson (locator.locate q)))

/-- Answers `delaunay`: the triangulation, or only its counts. -/
def delaunayAnswer (j : Json) : Reading Json := do
  let points ← needPoints 2 j "points"
  if flagOf j "summary_only" then
    let (nv, nt) ← lift (Delaunay.triangleCount points)
    pure (.obj [("nb_vertices", .nat nv), ("nb_triangles", .nat nt)])
  else
    let t ← lift (Delaunay.triangulate points)
    pure (.obj [("nb_vertices", .nat t.vertices.size),
      ("points", .arr (t.vertices.toList.map pointJson)),
      ("triangles", .arr (t.triangles.map fun tri => .arr (tri.map .nat)))])

/-- Attributes by name, each with its dimension and per-vertex values. -/
def attributesJson (va : VertexAttributes) : Json :=
  .obj (va.entries.map fun (name, a) =>
    (name, .obj [("dimension", .nat a.dimension),
      ("values", .arr ((List.range va.nbVertices).map fun v => optJson floatsJson (a.value? v)))]))

/-- A mesh as written; item meshes also give their kind. -/
def meshJson (withKind : Bool) (m : SimplexMesh) : Json :=
  .obj ([("simplex_size", .nat m.simplexSize),
    ("points", .arr (m.points.toList.map pointJson)),
    ("elements", .arr (m.elements.toList.map fun e => .arr (e.map .nat))),
    ("attributes", attributesJson m.attributes)] ++
    (if withKind then [("kind", .str m.kind.name)] else []))

/-- A mesh kind name. -/
def asMeshKind (j : Json) : Reading MeshKind := do
  match MeshKind.ofName? (← asString j) with
  | some k => pure k
  | none => reject "unknown mesh kind"

/-- An element of a mesh kind. -/
def asElement (k : MeshKind) (j : Json) : Reading (List Nat) := do
  let e ← asListOf asNat j
  if e.length ≠ k.simplexSize then reject s!"element must have {k.simplexSize} vertices"
  pure e

/-- Applies one `{name, vertex, value}` attribute value. -/
def applyValue (va : VertexAttributes) (j : Json) : Reading VertexAttributes := do
  let name ← needString j "name"
  let vertex ← needNat j "vertex"
  let value ← asListOf asFloat (← need j "value")
  lift (va.setValue name vertex value)

/-- A mesh from its description, of the given kind or of the one it names. -/
def asMesh (dim : Nat) (kind : Option MeshKind) (j : Json) : Reading SimplexMesh := do
  let k ← match kind with
    | some k => pure k
    | none => asMeshKind (← need j "kind")
  let points ← needPoints dim j "points"
  let elements ← asListOf (asElement k) (← need j "elements")
  let m ← lift (SimplexMesh.new k points.toArray elements.toArray)
  let values ← match opt j "attributes" with
    | some a => asList a
    | none => pure []
  let va ← values.foldlM applyValue m.attributes
  pure { m with attributes := va }

/-- One attribute step: its result and the attributes after it. -/
def attributeStep (va : VertexAttributes) (s : Json) (op : String) :
    Reading (Json × VertexAttributes) := do
  match op with
  | "declare" => pure (.null, ← lift (va.declare (← needString s "name") (← needNat s "dimension")))
  | "set_value" => pure (.null, ← applyValue va s)
  | "unset_value" => pure (.null, va.unsetValue (← needString s "name") (← needNat s "vertex"))
  | "value" => pure (optJson floatsJson (va.value? (← needString s "name") (← needNat s "vertex")), va)
  | "attribute" =>
    pure (optJson (fun (a : Attribute) => .obj [("dimension", .nat a.dimension)]) (va.attribute? (← needString s "name")), va)
  | "has_attribute" => pure (.bool (va.has (← needString s "name")), va)
  | "names" => pure (.arr (va.names.map .str), va)
  | "remove" =>
    let (found, va') := va.remove (← needString s "name")
    pure (.bool found, va')
  | _ => reject s!"unknown attributes op {op}"

/-- A step result as an answer. -/
def resultJson (v : Json) : Json := .obj [("result", v)]

/-- Answers `attributes`. -/
def attributesAnswer (j : Json) : Reading Json := do
  let n ← needNat j "nb_vertices"
  let steps ← needArray j "steps"
  pure <| labelled j do
    let (answers, final) ← runSteps (fun va s => do attributeStep va s (← needString s "op"))
      (fun r _ => resultJson r) (fun a _ => a) (VertexAttributes.new n) steps
    pure (.obj [("steps", .arr answers), ("final", attributesJson final)])

/-- One mesh step: its result and the mesh after it. -/
def meshStep (dim : Nat) (m : SimplexMesh) (s : Json) : Reading (Json × SimplexMesh) := do
  let op ← needString s "op"
  match op with
  | "add_vertex" =>
    let (i, m') ← lift (m.addVertex (← needPoint dim s "point"))
    pure (.nat i, m')
  | "add_element" =>
    let (i, m') ← lift (m.addElement (← asElement m.kind (← need s "element")))
    pure (.nat i, m')
  | "with_points" => pure (meshJson false (← lift (m.withPoints (← needPoints dim s "points").toArray)), m)
  | "element_vertices" => pure (optJson (fun e => .arr (e.map .nat)) (m.elementVertices? (← needNat s "element")), m)
  | "element_points" => pure (optJson (fun ps => .arr (ps.map pointJson)) (m.elementPoints? (← needNat s "element")), m)
  | "point" => pure (optJson pointJson (m.point? (← needNat s "vertex")), m)
  | "nb_vertices" => pure (.nat m.nbVertices, m)
  | "nb_elements" => pure (.nat m.nbElements, m)
  | "bounding_box" => pure (boxJson m.boundingBox, m)
  | "dump" => pure (meshJson false m, m)
  | _ =>
    let (r, va) ← attributeStep m.attributes s op
    pure (r, { m with attributes := va })

/-- Answers `mesh`. -/
def meshAnswer (j : Json) : Reading Json := do
  let d ← needDim j [1, 2, 3]
  let k ← asMeshKind (← need j "kind")
  let m ← if flagOf j "default" then pure (SimplexMesh.empty k) else asMesh d (some k) j
  let steps := stepsOf j
  pure <| labelled j do
    let (answers, final) ← runSteps (meshStep d) (fun r _ => resultJson r) (fun a _ => a) m steps
    pure (.obj [("steps", .arr answers), ("final", meshJson false final)])

end Subsurface.Request
