import Subsurface.Stratigraphy.Coordinates
/-!
Facet meshes carried into stratigraphic space.

A facet that bounds a cell, or lies inside it, has vertices at the positions
of cell vertices. Each facet vertex is matched with the cell vertices within
a tolerance of it, nearest first, and takes the stratigraphic point of one
of them. Which one matters where the cell is cut along the facet: there
several cell vertices share a position but belong to different sides.

For each facet element, the cell elements holding a match of every one of
its vertices are the enclosing elements. A boundary facet takes, vertex by
vertex, the matches chosen by the first enclosing element of the first facet
element that has one. An internal facet is seen from both sides: an
enclosing element lies in front of the facet or behind it by the sign of the
simplex made of the facet element and the element's remaining vertex, and
each side gives one mesh, falling back on the other side and then on the
nearest match.

The cell vertices are scanned in order of their first coordinate, with the
candidates of a facet vertex found by a binary search of that order.
-/

namespace Subsurface

namespace Stratigraphy

/-- Sort key of an encoded float giving the total order -NaN, -∞, …, -0,
+0, …, +∞, NaN: negative encodings have all their bits flipped, others the
sign bit set. A NaN sorts by its sign and payload. -/
def totalKey (x : Binary64) : UInt64 :=
  let b := x.bits
  if b >>> 63 == 1 then ~~~b else b ||| ((1 : UInt64) <<< 63)

/-- Whether `a` comes no later than `b` in the total order of encoded
floats. -/
def totalLe (a b : Binary64) : Bool := totalKey a ≤ totalKey b

/-- The halving loop of a binary search: `base` moves to the middle of the
remaining `size` items when the predicate holds there. -/
def halve {α : Type} [Inhabited α] (xs : Array α) (pred : α → Bool) : Nat → Nat → Nat → Nat
  | 0, base, _ => base
  | fuel + 1, base, size =>
    if size ≤ 1 then base
    else
      let half := size / 2
      let mid := base + half
      halve xs pred fuel (if pred (xs.getD mid default) then mid else base) (size - half)

/-- The number of leading items satisfying `pred`, for a predicate that
holds on a prefix, found by a binary search that halves the range to one
item and then steps past it when the predicate holds there. -/
def partitionPoint {α : Type} [Inhabited α] (xs : Array α) (pred : α → Bool) : Nat :=
  if xs.size = 0 then 0
  else
    let base := halve xs pred xs.size 0 xs.size
    if pred (xs.getD base default) then base + 1 else base

/-- For each item point, the parent vertices within `tolerance` of it,
nearest first, ties in order of first coordinate. The parent vertices,
given by their encoded coordinates, are ordered by the total order of their
first coordinate, so a NaN among them goes first or last by its sign. -/
def coincidentVertices {K : Type} [Scalar K] (items : Array (Point K)) (parents : Array (Array Binary64))
    (tolerance : K) : Array (List Nat) :=
  let stored (p : Nat) : Binary64 := (parents.getD p #[]).getD 0 .zero
  let x (p : Nat) : K := Scalar.ofBinary64 (stored p)
  let order := (List.range parents.size).mergeSort fun a b => totalLe (stored a) (stored b)
  let sorted := order.toArray
  items.map fun point =>
    let start := partitionPoint sorted fun p => x p < point.coord 0 - tolerance
    let window := (order.drop start).takeWhile fun p => x p ≤ point.coord 0 + tolerance
    let found := (window.map fun p => (Point.distance point (Point.ofEncoded (parents.getD p #[])), p)).filter
      fun (dist, _) => dist ≤ tolerance
    (found.mergeSort fun a b => decide (a.1 ≤ b.1)).map (·.2)

/-- The elements holding each vertex of a mesh, in element order. -/
def incidence (mesh : SimplexMesh) : Array (List Nat) :=
  mesh.elements.toList.zipIdx.foldl (fun acc (vs, e) =>
    vs.foldl (fun acc v => acc.modify v (· ++ [e])) acc) (Array.replicate mesh.nbVertices [])

/-- The parent elements holding a match of every vertex of a facet element,
in increasing order, each with the match it chooses for every facet vertex:
its first vertex among that vertex's matches. -/
def enclosingElements (facetVertices : List Nat) (parent : SimplexMesh) (incident : Array (List Nat))
    (coincident : Array (List Nat)) : List (Nat × List Nat) :=
  match facetVertices with
  | [] => []
  | first :: _ =>
    let candidates := ((coincident.getD first []).flatMap (incident.getD · [])).mergeSort (· ≤ ·)
    candidates.eraseDups.filterMap fun candidate => do
      let parentVertices ← parent.elementVertices? candidate
      let chosen ← facetVertices.mapM fun fv =>
        parentVertices.find? fun pv => (coincident.getD fv []).contains pv
      pure (candidate, chosen)

/-- Records `pv` for the facet vertex `fv` unless it already has one. -/
def claim (side : Array (Option Nat)) (fv pv : Nat) : Array (Option Nat) :=
  side.modify fv fun o => if o.isSome then o else some pv

/-- Records the choices of an enclosing element for the facet vertices. -/
def claimAll (side : Array (Option Nat)) (facetVertices chosen : List Nat) : Array (Option Nat) :=
  (facetVertices.zip chosen).foldl (fun s (fv, pv) => claim s fv pv) side

/-- For a boundary facet, the parent vertex of each facet vertex chosen by
the first enclosing element of the first facet element having one. -/
def boundarySide (facet parent : SimplexMesh) (coincident : Array (List Nat)) : Array (Option Nat) :=
  let incident := incidence parent
  facet.elements.foldl (fun resolved fvs =>
    match enclosingElements fvs parent incident coincident with
    | (_, chosen) :: _ => claimAll resolved fvs chosen
    | [] => resolved) (Array.replicate facet.nbVertices none)

/-- The side of the facet an enclosing element lies on: `some true` in
front, `some false` behind, none when its remaining vertex is missing or
lies on the facet. -/
def sideOf (d : Nat) (parent : SimplexMesh) (facetPoints : List Point) (candidate : Nat)
    (chosen : List Nat) : Option Bool := do
  let parentVertices ← parent.elementVertices? candidate
  let opposite ← parentVertices.find? fun pv => !chosen.contains pv
  let o ← Simplex.orientation d (facetPoints ++ [← parent.point? opposite])
  if o > 0.0 then some true else if o < 0.0 then some false else none

/-- Records the choices of an enclosing element, given with its index, on
the side of the facet element `fvs` (at `fps`) that it lies on. -/
def claimSide (d : Nat) (parent : SimplexMesh) (fvs : List Nat) (fps : List Point)
    (sides : Array (Option Nat) × Array (Option Nat)) (enclosing : Nat × List Nat) :
    Array (Option Nat) × Array (Option Nat) :=
  match sideOf d parent fps enclosing.1 enclosing.2 with
  | some true => (claimAll sides.1 fvs enclosing.2, sides.2)
  | some false => (sides.1, claimAll sides.2 fvs enclosing.2)
  | none => sides

/-- Records the choices of the elements enclosing the facet element `e`,
each on its side. -/
def claimSides (d : Nat) (facet parent : SimplexMesh) (incident coincident : Array (List Nat))
    (sides : Array (Option Nat) × Array (Option Nat)) (e : Nat) :
    Array (Option Nat) × Array (Option Nat) :=
  match facet.elementVertices? e, facet.elementPoints? e with
  | some fvs, some fps =>
    (enclosingElements fvs parent incident coincident).foldl (claimSide d parent fvs fps) sides
  | _, _ => sides

/-- For an internal facet, the parent vertex of each facet vertex on the
front side and on the back side. -/
def sides (d : Nat) (facet parent : SimplexMesh) (coincident : Array (List Nat)) :
    Array (Option Nat) × Array (Option Nat) :=
  let unset : Array (Option Nat) := Array.replicate facet.nbVertices none
  (List.range facet.nbElements).foldl (claimSides d facet parent (incidence parent) coincident)
    (unset, unset)

/-- For each of the `n` facet vertices, the parent vertex chosen on one side,
else the one chosen on the other side, else its nearest match. -/
def pickVertices (coincident : Array (List Nat)) (n : Nat) (first second : Array (Option Nat)) :
    List (Option Nat) :=
  (List.range n).map fun v =>
    ((first.getD v none).orElse fun _ => second.getD v none).orElse fun _ => (coincident.getD v []).head?

/-- For each mesh a facet gives, the parent vertex chosen for each facet
vertex: one list for a boundary, two for an internal facet (front side,
then back side). Facet vertices are matched with parent vertices within
`tolerance`. -/
def facetChoices (d : Nat) (facet parent : SimplexMesh) (tolerance : Float) (boundary : Bool) :
    List (List (Option Nat)) :=
  let coincident := coincidentVertices facet.points parent.coordinates tolerance
  let pick := pickVertices coincident facet.nbVertices
  if boundary then
    let resolved := boundarySide facet parent coincident
    [pick resolved resolved]
  else
    let (front, back) := sides d facet parent coincident
    [pick front back, pick back front]

end Stratigraphy

namespace Model

open Stratigraphy

/-- The mesh of the facet `item` moved to the stratigraphic points of the
chosen parent vertices; a facet vertex without one fails. -/
def rebuildFacet (m : Model) (parent item : Uuid) (parentMesh : SimplexMesh)
    (vertices : List (Option Nat)) : Except Error SimplexMesh := do
  let points ← vertices.zipIdx.mapM fun (pv, v) =>
    match pv with
    | some pv => vertexCoordinates m.dim parent parentMesh pv
    | none => throw (.mapping (.invalidTopology
      s!"vertex {v} of item {item.toText} matches no vertex of {parent.toText}"))
  (← m.mesh item).withCoordinates points.toArray

/-- The facet `item` of the cell `parent` in stratigraphic space: one mesh
for a boundary, two for an internal facet (front side, then back side).
Facet vertices are matched with cell vertices within `tolerance`. -/
def stratigraphicItemMeshes (m : Model) (parent item : Uuid) (tolerance : Float) :
    Except Error (List SimplexMesh) := do
  let boundary := m.isBoundary item parent
  if !boundary && !m.isInternal item parent then
    throw (.mapping (.notBoundaryNorInternal item parent))
  let parentMesh ← m.cellMesh parent
  let facet ← m.facetMesh item
  (facetChoices m.dim facet parentMesh tolerance boundary).mapM (m.rebuildFacet parent item parentMesh)

end Model

end Subsurface
