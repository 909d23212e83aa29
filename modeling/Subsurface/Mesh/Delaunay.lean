import Subsurface.Mesh.Simplex
import Subsurface.Numeric.Decimal
import Std.Data.HashSet
/-!
Delaunay triangulation of points of the plane, built by inserting the points
one by one.

Coordinates are checked first, point by point, `x` before `y`: a NaN, a
nonzero magnitude below `2^-142` or a magnitude above `2^201` is refused.
A point equal to a vertex shares its index and moves it onto itself, which
shows only in the sign of a zero coordinate; while two or more vertices lie
on one line the vertex stays where it is. While the vertices lie on one
line there is no triangle; the first vertex off it is
joined to every segment of the line. Later a vertex splits the triangle or
the edge it lies in, or outside the triangulation is joined to every
boundary edge facing it, and edges opposite it are then flipped while it
lies strictly inside the circle through the triangle beyond. Every test is
exact, on the doubles' values, and a vertex on such a circle flips nothing:
of the triangulations with empty circles, insertion order picks one.

The triangles are listed counter-clockwise, each starting at its smallest
vertex, in increasing order.
-/

namespace Subsurface

namespace Delaunay

/-- Smallest nonzero coordinate magnitude accepted, `2^-142`. -/
def minMagnitude : Float := 1.793662034335766e-43

/-- Largest coordinate magnitude accepted, `2^201`. -/
def maxMagnitude : Float := 3.2138760885179806e60

/-- Why a coordinate is refused, if it is. -/
def coordinateProblem (x : Float) : Option String :=
  if x.isNaN then some "NAN"
  else if x.abs < minMagnitude ∧ x != 0.0 then some "TooSmall"
  else if x.abs > maxMagnitude then some "TooLarge"
  else none

/-- The first refused coordinate, in point order. -/
def firstProblem (points : List Point) : Option String :=
  points.findSome? fun p => (coordinateProblem (p.coord 0)).orElse fun _ => coordinateProblem (p.coord 1)

/-- Exact value of a finite double as a signed significand and a binary
exponent. -/
def exact (x : Float) : Int × Int :=
  let f := Decimal.fields x
  let (m, q) := f.significand
  ((if f.negative then -(m : Int) else m), q)

/-- Exact integer coordinates of the vertices, all scaled by one power of
two. -/
def scaled (vertices : Array Point) : Array (Int × Int) :=
  let parts := vertices.toList.map fun p => (exact (p.coord 0), exact (p.coord 1))
  let qs := (parts.flatMap fun (x, y) => [x, y]).filterMap fun (m, q) => if m = 0 then none else some q
  let qmin := qs.foldl min (qs.headD 0)
  let lift (v : Int × Int) : Int := v.1 * Int.pow 2 (v.2 - qmin).toNat
  (parts.map fun (x, y) => (lift x, lift y)).toArray

/-- Twice the signed area of the triangle `a b c`: positive when
counter-clockwise. -/
def orient (a b c : Int × Int) : Int :=
  (b.1 - a.1) * (c.2 - a.2) - (b.2 - a.2) * (c.1 - a.1)

/-- Positive when `d` lies strictly inside the circle through the
counter-clockwise triangle `a b c`. -/
def inCircle (a b c d : Int × Int) : Int :=
  let adx := a.1 - d.1; let ady := a.2 - d.2
  let bdx := b.1 - d.1; let bdy := b.2 - d.2
  let cdx := c.1 - d.1; let cdy := c.2 - d.2
  let ad := adx * adx + ady * ady
  let bd := bdx * bdx + bdy * bdy
  let cd := cdx * cdx + cdy * cdy
  adx * (bdy * cd - bd * cdy) - ady * (bdx * cd - bd * cdx) + ad * (bdx * cdy - bdy * cdx)

/-- A triangle rotated to start at its smallest vertex. -/
def canonical : Nat × Nat × Nat → List Nat
  | (a, b, c) =>
    if a ≤ b ∧ a ≤ c then [a, b, c] else if b ≤ a ∧ b ≤ c then [b, c, a] else [c, a, b]

/-- Lexicographic order on vertex lists. -/
def listLt : List Nat → List Nat → Bool
  | [], _ :: _ => true
  | a :: as, b :: bs => a < b || (a == b && listLt as bs)
  | _, _ => false

/-- A triangle as three vertex indices, counter-clockwise. -/
abbrev Triangle := Nat × Nat × Nat

/-- Whether two triangles have the same vertices in the same cyclic order. -/
def sameTriangle (t u : Triangle) : Bool :=
  let (a, b, c) := t
  u == (a, b, c) || u == (b, c, a) || u == (c, a, b)

/-- The third vertex of `t` when it runs along the edge from `x` to `y`. -/
def beyond (x y : Nat) (t : Triangle) : Option Nat :=
  let (a, b, c) := t
  if a == x && b == y then some c
  else if b == x && c == y then some a
  else if c == x && a == y then some b
  else none

/-- A triangulation under construction: the position of every vertex in
order of first insertion, its exact coordinates, and the counter-clockwise
triangles. -/
structure Builder where
  positions : Array Point
  exact : Array (Int × Int)
  triangles : List Triangle

namespace Builder

/-- Exact coordinates of vertex `i`. -/
def coords (t : Builder) (i : Nat) : Int × Int := t.exact.getD i (0, 0)

/-- The edges of `v`'s triangles that lie opposite `v`, one per triangle
holding `v` as third vertex. -/
def oppositeEdges (v : Nat) (star : List Triangle) : List (Nat × Nat) :=
  star.filterMap fun (a, b, c) => if c == v then some (a, b) else none

/-- Restores the empty-circle property around the new vertex `v`: an edge
opposite `v` is flipped when `v` lies strictly inside the circle through
the triangle on its other side, and the two edges the flip brings opposite
`v` are examined in turn. A vertex on that circle leaves the edge as it is.
Each flip removes one triangle that does not hold `v`, so `fuel` counting
the edges to examine and twice the triangles suffices. -/
def legalize (t : Builder) (v : Nat) : Nat → List (Nat × Nat) → Builder
  | 0, _ => t
  | _, [] => t
  | fuel + 1, (x, y) :: rest =>
    match t.triangles.findSome? (beyond y x) with
    | some z =>
      if inCircle (t.coords y) (t.coords x) (t.coords z) (t.coords v) > 0 then
        let kept := t.triangles.filter fun u => !sameTriangle u (x, y, v) && !sameTriangle u (y, x, z)
        legalize { t with triangles := kept ++ [(x, z, v), (z, y, v)] } v fuel
          ((x, z) :: (z, y) :: rest)
      else legalize t v fuel rest
    | none => legalize t v fuel rest

/-- Adds the triangles of the new vertex `v`, replacing `removed`, and
restores the empty-circle property around it. -/
def attach (t : Builder) (v : Nat) (removed star : List Triangle) : Builder :=
  let kept := t.triangles.filter fun u => !removed.any (sameTriangle u)
  let t := { t with triangles := kept ++ star }
  let edges := oppositeEdges v star
  t.legalize v (edges.length + 2 * t.triangles.length + 1) edges

/-- Inserts the new vertex `v` while the vertices before it lie on one
line: a vertex off that line is joined to every segment between two
neighbours along it. -/
def extendLine (t : Builder) (v : Nat) : Builder :=
  let line := (List.range v).mergeSort fun i j =>
    let p := t.coords i
    let q := t.coords j
    p.1 < q.1 || (p.1 == q.1 && p.2 ≤ q.2)
  match line with
  | a :: b :: _ =>
    if orient (t.coords a) (t.coords b) (t.coords v) == 0 then t
    else
      let star := (line.zip (line.drop 1)).map fun (i, j) =>
        if orient (t.coords i) (t.coords j) (t.coords v) > 0 then (i, j, v) else (j, i, v)
      t.attach v [] star
  | _ => t

/-- The edges of the triangulation's boundary, each directed with the
triangles on its left. -/
def hullEdges (t : Builder) : List (Nat × Nat) :=
  let edges := t.triangles.flatMap fun (a, b, c) => [(a, b), (b, c), (c, a)]
  let present : Std.HashSet (Nat × Nat) := Std.HashSet.ofList edges
  edges.filter fun (x, y) => !present.contains (y, x)

/-- Inserts the new vertex `v` once some triangle exists: a vertex inside a
triangle splits it in three, one inside an edge splits the triangles on both
sides of it in two each, and one outside the triangulation is joined to
every boundary edge it sees strictly from outside. -/
def insertInPlane (t : Builder) (v : Nat) : Builder :=
  let p := t.coords v
  let holds (tri : Triangle) : Bool :=
    let (a, b, c) := tri
    orient (t.coords a) (t.coords b) p ≥ 0 && orient (t.coords b) (t.coords c) p ≥ 0 && orient (t.coords c) (t.coords a) p ≥ 0
  match t.triangles.find? holds with
  | some (a, b, c) =>
    let edge :=
      if orient (t.coords a) (t.coords b) p == 0 then some (a, b)
      else if orient (t.coords b) (t.coords c) p == 0 then some (b, c)
      else if orient (t.coords c) (t.coords a) p == 0 then some (c, a)
      else none
    match edge with
    | some (x, y) =>
      let sides := t.triangles.filterMap fun u =>
        ((beyond x y u).map fun z => (x, y, z)).orElse fun _ => (beyond y x u).map fun z => (y, x, z)
      let star := sides.flatMap fun (i, j, k) => [(k, i, v), (j, k, v)]
      t.attach v sides star
    | none => t.attach v [(a, b, c)] [(a, b, v), (b, c, v), (c, a, v)]
  | none =>
    let seen := t.hullEdges.filter fun (x, y) => orient (t.coords x) (t.coords y) p < 0
    t.attach v [] (seen.map fun (x, y) => (y, x, v))

/-- Inserts a point with its exact coordinates: a point equal to a vertex
moves that vertex onto it, unless two or more vertices lie on one line, and
any other becomes a new vertex. -/
def insert (t : Builder) (point : Point) (e : Int × Int) : Builder :=
  match t.exact.findIdx? (· == e) with
  | some i =>
    if t.triangles.isEmpty && t.positions.size ≥ 2 then t
    else { t with positions := t.positions.set! i point }
  | none =>
    let v := t.positions.size
    let t' : Builder := ⟨t.positions.push point, t.exact.push e, t.triangles⟩
    if t.triangles.isEmpty then t'.extendLine v else t'.insertInPlane v

end Builder

/-- A triangulated surface, or the reason there is none. -/
structure Triangulation where
  vertices : Array Point
  triangles : List (List Nat)

/-- Delaunay triangulation of the points, inserted one by one. -/
def triangulate (points : List Point) : Except Error Triangulation :=
  match firstProblem points with
  | some p => .error (.mapping (.degenerate s!"delaunay insert: {p}"))
  | none =>
    let exactPoints := scaled points.toArray
    let t := (points.zip exactPoints.toList).foldl (fun (t : Builder) (p, e) => t.insert p e) ⟨#[], #[], []⟩
    if t.triangles.isEmpty then .error (.mapping (.degenerate "points do not span a triangle"))
    else
      let tris := t.triangles.map canonical
      .ok ⟨t.positions, tris.mergeSort fun x y => !listLt y x⟩

/-- Number of vertices and of triangles of the Delaunay triangulation. -/
def triangleCount (points : List Point) : Except Error (Nat × Nat) := do
  let t ← triangulate points
  pure (t.vertices.size, t.triangles.length)

end Delaunay

end Subsurface
