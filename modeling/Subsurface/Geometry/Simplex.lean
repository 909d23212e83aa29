import Subsurface.Geometry.Matrix
/-!
Simplices of the model space: signed measure, barycentric weights, and the
weights of the closest point.

A simplex of a `d`-dimensional space has `d + 1` vertices. Its orientation is
the determinant of the matrix whose columns are the edges from the first
vertex. Barycentric weights solve the edge system; a simplex whose longest
edge from the first vertex is below `tolerance`, or whose determinant is below
`tolerance` times that length to the power `d`, is flat and has none. The
closest point is found face by face: every non-empty subset of the vertices,
in increasing bitmask order, is projected on, projections with a weight below
`-tolerance` are discarded, and the first face reaching the smallest distance
wins.
-/

namespace Subsurface

namespace Simplex

variable {K : Type} [Scalar K]

/-- Geometric tolerance for flatness and inside tests. -/
def tolerance : K := 1e-10

/-- `x` to the power `k`, by binary powering from one. -/
def powi (x : K) (k : Nat) : K :=
  (go k x 1 k)
where
  /-- Binary powering; `fuel` bounds the number of halvings. -/
  go (fuel : Nat) (a r : K) (k : Nat) : K :=
    match fuel with
    | 0 => r
    | fuel + 1 =>
      let r := if k % 2 = 1 then r * a else r
      if k / 2 = 0 then r else go fuel (a * a) r (k / 2)

/-- Matrix of the edges from the first vertex, one column per edge. -/
def edges (d : Nat) (vertices : List (Point K)) : Matrix K :=
  let v0 := vertices.headD #[]
  Matrix.ofFn d d fun r c => (vertices.getD (c + 1) #[]).coord r - v0.coord r

/-- Signed measure of a full-dimensional simplex, up to `1/d!`: positive for
a counter-clockwise triangle and a right-handed tetrahedron. -/
def orientation (d : Nat) (vertices : List (Point K)) : Option K :=
  if vertices.length ≠ d + 1 then none
  else some ((edges d vertices).determinant d)

/-- Weights `[1 - ∑ sᵢ, s₁, …]` from the edge coordinates `s`. -/
def weightsOf (solution : Point K) : List K :=
  (1 - sumFloats solution.toList) :: solution.toList

/-- Length of the longest edge from the first vertex. -/
def longestEdge (vertices : List (Point K)) : K :=
  (vertices.drop 1).foldl (fun s v => maxNum s (Point.distance v (vertices.headD #[]))) 0

/-- Whether a simplex is too flat for barycentric weights: its longest edge
from the first vertex is below `tolerance`, or its orientation is below
`tolerance` times that length to the power `d`. -/
def isFlat (d : Nat) (vertices : List (Point K)) : Bool :=
  longestEdge vertices < tolerance ||
    Scalar.abs ((edges d vertices).determinant d) < powi (longestEdge vertices) d * tolerance

/-- Barycentric weights of `point` in a full-dimensional simplex, `none` for
a flat one. -/
def barycentric (d : Nat) (vertices : List (Point K)) (point : Point K) : Option (List K) :=
  if vertices.length ≠ d + 1 then none
  else if isFlat d vertices then none
  else
    let v0 := vertices.headD #[]
    let rhs := (Array.range d).map fun r => point.coord r - v0.coord r
    ((Matrix.factor (edges d vertices) d).solve rhs).map weightsOf

/-- Matrix of the edges of a face, from the vertex `first` to each vertex
listed in `others`, one column per edge. -/
def faceEdges (d : Nat) (vertices : List (Point K)) (first : Nat) (others : List Nat) : Matrix K :=
  let origin := vertices.getD first #[]
  Matrix.ofFn d others.length fun r c => (vertices.getD (others.getD c 0) #[]).coord r - origin.coord r

/-- Gram matrix of the edges of a face: the product of every two edges. -/
def faceGram (d : Nat) (vertices : List (Point K)) (first : Nat) (others : List Nat) : Matrix K :=
  let k := others.length
  let e := faceEdges d vertices first others
  (e.transpose d k).mul e k d k

/-- Whether a face is too flat to project on: its largest Gram diagonal
entry, the square of its longest edge, is below `tolerance`, or its Gram
determinant is below `tolerance` times that entry to the power of the number
of edges. -/
def faceIsFlat (d : Nat) (vertices : List (Point K)) (first : Nat) (others : List Nat) : Bool :=
  let k := others.length
  let gram := faceGram d vertices first others
  let scale := (List.range k).foldl (fun s i => maxNum s (gram.entry i i)) 0
  scale < tolerance || Scalar.abs (gram.determinant k) < powi scale k * tolerance

/-- Weights of the orthogonal projection of `point` on the affine hull of the
vertices listed in `face`, `none` for a flat face. -/
def faceProjection (d : Nat) (vertices : List (Point K)) (face : List Nat) (point : Point K) :
    Option (List K) :=
  match face with
  | [] => none
  | first :: others =>
    let origin := vertices.getD first #[]
    let k := others.length
    if k = 0 then some [1]
    else if faceIsFlat d vertices first others then none
    else
      let et := (faceEdges d vertices first others).transpose d k
      let diff := (Array.range d).map fun r => point.coord r - origin.coord r
      let rhs := et.mulVec diff k d
      ((Matrix.factor (faceGram d vertices first others) k).solve rhs).map weightsOf

/-- Vertex indices whose bit is set in `mask`, in increasing order. -/
def faceOf (n mask : Nat) : List Nat :=
  (List.range n).filter fun i => mask / Nat.pow 2 i % 2 = 1

/-- Weights over all vertices for one face: the face weights clamped at zero
and scattered to their vertices, then divided by their total. -/
def spread (n : Nat) (face : List Nat) (faceWeights : List K) : List K :=
  let raw := (List.range n).map fun i =>
    match (face.zip faceWeights).lookup i with
    | some w => positivePart w
    | none => 0
  let total := sumFloats raw
  raw.map (· / total)

/-- Barycentric weights, over all vertices, of the point of the simplex
closest to `point`; `none` for no vertex or more than `d + 1`. -/
def closestWeights (d : Nat) (vertices : List (Point K)) (point : Point K) : Option (List K) :=
  let n := vertices.length
  if n = 0 ∨ n > d + 1 then none
  else
    let consider (best : Option (K × List K)) (mask : Nat) : Option (K × List K) :=
      let face := faceOf n mask
      match faceProjection d vertices face point with
      | none => best
      | some fw =>
        if fw.any (· < -tolerance) then best
        else
          let w := spread n face fw
          let dist := Point.distance (Point.interpolate d vertices w) point
          match best with
          | some (bd, _) => if dist < bd then some (dist, w) else best
          | none => some (dist, w)
    ((List.range' 1 (Nat.pow 2 n - 1)).foldl consider none).map (·.2)

end Simplex

end Subsurface
