import Subsurface.Geometry.Simplex
import Subsurface.Geometry.Box
/-!
Point location over a set of simplices.

An element contains a query point when its vertex indices are all valid, its
simplex is not flat, and every barycentric weight of the point is at least
`-tolerance`. A point contained in no element snaps onto the element whose
closest point is nearest (the first one on ties), provided that distance is
at most `outsideTolerance` times the length of the diagonal of the points'
box.

The brute-force strategy tries every element in order. The grid strategy
divides the points' box into `n` cells per axis (`n` clamped to `1` and to the
largest value keeping `n^d ≤ 2^20`); a point inside the box, enlarged by the
tolerance, is only tried against the elements whose corner box covers its
cell, in element order, and falls back to the nearest element otherwise.
-/

namespace Subsurface

/-- How candidate elements are chosen. -/
inductive Strategy where
  | bruteForce
  | grid (cellsPerAxis : Nat)
  deriving DecidableEq, Inhabited

/-- Point-location parameters. -/
structure LocatorParams (K : Type := Float) [OfScientific K] where
  tolerance : K := 1e-8
  outsideTolerance : K := 1e-6
  strategy : Strategy := .grid 16
  deriving Inhabited

/-- Element found for a query point, the point's weights in it, and whether
the point lies in it (`false` when it was snapped onto it). -/
structure Location (K : Type := Float) where
  element : Nat
  weights : List K
  inside : Bool

/-- Most cells a grid may have. -/
def maxGridCells : Nat := Nat.pow 2 20

/-- Largest per-axis resolution `n` with `n ^ d ≤ 2^20`; from two axes on it
is at most `1024`. -/
def maxCellsPerAxis (d : Nat) : Nat :=
  if d ≤ 1 then maxGridCells
  else (List.range 1025).foldl (fun best n => if 0 < n ∧ Nat.pow n d ≤ maxGridCells then n else best) 1

/-- Index of the grid cell holding the fraction `t` of an axis: the floor of
`t · n`, clamped to `0` and `n - 1`, a NaN giving `0`. -/
def cellIndex {K : Type} [Scalar K] (n : Nat) (t : K) : Nat :=
  min (Scalar.floorNat (t * n)) (n - 1)

/-- A point set with its elements, ready for location queries. -/
structure Locator (K : Type := Float) [OfScientific K] where
  dim : Nat
  points : Array (Point K)
  elements : Array (List Nat)
  bbox : Option (Box K)
  params : LocatorParams K
  /-- Per-axis grid resolution, or `none` for brute force. -/
  resolution : Option Nat

namespace Locator

variable {K : Type} [Scalar K]

/-- Builds a locator over `points` and `elements`. -/
def build (dim : Nat) (points : Array (Point K)) (elements : Array (List Nat)) (params : LocatorParams K) :
    Locator K :=
  let resolution := match params.strategy with
    | .bruteForce => none
    | .grid n => some (max 1 (min n (maxCellsPerAxis dim)))
  ⟨dim, points, elements, Box.ofPoints points.toList, params, resolution⟩

/-- Corner points of an element, `none` when an index is out of range. -/
def corners (l : Locator K) (e : Nat) : Option (List (Point K)) :=
  (l.elements.getD e []).mapM fun v => l.points[v]?

/-- Location of `q` in element `e` when it contains it. -/
def containing (l : Locator K) (e : Nat) (q : Point K) : Option (Location K) := do
  let cs ← l.corners e
  let w ← Simplex.barycentric l.dim cs q
  if w.all (· >= -l.params.tolerance) then some ⟨e, w, true⟩ else none

/-- Largest snapping distance: the outside tolerance times the box diagonal. -/
def maxDistance (l : Locator K) : K :=
  l.params.outsideTolerance * (match l.bbox with
    | some b => b.diagonal.norm
    | none => 0)

/-- The element whose closest point to `q` is nearest, first on ties, within
the snapping distance. -/
def nearest (l : Locator K) (q : Point K) : Option (Location K) :=
  let step (best : Option (K × Location K)) (e : Nat) : Option (K × Location K) :=
    match l.corners e with
    | none => best
    | some cs =>
      match Simplex.closestWeights l.dim cs q with
      | none => best
      | some w =>
        let dist := Point.distance (Point.interpolate l.dim cs w) q
        match best with
        | some (bd, _) => if dist < bd then some (dist, ⟨e, w, false⟩) else best
        | none => some (dist, ⟨e, w, false⟩)
  match (List.range l.elements.size).foldl step none with
  | none => none
  | some (dist, loc) => if dist > l.maxDistance then none else some loc

/-- Grid coordinates of a point, each clamped into the grid; an axis with no
extent has the single coordinate zero. -/
def cellOf (l : Locator K) (n : Nat) (p : Point K) : List Nat :=
  match l.bbox with
  | none => List.replicate l.dim 0
  | some b =>
    let extent := b.diagonal
    (List.range l.dim).map fun axis =>
      let e := extent.coord axis
      if e <= 0 then 0 else cellIndex n ((p.coord axis - b.min.coord axis) / e)

/-- Whether element `e`'s corner box covers the grid cell `cell`. -/
def covers (l : Locator K) (n : Nat) (e : Nat) (cell : List Nat) : Bool :=
  match l.corners e with
  | none => false
  | some cs =>
    match Box.ofPoints cs with
    | none => false
    | some eb =>
      let low := l.cellOf n eb.min
      let high := l.cellOf n eb.max
      ((low.zip high).zip cell).all fun ((a, b), c) => a ≤ c && c ≤ b

/-- The element holding `q`, or the nearest one within the snapping distance. -/
def locate (l : Locator K) (q : Point K) : Option (Location K) :=
  let all := List.range l.elements.size
  match l.resolution with
  | none =>
    match all.findSome? (l.containing · q) with
    | some loc => some loc
    | none => l.nearest q
  | some n =>
    let inGrid := match l.bbox with
      | some b => b.contains q l.params.tolerance
      | none => false
    let found :=
      if inGrid then
        let cell := l.cellOf n q
        (all.filter (l.covers n · cell)).findSome? (l.containing · q)
      else none
    match found with
    | some loc => some loc
    | none => l.nearest q

end Locator

end Subsurface
