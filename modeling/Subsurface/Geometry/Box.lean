import Subsurface.Geometry.Point
/-!
Axis-aligned bounding boxes.

A box grows axis by axis: the new point's coordinate replaces the box's
unless the box's is strictly further out, so of two equal coordinates (two
zeros of opposite sign among them) the point's is kept, a NaN in the box is
replaced, and a NaN in the point is ignored. Containment is
tested against the box enlarged by a tolerance; two boxes intersect when they
overlap on every axis, touching included.
-/

namespace Subsurface

/-- An axis-aligned box given by its two extreme corners. -/
structure Box (K : Type := Float) where
  min : Point K
  max : Point K
  deriving Inhabited

namespace Box

variable {K : Type} [Scalar K]

/-- The box reduced to one point. -/
def ofPoint (p : Point K) : Box K := ⟨p, p⟩

/-- The box grown to contain `p`; the point wins ties. -/
def addPoint (b : Box K) (p : Point K) : Box K :=
  ⟨Array.zipWith minNum p b.min, Array.zipWith maxNum p b.max⟩

/-- The box grown to contain another box, its minimum corner first. -/
def addBox (b other : Box K) : Box K :=
  (b.addPoint other.min).addPoint other.max

/-- Smallest box containing every point, `none` for no point. -/
def ofPoints : List (Point K) → Option (Box K)
  | [] => none
  | p :: rest => some (rest.foldl addPoint (ofPoint p))

/-- Extent along every axis. -/
def diagonal (b : Box K) : Point K := Point.sub b.max b.min

/-- Whether `p` lies in the box enlarged by `tolerance`. -/
def contains (b : Box K) (p : Point K) (tolerance : K) : Bool :=
  (List.range b.min.size).all fun i =>
    p.coord i >= b.min.coord i - tolerance && p.coord i <= b.max.coord i + tolerance

/-- Whether two boxes overlap on every axis, touching included. -/
def intersects (b other : Box K) : Bool :=
  (List.range b.min.size).all fun i =>
    b.min.coord i <= other.max.coord i && other.min.coord i <= b.max.coord i

end Box

end Subsurface
