import Subsurface.Numeric.Scalar
import Subsurface.Numeric.Binary64
/-!
Points and vectors of the model space, one coordinate per axis.

Every operation works axis by axis in order; the norm sums the squares from
the first axis to the last, starting at zero, before its square root.
-/

namespace Subsurface

/-- A point or a vector, one coordinate per axis; doubles unless said
otherwise. -/
abbrev Point (K : Type := Float) := Array K

namespace Point

section

variable {K : Type} [Scalar K]

/-- The coordinate along `axis`, zero past the last axis. -/
def coord (p : Point K) (axis : Nat) : K := p.getD axis 0

/-- The point whose coordinates have the encodings `c`. -/
def ofEncoded (c : Array Binary64) : Point K := c.map Scalar.ofBinary64

/-- The origin of a space of dimension `d`. -/
def origin (d : Nat) : Point K := Array.replicate d 0

/-- Difference `a - b`, axis by axis. -/
def sub (a b : Point K) : Point K := Array.zipWith (· - ·) a b

/-- Sum `a + b`, axis by axis. -/
def add (a b : Point K) : Point K := Array.zipWith (· + ·) a b

/-- Every coordinate multiplied by `w`. -/
def scale (p : Point K) (w : K) : Point K := p.map (· * w)

/-- Sum of the squared coordinates, from the first axis. -/
def normSq (p : Point K) : K := p.foldl (fun s x => s + x * x) 0

/-- Euclidean length. -/
def norm (p : Point K) : K := Scalar.sqrt (normSq p)

/-- Euclidean distance, the length of `a - b`. -/
def distance (a b : Point K) : K := norm (sub a b)

/-- Weighted sum `∑ wᵢ pᵢ` over the pairs of `points` and `weights`, the
longer list cut to the shorter, accumulated from the origin of dimension `d`. -/
def interpolate (d : Nat) (points : List (Point K)) (weights : List K) : Point K :=
  (points.zip weights).foldl (fun acc (p, w) => add acc (scale p w)) (origin d)

@[simp] theorem size_sub (a b : Point K) : (sub a b).size = min a.size b.size := by
  simp [sub]

@[simp] theorem size_origin (d : Nat) : (origin d : Point K).size = d := by
  simp [origin]

end

/-- The encodings of the coordinates; a NaN is encoded as the positive quiet
NaN. -/
def encode (p : Point) : Array Binary64 := p.map Binary64.ofFloat

end Point

end Subsurface
