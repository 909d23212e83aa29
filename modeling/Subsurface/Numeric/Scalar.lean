import Subsurface.Numeric.Binary64
/-!
The scalars the geometry computes with.

The library computes with doubles. Its geometry is written once for any
scalar type with the operations of `Scalar`, so that the same definitions can
also be read in another number system, where a property of the algorithm is
separated from the rounding of doubles.

Beside the arithmetic, a scalar type tells which of its values are NaN, how a
stored encoding reads, and the cell index a value falls in (the floor clamped
at zero, a NaN giving zero). On top of these come the IEEE `maxNum`/`minNum`
pair as scalar hardware computes it, the positive part, and left-to-right
sums.

`maxNum a b` returns `b` when `a` is NaN and otherwise keeps `a` unless `b` is
strictly larger; `minNum` is the same with the order reversed. A NaN operand is therefore ignored
unless both are NaN, and of two zeros of opposite sign the first is kept.
-/

namespace Subsurface

/-- A number type the geometry can compute with. -/
class Scalar (K : Type) extends Zero K, One K, Add K, Sub K, Mul K, Div K, Neg K, LT K, LE K,
    BEq K, NatCast K, OfScientific K where
  abs : K → K
  sqrt : K → K
  isNaN : K → Bool
  /-- The floor of a value as a natural number: zero for a negative value and
  for NaN. -/
  floorNat : K → Nat
  /-- The value of a stored encoding. -/
  ofBinary64 : Binary64 → K
  decLt : ∀ a b : K, Decidable (a < b)
  decLe : ∀ a b : K, Decidable (a ≤ b)

namespace Scalar

instance instDecidableLt {K : Type} [Scalar K] (a b : K) : Decidable (a < b) := decLt a b

instance instDecidableLe {K : Type} [Scalar K] (a b : K) : Decidable (a ≤ b) := decLe a b

end Scalar

/-- Doubles, as the library computes. -/
instance : Scalar Float where
  zero := 0.0
  one := 1.0
  natCast := Nat.toFloat
  abs := Float.abs
  sqrt := Float.sqrt
  isNaN := Float.isNaN
  -- truncation toward zero is the floor on nonnegative values, and a
  -- negative value or NaN truncates to zero
  floorNat x := x.toUInt64.toNat
  ofBinary64 := Binary64.toFloat
  decLt := Float.decLt
  decLe := Float.decLe

section

variable {K : Type} [Scalar K]

/-- The larger of two values, ignoring a NaN operand; `a` wins ties. -/
def maxNum (a b : K) : K :=
  if Scalar.isNaN a then b else if b > a then b else a

/-- The smaller of two values, ignoring a NaN operand; `a` wins ties. -/
def minNum (a b : K) : K :=
  if Scalar.isNaN a then b else if b < a then b else a

/-- The positive part of a value: `x` when it is greater than zero, and
zero otherwise, for a zero of either sign and for NaN too. -/
def positivePart (x : K) : K :=
  if x > 0 then x else 0

/-- Sum of a list of values, accumulated from the left starting at zero. -/
def sumFloats (xs : List K) : K :=
  xs.foldl (· + ·) 0

theorem maxNum_of_isNaN {a : K} (b : K) (h : Scalar.isNaN a = true) : maxNum a b = b := by
  rw [maxNum, if_pos h]

theorem minNum_of_isNaN {a : K} (b : K) (h : Scalar.isNaN a = true) : minNum a b = b := by
  rw [minNum, if_pos h]

end

end Subsurface
