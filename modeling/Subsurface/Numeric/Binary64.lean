/-!
Doubles kept as their 64-bit IEEE 754 encoding.

`Float` computes with doubles but reads every NaN back as the one positive
quiet NaN. A number that a model stores is kept as its encoding instead, so
that a NaN keeps its sign and payload from where it is read to where it is
written.

Arithmetic on encodings gives the double that `Float` computes whenever that
is a number. A NaN result follows the rule of the processors the stored
files come from: a NaN operand is passed on quieted, the left one when both
are NaN, and an invalid operation on two numbers, such as `∞ · 0`, gives the
default NaN, which is negative and has an empty payload.
-/

namespace Subsurface

/-- A double as its 64-bit encoding: sign, 11 exponent bits, 52 fraction
bits. -/
structure Binary64 where
  bits : UInt64
  deriving BEq, DecidableEq, Inhabited

namespace Binary64

/-- Encoding of a double; every NaN is encoded as the positive quiet NaN. -/
def ofFloat (x : Float) : Binary64 := ⟨x.toBits⟩

/-- The double an encoding stands for. -/
def toFloat (x : Binary64) : Float := Float.ofBits x.bits

/-- Positive zero. -/
def zero : Binary64 := ⟨0⟩

/-- Whether the encoding is a NaN: all exponent bits set and a nonzero
fraction. -/
def isNaN (x : Binary64) : Bool :=
  (x.bits >>> 52) &&& 0x7FF == 0x7FF && x.bits &&& 0xFFFFFFFFFFFFF != 0

/-- The NaN with the quiet bit, the highest fraction bit, set. -/
def quiet (x : Binary64) : Binary64 := ⟨x.bits ||| 0x8000000000000⟩

/-- The NaN an invalid operation on two numbers gives. -/
def defaultNaN : Binary64 := ⟨0xFFF8000000000000⟩

/-- Applies a binary operation of doubles to encodings: a NaN operand is
passed on quieted, the left one first; otherwise the double computed, with
the default NaN for an invalid operation. -/
def combine (op : Float → Float → Float) (a b : Binary64) : Binary64 :=
  if a.isNaN then a.quiet
  else if b.isNaN then b.quiet
  else
    let r := op a.toFloat b.toFloat
    if r.isNaN then defaultNaN else ofFloat r

/-- Sum of two encoded doubles. -/
def add (a b : Binary64) : Binary64 := combine (· + ·) a b

/-- Product of two encoded doubles. -/
def mul (a b : Binary64) : Binary64 := combine (· * ·) a b

/-- Where a double sits on the number line: the encoding without its sign
bit, negated for a negative sign. Both zeros sit at 0, and on numbers the
order of places is the order of the doubles. -/
def rank (x : Binary64) : Int :=
  let magnitude : Int := (x.bits &&& 0x7FFFFFFFFFFFFFFF).toNat
  if x.bits >>> 63 = 0 then magnitude else -magnitude

/-- Whether `a < b` as doubles; a NaN compares with nothing. -/
def lt (a b : Binary64) : Bool := !a.isNaN && !b.isNaN && decide (a.rank < b.rank)

/-- Whether `a ≤ b` as doubles; a NaN compares with nothing. -/
def le (a b : Binary64) : Bool := !a.isNaN && !b.isNaN && decide (a.rank ≤ b.rank)

theorem combine_of_isNaN (op : Float → Float → Float) {a : Binary64} (b : Binary64)
    (h : a.isNaN = true) : combine op a b = a.quiet := by
  rw [combine, if_pos h]

theorem isNaN_defaultNaN : defaultNaN.isNaN = true := by decide

end Binary64

end Subsurface
