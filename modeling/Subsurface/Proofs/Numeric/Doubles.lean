import Mathlib
import Subsurface.Numeric.Scalar
/-!
The order of doubles.

In the logic a `Float` is the bit pattern of an IEEE 754 double, read through
its unpacked form: an infinity, the NaN, a signed zero, or a finite number
with a sign, a mantissa and an exponent. Comparisons are made on the unpacked
forms, and sums and differences are computed there and packed back.

Every double but NaN has a place on a line (`place`), both zeros at one
place, and `<`, `≤` and `==` compare places (`lt_iff`, `le_iff`, `beq_iff`),
while NaN compares with nothing. On numbers `≤` is therefore a total preorder
whose only tie between distinct doubles is the pair of zeros.

Unpacking the encoding of a double and packing it back gives the encoding
again (`pack_unpack_of_valid`), so subtracting or adding a zero leaves a number at its
place (`place_sub_zero`, `place_add_zero`).

Multiplying doubles commutes, NaN and infinities included (`float_mul_comm`): the
product of two unpacked doubles multiplies their signs and mantissas and adds
their exponents before rounding, and treats its special cases alike on
either side.
-/

open Float.Model UnpackedFloat

namespace Subsurface

namespace Doubles

/-! ## Places -/

/-- Where an unpacked double sits on the line: infinities at the ends,
negative numbers by decreasing exponent and mantissa, both zeros at one
place, then positive numbers by exponent and mantissa. NaN, which compares
with nothing, is put with the zeros. -/
def placeOf : UnpackedFloat → Lex (ℤ × Lex (ℤ × ℤ))
  | .infinity .negative => toLex (0, toLex (0, 0))
  | .finite .negative m e _ => toLex (1, toLex (-e, -(m : ℤ)))
  | .zero _ => toLex (2, toLex (0, 0))
  | .notANumber => toLex (2, toLex (0, 0))
  | .finite .positive m e _ => toLex (3, toLex (e, (m : ℤ)))
  | .infinity .positive => toLex (4, toLex (0, 0))

theorem compare_toLex {α β : Type} [LinearOrder α] [LinearOrder β] (a b : α) (x y : β) :
    compare (toLex (a, x)) (toLex (b, y)) = (compare a b).then (compare x y) := rfl

theorem compare_neg_neg (a b : ℤ) : compare (-a) (-b) = compare b a := by
  rcases lt_trichotomy a b with h | rfl | h
  · rw [Int.compare_eq_gt.2 (by omega), Int.compare_eq_gt.2 h]
  · rw [Int.compare_eq_eq.2 rfl, Int.compare_eq_eq.2 rfl]
  · rw [Int.compare_eq_lt.2 (by omega), Int.compare_eq_lt.2 h]

theorem compare_natCast (a b : ℕ) : compare (a : ℤ) (b : ℤ) = compare a b := by
  rcases lt_trichotomy a b with h | rfl | h
  · rw [Int.compare_eq_lt.2 (by omega), Nat.compare_eq_lt.2 h]
  · rw [Int.compare_eq_eq.2 rfl, Nat.compare_eq_eq.2 rfl]
  · rw [Int.compare_eq_gt.2 (by omega), Nat.compare_eq_gt.2 h]

theorem compare_placeOf {u v : UnpackedFloat} (hu : u.isNaN = false) (hv : v.isNaN = false) :
    u.compare v = some (compare (placeOf u) (placeOf v)) := by
  -- only two finite numbers of one sign compare by more than their kinds and signs
  cases u with
  | notANumber => cases hu
  | infinity s => cases v with
    | notANumber => cases hv
    | infinity t => cases s <;> cases t <;> rfl
    | zero t => cases s <;> cases t <;> rfl
    | finite t m e hm => cases s <;> cases t <;> rfl
  | zero s => cases v with
    | notANumber => cases hv
    | infinity t => cases s <;> cases t <;> rfl
    | zero t => cases s <;> cases t <;> rfl
    | finite t m e hm => cases s <;> cases t <;> rfl
  | finite s m e hm => cases v with
    | notANumber => cases hv
    | infinity t => cases s <;> cases t <;> rfl
    | zero t => cases s <;> cases t <;> rfl
    | finite t m' e' hm' =>
      cases s <;> cases t
      · simp only [UnpackedFloat.compare, placeOf, compare_toLex, compare_neg_neg, Int.compare_eq_eq.2,
          Ordering.eq_then, Ordering.swap_then, Int.compare_swap, compare_natCast, Nat.compare_swap]
      · rfl
      · rfl
      · simp only [UnpackedFloat.compare, placeOf, compare_toLex, Int.compare_eq_eq.2, Ordering.eq_then,
          compare_natCast]

/-- The place of a double. -/
def place (x : Float) : Lex (ℤ × Lex (ℤ × ℤ)) := placeOf x.toModel.unpack

section

variable {x y : Float}

theorem isNaN_def : x.isNaN = x.toModel.unpack.isNaN := rfl

theorem lt_def : x < y ↔ x.toModel.unpack.lt y.toModel.unpack = true := by
  show Float.lt x y = true ↔ _
  unfold Float.lt
  rw [decide_eq_true_eq]
  rfl

theorem le_def : x ≤ y ↔ x.toModel.unpack.le y.toModel.unpack = true := by
  show Float.le x y = true ↔ _
  unfold Float.le
  rw [decide_eq_true_eq]
  rfl

theorem beq_def : (x == y) = x.toModel.unpack.beq y.toModel.unpack := rfl

variable (hx : x.isNaN = false) (hy : y.isNaN = false)
include hx hy

theorem lt_iff : x < y ↔ place x < place y := by
  rw [lt_def, UnpackedFloat.lt, compare_placeOf hx hy, beq_iff_eq, Option.some.injEq, compare_lt_iff_lt]
  rfl

theorem le_iff : x ≤ y ↔ place x ≤ place y := by
  rw [le_def, UnpackedFloat.le, compare_placeOf hx hy, Option.any_some, Ordering.isLE_iff_ne_gt,
    ← not_lt, ← compare_gt_iff_gt]
  rfl

theorem beq_iff : (x == y) = true ↔ place x = place y := by
  rw [beq_def, UnpackedFloat.beq, compare_placeOf hx hy, beq_iff_eq, Option.some.injEq, compare_eq_iff_eq]
  rfl

end

/-! ## NaN and the order of numbers -/

section

variable {x y z : Float}

theorem unpack_eq_of_isNaN (hx : x.isNaN = true) : x.toModel.unpack = .notANumber :=
  UnpackedFloat.isNaN_iff.1 hx

theorem not_lt_of_isNaN_left (hx : x.isNaN = true) : ¬x < y := by
  rw [lt_def, UnpackedFloat.lt, unpack_eq_of_isNaN hx]
  simp [UnpackedFloat.compare]

theorem not_lt_of_isNaN_right (hy : y.isNaN = true) : ¬x < y := by
  rw [lt_def, UnpackedFloat.lt, unpack_eq_of_isNaN hy]
  cases x.toModel.unpack <;> simp [UnpackedFloat.compare]

theorem num_le_self (hx : x.isNaN = false) : x ≤ x := (le_iff hx hx).2 le_rfl

theorem num_le_of_lt (hx : x.isNaN = false) (hy : y.isNaN = false) (h : x < y) : x ≤ y :=
  (le_iff hx hy).2 ((lt_iff hx hy).1 h).le

theorem num_le_of_not_lt (hx : x.isNaN = false) (hy : y.isNaN = false) (h : ¬x < y) : y ≤ x :=
  (le_iff hy hx).2 (not_lt.1 fun h' => h ((lt_iff hx hy).2 h'))

theorem num_le_trans (hx : x.isNaN = false) (hy : y.isNaN = false) (hz : z.isNaN = false)
    (hxy : x ≤ y) (hyz : y ≤ z) : x ≤ z :=
  (le_iff hx hz).2 (((le_iff hx hy).1 hxy).trans ((le_iff hy hz).1 hyz))

theorem num_lt_of_lt_of_le (hx : x.isNaN = false) (hy : y.isNaN = false) (hz : z.isNaN = false)
    (hxy : x < y) (hyz : y ≤ z) : x < z :=
  (lt_iff hx hz).2 (((lt_iff hx hy).1 hxy).trans_le ((le_iff hy hz).1 hyz))

/-- Two numbers each at most the other are equal as doubles compare: they
are one double, or the two zeros. -/
theorem num_beq_of_le_of_le (hx : x.isNaN = false) (hy : y.isNaN = false) (hxy : x ≤ y)
    (hyx : y ≤ x) : (x == y) = true :=
  (beq_iff hx hy).2 (((le_iff hx hy).1 hxy).antisymm ((le_iff hy hx).1 hyx))

end

/-! ## Packing back -/

/-- Unpacking a double, packing it and unpacking again gives the first
unpacked form: a valid encoding packs back to itself. -/
theorem unpack_pack_unpack (v : Float.Model) : (Float.Model.pack v.unpack).unpack = v.unpack := by
  show unpack Format.binary64 (UInt64.ofBitVec (pack Format.binary64
    (unpack Format.binary64 v.toBits.toBitVec))).toBitVec = unpack Format.binary64 v.toBits.toBitVec
  rw [pack_unpack_of_valid v.valid]

/-! ## Subtracting and adding zero -/

theorem unpack_zero : (0 : Float).toModel.unpack = .zero .positive := rfl

theorem sub_zero_right (u : UnpackedFloat) : UnpackedFloat.sub Format.binary64 u (.zero .positive) = u := by
  cases u with
  | zero s => cases s <;> rfl
  | notANumber => rfl
  | infinity s => rfl
  | finite s m e hm => rfl

theorem add_zero_right (u : UnpackedFloat) :
    UnpackedFloat.add Format.binary64 u (.zero .positive) = u ∨
      (u = .zero .negative ∧ UnpackedFloat.add Format.binary64 u (.zero .positive) = .zero .positive) := by
  cases u with
  | zero s => cases s <;> simp [UnpackedFloat.add]
  | notANumber => exact .inl rfl
  | infinity s => exact .inl rfl
  | finite s m e hm => exact .inl rfl

theorem unpack_sub_zero (x : Float) : (x - 0).toModel.unpack = x.toModel.unpack := by
  show (Float.Model.pack (UnpackedFloat.sub Format.binary64 x.toModel.unpack (0 : Float).toModel.unpack)).unpack = _
  rw [unpack_zero, sub_zero_right, unpack_pack_unpack]

theorem isNaN_sub_zero (x : Float) : (x - 0).isNaN = x.isNaN := by
  rw [isNaN_def, isNaN_def, unpack_sub_zero]

theorem place_sub_zero (x : Float) : place (x - 0) = place x := by
  rw [place, place, unpack_sub_zero]

/-- Adding zero leaves a double at its place; it turns a negative zero
positive. -/
theorem place_add_zero (x : Float) : (x + 0).isNaN = x.isNaN ∧ place (x + 0) = place x := by
  have h : (x + 0).toModel.unpack =
      (Float.Model.pack (UnpackedFloat.add Format.binary64 x.toModel.unpack (.zero .positive))).unpack := rfl
  rcases add_zero_right x.toModel.unpack with hadd | ⟨hneg, hadd⟩
  · rw [isNaN_def, isNaN_def, place, place, h, hadd, unpack_pack_unpack]
    exact ⟨rfl, rfl⟩
  · rw [isNaN_def, isNaN_def, place, place, h, hadd, hneg]
    exact ⟨rfl, rfl⟩

/-! ## Products -/

theorem sign_mul_comm (s t : Sign) : s * t = t * s := by
  cases s <;> cases t <;> rfl

theorem unpacked_mul_comm (spec : Format) (u v : UnpackedFloat) :
    UnpackedFloat.mul spec u v = UnpackedFloat.mul spec v u := by
  cases u <;> cases v <;> simp only [UnpackedFloat.mul, sign_mul_comm, Nat.mul_comm, Int.add_comm]

/-- Multiplying doubles commutes. -/
theorem float_mul_comm (x y : Float) : x * y = y * x := by
  show (⟨Float.Model.pack (UnpackedFloat.mul .binary64 x.toModel.unpack y.toModel.unpack)⟩ : Float) =
    ⟨Float.Model.pack (UnpackedFloat.mul .binary64 y.toModel.unpack x.toModel.unpack)⟩
  rw [unpacked_mul_comm]

end Doubles

end Subsurface
