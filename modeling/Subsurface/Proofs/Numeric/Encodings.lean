import Mathlib
import Subsurface.Proofs.Geometry.Exact
/-!
The real numbers that encodings stand for, in the order of their ranks.

Below its sign bit an encoding holds a magnitude: the exponent field above
the 52 fraction bits. Read in units of the least subnormal, `2^-1074`, a
magnitude stands for `units`: the fraction for a subnormal, the fraction with
its implicit bit shifted by the exponent for a normal number. Units grow
strictly with the magnitude, across exponents too, since the largest
significand of one exponent falls short of the least of the next. So the real
number a finite encoding stands for, its units with its sign, grows with its
rank (`toReal_le_of_rank_le`).
-/

namespace Subsurface

namespace Binary64

/-! ## Fields -/

/-- The magnitude of an encoding: its bits below the sign. -/
def magnitude (x : Binary64) : ℕ := x.bits.toNat % 2 ^ 63

/-- Whether an encoding is finite: its exponent field is not all ones. -/
def IsFinite (x : Binary64) : Prop := x.magnitude / 2 ^ 52 ≠ 2047

instance (x : Binary64) : Decidable x.IsFinite := inferInstanceAs (Decidable (_ ≠ _))

theorem magnitude_lt (x : Binary64) : x.magnitude < 2 ^ 63 := Nat.mod_lt _ (by norm_num)

theorem sign_eq_one_iff (x : Binary64) : x.bits >>> 63 = 1 ↔ 2 ^ 63 ≤ x.bits.toNat := by
  rw [← UInt64.toNat_inj]
  have hlt := x.bits.toNat_lt
  simp only [UInt64.toNat_shiftRight, Nat.shiftRight_eq_div_pow]
  constructor <;> intro h <;> simp at h ⊢ <;> omega

theorem sign_eq_zero_iff (x : Binary64) : x.bits >>> 63 = 0 ↔ x.bits.toNat < 2 ^ 63 := by
  rw [← UInt64.toNat_inj]
  have hlt := x.bits.toNat_lt
  simp only [UInt64.toNat_shiftRight, Nat.shiftRight_eq_div_pow]
  constructor <;> intro h <;> simp at h ⊢ <;> omega

theorem exponent_toNat (x : Binary64) :
    ((x.bits >>> 52) &&& 0x7FF).toNat = x.magnitude / 2 ^ 52 := by
  rw [UInt64.toNat_and, UInt64.toNat_shiftRight, show (52 : UInt64).toNat % 64 = 52 from rfl,
    Nat.shiftRight_eq_div_pow, show (0x7FF : UInt64).toNat = 2 ^ 11 - 1 from rfl,
    Nat.and_two_pow_sub_one_eq_mod, magnitude]
  omega

theorem fraction_toNat (x : Binary64) :
    (x.bits &&& 0xFFFFFFFFFFFFF).toNat = x.magnitude % 2 ^ 52 := by
  rw [UInt64.toNat_and, show (0xFFFFFFFFFFFFF : UInt64).toNat = 2 ^ 52 - 1 from rfl,
    Nat.and_two_pow_sub_one_eq_mod, magnitude]
  omega

theorem magnitude_toNat (x : Binary64) : (x.bits &&& 0x7FFFFFFFFFFFFFFF).toNat = x.magnitude := by
  rw [UInt64.toNat_and, show (0x7FFFFFFFFFFFFFFF : UInt64).toNat = 2 ^ 63 - 1 from rfl,
    Nat.and_two_pow_sub_one_eq_mod, magnitude]

theorem rank_eq (x : Binary64) :
    x.rank = if x.bits.toNat < 2 ^ 63 then (x.magnitude : ℤ) else -(x.magnitude : ℤ) := by
  unfold rank
  simp only [magnitude_toNat, sign_eq_zero_iff]

/-! ## Units of the least subnormal -/

/-- The units of `2^-1074` a magnitude stands for: the fraction under a zero
exponent field, the fraction with its implicit bit scaled by the exponent
otherwise. -/
def units (m : ℕ) : ℕ :=
  if m / 2 ^ 52 = 0 then m % 2 ^ 52 else (2 ^ 52 + m % 2 ^ 52) * 2 ^ (m / 2 ^ 52 - 1)

/-- A magnitude with exponent field `e` stands for fewer than `2^(52 + e)`
units. -/
theorem units_lt (m : ℕ) : units m < 2 ^ (52 + m / 2 ^ 52) := by
  unfold units
  have hf : m % 2 ^ 52 < 2 ^ 52 := Nat.mod_lt _ (by norm_num)
  split_ifs with he
  · rw [he]
    exact hf
  · -- the significand stays below `2^53`
    have hsig : 2 ^ 52 + m % 2 ^ 52 < 2 ^ 53 := by omega
    calc (2 ^ 52 + m % 2 ^ 52) * 2 ^ (m / 2 ^ 52 - 1)
        < 2 ^ 53 * 2 ^ (m / 2 ^ 52 - 1) := Nat.mul_lt_mul_of_pos_right hsig (by positivity)
      _ = 2 ^ (52 + m / 2 ^ 52) := by rw [← pow_add]; congr 1; omega

/-- A magnitude with a nonzero exponent field `e` stands for at least
`2^(51 + e)` units. -/
theorem le_units (m : ℕ) (he : m / 2 ^ 52 ≠ 0) : 2 ^ (51 + m / 2 ^ 52) ≤ units m := by
  unfold units
  rw [if_neg he]
  calc 2 ^ (51 + m / 2 ^ 52) = 2 ^ 52 * 2 ^ (m / 2 ^ 52 - 1) := by rw [← pow_add]; congr 1; omega
    _ ≤ (2 ^ 52 + m % 2 ^ 52) * 2 ^ (m / 2 ^ 52 - 1) := Nat.mul_le_mul_right _ (by omega)

theorem units_strictMono : StrictMono units := by
  intro m m' hlt
  have hle : m / 2 ^ 52 ≤ m' / 2 ^ 52 := Nat.div_le_div_right hlt.le
  rcases hle.lt_or_eq with hexp | hexp
  · -- a higher exponent field: the bound below of `m'` passes the bound above of `m`
    calc units m < 2 ^ (52 + m / 2 ^ 52) := units_lt m
      _ ≤ 2 ^ (51 + m' / 2 ^ 52) := Nat.pow_le_pow_right (by norm_num) (by omega)
      _ ≤ units m' := le_units m' (by omega)
  · -- the same exponent field: the fractions compare
    have hf : m % 2 ^ 52 < m' % 2 ^ 52 := by omega
    unfold units
    rw [hexp]
    split_ifs
    · exact hf
    · exact Nat.mul_lt_mul_of_pos_right (by omega) (by positivity)

@[simp] theorem units_zero : units 0 = 0 := rfl

/-! ## Real values -/

theorem toReal_eq_units {x : Binary64} (hx : x.IsFinite) :
    x.toReal = (if 2 ^ 63 ≤ x.bits.toNat then -1 else 1) * (units x.magnitude : ℝ) * 2 ^ (-1074 : ℤ) := by
  unfold toReal
  simp only [exponent_toNat, fraction_toNat, sign_eq_one_iff]
  rw [if_neg hx]
  unfold units
  by_cases he : x.magnitude / 2 ^ 52 = 0
  · rw [if_pos he, if_pos he]
  · -- a normal number: move `e - 1` of the exponent into the units
    rw [if_neg he, if_neg he]
    have hexp : ((x.magnitude / 2 ^ 52 : ℕ) : ℤ) - 1075 = ((x.magnitude / 2 ^ 52 - 1 : ℕ) : ℤ) + -1074 := by
      omega
    rw [hexp, zpow_add₀ two_ne_zero, zpow_natCast]
    push_cast
    ring

theorem toReal_nonneg {x : Binary64} (hx : x.IsFinite) (hs : x.bits.toNat < 2 ^ 63) : 0 ≤ x.toReal := by
  rw [toReal_eq_units hx, if_neg (not_le.2 hs), one_mul]
  positivity

theorem toReal_nonpos {x : Binary64} (hx : x.IsFinite) (hs : 2 ^ 63 ≤ x.bits.toNat) : x.toReal ≤ 0 := by
  rw [toReal_eq_units hx, if_pos hs, neg_one_mul, neg_mul]
  exact neg_nonpos.2 (by positivity)

/-- On finite encodings, the real value grows with the rank. -/
theorem toReal_le_of_rank_le {x y : Binary64} (hx : x.IsFinite) (hy : y.IsFinite)
    (h : x.rank ≤ y.rank) : x.toReal ≤ y.toReal := by
  have hunits : ∀ {m m' : ℕ}, m ≤ m' → (units m : ℝ) ≤ units m' := fun hm =>
    Nat.cast_le.2 (units_strictMono.monotone hm)
  rw [rank_eq, rank_eq] at h
  by_cases hxs : x.bits.toNat < 2 ^ 63 <;> by_cases hys : y.bits.toNat < 2 ^ 63
  · -- two positive numbers: magnitudes compare as ranks do
    rw [if_pos hxs, if_pos hys] at h
    rw [toReal_eq_units hx, toReal_eq_units hy, if_neg (not_le.2 hxs), if_neg (not_le.2 hys),
      one_mul, one_mul]
    exact mul_le_mul_of_nonneg_right (hunits (show x.magnitude ≤ y.magnitude by omega)) (by positivity)
  · -- a positive number at most a negative one: both are zeros
    rw [if_pos hxs, if_neg hys] at h
    have hx0 : x.magnitude = 0 := by omega
    have hy0 : y.magnitude = 0 := by omega
    rw [toReal_eq_units hx, toReal_eq_units hy, hx0, hy0]
    simp
  · exact (toReal_nonpos hx (not_lt.1 hxs)).trans (toReal_nonneg hy hys)
  · rw [if_neg hxs, if_neg hys] at h
    rw [toReal_eq_units hx, toReal_eq_units hy, if_pos (not_lt.1 hxs), if_pos (not_lt.1 hys)]
    have := hunits (show y.magnitude ≤ x.magnitude by omega)
    have h2 : (0 : ℝ) < 2 ^ (-1074 : ℤ) := by positivity
    nlinarith

end Binary64

end Subsurface
