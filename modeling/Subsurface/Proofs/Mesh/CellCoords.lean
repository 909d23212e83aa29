import Mathlib
import Subsurface.Mesh.Locate
import Subsurface.Proofs.Numeric.Values
/-!
Grid coordinates computed in doubles.

Along an axis starting at `lo` with extent `e`, the coordinate `x` of a point
falls in the cell `cellIndex n ((x - lo) / e)`: the difference, the quotient
and the product by the resolution `n` are each rounded to nearest, and the
last one is truncated into `UInt64` and clamped to the last cell. Each step is
monotone in the value it is given (`Doubles.roundE_mono`,
`Doubles.clampFloor_mono`), a value at or below zero ends in the cell zero,
and so does a NaN met on the way. So the cell grows with the coordinate,
whatever the corner `lo` and the extent are, NaN and the infinities included
(`cellIndex_sub_div_mono`, `Locator.cellOf_mono_of_le`).
-/

open Float.Model

namespace Subsurface

open Doubles

/-! ## Truncating and scaling -/

section Scaling

variable {x t : Float}

theorem floorNat_of_isNaN (hx : x.isNaN = true) : Scalar.floorNat x = 0 := by
  show x.toModel.unpack.toUInt64.toNat = 0
  rw [unpack_eq_of_isNaN hx]
  rfl

theorem floorNat_of_num (hx : x.isNaN = false) :
    Scalar.floorNat x = clampFloor (valueE x.toModel.unpack) :=
  toUInt64_toNat hx

theorem natCast_unpack {n : ℕ} (hn : 0 < n) (hn53 : n < 2 ^ 53) :
    ∃ m e hm, (n : Float).toModel.unpack = .finite .positive m e hm ∧ (m : ℝ) * 2 ^ e = n := by
  obtain ⟨hval, hnan⟩ := valueE_natCast hn53
  have hval' : valueE (n : Float).toModel.unpack = ((n : ℝ) : EReal) := hval
  have hnan' : (n : Float).toModel.unpack.isNaN = false := hnan
  have hpos : 0 < valueE (n : Float).toModel.unpack := by
    rw [hval']
    exact EReal.coe_pos.2 (by exact_mod_cast hn)
  rcases eq_of_valueE_pos hnan' hpos with hinf | ⟨m, e, hm, hu⟩
  · -- the infinity is no real value
    rw [hinf] at hval'
    exact absurd hval'.symm (EReal.coe_ne_top _)
  · refine ⟨m, e, hm, hu, ?_⟩
    rw [hu] at hval'
    exact EReal.coe_injective hval'

/-- Where the grid puts a fraction of the axis of value `v`: its product by
`n`, rounded, truncated and clamped to the last cell. -/
noncomputable def cellOfValue (n : ℕ) (v : EReal) : ℕ :=
  min (clampFloor (roundE (v * ((n : ℝ) : EReal)))) (n - 1)

theorem cellOfValue_mono (n : ℕ) : Monotone (cellOfValue n) := fun _ _ h =>
  min_le_min_right _ (clampFloor_mono (roundE_mono
    (mul_le_mul_of_nonneg_right h (EReal.coe_nonneg.2 (Nat.cast_nonneg n)))))

theorem roundE_zero : roundE 0 = 0 := roundReal_zero

theorem roundE_nonpos {v : EReal} (h : v ≤ 0) : roundE v ≤ 0 := roundE_zero ▸ roundE_mono h

theorem mul_coe_nonpos {v : EReal} (h : v ≤ 0) {r : ℝ} (hr : 0 ≤ r) : v * (r : EReal) ≤ 0 :=
  calc v * (r : EReal) ≤ 0 * (r : EReal) := mul_le_mul_of_nonneg_right h (EReal.coe_nonneg.2 hr)
    _ = 0 := zero_mul _

theorem cellOfValue_of_nonpos (n : ℕ) {v : EReal} (h : v ≤ 0) : cellOfValue n v = 0 := by
  rw [cellOfValue, clampFloor_of_nonpos (roundE_nonpos (mul_coe_nonpos h (Nat.cast_nonneg n))),
    Nat.zero_min]

theorem cellIndex_of_isNaN (n : ℕ) (ht : t.isNaN = true) : cellIndex n t = 0 := by
  rw [cellIndex, floorNat_of_isNaN (mul_isNaN_of_left ht), Nat.zero_min]

theorem cellIndex_of_num {n : ℕ} (hn53 : n < 2 ^ 53) (ht : t.isNaN = false) :
    cellIndex n t = cellOfValue n (valueE t.toModel.unpack) := by
  rcases Nat.eq_zero_or_pos n with rfl | hn
  · simp [cellIndex, cellOfValue]
  obtain ⟨m, e, hm, hu, hval⟩ := natCast_unpack hn hn53
  obtain ⟨hmul, hnan⟩ := valueE_mul_of_finite hu ht
  rw [cellIndex, floorNat_of_num hnan, hmul, hval, cellOfValue]

end Scaling

/-! ## Dividing by the extent -/

/-- **Dividing by the extent.** For an extent that is NaN or of positive
value, the cell of a fraction `y / e` is a monotone function of the value of
`y`, zero at or below zero, and zero when `y` is NaN. -/
theorem cellIndex_div_factors {n : ℕ} (hn53 : n < 2 ^ 53) {e : Float}
    (he : e.isNaN = true ∨ 0 < valueE e.toModel.unpack) :
    ∃ Φ : EReal → ℕ, Monotone Φ ∧ (∀ v ≤ 0, Φ v = 0) ∧
      ∀ y : Float, cellIndex n (y / e) = if y.isNaN then 0 else Φ (valueE y.toModel.unpack) := by
  by_cases hen : e.isNaN = true
  · -- a NaN extent puts every point in the cell zero
    refine ⟨fun _ => 0, fun _ _ _ => le_rfl, fun _ _ => rfl, fun y => ?_⟩
    rw [cellIndex_of_isNaN n (div_isNaN_of_right hen), ite_self]
  have hen' : e.isNaN = false := Bool.not_eq_true _ ▸ hen
  rcases eq_of_valueE_pos hen' (he.resolve_left hen) with hinf | ⟨m, ee, hm, hu⟩
  · -- the infinite extent gives zero or NaN fractions
    refine ⟨fun _ => 0, fun _ _ _ => le_rfl, fun _ _ => rfl, fun y => ?_⟩
    rw [ite_self]
    cases hy : y.isNaN
    · rcases div_infinity_eq hinf hy with hnan | hzero
      · exact cellIndex_of_isNaN n hnan
      · rcases Bool.eq_false_or_eq_true (y / e).isNaN with hnan | hnum
        · exact cellIndex_of_isNaN n hnan
        · rw [cellIndex_of_num hn53 hnum, hzero, cellOfValue_of_nonpos n le_rfl]
    · exact cellIndex_of_isNaN n (div_isNaN_of_left hy)
  · -- a positive finite extent: the quotient lands where the exact one does
    have hr : (0 : ℝ) ≤ ((m : ℝ) * 2 ^ ee)⁻¹ := by positivity
    refine ⟨fun v => cellOfValue n (roundE (v * (((m : ℝ) * 2 ^ ee)⁻¹ : ℝ))),
      fun v w hvw => cellOfValue_mono n (roundE_mono (mul_le_mul_of_nonneg_right hvw
        (EReal.coe_nonneg.2 hr))),
      fun v hv => cellOfValue_of_nonpos n (roundE_nonpos (mul_coe_nonpos hv hr)), fun y => ?_⟩
    cases hy : y.isNaN
    · obtain ⟨hval, hnan⟩ := valueE_div_of_finite hu hy
      rw [cellIndex_of_num hn53 hnan, hval]
      rfl
    · exact cellIndex_of_isNaN n (div_isNaN_of_left hy)

/-- **The cell grows with the coordinate.** Along an axis from `lo` with an
extent that is NaN or of positive value, a coordinate at most another falls in
a cell at most the other's; the corner `lo` may be anything. -/
theorem cellIndex_sub_div_mono {n : ℕ} (hn53 : n < 2 ^ 53) {lo e x x' : Float}
    (he : e.isNaN = true ∨ 0 < valueE e.toModel.unpack) (hx : x ≤ x') :
    cellIndex n ((x - lo) / e) ≤ cellIndex n ((x' - lo) / e) := by
  obtain ⟨Φ, hmono, hzero, hcell⟩ := cellIndex_div_factors hn53 he
  obtain ⟨hxn, hx'n⟩ := isNaN_of_le hx
  have hle := (le_iff_valueE hxn hx'n).1 hx
  rw [hcell, hcell]
  cases h1 : (x - lo).isNaN
  · cases h2 : (x' - lo).isNaN
    · -- both differences are numbers, landing in the order of the coordinates
      apply hmono
      rw [valueE_sub h1, valueE_sub h2]
      exact roundE_mono (EReal.sub_le_sub hle le_rfl)
    · -- `x'` and `lo` are one infinity, so `x - lo` is at or below zero
      have hlo : lo.isNaN = false := by
        cases hlo : lo.isNaN
        · rfl
        · rw [sub_isNaN_of_right hlo] at h1
          cases h1
      have heq := valueE_eq_of_sub_isNaN hx'n hlo h2
      rw [if_neg (by simp), hzero _ ?_]
      · exact Nat.zero_le _
      · rw [valueE_sub h1]
        exact roundE_nonpos (EReal.sub_nonpos.2 (heq ▸ hle))
  · exact Nat.zero_le _

namespace Locator

variable {l : Locator Float}

theorem extent_cases {e : Float} (h : ¬e ≤ 0) : e.isNaN = true ∨ 0 < valueE e.toModel.unpack := by
  cases hen : e.isNaN
  · have hzero : (0 : Float).isNaN = false := rfl
    rw [le_iff_valueE hen hzero, not_le] at h
    exact .inr h
  · exact .inl rfl

/-- **Grid coordinates grow with the point's coordinates.** Along each axis,
a point whose coordinate is at most another's has a cell coordinate at most
the other's, for any box of the points, NaN and infinite corners and extents
included. -/
theorem cellOf_mono_of_le {n : ℕ} (hn53 : n < 2 ^ 53) {p p' : Point Float} {axis : ℕ}
    (haxis : axis < l.dim) (h : p.coord axis ≤ p'.coord axis) :
    (l.cellOf n p).getD axis 0 ≤ (l.cellOf n p').getD axis 0 := by
  unfold cellOf
  split
  · simp
  · simp only [List.getD_eq_getElem?_getD, List.getElem?_map, List.getElem?_range haxis,
      Option.map_some, Option.getD_some]
    split
    · exact le_rfl
    · next hpos => exact cellIndex_sub_div_mono hn53 (extent_cases hpos) h

theorem cellOf_of_isNaN {n : ℕ} {p : Point Float} {axis : ℕ} (h : (p.coord axis).isNaN = true) :
    (l.cellOf n p).getD axis 0 = 0 := by
  unfold cellOf
  split
  · simp
  · by_cases haxis : axis < l.dim
    · simp only [List.getD_eq_getElem?_getD, List.getElem?_map, List.getElem?_range haxis,
        Option.map_some, Option.getD_some]
      split
      · rfl
      · exact cellIndex_of_isNaN n (div_isNaN_of_left (sub_isNaN_of_left h))
    · simp [List.getD_eq_getElem?_getD, haxis]

end Locator

end Subsurface
