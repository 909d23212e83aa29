import Mathlib
import Subsurface.Geometry.Simplex
/-!
The geometry read in exact arithmetic.

The geometry is written for any `Scalar`. Read in the real numbers, every
operation of a double is the exact operation, no value is NaN, the cell index
of a value is its floor, and a stored encoding stands for the real number it
encodes (zero for an infinity or a NaN, which stand for none).

In that reading `maxNum` and `minNum` are `max` and `min`, a sum of doubles
is the sum of the list, and a weighted sum of points is, axis by axis, the
sum of the weighted coordinates.
-/

namespace Subsurface

/-- The real number an encoding stands for: `± 1.f · 2^(e - 1023)` for a
normal number, `± 0.f · 2^(-1022)` for a subnormal one, and zero for an
infinity or a NaN. -/
noncomputable def Binary64.toReal (x : Binary64) : ℝ :=
  let sign : ℝ := if x.bits >>> 63 = 1 then -1 else 1
  let e := ((x.bits >>> 52) &&& 0x7FF).toNat
  let f := (x.bits &&& 0xFFFFFFFFFFFFF).toNat
  if e = 0x7FF then 0
  else if e = 0 then sign * f * 2 ^ (-1074 : ℤ)
  else sign * (2 ^ 52 + f) * 2 ^ ((e : ℤ) - 1075)

/-- Exact arithmetic. -/
noncomputable instance : Scalar ℝ where
  abs x := |x|
  sqrt := Real.sqrt
  isNaN _ := false
  floorNat x := ⌊x⌋₊
  ofBinary64 := Binary64.toReal
  decLt := inferInstance
  decLe := inferInstance

namespace Exact

@[simp] theorem abs_eq (x : ℝ) : Scalar.abs x = |x| := rfl

@[simp] theorem sqrt_eq (x : ℝ) : Scalar.sqrt x = Real.sqrt x := rfl

@[simp] theorem isNaN_eq (x : ℝ) : Scalar.isNaN x = false := rfl

@[simp] theorem floorNat_eq (x : ℝ) : Scalar.floorNat x = ⌊x⌋₊ := rfl

@[simp] theorem ofBinary64_eq (x : Binary64) : (Scalar.ofBinary64 x : ℝ) = x.toReal := rfl

@[simp] theorem beq_eq (a b : ℝ) : (a == b) = decide (a = b) := rfl

@[simp] theorem maxNum_eq (a b : ℝ) : maxNum a b = max a b := by
  unfold maxNum
  rw [isNaN_eq, if_neg Bool.false_ne_true]
  split_ifs with h
  · exact (max_eq_right h.le).symm
  · exact (max_eq_left (not_lt.1 h)).symm

@[simp] theorem minNum_eq (a b : ℝ) : minNum a b = min a b := by
  unfold minNum
  rw [isNaN_eq, if_neg Bool.false_ne_true]
  split_ifs with h
  · exact (min_eq_right h.le).symm
  · exact (min_eq_left (not_lt.1 h)).symm

@[simp] theorem sumFloats_eq (xs : List ℝ) : sumFloats xs = xs.sum := by
  rw [sumFloats, List.sum_eq_foldl]

end Exact

namespace Point

variable {d : ℕ}

theorem coord_of_lt {p : Point ℝ} {i : ℕ} (h : i < p.size) : p.coord i = p[i] := by
  simp [coord, Array.getD, h]

theorem coord_of_le {p : Point ℝ} {i : ℕ} (h : p.size ≤ i) : p.coord i = 0 := by
  simp [coord, Array.getD, Nat.not_lt.2 h]

theorem ext_coord {p q : Point ℝ} (hp : p.size = d) (hq : q.size = d)
    (h : ∀ i < d, p.coord i = q.coord i) : p = q := by
  apply Array.ext (hp.trans hq.symm)
  intro i hi hi'
  rw [← coord_of_lt hi, ← coord_of_lt hi', h i (hp ▸ hi)]

@[simp] theorem size_add (a b : Point ℝ) : (add a b).size = min a.size b.size := by
  simp [add]

@[simp] theorem size_scale (p : Point ℝ) (w : ℝ) : (scale p w).size = p.size := by
  simp [scale]

theorem coord_add {a b : Point ℝ} {i : ℕ} (ha : i < a.size) (hb : i < b.size) :
    (add a b).coord i = a.coord i + b.coord i := by
  rw [coord_of_lt (by simp [ha, hb]), coord_of_lt ha, coord_of_lt hb]
  simp [add]

@[simp] theorem coord_scale (p : Point ℝ) (w : ℝ) (i : ℕ) :
    (scale p w).coord i = p.coord i * w := by
  by_cases h : i < p.size
  · rw [coord_of_lt (by simpa using h), coord_of_lt h]
    simp [scale]
  · rw [coord_of_le (by simpa using h), coord_of_le (Nat.le_of_not_lt h), zero_mul]

@[simp] theorem coord_origin (i : ℕ) : (origin d : Point ℝ).coord i = 0 := by
  simp [origin, coord, Array.getD]

@[simp] theorem coord_sub (a b : Point ℝ) (i : ℕ) (ha : i < a.size) (hb : i < b.size) :
    (sub a b).coord i = a.coord i - b.coord i := by
  rw [coord_of_lt (by simp [ha, hb]), coord_of_lt ha, coord_of_lt hb]
  simp [sub]

/-- The `i`-th coordinate of a weighted sum of points of dimension `d`. -/
noncomputable def weighted (i : ℕ) (points : List (Point ℝ)) (weights : List ℝ) : ℝ :=
  ((points.zip weights).map fun pw => pw.1.coord i * pw.2).sum

-- The weighted sum adds one term per pair to an accumulator of dimension `d`.
theorem foldl_add_scale (l : List (Point ℝ × ℝ)) (hl : ∀ pw ∈ l, pw.1.size = d) :
    ∀ acc : Point ℝ, acc.size = d →
      (l.foldl (fun acc pw => add acc (scale pw.1 pw.2)) acc).size = d ∧
      ∀ i < d, (l.foldl (fun acc pw => add acc (scale pw.1 pw.2)) acc).coord i =
        acc.coord i + (l.map fun pw => pw.1.coord i * pw.2).sum := by
  induction l with
  | nil => simp
  | cons pw l ih =>
    intro acc hacc
    have hpw : pw.1.size = d := hl pw (by simp)
    have hnext : (add acc (scale pw.1 pw.2)).size = d := by simp [hacc, hpw]
    obtain ⟨hsize, hcoord⟩ := ih (fun q hq => hl q (by simp [hq])) _ hnext
    refine ⟨hsize, fun i hi => ?_⟩
    rw [List.foldl_cons, hcoord i hi, coord_add (by omega) (by simp [hpw, hi]), coord_scale,
      List.map_cons, List.sum_cons, add_assoc]

theorem interpolate_spec (points : List (Point ℝ)) (weights : List ℝ)
    (h : ∀ p ∈ points, p.size = d) :
    (interpolate d points weights).size = d ∧
      ∀ i < d, (interpolate d points weights).coord i = weighted i points weights := by
  have hl : ∀ pw ∈ points.zip weights, pw.1.size = d := fun pw hpw => h _ (List.of_mem_zip hpw).1
  obtain ⟨hsize, hcoord⟩ := foldl_add_scale _ hl (origin d) (size_origin d)
  exact ⟨hsize, fun i hi => by rw [interpolate, hcoord i hi, coord_origin, zero_add, weighted]⟩

end Point

end Subsurface
