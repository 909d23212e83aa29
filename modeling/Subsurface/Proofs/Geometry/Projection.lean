import Mathlib
import Subsurface.Proofs.Geometry.Barycentric
/-!
Projecting a point on a face of a simplex, in exact arithmetic.

A face is a first vertex and a list of others. Its edges run from the first
vertex to the others, and its Gram matrix holds the product of every two
edges. The projection of a point on the face's affine hull is the first
vertex plus the edges weighted by coordinates that solve the normal
equations: the Gram matrix times the coordinates equals the edges times the
point seen from the first vertex.

A face that passes the flatness test has a nonzero Gram determinant, and a
square matrix of nonzero determinant has no nonzero kernel vector, whatever
its size (`eq_zero_of_determinant_ne_zero_of_square`: up to three rows by the
cofactor expansion, beyond that through the LU factors, none of whose pivots
can then be zero). So the projection is found, and its coordinates solve the
normal equations (`faceProjection_spec`).
-/

open scoped Matrix

namespace Subsurface

open Finset

theorem sum_map_range {M : Type*} [AddCommMonoid M] (f : ℕ → M) (m : ℕ) :
    ((List.range m).map f).sum = ∑ t ∈ range m, f t := by
  rw [← List.sum_toFinset f List.nodup_range, List.toFinset_range]

/-- Products summed the way matrix products are: each next term added in
front of the running sum. -/
theorem foldl_add_front (f : ℕ → ℝ) :
    ∀ (l : List ℕ) (init : ℝ), l.foldl (fun s t => f t + s) init = init + (l.map f).sum
  | [], init => by simp
  | t :: l, init => by
    rw [List.foldl_cons, foldl_add_front f l, List.map_cons, List.sum_cons]
    ring

namespace Matrix

variable {A a : Matrix ℝ} {n : ℕ}

/-! ## Products -/

theorem entry_mul {b : Matrix ℝ} {p q r c : ℕ} (hr : r < n) (hc : c < q) :
    (a.mul b n p q).entry r c = ∑ t ∈ range p, a.entry r t * b.entry t c := by
  rw [Matrix.mul, entry_ofFn _ hr hc, ← sum_map_range]
  split
  · next h => rw [h]; rfl
  · next l rest h => rw [h, foldl_add_front, List.map_cons, List.sum_cons]

theorem coord_mulVec {v : Point ℝ} {p r : ℕ} (hr : r < n) :
    (a.mulVec v n p).coord r = ∑ t ∈ range p, a.entry r t * v.coord t := by
  rw [Point.coord_of_lt (by simpa [Matrix.mulVec] using hr), ← sum_map_range]
  simp only [Matrix.mulVec, Array.getElem_map, Array.getElem_range]
  split
  · next h => rw [h]; rfl
  · next l rest h => rw [h, foldl_add_front, List.map_cons, List.sum_cons]

theorem entry_transpose {rows cols r c : ℕ} (hr : r < cols) (hc : c < rows) :
    (a.transpose rows cols).entry r c = a.entry c r := by
  rw [Matrix.transpose, entry_ofFn _ hr hc]

@[simp] theorem size_mulVec {v : Point ℝ} {p : ℕ} : (a.mulVec v n p).size = n := by
  simp [Matrix.mulVec]

/-! ## Determinants of any size -/

theorem foldl_mul_eq (f : ℕ → ℝ) :
    ∀ (l : List ℕ) (init : ℝ), l.foldl (fun acc i => acc * f i) init = init * (l.map f).prod
  | [], init => by simp
  | i :: l, init => by
    rw [List.foldl_cons, foldl_mul_eq f l, List.map_cons, List.prod_cons, mul_assoc]

theorem Lu.pivot_ne_zero {f : Lu ℝ} (h : f.determinant ≠ 0) : ∀ i < f.size, f.lu.entry i i ≠ 0 := by
  unfold Lu.determinant at h
  simp only [Exact.beq_eq, decide_eq_true_eq] at h
  split_ifs at h with hlast
  · exact absurd rfl h
  rw [foldl_mul_eq] at h
  intro i hi hzero
  rcases Nat.lt_or_ge i (f.size - 1) with hlt | hge
  · -- an earlier pivot is a factor of the product
    have hmem : f.lu.entry i i ∈ (List.range (f.size - 1)).map fun i => f.lu.entry i i :=
      List.mem_map.2 ⟨i, List.mem_range.2 hlt, rfl⟩
    exact h (by rw [List.prod_eq_zero (hzero ▸ hmem), mul_zero, zero_mul])
  · exact hlast (by rw [← hzero]; congr 2 <;> omega)

theorem exchanges_lt : ∀ {swaps : List (ℕ × ℕ)}, (∀ sw ∈ swaps, sw.1 < n ∧ sw.2 < n) →
    ∀ {r : ℕ}, r < n → exchanges swaps r < n := by
  intro swaps
  induction swaps with
  | nil => exact fun _ _ hr => hr
  | cons sw l ih =>
    intro hl r hr
    obtain ⟨hi, hj⟩ := hl sw (by simp)
    rw [exchanges_cons, Equiv.Perm.mul_apply, Equiv.swap_apply_def]
    have hlr := ih (fun q hq => hl q (by simp [hq])) hr
    split_ifs <;> omega

/-- Factors without a zero pivot leave the matrix no nonzero kernel vector:
the lower factor is unit triangular, so a kernel vector is one of the upper
factor, whose diagonal has no zero. -/
theorem RowsAgree.eq_zero_of_pivots_ne_zero {swaps : List (ℕ × ℕ)} (h : RowsAgree A n n a swaps)
    (hdiag : ∀ i < n, a.entry i i ≠ 0) (x : ℕ → ℝ)
    (hx : ∀ r < n, ∑ c ∈ range n, A.entry r c * x c = 0) : ∀ c < n, x c = 0 := by
  -- the upper factor sends `x` to zero, row after row from the first
  have hU : ∀ r < n, ∑ c ∈ range n, upperAt a n r c * x c = 0 := by
    intro r
    induction r using Nat.strong_induction_on with
    | _ r ih =>
      intro hr
      have hrow := h.sum_mul x hr
      rw [hx _ (exchanges_lt h.swaps_lt hr), sum_eq_zero fun q hq => by
        rw [ih q (mem_range.1 hq) (by simp at hq; omega), mul_zero], zero_add] at hrow
      exact hrow.symm
  have hdet : (Matrix.of fun p q : Fin n => upperAt a n p q).det ≠ 0 := by
    rw [Matrix.det_of_isUpperTriangular (fun p q hpq => by
      have hqp : ¬ (p : ℕ) ≤ q := Nat.not_le.2 hpq
      simp only [Matrix.of_apply, upperAt, if_pos p.isLt, if_neg hqp])]
    exact prod_ne_zero_iff.2 fun i _ => by simpa [upperAt] using hdiag i i.isLt
  have hv : (Matrix.of fun p q : Fin n => upperAt a n p q) *ᵥ (fun c : Fin n => x c) = 0 := by
    funext r
    rw [Matrix.mulVec_apply_eq_sum, Pi.zero_apply, ← hU r r.isLt,
      ← Fin.sum_univ_eq_sum_range (fun c => upperAt a n r c * x c)]
    rfl
  intro c hc
  simpa using congrFun (Matrix.eq_zero_of_mulVec_eq_zero hdet hv) ⟨c, hc⟩

/-- A square matrix of nonzero determinant, of any size, has no nonzero
kernel vector. -/
theorem eq_zero_of_determinant_ne_zero_of_square (hA : A.Square n) (h : A.determinant n ≠ 0)
    (x : ℕ → ℝ) (hx : ∀ r < n, ∑ c ∈ range n, A.entry r c * x c = 0) : ∀ c < n, x c = 0 := by
  rcases Nat.lt_or_ge n 4 with hn | hn
  · exact eq_zero_of_determinant_ne_zero (by omega) h x hx
  · obtain ⟨k, rfl⟩ : ∃ k, n = k + 4 := ⟨n - 4, by omega⟩
    -- beyond three rows the determinant is the one of the factors
    have hf : (factor A (k + 4)).determinant ≠ 0 := h
    exact (rowsAgree_factor hA).eq_zero_of_pivots_ne_zero (Lu.pivot_ne_zero hf) x hx

end Matrix

namespace Simplex

variable {d : ℕ} {vs : List (Point ℝ)} {first : ℕ} {others : List ℕ}

/-! ## Edges and Gram matrix of a face -/

theorem entry_faceEdges {r c : ℕ} (hr : r < d) (hc : c < others.length) :
    (faceEdges d vs first others).entry r c =
      (vs.getD (others.getD c 0) #[]).coord r - (vs.getD first #[]).coord r := by
  rw [faceEdges, Matrix.entry_ofFn _ hr hc]

theorem entry_faceGram {j c : ℕ} (hj : j < others.length) (hc : c < others.length) :
    (faceGram d vs first others).entry j c = ∑ t ∈ range d,
      (faceEdges d vs first others).entry t j * (faceEdges d vs first others).entry t c := by
  rw [faceGram, Matrix.entry_mul hj hc]
  exact sum_congr rfl fun t ht => by rw [Matrix.entry_transpose hj (mem_range.1 ht)]

theorem square_faceGram : (faceGram d vs first others).Square others.length :=
  Matrix.square_ofFn _ _

theorem faceGram_determinant_ne_zero (h : faceIsFlat d vs first others = false) :
    (faceGram d vs first others).determinant others.length ≠ 0 := by
  simp only [faceIsFlat, Bool.or_eq_false_iff, decide_eq_false_iff_not, not_lt,
    Exact.abs_eq] at h
  obtain ⟨hscale, hdet⟩ := h
  have hpow : 0 < powi ((List.range others.length).foldl
      (fun s i => maxNum s ((faceGram d vs first others).entry i i)) 0) others.length :=
    powi_go_pos others.length _ (tolerance_pos.trans_le hscale) one_pos
  intro hzero
  rw [hzero, abs_zero] at hdet
  exact absurd hdet (not_le.2 (mul_pos hpow tolerance_pos))

/-- The Gram matrix of a face that passes the flatness test has no nonzero
kernel vector. -/
theorem faceGram_injective (h : faceIsFlat d vs first others = false) (x : ℕ → ℝ)
    (hx : ∀ j < others.length, ∑ c ∈ range others.length, (faceGram d vs first others).entry j c * x c = 0) :
    ∀ c < others.length, x c = 0 :=
  Matrix.eq_zero_of_determinant_ne_zero_of_square square_faceGram (faceGram_determinant_ne_zero h) x hx

/-- **A face that passes the flatness test is projected on.** Its weights
are the first-vertex weight followed by coordinates along the edges, and
these solve the normal equations. -/
theorem faceProjection_spec (hk : others ≠ []) (hflat : faceIsFlat d vs first others = false)
    (q : Point ℝ) :
    ∃ x : Point ℝ, faceProjection d vs (first :: others) q = some (weightsOf x) ∧
      x.size = others.length ∧ ∀ j < others.length,
        ∑ c ∈ range others.length, (faceGram d vs first others).entry j c * x.coord c =
          ∑ t ∈ range d, (faceEdges d vs first others).entry t j *
            (q.coord t - (vs.getD first #[]).coord t) := by
  set k := others.length with hkdef
  have hk0 : k ≠ 0 := by rwa [hkdef, Ne, List.length_eq_zero_iff]
  set et := (faceEdges d vs first others).transpose d k
  set diff : Point ℝ := (Array.range d).map fun r => q.coord r - (vs.getD first #[]).coord r
  obtain ⟨x, hsolve, hxsize, hx⟩ := Matrix.solve_factor square_faceGram
    (Matrix.size_mulVec (a := et) (v := diff) (p := d)) (faceGram_injective hflat)
  refine ⟨x, ?_, hxsize, fun j hj => ?_⟩
  · simp only [faceProjection]
    rw [if_neg hk0, if_neg (by simp [hflat]), hsolve, Option.map_some]
  · rw [hx j hj, Matrix.coord_mulVec hj]
    refine sum_congr rfl fun t ht => ?_
    have ht' := mem_range.1 ht
    rw [Matrix.entry_transpose hj ht', Point.coord_of_lt (by simpa [diff] using ht')]
    simp [diff]

end Simplex

end Subsurface
