import Mathlib
import Subsurface.Proofs.Geometry.Projection
/-!
The convex hull of the vertices of a simplex, in Euclidean space.

A point of the model space of dimension `d` is a vector of Euclidean space
through its first `d` coordinates (`Point.toEuclidean`); the model's distance
is then the Euclidean one, and a weighted sum of points is the same sum of
vectors.

Convex weights over `n` points (`ConvexWeights`) give the points of the convex
hull. Among them one is closest to any point `q` (the Hilbert projection on a
compact convex set), and it is characterised by an obtuse angle: seen from
it, `q` and any other point of the hull are never on the same side
(`ConvexWeights.exists_closest`). Every other point of the hull is then
strictly farther from `q`.

For the faces of a simplex, the Gram matrix holds the inner products of the
edges, so a face that passes the flatness test has edges that are linearly
independent (`Simplex.eq_zero_of_inner_edges`), and its vertices affinely
independent (`Simplex.eq_zero_of_face_sums`); the projection the model
computes on the face leaves `q` orthogonal to every edge
(`Simplex.faceProjection_orthogonal`).
-/

open Finset

namespace Subsurface

theorem sum_map_getD {M : Type*} [AddCommMonoid M] (f : ℕ → M) :
    ∀ l : List ℕ, (l.map f).sum = ∑ c ∈ range l.length, f (l.getD c 0)
  | [] => by simp
  | i :: l => by
    rw [List.map_cons, List.sum_cons, sum_map_getD f l, List.length_cons, sum_range_succ']
    simp [add_comm]

namespace Point

variable {d : ℕ}

/-- A point of the model space of dimension `d` as a vector of Euclidean
space: its first `d` coordinates. -/
noncomputable def toEuclidean (d : ℕ) (p : Point ℝ) : EuclideanSpace ℝ (Fin d) :=
  (EuclideanSpace.equiv (Fin d) ℝ).symm fun t => p.coord t

@[simp] theorem toEuclidean_apply (p : Point ℝ) (t : Fin d) : p.toEuclidean d t = p.coord t := rfl

theorem foldl_add_sq : ∀ (l : List ℝ) (init : ℝ),
    l.foldl (fun s x => s + x * x) init = init + ∑ t ∈ range l.length, l.getD t 0 ^ 2
  | [], init => by simp
  | x :: l, init => by
    rw [List.foldl_cons, foldl_add_sq l, List.length_cons, sum_range_succ']
    simp only [List.getD_cons_succ, List.getD_cons_zero]
    ring

theorem normSq_eq_sum (p : Point ℝ) : normSq p = ∑ t ∈ range p.size, p.coord t ^ 2 := by
  rw [normSq, ← Array.foldl_toList, foldl_add_sq, zero_add, Array.length_toList]
  exact sum_congr rfl fun t _ => by rw [Simplex.coord_toList]

/-- The model's distance between points of dimension `d` is the Euclidean
one. -/
theorem distance_eq_dist {a b : Point ℝ} (ha : a.size = d) (hb : b.size = d) :
    distance a b = dist (a.toEuclidean d) (b.toEuclidean d) := by
  rw [distance, norm, Exact.sqrt_eq, normSq_eq_sum, EuclideanSpace.dist_eq, size_sub, ha, hb,
    min_self, ← Fin.sum_univ_eq_sum_range]
  congr 1
  refine sum_congr rfl fun t _ => ?_
  rw [coord_sub _ _ _ (ha ▸ t.isLt) (hb ▸ t.isLt), toEuclidean_apply, toEuclidean_apply,
    Real.dist_eq, sq_abs]

theorem toEuclidean_interpolate {vs : List (Point ℝ)} {w : List ℝ} (hv : ∀ v ∈ vs, v.size = d)
    (hw : vs.length = w.length) :
    (interpolate d vs w).toEuclidean d =
      ∑ i ∈ range vs.length, w.getD i 0 • (vs.getD i #[]).toEuclidean d := by
  ext t
  rw [toEuclidean_apply, (interpolate_spec vs w hv).2 t t.isLt, Simplex.weighted_eq_sum t vs w hw,
    WithLp.ofLp_sum]
  simp [mul_comm]

end Point

/-- Weights of a convex combination of `n` points: one per point, none
negative, summing to one. -/
structure ConvexWeights (n : ℕ) where
  weights : List ℝ
  length_eq : weights.length = n
  nonneg : ∀ w ∈ weights, 0 ≤ w
  sum_eq_one : weights.sum = 1

namespace ConvexWeights

variable {n : ℕ} {E : Type*} [NormedAddCommGroup E] [InnerProductSpace ℝ E]

/-- The weight of point `i`, zero past the last point. -/
def weight (w : ConvexWeights n) (i : ℕ) : ℝ := w.weights.getD i 0

theorem weight_nonneg (w : ConvexWeights n) (i : ℕ) : 0 ≤ w.weight i := by
  unfold weight
  rcases Nat.lt_or_ge i w.weights.length with hi | hi
  · rw [List.getD_eq_getElem _ _ hi]
    exact w.nonneg _ (List.getElem_mem hi)
  · rw [List.getD_eq_default _ _ hi]

theorem sum_weight (w : ConvexWeights n) : ∑ i ∈ range n, w.weight i = 1 := by
  have h := Simplex.sum_eq_sum_getD w.weights
  rw [w.sum_eq_one, w.length_eq] at h
  exact h.symm

theorem lt_of_weight_pos {w : ConvexWeights n} {i : ℕ} (h : 0 < w.weight i) : i < n := by
  by_contra hi
  rw [weight, List.getD_eq_default _ _ (by rw [w.length_eq]; omega)] at h
  exact lt_irrefl 0 h

theorem exists_weight_pos (w : ConvexWeights n) : ∃ i < n, 0 < w.weight i := by
  by_contra hnone
  simp only [not_exists, not_and, not_lt] at hnone
  have hsum := w.sum_weight
  rw [sum_eq_zero fun i hi => le_antisymm (hnone i (mem_range.1 hi)) (w.weight_nonneg i)] at hsum
  exact zero_ne_one hsum

theorem map_range_weight (w : ConvexWeights n) : (List.range n).map w.weight = w.weights := by
  apply List.ext_getElem (by simp [w.length_eq])
  intro i h1 h2
  rw [List.getElem_map, List.getElem_range, weight, List.getD_eq_getElem _ _ h2]

/-- Two convex weights over `n` points are equal when every point has the
same weight in both. -/
theorem weights_eq {u w : ConvexWeights n} (h : ∀ i < n, u.weight i = w.weight i) :
    u.weights = w.weights := by
  apply List.ext_getElem (u.length_eq.trans w.length_eq.symm)
  intro i hu hw
  have hi := h i (u.length_eq ▸ hu)
  rwa [weight, weight, List.getD_eq_getElem _ _ hu, List.getD_eq_getElem _ _ hw] at hi

/-- The point of the hull these weights give. -/
def combination (w : ConvexWeights n) (V : ℕ → E) : E := ∑ i ∈ range n, w.weight i • V i

/-- Convex weights given by their values on the first `n` indices. -/
def ofFun (n : ℕ) (μ : ℕ → ℝ) (h0 : ∀ i < n, 0 ≤ μ i) (h1 : ∑ i ∈ range n, μ i = 1) :
    ConvexWeights n where
  weights := (List.range n).map μ
  length_eq := by simp
  nonneg := by
    simp only [List.mem_map, List.mem_range]
    rintro _ ⟨i, hi, rfl⟩
    exact h0 i hi
  sum_eq_one := by rw [sum_map_range]; exact h1

section OfFun

variable {μ : ℕ → ℝ} {h0 : ∀ i < n, 0 ≤ μ i} {h1 : ∑ i ∈ range n, μ i = 1}

theorem weight_ofFun {i : ℕ} (hi : i < n) : (ofFun n μ h0 h1).weight i = μ i := by
  simp [weight, ofFun, hi]

theorem combination_ofFun (V : ℕ → E) : (ofFun n μ h0 h1).combination V = ∑ i ∈ range n, μ i • V i :=
  sum_congr rfl fun i hi => by rw [weight_ofFun (mem_range.1 hi)]

end OfFun

/-- **The closest point of a convex hull.** Among the points of the hull of
`n ≠ 0` vectors, one is closest to `q`, and seen from it `q` makes an obtuse
or right angle with every point of the hull. -/
theorem exists_closest (V : ℕ → E) (hn : n ≠ 0) (q : E) :
    ∃ w : ConvexWeights n, ∀ u : ConvexWeights n,
      inner ℝ (q - w.combination V) (u.combination V - w.combination V) ≤ 0 := by
  -- the hull is the image of the standard simplex, compact and convex
  set L := Fintype.linearCombination ℝ fun i : Fin n => V i
  set K := L '' stdSimplex ℝ (Fin n)
  have hconvex : Convex ℝ K := (convex_stdSimplex ℝ (Fin n)).linear_image L
  have hcomplete : IsComplete K :=
    ((isCompact_stdSimplex ℝ (Fin n)).image L.continuous_of_finiteDimensional).isComplete
  have hne : K.Nonempty := ⟨_, Set.mem_image_of_mem L (single_mem_stdSimplex ℝ ⟨0, Nat.pos_of_ne_zero hn⟩)⟩
  obtain ⟨_, ⟨c, hc, rfl⟩, hmin⟩ := exists_norm_eq_iInf_of_complete_convex hne hcomplete hconvex q
  have hobtuse := (norm_eq_iInf_iff_real_inner_le_zero hconvex (Set.mem_image_of_mem L hc)).1 hmin
  -- read the simplex's points as weights on the first `n` indices, and back
  have hcomb : ∀ μ : Fin n → ℝ, L μ = ∑ i ∈ range n, (if h : i < n then μ ⟨i, h⟩ else 0) • V i :=
    fun μ => by
      rw [Fintype.linearCombination_apply, ← Fin.sum_univ_eq_sum_range]
      simp
  set w := ofFun n (fun i => if h : i < n then c ⟨i, h⟩ else 0) (fun i hi => by simp [hi, hc.1])
    (by rw [← Fin.sum_univ_eq_sum_range]; simpa using hc.2)
  have hw : w.combination V = L c := by rw [combination_ofFun, hcomb]
  refine ⟨w, fun u => ?_⟩
  have hu : (fun i : Fin n => u.weight i) ∈ stdSimplex ℝ (Fin n) :=
    ⟨fun i => u.weight_nonneg i, by rw [Fin.sum_univ_eq_sum_range (u.weight ·)]; exact u.sum_weight⟩
  have hu' : u.combination V = L fun i => u.weight i := by
    rw [hcomb]
    exact sum_congr rfl fun i hi => by simp [mem_range.1 hi]
  rw [hw, hu']
  exact hobtuse _ (Set.mem_image_of_mem L hu)

/-- Seen from `p`, where `q` makes an obtuse or right angle with `y`, a point
`y` other than `p` is strictly farther from `q`. -/
theorem norm_sub_lt_of_inner_le_zero {q p y : E} (h : inner ℝ (q - p) (y - p) ≤ 0) (hne : y ≠ p) :
    ‖q - p‖ < ‖q - y‖ := by
  have hpos : 0 < ‖y - p‖ := norm_pos_iff.2 (sub_ne_zero.2 hne)
  have hsq : ‖q - y‖ ^ 2 = ‖q - p‖ ^ 2 - 2 * inner ℝ (q - p) (y - p) + ‖y - p‖ ^ 2 := by
    rw [← norm_sub_sq_real, sub_sub_sub_cancel_right]
  have hlt : ‖q - p‖ ^ 2 < ‖q - y‖ ^ 2 := by nlinarith
  exact lt_of_pow_lt_pow_left₀ 2 (norm_nonneg _) hlt

/-- At the closest point, moving all the weight of a point `b` that has some
onto a point `a` never brings the hull closer: `q` makes an obtuse or right
angle with the direction from `b` to `a`. -/
theorem inner_le_zero_of_weight_pos {V : ℕ → E} {q : E} {w : ConvexWeights n}
    (hw : ∀ u : ConvexWeights n, inner ℝ (q - w.combination V) (u.combination V - w.combination V) ≤ 0)
    {a b : ℕ} (ha : a < n) (hb : 0 < w.weight b) : inner ℝ (q - w.combination V) (V a - V b) ≤ 0 := by
  have hbn : b < n := lt_of_weight_pos hb
  -- the weights after the move
  set μ : ℕ → ℝ := fun i => w.weight i + (if i = a then w.weight b else 0) - (if i = b then w.weight b else 0)
  have hμ0 : ∀ i < n, 0 ≤ μ i := fun i _ => by
    have hgain : 0 ≤ (if i = a then w.weight b else 0) := by
      split_ifs <;> linarith [w.weight_nonneg b]
    by_cases hib : i = b
    · subst hib
      simp only [μ, ↓reduceIte]
      linarith
    · simp only [μ, if_neg hib]
      linarith [w.weight_nonneg i]
  have hμ1 : ∑ i ∈ range n, μ i = 1 := by
    simp only [μ, sum_sub_distrib, sum_add_distrib, sum_ite_eq', mem_range.2 ha, mem_range.2 hbn,
      if_true, w.sum_weight]
    ring
  have hmove : (ofFun n μ hμ0 hμ1).combination V - w.combination V = w.weight b • (V a - V b) := by
    have hdiff : ∀ i, μ i - w.weight i =
        (if i = a then w.weight b else 0) - (if i = b then w.weight b else 0) := fun i => by
      simp only [μ]
      ring
    rw [combination_ofFun, combination, ← sum_sub_distrib]
    calc ∑ i ∈ range n, (μ i • V i - w.weight i • V i)
        = ∑ i ∈ range n, ((if i = a then w.weight b • V i else 0) -
            (if i = b then w.weight b • V i else 0)) :=
          sum_congr rfl fun i _ => by rw [← sub_smul, hdiff, sub_smul, ite_smul, ite_smul, zero_smul]
      _ = w.weight b • (V a - V b) := by
          rw [sum_sub_distrib, sum_ite_eq', sum_ite_eq', if_pos (mem_range.2 ha),
            if_pos (mem_range.2 hbn), smul_sub]
  have h := hw (ofFun n μ hμ0 hμ1)
  rw [hmove, inner_smul_right] at h
  exact nonpos_of_mul_nonpos_right h hb

/-- At the closest point, `q` is orthogonal to the direction between any two
points that it uses. -/
theorem inner_eq_zero_of_weight_pos {V : ℕ → E} {q : E} {w : ConvexWeights n}
    (hw : ∀ u : ConvexWeights n, inner ℝ (q - w.combination V) (u.combination V - w.combination V) ≤ 0)
    {a b : ℕ} (ha : 0 < w.weight a) (hb : 0 < w.weight b) : inner ℝ (q - w.combination V) (V a - V b) = 0 := by
  have hab := inner_le_zero_of_weight_pos hw (lt_of_weight_pos ha) hb
  have hba := inner_le_zero_of_weight_pos hw (lt_of_weight_pos hb) ha
  rw [← neg_sub (V a), inner_neg_right] at hba
  linarith

end ConvexWeights

/-- A sum over the first `n` indices of a function that vanishes off a list
of distinct indices below `n` is the sum over that list. -/
theorem sum_range_eq_sum_map {M : Type*} [AddCommMonoid M] {n : ℕ} {l : List ℕ} (hnd : l.Nodup)
    (hl : ∀ i ∈ l, i < n) {f : ℕ → M} (hoff : ∀ i < n, i ∉ l → f i = 0) :
    ∑ i ∈ range n, f i = (l.map f).sum := by
  rw [← List.sum_toFinset f hnd]
  refine (sum_subset (fun i hi => mem_range.2 (hl i (List.mem_toFinset.1 hi))) fun i hi hni => ?_).symm
  exact hoff i (mem_range.1 hi) (fun h => hni (List.mem_toFinset.2 h))

namespace Simplex

variable {d : ℕ} {vs : List (Point ℝ)} {first : ℕ} {others : List ℕ}

/-- Vertex `i` of a simplex of the model space, as a vector of Euclidean
space. -/
noncomputable def vertex (d : ℕ) (vs : List (Point ℝ)) (i : ℕ) : EuclideanSpace ℝ (Fin d) :=
  (vs.getD i #[]).toEuclidean d

/-- Edge `c` of a face, from its first vertex to its vertex `others[c]`. -/
noncomputable def edge (d : ℕ) (vs : List (Point ℝ)) (first : ℕ) (others : List ℕ) (c : ℕ) :
    EuclideanSpace ℝ (Fin d) :=
  vertex d vs (others.getD c 0) - vertex d vs first

theorem inner_eq_sum (x y : EuclideanSpace ℝ (Fin d)) : inner ℝ x y = ∑ t : Fin d, x t * y t := by
  simp [PiLp.inner_apply, mul_comm]

theorem edge_apply {c : ℕ} (t : Fin d) (hc : c < others.length) :
    edge d vs first others c t = (faceEdges d vs first others).entry t c := by
  simp [edge, vertex, entry_faceEdges t.isLt hc]

theorem entry_faceGram_eq_inner {j c : ℕ} (hj : j < others.length) (hc : c < others.length) :
    (faceGram d vs first others).entry j c =
      inner ℝ (edge d vs first others j) (edge d vs first others c) := by
  rw [entry_faceGram hj hc, inner_eq_sum, ← Fin.sum_univ_eq_sum_range
    fun t => (faceEdges d vs first others).entry t j * (faceEdges d vs first others).entry t c]
  exact sum_congr rfl fun t _ => by rw [edge_apply t hj, edge_apply t hc]

/-- A row of the Gram matrix times coefficients is the inner product of the
edge with the edges so weighted. -/
theorem sum_faceGram_mul {j : ℕ} (hj : j < others.length) (y : ℕ → ℝ) :
    ∑ c ∈ range others.length, (faceGram d vs first others).entry j c * y c =
      inner ℝ (edge d vs first others j) (∑ c ∈ range others.length, y c • edge d vs first others c) := by
  rw [inner_sum]
  exact sum_congr rfl fun c hc => by
    rw [inner_smul_right, entry_faceGram_eq_inner hj (mem_range.1 hc), mul_comm]

/-- The edges of a face that passes the flatness test are linearly
independent: coefficients whose combination of the edges is orthogonal to
every edge are all zero. -/
theorem eq_zero_of_inner_edges (hflat : faceIsFlat d vs first others = false) (y : ℕ → ℝ)
    (hy : ∀ j < others.length, inner ℝ (edge d vs first others j)
      (∑ c ∈ range others.length, y c • edge d vs first others c) = 0) :
    ∀ c < others.length, y c = 0 :=
  faceGram_injective hflat y fun j hj => by rw [sum_faceGram_mul hj, hy j hj]

/-- The vertices of a face whose edges, if any, pass the flatness test are
affinely independent: weights summing to zero whose combination of the
vertices is zero are all zero. -/
theorem eq_zero_of_face_sums (hflat : others ≠ [] → faceIsFlat d vs first others = false)
    (δ : ℕ → ℝ) (hsum : ((first :: others).map δ).sum = 0)
    (hcomb : ((first :: others).map fun i => δ i • vertex d vs i).sum = 0) :
    ∀ i ∈ first :: others, δ i = 0 := by
  rw [List.map_cons, List.sum_cons, sum_map_getD] at hsum hcomb
  -- the weights of the other vertices weigh the edges to zero
  have hedges : ∀ c < others.length, δ (others.getD c 0) = 0 := by
    rcases eq_or_ne others [] with rfl | hne
    · simp
    refine eq_zero_of_inner_edges (hflat hne) _ fun j _ => ?_
    have hzero : ∑ c ∈ range others.length, δ (others.getD c 0) • edge d vs first others c = 0 := by
      simp only [edge, smul_sub, sum_sub_distrib, ← sum_smul]
      rw [eq_neg_of_add_eq_zero_right hcomb, eq_neg_of_add_eq_zero_right hsum, neg_smul, sub_self]
    rw [hzero, inner_zero_right]
  have hfirst : δ first = 0 := by
    rw [sum_congr rfl fun c hc => hedges c (mem_range.1 hc), sum_const_zero, add_zero] at hsum
    exact hsum
  intro i hi
  rcases List.mem_cons.1 hi with rfl | hi
  · exact hfirst
  · obtain ⟨c, hc, rfl⟩ := List.getElem_of_mem hi
    rw [← List.getD_eq_getElem _ 0 hc]
    exact hedges c hc

/-- **The projection on a face.** A face that passes the flatness test is
projected on, and the point its weights give leaves `q` orthogonal to every
edge of the face. -/
theorem faceProjection_orthogonal (hk : others ≠ []) (hflat : faceIsFlat d vs first others = false)
    (q : Point ℝ) :
    ∃ x : Point ℝ, faceProjection d vs (first :: others) q = some (weightsOf x) ∧
      x.size = others.length ∧ ∀ j < others.length,
        inner ℝ (edge d vs first others j) (q.toEuclidean d -
          (vertex d vs first + ∑ c ∈ range others.length, x.coord c • edge d vs first others c)) = 0 := by
  obtain ⟨x, hx, hsize, hnormal⟩ := faceProjection_spec hk hflat q
  refine ⟨x, hx, hsize, fun j hj => ?_⟩
  -- the right side of the normal equations is the edge's inner product with `q`
  have hrhs : ∑ t ∈ range d, (faceEdges d vs first others).entry t j *
      (q.coord t - (vs.getD first #[]).coord t) =
        inner ℝ (edge d vs first others j) (q.toEuclidean d - vertex d vs first) := by
    rw [inner_eq_sum, ← Fin.sum_univ_eq_sum_range fun t => (faceEdges d vs first others).entry t j *
      (q.coord t - (vs.getD first #[]).coord t)]
    exact sum_congr rfl fun t _ => by simp [edge_apply t hj, vertex]
  rw [sub_add_eq_sub_sub, inner_sub_right, ← hrhs, ← sum_faceGram_mul hj, hnormal j hj, sub_self]

/-- Convex weights that vanish off a face give the first vertex of the face
plus its edges weighted by the weights of its other vertices. -/
theorem combination_eq_face {w : ConvexWeights vs.length} (hnd : (first :: others).Nodup)
    (hlt : ∀ i ∈ first :: others, i < vs.length)
    (hoff : ∀ i < vs.length, i ∉ first :: others → w.weight i = 0) :
    w.combination (vertex d vs) = vertex d vs first +
      ∑ c ∈ range others.length, w.weight (others.getD c 0) • edge d vs first others c := by
  have hsum : w.weight first + ∑ c ∈ range others.length, w.weight (others.getD c 0) = 1 := by
    rw [← w.sum_weight, sum_range_eq_sum_map hnd hlt hoff, List.map_cons, List.sum_cons, sum_map_getD]
  have hcomb := sum_range_eq_sum_map hnd hlt (f := fun i => w.weight i • vertex d vs i)
    fun i hi hni => by rw [hoff i hi hni, zero_smul]
  rw [ConvexWeights.combination, hcomb, List.map_cons, List.sum_cons, sum_map_getD]
  simp only [edge, smul_sub, sum_sub_distrib, ← sum_smul]
  rw [eq_sub_of_add_eq' hsum, sub_smul, one_smul]
  abel

/-- The model's distance from `q` to the point that convex weights give is
the Euclidean one. -/
theorem distance_interpolate (hv : ∀ v ∈ vs, v.size = d) {q : Point ℝ} (hq : q.size = d)
    (w : ConvexWeights vs.length) :
    Point.distance (Point.interpolate d vs w.weights) q =
      ‖q.toEuclidean d - w.combination (vertex d vs)‖ := by
  rw [Point.distance_eq_dist (Point.interpolate_spec vs w.weights hv).1 hq,
    Point.toEuclidean_interpolate hv w.length_eq.symm, dist_comm, dist_eq_norm]
  rfl

end Simplex

end Subsurface
