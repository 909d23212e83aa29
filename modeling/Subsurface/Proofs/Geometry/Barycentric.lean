import Mathlib
import Subsurface.Proofs.Geometry.Lu
/-!
Barycentric weights in exact arithmetic.

The weights of a point in a simplex solve the system of the edges from the
first vertex; the first weight makes them sum to one. A simplex that passes
the flatness test has a nonzero orientation, the determinant of that system,
so the system has exactly one solution. Hence, for a simplex of the model
space (at most three dimensions, where the orientation is the cofactor
expansion), the weights found reproduce the point (`barycentric_spec`), and
the weights of a weighted sum of the vertices are those weights
(`barycentric_interpolate`).
-/

open scoped Matrix

namespace Subsurface

namespace Matrix

theorem entry_ofFn {rows cols r c : ℕ} (f : ℕ → ℕ → ℝ) (hr : r < rows) (hc : c < cols) :
    (ofFn rows cols f).entry r c = f r c := by
  simp [ofFn, entry, Array.getD, hr, hc]

theorem square_ofFn (n : ℕ) (f : ℕ → ℕ → ℝ) : (ofFn n n f).Square n := by
  refine ⟨by simp [ofFn], fun row hrow => ?_⟩
  simp only [ofFn, Array.mem_map, Array.mem_range] at hrow
  obtain ⟨r, -, rfl⟩ := hrow
  simp

theorem determinant_eq_det {m : Matrix ℝ} {n : ℕ} (hn : n ≤ 3) :
    m.determinant n = (Matrix.of fun i j : Fin n => m.entry i j).det := by
  match n, hn with
  | 0, _ => simp [determinant]
  | 1, _ => simp [determinant]
  | 2, _ =>
    rw [Matrix.det_fin_two]
    simp only [determinant, Matrix.of_apply]
    simp
    ring
  | 3, _ =>
    rw [Matrix.det_fin_three]
    simp only [determinant, Matrix.of_apply]
    simp
    ring

/-- A matrix of nonzero determinant, up to three dimensions, has no nonzero
kernel vector. -/
theorem eq_zero_of_determinant_ne_zero {m : Matrix ℝ} {n : ℕ} (hn : n ≤ 3)
    (h : m.determinant n ≠ 0) (x : ℕ → ℝ)
    (hx : ∀ r < n, ∑ c ∈ Finset.range n, m.entry r c * x c = 0) : ∀ c < n, x c = 0 := by
  rw [determinant_eq_det hn] at h
  have hv : (Matrix.of fun i j : Fin n => m.entry i j) *ᵥ (fun c : Fin n => x c) = 0 := by
    funext r
    rw [Matrix.mulVec_apply_eq_sum, Pi.zero_apply, ← hx r r.isLt,
      ← Fin.sum_univ_eq_sum_range (fun c => m.entry r c * x c)]
    rfl
  intro c hc
  simpa using congrFun (Matrix.eq_zero_of_mulVec_eq_zero h hv) ⟨c, hc⟩

end Matrix

namespace Simplex

theorem tolerance_pos : (0 : ℝ) < tolerance := by
  unfold tolerance
  norm_num

theorem powi_go_pos : ∀ (fuel : ℕ) {a r : ℝ} (k : ℕ), 0 < a → 0 < r → 0 < powi.go fuel a r k := by
  intro fuel
  induction fuel with
  | zero => intro a r k _ hr; exact hr
  | succ fuel ih =>
    intro a r k ha hr
    have hr' : 0 < (if k % 2 = 1 then r * a else r) := by
      split
      · exact mul_pos hr ha
      · exact hr
    simp only [powi.go]
    split
    · exact hr'
    · exact ih _ (mul_pos ha ha) hr'

theorem determinant_ne_zero {d : ℕ} {vs : List (Point ℝ)} (h : isFlat d vs = false) :
    (edges d vs).determinant d ≠ 0 := by
  simp only [isFlat, Bool.or_eq_false_iff, decide_eq_false_iff_not, not_lt, Exact.abs_eq] at h
  obtain ⟨hlong, hdet⟩ := h
  have hpow : 0 < powi (longestEdge vs) d := powi_go_pos d _ (tolerance_pos.trans_le hlong) one_pos
  intro hzero
  rw [hzero, abs_zero] at hdet
  exact absurd hdet (not_le.2 (mul_pos hpow tolerance_pos))

theorem sum_eq_sum_getD : ∀ ws : List ℝ, ws.sum = ∑ c ∈ Finset.range ws.length, ws.getD c 0
  | [] => by simp
  | w :: ws => by
    rw [List.sum_cons, List.length_cons, Finset.sum_range_succ', sum_eq_sum_getD ws]
    simp [add_comm]

theorem weighted_eq_sum (i : ℕ) : ∀ (pts : List (Point ℝ)) (ws : List ℝ), pts.length = ws.length →
    Point.weighted i pts ws =
      ∑ c ∈ Finset.range pts.length, (pts.getD c #[]).coord i * ws.getD c 0
  | [], _, _ => by simp [Point.weighted]
  | p :: pts, [], h => by simp at h
  | p :: pts, w :: ws, h => by
    have ih := weighted_eq_sum i pts ws (by simpa using h)
    simp only [Point.weighted] at ih ⊢
    rw [List.zip_cons_cons, List.map_cons, List.sum_cons, ih, List.length_cons,
      Finset.sum_range_succ']
    simp [add_comm]

/-- Moving the first weight into the others: a weighted sum of the vertices,
with weights summing to one, is the first vertex plus the edges from it
weighted by the other weights. -/
theorem coord_interpolate_edges {d : ℕ} {v0 : Point ℝ} {rest : List (Point ℝ)}
    (hrest : rest.length = d) (hsize : ∀ v ∈ v0 :: rest, v.size = d) {w0 : ℝ} {ws : List ℝ}
    (hws : ws.length = d) (hsum : (w0 :: ws).sum = 1) {r : ℕ} (hr : r < d) :
    (Point.interpolate d (v0 :: rest) (w0 :: ws)).coord r =
      v0.coord r + ∑ c ∈ Finset.range d, (edges d (v0 :: rest)).entry r c * ws.getD c 0 := by
  rw [(Point.interpolate_spec _ _ hsize).2 r hr, Point.weighted, List.zip_cons_cons, List.map_cons,
    List.sum_cons, ← Point.weighted, weighted_eq_sum r rest ws (hrest.trans hws.symm), hrest]
  have hw0 : w0 = 1 - ∑ c ∈ Finset.range d, ws.getD c 0 := by
    rw [List.sum_cons, sum_eq_sum_getD, hws] at hsum
    linarith
  have hentry : ∀ c ∈ Finset.range d, (edges d (v0 :: rest)).entry r c =
      (rest.getD c #[]).coord r - v0.coord r := fun c hc => by
    rw [edges, Matrix.entry_ofFn _ hr (Finset.mem_range.1 hc)]
    simp
  have hedges : ∑ c ∈ Finset.range d, (edges d (v0 :: rest)).entry r c * ws.getD c 0 =
      ∑ c ∈ Finset.range d, (rest.getD c #[]).coord r * ws.getD c 0 -
        v0.coord r * ∑ c ∈ Finset.range d, ws.getD c 0 := by
    rw [Finset.mul_sum, ← Finset.sum_sub_distrib]
    exact Finset.sum_congr rfl fun c hc => by rw [hentry c hc]; ring
  rw [hedges, hw0]
  ring

theorem coord_toList (x : Point ℝ) (c : ℕ) : x.toList.getD c 0 = x.coord c := by
  simp [Point.coord, Array.getD_eq_getD_getElem?, List.getD_eq_getElem?_getD]

/-- The edges of a simplex of the model space that passes the flatness test
have no nonzero kernel vector. -/
theorem edges_injective {d : ℕ} (hd : d ≤ 3) {vs : List (Point ℝ)} (hflat : isFlat d vs = false)
    (x : ℕ → ℝ) (hx : ∀ r < d, ∑ c ∈ Finset.range d, (edges d vs).entry r c * x c = 0) :
    ∀ c < d, x c = 0 :=
  Matrix.eq_zero_of_determinant_ne_zero hd (determinant_ne_zero hflat) x hx

/-- The weights of a point in a simplex of the model space that is not flat
exist, sum to one, and reproduce the point. -/
theorem barycentric_spec {d : ℕ} (hd : d ≤ 3) {vs : List (Point ℝ)} (hlen : vs.length = d + 1)
    (hsize : ∀ v ∈ vs, v.size = d) (hflat : isFlat d vs = false) {p : Point ℝ} (hp : p.size = d) :
    ∃ w, barycentric d vs p = some w ∧ w.length = d + 1 ∧ w.sum = 1 ∧
      Point.interpolate d vs w = p := by
  obtain ⟨v0, rest, rfl⟩ := List.exists_cons_of_length_eq_add_one hlen
  have hrest : rest.length = d := by simpa using hlen
  -- the right-hand side: the point seen from the first vertex
  have hrhs : ((Array.range d).map fun r => p.coord r - v0.coord r).size = d := by simp
  obtain ⟨x, hsolve, hxsize, hx⟩ := Matrix.solve_factor (A := edges d (v0 :: rest))
    (Matrix.square_ofFn d _) hrhs (edges_injective hd hflat)
  refine ⟨weightsOf x, ?_, ?_, ?_, ?_⟩
  · rw [barycentric, if_neg (by simpa using hlen), if_neg (by simp [hflat])]
    simp only [List.headD_cons]
    rw [hsolve, Option.map_some]
  · simp [weightsOf, hxsize]
  · simp [weightsOf]
  · have hsum : (weightsOf x).sum = 1 := by simp [weightsOf]
    refine Point.ext_coord ((Point.interpolate_spec _ _ hsize).1) hp fun r hr => ?_
    rw [weightsOf, coord_interpolate_edges hrest hsize (by simp [hxsize]) hsum hr]
    simp only [coord_toList]
    rw [hx r hr, Point.coord_of_lt (p := (Array.range d).map fun r => p.coord r - v0.coord r)
      (by simpa using hr)]
    simp only [Array.getElem_map, Array.getElem_range]
    ring

/-- The weights of a weighted sum of the vertices, with weights summing to
one, are those weights: in a simplex that is not flat the weights of a point
are unique. -/
theorem barycentric_interpolate {d : ℕ} (hd : d ≤ 3) {vs : List (Point ℝ)}
    (hlen : vs.length = d + 1) (hsize : ∀ v ∈ vs, v.size = d) (hflat : isFlat d vs = false)
    {w : List ℝ} (hw : w.length = d + 1) (hsum : w.sum = 1) :
    barycentric d vs (Point.interpolate d vs w) = some w := by
  obtain ⟨w', hw', hlen', hsum', hinterp⟩ := barycentric_spec hd hlen hsize hflat
    ((Point.interpolate_spec _ w hsize).1)
  rw [hw']
  obtain ⟨v0, rest, rfl⟩ := List.exists_cons_of_length_eq_add_one hlen
  obtain ⟨w0, ws, rfl⟩ := List.exists_cons_of_length_eq_add_one hw
  obtain ⟨w0', ws', rfl⟩ := List.exists_cons_of_length_eq_add_one hlen'
  have hrest : rest.length = d := by simpa using hlen
  have hws : ws.length = d := by simpa using hw
  have hws' : ws'.length = d := by simpa using hlen'
  -- the two sets of weights differ by a kernel vector of the edges
  have hker := edges_injective hd hflat (fun c => ws'.getD c 0 - ws.getD c 0) fun r hr => by
    have h := congrArg (Point.coord · r) hinterp
    rw [coord_interpolate_edges hrest hsize hws' hsum' hr,
      coord_interpolate_edges hrest hsize hws hsum hr, add_right_inj] at h
    simp only [mul_sub, Finset.sum_sub_distrib, h, sub_self]
  have htail : ws' = ws := List.ext_getElem (hws'.trans hws.symm) fun c h1 h2 => by
    have := hker c (hws' ▸ h1)
    simp only [List.getD_eq_getElem?_getD, List.getElem?_eq_getElem h1,
      List.getElem?_eq_getElem h2, Option.getD_some, sub_eq_zero] at this
    exact this
  subst htail
  have hhead : w0' = w0 := by
    simp only [List.sum_cons] at hsum hsum'
    linarith
  rw [hhead]

theorem barycentric_eq_some {K : Type} [Scalar K] {d : ℕ} {vs : List (Point K)} {p : Point K}
    {w : List K} (h : barycentric d vs p = some w) : vs.length = d + 1 ∧ isFlat d vs = false := by
  unfold barycentric at h
  split_ifs at h with hlen hflat
  exact ⟨by simpa using hlen, by simpa using hflat⟩

end Simplex

end Subsurface
