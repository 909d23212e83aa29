import Mathlib
import Subsurface.Proofs.Geometry.Hull
/-!
The point of a simplex closest to a point, in exact arithmetic.

`closestWeights` goes through the faces of a simplex in the order of their
bitmasks. Each face that is not flat is projected on; a projection with a
weight below `-tolerance` is passed over, and any other offers its weights,
clamped at zero, scattered to all vertices and divided by their total
(`faceCandidate`). The search keeps a candidate only when it is strictly
nearer to the point than the one it has (`nearerStep`), so it ends on the
first nearest candidate (`Searched`).

Every candidate is a point of the convex hull of the vertices
(`faceCandidate_convex`), so none is nearer than the hull's closest point.
The vertices that the closest point uses make a face that the search visits
(its support), and when every face passes the flatness test the projection on
the support is the closest point itself, with the same weights
(`faceCandidate_support`): the closest point leaves the point orthogonal to
the support's edges, and these edges are linearly independent. The closest
point is unique, and so are its weights, so the search ends on them
(`closestWeights_projects`).
-/

open Finset

namespace Subsurface

namespace Simplex

/-! ## Faces of a mask -/

section Faces

variable {n mask : ℕ}

theorem faceOf_sublist : (faceOf n mask).Sublist (List.range n) := List.filter_sublist

theorem faceOf_nodup : (faceOf n mask).Nodup := faceOf_sublist.nodup List.nodup_range

theorem lt_of_mem_faceOf {i : ℕ} (h : i ∈ faceOf n mask) : i < n :=
  List.mem_range.1 (faceOf_sublist.subset h)

/-- Bit `i` of a sum of distinct powers of two is set when `2 ^ i` is one of
them. -/
theorem sum_two_pow_bit {s : Finset ℕ} {i : ℕ} : (∑ j ∈ s, 2 ^ j) / 2 ^ i % 2 = 1 ↔ i ∈ s := by
  conv_rhs => rw [← Finset.toFinset_bitIndices_sum_two_pow s]
  rw [List.mem_toFinset, Nat.mem_bitIndices, Nat.testBit_eq_decide_div_mod_eq, decide_eq_true_iff]

/-- The face of the mask made of the powers of two of a set of indices holds
the indices of the set below `n`, in increasing order. -/
theorem faceOf_sum_two_pow (s : Finset ℕ) :
    faceOf n (∑ j ∈ s, 2 ^ j) = (List.range n).filter (· ∈ s) := by
  unfold faceOf
  refine List.filter_congr fun i _ => ?_
  simp only [Nat.pow_eq, sum_two_pow_bit]

theorem sum_two_pow_mem_masks {s : Finset ℕ} (hs : s.Nonempty) (hlt : ∀ i ∈ s, i < n) :
    ∑ i ∈ s, 2 ^ i ∈ List.range' 1 (Nat.pow 2 n - 1) := by
  obtain ⟨i, hi⟩ := hs
  have hone : 1 ≤ 2 ^ i := Nat.one_le_two_pow
  have hle : 2 ^ i ≤ ∑ j ∈ s, 2 ^ j := single_le_sum (fun _ _ => Nat.zero_le _) hi
  have hlt' : ∑ j ∈ s, 2 ^ j < 2 ^ n := Nat.geomSum_lt le_rfl hlt
  have hpow : 1 ≤ 2 ^ n := Nat.one_le_two_pow
  rw [List.mem_range'_1, Nat.pow_eq]
  omega

end Faces

/-! ## Spreading the weights of a face -/

section Spread

variable {n : ℕ}

theorem positivePart_nonneg (x : ℝ) : 0 ≤ positivePart x := by
  unfold positivePart
  split_ifs with h
  · exact le_of_lt h
  · exact le_rfl

theorem positivePart_of_nonneg {x : ℝ} (h : 0 ≤ x) : positivePart x = x := by
  unfold positivePart
  split_ifs with hx
  · rfl
  · exact le_antisymm h (not_lt.1 hx)

theorem lookup_zip_map (f : ℕ → ℝ) (i : ℕ) :
    ∀ face : List ℕ, (face.zip (face.map f)).lookup i = if i ∈ face then some (f i) else none
  | [] => by simp
  | a :: face => by
    rw [List.map_cons, List.zip_cons_cons, List.lookup_cons, lookup_zip_map f i face]
    by_cases h : i = a
    · subst h
      simp
    · rw [beq_false_of_ne h]
      simp [h]

theorem lookup_zip_getElem : ∀ {face : List ℕ} {fw : List ℝ}, face.Nodup →
    ∀ {c : ℕ} (hc : c < face.length) (hc' : c < fw.length), (face.zip fw).lookup face[c] = some fw[c]
  | [], _, _, _, hc, _ => absurd hc (Nat.not_lt_zero _)
  | _ :: _, [], _, _, _, hc' => absurd hc' (Nat.not_lt_zero _)
  | a :: face, x :: fw, hnd, c, hc, hc' => by
    rw [List.zip_cons_cons]
    cases c with
    | zero => simp
    | succ c =>
      have hc1 : c < face.length := Nat.lt_of_succ_lt_succ hc
      -- a later vertex of the face differs from the first
      have hne : face[c] ≠ a := fun h => (List.nodup_cons.1 hnd).1 (h ▸ List.getElem_mem hc1)
      simp only [List.getElem_cons_succ]
      rw [List.lookup_cons, beq_false_of_ne hne]
      exact lookup_zip_getElem (List.nodup_cons.1 hnd).2 hc1 (Nat.lt_of_succ_lt_succ hc')

/-- Spreading the values of a function on a face gives its values on all
vertices, when it is non-negative, vanishes off the face and sums to one. -/
theorem spread_map {f : ℕ → ℝ} {face : List ℕ} (hf : ∀ i, 0 ≤ f i)
    (hoff : ∀ i < n, i ∉ face → f i = 0) (hsum : ∑ i ∈ range n, f i = 1) :
    spread n face (face.map f) = (List.range n).map f := by
  have hspread : ∀ g : ℕ → ℝ, (∀ i ∈ List.range n, g i = f i) →
      ((List.range n).map g).map (· / sumFloats ((List.range n).map g)) = (List.range n).map f := by
    intro g hg
    rw [List.map_congr_left hg, Exact.sumFloats_eq, sum_map_range, hsum]
    simp
  apply hspread
  intro i hi
  rw [lookup_zip_map]
  split_ifs with h
  · exact positivePart_of_nonneg (hf i)
  · exact (hoff i (List.mem_range.1 hi) h).symm

/-- Non-negative values over `n` vertices, one of them positive, divided by
their total, are convex weights. -/
theorem exists_normalize {g : ℕ → ℝ} (h0 : ∀ i < n, 0 ≤ g i) {j : ℕ} (hj : j < n) (hpos : 0 < g j) :
    ∃ w : ConvexWeights n,
      w.weights = ((List.range n).map g).map (· / sumFloats ((List.range n).map g)) := by
  rw [Exact.sumFloats_eq, sum_map_range, List.map_map]
  have htotal : 0 < ∑ i ∈ range n, g i :=
    hpos.trans_le (single_le_sum (fun i hi => h0 i (mem_range.1 hi)) (mem_range.2 hj))
  refine ⟨ConvexWeights.ofFun n (fun i => g i / ∑ i ∈ range n, g i)
    (fun i hi => div_nonneg (h0 i hi) htotal.le) (by rw [← sum_div, div_self htotal.ne']), rfl⟩

/-- Weights of a face, one per vertex of the face and summing to one, spread
to all vertices are convex weights: clamping keeps a positive weight, so
their total is positive. -/
theorem exists_spread_eq {face : List ℕ} {fw : List ℝ} (hnd : face.Nodup) (hlt : ∀ i ∈ face, i < n)
    (hlen : fw.length = face.length) (hsum : fw.sum = 1) :
    ∃ w : ConvexWeights n, w.weights = spread n face fw := by
  -- one weight of the face is positive
  have hsum0 : (fw.map fun _ => (0 : ℝ)).sum < (fw.map id).sum := by simp [hsum]
  obtain ⟨x, hx, hx0⟩ := List.exists_lt_of_sum_lt _ _ hsum0
  obtain ⟨c, hc, rfl⟩ := List.getElem_of_mem hx
  have hpos : 0 < fw[c] := hx0
  have hcf : c < face.length := hlen ▸ hc
  unfold spread
  refine exists_normalize (fun i _ => ?_) (hlt _ (List.getElem_mem hcf)) ?_
  · split
    · exact positivePart_nonneg _
    · exact le_rfl
  · -- the vertex of that weight gets it, clamped to itself
    rw [lookup_zip_getElem hnd hcf hc]
    dsimp only
    rw [positivePart_of_nonneg hpos.le]
    exact hpos

end Spread

/-! ## The search -/

section Search

variable {K : Type} [Scalar K]

/-- The weights that the face of `mask` offers the search for the point
closest to `q`: those of the projection of `q` on the face, clamped at zero
and spread to all vertices; none when the face is flat or a weight of the
projection is below `-tolerance`. -/
def faceCandidate (d : ℕ) (vs : List (Point K)) (q : Point K) (mask : ℕ) : Option (List K) :=
  (faceProjection d vs (faceOf vs.length mask) q).bind fun fw =>
    if fw.any (· < -tolerance) then none else some (spread vs.length (faceOf vs.length mask) fw)

/-- Keeping the nearer: `w` replaces the best so far only when its cost is
strictly smaller. -/
def keepNearer {α : Type} (cost : α → K) (best : Option (K × α)) (w : α) : Option (K × α) :=
  best.elim (some (cost w, w)) fun b => if cost w < b.1 then some (cost w, w) else best

/-- One step of the search: the candidate of a mask, if any, replaces the
best so far only when strictly nearer to `q`. -/
def nearerStep (d : ℕ) (vs : List (Point K)) (q : Point K) (best : Option (K × List K)) (mask : ℕ) :
    Option (K × List K) :=
  (faceCandidate d vs q mask).elim best
    (keepNearer (fun w => Point.distance (Point.interpolate d vs w) q) best)

theorem closestWeights_eq (d : ℕ) (vs : List (Point K)) (q : Point K) :
    closestWeights d vs q = if vs.length = 0 ∨ vs.length > d + 1 then none
      else ((List.range' 1 (Nat.pow 2 vs.length - 1)).foldl (nearerStep d vs q) none).map (·.2) := by
  unfold closestWeights
  dsimp only
  split_ifs
  · rfl
  · rw [List.foldl_ext _ (nearerStep d vs q) _ fun best mask _ => ?_]
    -- the search's step projects, filters, spreads, then compares
    unfold nearerStep faceCandidate keepNearer
    cases faceProjection d vs (faceOf vs.length mask) q with
    | none => rfl
    | some fw =>
      dsimp only [Option.bind]
      split_ifs
      · rfl
      · cases best <;> rfl

/-- A fold that passes over what offers nothing is a fold over what is
offered. -/
theorem foldl_elim_eq_foldl_filterMap {α β γ : Type} (f : β → Option α) (g : γ → α → γ) :
    ∀ (l : List β) (init : γ), l.foldl (fun acc b => (f b).elim acc (g acc)) init =
      (l.filterMap f).foldl g init
  | [], _ => rfl
  | b :: l, init => by
    cases hb : f b with
    | none => rw [List.foldl_cons, List.filterMap_cons_none hb, hb, Option.elim_none,
        foldl_elim_eq_foldl_filterMap f g l]
    | some a => rw [List.foldl_cons, List.filterMap_cons_some hb, hb, Option.elim_some,
        List.foldl_cons, foldl_elim_eq_foldl_filterMap f g l]

theorem foldl_nearerStep (d : ℕ) (vs : List (Point K)) (q : Point K) (masks : List ℕ)
    (init : Option (K × List K)) :
    masks.foldl (nearerStep d vs q) init = (masks.filterMap (faceCandidate d vs q)).foldl
      (keepNearer fun w => Point.distance (Point.interpolate d vs w) q) init :=
  foldl_elim_eq_foldl_filterMap _ _ masks init

end Search

/-! ## Keeping the nearest, in exact arithmetic -/

section Nearest

variable {α : Type} {cost : α → ℝ}

/-- What keeping the nearer holds after the candidates `L`: nothing when there
were none, and otherwise one of them with its cost, no costlier than any of
them. -/
def Kept (cost : α → ℝ) (L : List α) (best : Option (ℝ × α)) : Prop :=
  best.elim (L = []) fun b => b.2 ∈ L ∧ b.1 = cost b.2 ∧ ∀ w ∈ L, b.1 ≤ cost w

theorem Kept.nil : Kept cost [] none := rfl

theorem Kept.step {L : List α} {best : Option (ℝ × α)} (h : Kept cost L best) (w : α) :
    Kept cost (L ++ [w]) (keepNearer cost best w) := by
  cases best with
  | none =>
    -- no candidate before this one, which is kept
    have hL : L = [] := h
    subst hL
    rw [keepNearer, Option.elim_none, Kept, Option.elim_some]
    simp
  | some b =>
    obtain ⟨hmem, hcost, hle⟩ := h
    rw [keepNearer, Option.elim_some]
    split_ifs with hlt
    · -- a strictly nearer candidate replaces the one kept
      rw [Kept, Option.elim_some]
      refine ⟨by simp, rfl, fun w' hw' => ?_⟩
      rcases List.mem_append.1 hw' with hw' | hw'
      · exact hlt.le.trans (hle w' hw')
      · rw [List.mem_singleton.1 hw']
    · rw [Kept, Option.elim_some]
      refine ⟨List.mem_append_left _ hmem, hcost, fun w' hw' => ?_⟩
      rcases List.mem_append.1 hw' with hw' | hw'
      · exact hle w' hw'
      · rw [List.mem_singleton.1 hw']
        exact not_lt.1 hlt

theorem Kept.foldl : ∀ {L : List α} {best : Option (ℝ × α)}, Kept cost L best → ∀ L' : List α,
    Kept cost (L ++ L') (L'.foldl (keepNearer cost) best)
  | _, _, h, [] => by simpa using h
  | L, _, h, w :: L' => by
    rw [List.foldl_cons, ← List.singleton_append, ← List.append_assoc]
    exact (h.step w).foldl L'

/-- Keeping the nearer through a nonempty list of candidates ends on one of
them, with its cost, no costlier than any. -/
theorem foldl_keepNearer {L : List α} (hL : L ≠ []) :
    ∃ b, L.foldl (keepNearer cost) none = some b ∧ b.2 ∈ L ∧ b.1 = cost b.2 ∧ ∀ w ∈ L, b.1 ≤ cost w := by
  have h : Kept cost ([] ++ L) (L.foldl (keepNearer cost) none) := Kept.nil.foldl L
  rw [List.nil_append] at h
  cases hb : L.foldl (keepNearer cost) none with
  | none =>
    rw [hb] at h
    exact absurd h hL
  | some b =>
    rw [hb] at h
    exact ⟨b, rfl, h⟩

end Nearest

/-! ## Candidates in exact arithmetic -/

section Exact

variable {d : ℕ} {vs : List (Point ℝ)} {q : Point ℝ}

theorem length_weightsOf (x : Point ℝ) : (weightsOf x).length = x.size + 1 := by
  simp [weightsOf]

theorem sum_weightsOf (x : Point ℝ) : (weightsOf x).sum = 1 := by
  simp [weightsOf]

theorem faceProjection_weights {face : List ℕ} {fw : List ℝ} (h : faceProjection d vs face q = some fw) :
    fw.length = face.length ∧ fw.sum = 1 := by
  cases face with
  | nil => simp [faceProjection] at h
  | cons first others =>
    rcases eq_or_ne others [] with rfl | hk
    · -- a single vertex has the weight one
      simp only [faceProjection, List.length_nil, if_true, Option.some.injEq] at h
      subst h
      simp
    · cases hflat : faceIsFlat d vs first others
      · obtain ⟨x, hx, hsize, -⟩ := faceProjection_spec hk hflat q
        rw [hx, Option.some.injEq] at h
        subst h
        rw [length_weightsOf, hsize, sum_weightsOf, List.length_cons]
        exact ⟨rfl, rfl⟩
      · have hk' : others.length ≠ 0 := by rwa [Ne, List.length_eq_zero_iff]
        simp [faceProjection, hk', hflat] at h

/-- Every candidate of the search is convex weights, a point of the hull. -/
theorem faceCandidate_convex {mask : ℕ} {u : List ℝ} (h : faceCandidate d vs q mask = some u) :
    ∃ w : ConvexWeights vs.length, w.weights = u := by
  unfold faceCandidate at h
  obtain ⟨fw, hfw, hu⟩ := Option.bind_eq_some_iff.1 h
  split_ifs at hu
  obtain rfl := Option.some.inj hu
  obtain ⟨hlen, hsum⟩ := faceProjection_weights hfw
  exact exists_spread_eq faceOf_nodup (fun i hi => lt_of_mem_faceOf hi) hlen hsum

section Support

variable {first : ℕ} {others : List ℕ} {w : ConvexWeights vs.length}

/-- **The projection on the support.** When the closest point of the hull
uses exactly the vertices of a face, and the face passes the flatness test if
it has edges, the projection on the face has the closest point's weights. -/
theorem faceProjection_support (hflat : others ≠ [] → faceIsFlat d vs first others = false)
    (hw : ∀ u : ConvexWeights vs.length, inner ℝ (q.toEuclidean d - w.combination (vertex d vs))
      (u.combination (vertex d vs) - w.combination (vertex d vs)) ≤ 0)
    (hnd : (first :: others).Nodup) (hsupp : ∀ i, i ∈ first :: others ↔ i < vs.length ∧ 0 < w.weight i) :
    faceProjection d vs (first :: others) q = some ((first :: others).map w.weight) := by
  have hlt : ∀ i ∈ first :: others, i < vs.length := fun i hi => ((hsupp i).1 hi).1
  have hoff : ∀ i < vs.length, i ∉ first :: others → w.weight i = 0 := fun i hi hni =>
    le_antisymm (not_lt.1 fun hpos => hni ((hsupp i).2 ⟨hi, hpos⟩)) (w.weight_nonneg i)
  have hone : ((first :: others).map w.weight).sum = 1 := by
    rw [← sum_range_eq_sum_map hnd hlt hoff, w.sum_weight]
  rcases eq_or_ne others [] with rfl | hk
  · -- the closest point is a vertex, of weight one
    simp only [faceProjection, List.length_nil, if_true, List.map_cons, List.map_nil]
    simp only [List.map_cons, List.map_nil, List.sum_cons, List.sum_nil, add_zero] at hone
    rw [hone]
  obtain ⟨x, hx, hsize, horth⟩ := faceProjection_orthogonal hk (hflat hk) q
  -- the closest point is orthogonal to the edges of its support
  have hedge : ∀ j < others.length,
      inner ℝ (edge d vs first others j) (q.toEuclidean d - w.combination (vertex d vs)) = 0 := by
    intro j hj
    have hoj : others.getD j 0 ∈ first :: others :=
      List.mem_cons_of_mem _ (by rw [List.getD_eq_getElem _ _ hj]; exact List.getElem_mem hj)
    rw [real_inner_comm]
    exact ConvexWeights.inner_eq_zero_of_weight_pos hw ((hsupp _).1 hoj).2
      ((hsupp first).1 List.mem_cons_self).2
  -- so the projection's coordinates are the closest point's weights
  have hcoord : ∀ c < others.length, w.weight (others.getD c 0) - x.coord c = 0 := by
    refine eq_zero_of_inner_edges (hflat hk) _ fun j hj => ?_
    simp only [sub_smul, sum_sub_distrib]
    rw [← add_sub_add_left_eq_sub _ _ (vertex d vs first), ← combination_eq_face hnd hlt hoff,
      ← sub_sub_sub_cancel_left _ _ (q.toEuclidean d), inner_sub_right, horth j hj, hedge j hj, sub_self]
  have htail : x.toList = others.map w.weight := by
    apply List.ext_getElem (by simp [hsize])
    intro c h1 h2
    have hc : c < others.length := by simpa using h2
    rw [Array.getElem_toList, ← Point.coord_of_lt (by simpa using h1), List.getElem_map,
      ← List.getD_eq_getElem _ 0 hc]
    linarith [hcoord c hc]
  rw [hx, weightsOf, Exact.sumFloats_eq, htail, List.map_cons]
  congr
  rw [List.map_cons, List.sum_cons] at hone
  linarith

/-- **The support's candidate.** When the closest point of the hull uses
exactly the vertices of the face of `mask`, the face offers the closest
point's weights. -/
theorem faceCandidate_support {mask : ℕ}
    (hflat : ∀ first others, faceOf vs.length mask = first :: others → others ≠ [] →
      faceIsFlat d vs first others = false)
    (hw : ∀ u : ConvexWeights vs.length, inner ℝ (q.toEuclidean d - w.combination (vertex d vs))
      (u.combination (vertex d vs) - w.combination (vertex d vs)) ≤ 0)
    (hsupp : ∀ i, i ∈ faceOf vs.length mask ↔ i < vs.length ∧ 0 < w.weight i) :
    faceCandidate d vs q mask = some w.weights := by
  have hoff : ∀ i < vs.length, i ∉ faceOf vs.length mask → w.weight i = 0 := fun i hi hni =>
    le_antisymm (not_lt.1 fun hpos => hni ((hsupp i).2 ⟨hi, hpos⟩)) (w.weight_nonneg i)
  obtain ⟨i, hi, hpos⟩ := w.exists_weight_pos
  obtain ⟨first, others, hface⟩ := List.exists_cons_of_ne_nil
    (List.ne_nil_of_mem ((hsupp i).2 ⟨hi, hpos⟩))
  have hproj := faceProjection_support (q := q) (hflat first others hface) hw (hface ▸ faceOf_nodup)
    fun i => hface ▸ hsupp i
  have hany : ((first :: others).map w.weight).any (· < -tolerance) = false :=
    List.any_eq_false.2 fun x hx => by
      obtain ⟨j, -, rfl⟩ := List.mem_map.1 hx
      simpa using ((neg_neg_of_pos tolerance_pos).trans_le (w.weight_nonneg j)).le
  unfold faceCandidate
  rw [hface, hproj, Option.bind_some, hany, if_neg Bool.false_ne_true, ← hface,
    spread_map w.weight_nonneg hoff w.sum_weight, ConvexWeights.map_range_weight]

end Support

/-- When every face passes the flatness test, the vertices of the simplex
are affinely independent: convex weights that give one point are equal. -/
theorem weights_eq_of_combination_eq
    (hfaces : ∀ mask first others, faceOf vs.length mask = first :: others → others ≠ [] →
      faceIsFlat d vs first others = false)
    {u w : ConvexWeights vs.length} (h : u.combination (vertex d vs) = w.combination (vertex d vs)) :
    u.weights = w.weights := by
  apply ConvexWeights.weights_eq
  intro i hi
  obtain ⟨m, hm⟩ := Nat.exists_eq_add_one_of_ne_zero (Nat.ne_zero_of_lt hi)
  -- the whole simplex is the face of the mask of all its vertices
  have hrange : List.range vs.length = 0 :: (List.range m).map Nat.succ := by
    rw [hm, List.range_succ_eq_map]
  have hfull : faceOf vs.length (∑ j ∈ range vs.length, 2 ^ j) = 0 :: (List.range m).map Nat.succ := by
    rw [faceOf_sum_two_pow, List.filter_eq_self.2 fun j hj => by simpa using hj, hrange]
  have hsum : ((List.range vs.length).map fun j => u.weight j - w.weight j).sum = 0 := by
    rw [sum_map_range, sum_sub_distrib, u.sum_weight, w.sum_weight, sub_self]
  have hcomb : ((List.range vs.length).map fun j =>
      (u.weight j - w.weight j) • vertex d vs j).sum = 0 := by
    rw [sum_map_range]
    simp only [sub_smul, sum_sub_distrib]
    exact sub_eq_zero.2 h
  rw [hrange] at hsum hcomb
  have hzero := eq_zero_of_face_sums (hfaces _ 0 _ hfull) _ hsum hcomb i
    (hrange ▸ List.mem_range.2 hi)
  linarith

/-- **The search finds the closest point.** For `n` vertices, `1 ≤ n ≤ d + 1`,
whose faces pass the flatness test, the closest weights are convex weights
whose point is strictly nearer to `q` than the point of any other convex
weights. -/
theorem closestWeights_eq_closest (hv : ∀ v ∈ vs, v.size = d) (hq : q.size = d)
    (hfaces : ∀ mask first others, faceOf vs.length mask = first :: others → others ≠ [] →
      faceIsFlat d vs first others = false)
    (hn : vs.length ≠ 0) (hd : vs.length ≤ d + 1) :
    ∃ w : ConvexWeights vs.length, closestWeights d vs q = some w.weights ∧
      ∀ u : ConvexWeights vs.length, u.weights ≠ w.weights →
        Point.distance (Point.interpolate d vs w.weights) q <
          Point.distance (Point.interpolate d vs u.weights) q := by
  obtain ⟨w, hw⟩ := ConvexWeights.exists_closest (vertex d vs) hn (q.toEuclidean d)
  -- every other point of the hull is strictly farther
  have hstrict : ∀ u : ConvexWeights vs.length, u.weights ≠ w.weights →
      Point.distance (Point.interpolate d vs w.weights) q <
        Point.distance (Point.interpolate d vs u.weights) q := fun u hu => by
    rw [distance_interpolate hv hq, distance_interpolate hv hq]
    exact ConvexWeights.norm_sub_lt_of_inner_le_zero (hw u)
      fun h => hu (weights_eq_of_combination_eq hfaces h)
  -- the support of the closest point is a face the search visits, and it offers the closest point
  set s := (range vs.length).filter fun i => 0 < w.weight i
  have hsupp : ∀ i, i ∈ faceOf vs.length (∑ j ∈ s, 2 ^ j) ↔ i < vs.length ∧ 0 < w.weight i := by
    intro i
    rw [faceOf_sum_two_pow]
    simp [s]
  have hcand := faceCandidate_support (hfaces (∑ j ∈ s, 2 ^ j)) hw hsupp
  have hs : s.Nonempty := by
    obtain ⟨i, hi, hpos⟩ := w.exists_weight_pos
    exact ⟨i, mem_filter.2 ⟨mem_range.2 hi, hpos⟩⟩
  have hmem : w.weights ∈ (List.range' 1 (Nat.pow 2 vs.length - 1)).filterMap (faceCandidate d vs q) :=
    List.mem_filterMap.2 ⟨_, sum_two_pow_mem_masks hs fun i hi => mem_range.1 (mem_filter.1 hi).1, hcand⟩
  -- the search ends on a candidate no farther than the closest point, so on the closest point
  obtain ⟨b, hb, hbmem, hbcost, hble⟩ :=
    @foldl_keepNearer _ (fun w => Point.distance (Point.interpolate d vs w) q) _ (List.ne_nil_of_mem hmem)
  obtain ⟨m, -, hm⟩ := List.mem_filterMap.1 hbmem
  obtain ⟨u, hu⟩ := faceCandidate_convex hm
  have hbw : b.2 = w.weights := by
    by_contra hne
    have hfar := hstrict u (hu ▸ hne)
    have hle := hble w.weights hmem
    rw [hbcost, ← hu] at hle
    exact absurd hle (not_le.2 hfar)
  refine ⟨w, ?_, hstrict⟩
  rw [closestWeights_eq, if_neg (by omega), foldl_nearerStep, hb, Option.map_some, hbw]

/-- **The closest point of a simplex.** In exact arithmetic, take a simplex
of `n` vertices in dimension `d` whose every face with edges passes the
flatness test, and any point `q`. There are no closest weights exactly when
`n = 0` or `n > d + 1`. Otherwise they are convex weights whose point is
strictly nearer to `q` than the point of any other convex weights: that point
is the unique point of the hull closest to `q`, and the weights are its only
convex weights. -/
theorem closestWeights_projects (hv : ∀ v ∈ vs, v.size = d) (hq : q.size = d)
    (hfaces : ∀ mask first others, faceOf vs.length mask = first :: others → others ≠ [] →
      faceIsFlat d vs first others = false) :
    (closestWeights d vs q = none ↔ vs.length = 0 ∨ d + 1 < vs.length) ∧
    (vs.length ≠ 0 → vs.length ≤ d + 1 → ∃ w : ConvexWeights vs.length,
      closestWeights d vs q = some w.weights ∧ ∀ u : ConvexWeights vs.length, u.weights ≠ w.weights →
        Point.distance (Point.interpolate d vs w.weights) q <
          Point.distance (Point.interpolate d vs u.weights) q) := by
  refine ⟨⟨fun hnone => ?_, fun h => ?_⟩, closestWeights_eq_closest hv hq hfaces⟩
  · by_contra hin
    obtain ⟨w, hw, -⟩ := closestWeights_eq_closest hv hq hfaces (by omega) (by omega)
    rw [hw] at hnone
    exact Option.some_ne_none _ hnone
  · rw [closestWeights_eq, if_pos (by omega)]

theorem faceIsFlat_unitSegment : faceIsFlat 1 [(#[0] : Point ℝ), #[1]] 0 [1] = false := by
  simp [faceIsFlat, faceGram, faceEdges, Subsurface.Matrix.mul, Subsurface.Matrix.transpose,
    Subsurface.Matrix.determinant, Subsurface.Matrix.entry, Subsurface.Matrix.ofFn, Point.coord, powi,
    powi.go, tolerance]
  norm_num

/-- The point 2 of a line has closest weights on the unit segment, those of
its closest point. -/
theorem closestWeights_unitSegment :
    ∃ w : ConvexWeights 2, closestWeights 1 [(#[0] : Point ℝ), #[1]] #[2] = some w.weights ∧
      ∀ u : ConvexWeights 2, u.weights ≠ w.weights →
        Point.distance (Point.interpolate 1 [(#[0] : Point ℝ), #[1]] w.weights) #[2] <
          Point.distance (Point.interpolate 1 [(#[0] : Point ℝ), #[1]] u.weights) #[2] := by
  -- the only face with an edge is the whole segment
  have hfaces : ∀ mask first others, faceOf 2 mask = first :: others → others ≠ [] →
      faceIsFlat 1 [(#[0] : Point ℝ), #[1]] first others = false := by
    intro mask first others h hne
    have hsub : (first :: others).Sublist (List.range 2) := h ▸ faceOf_sublist
    have hlen : (List.range 2).length ≤ (first :: others).length := by
      cases others with
      | nil => exact absurd rfl hne
      | cons _ _ => simp
    have heq := hsub.eq_of_length_le hlen
    simp only [List.range_succ, List.range_zero, List.nil_append, List.cons_append,
      List.cons.injEq] at heq
    rw [heq.1, heq.2]
    exact faceIsFlat_unitSegment
  have hv : ∀ v ∈ [(#[0] : Point ℝ), #[1]], v.size = 1 := by simp
  have hq : (#[2] : Point ℝ).size = 1 := rfl
  exact (closestWeights_projects hv hq hfaces).2 (by decide) (by decide)

end Exact

end Simplex

end Subsurface
