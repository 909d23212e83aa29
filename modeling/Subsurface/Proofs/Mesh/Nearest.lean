import Mathlib
import Subsurface.Proofs.Mesh.Locate
import Subsurface.Proofs.Numeric.Doubles
/-!
Snapping a point onto the nearest element.

A point that no element holds falls back to the nearest element. Every
element whose vertices are points of the locator, and whose point closest to
the query has weights, offers a candidate: the distance from the query to
that point, and its weights (`Locator.candidate`). The scan goes through the
elements in order and replaces its candidate only by a strictly nearer one;
at the end it keeps its candidate unless it is farther than the snapping
distance.

The scan holds, after any number of elements, the location on the earliest
element whose candidate is nearest (`Locator.scanned_range`), as long as the
distances it compares are ordered as numbers are (`NumOrder`): always in
exact arithmetic, and with doubles wherever no distance is NaN. So for every
input and either strategy a snapped location is on the earliest nearest
element, within the snapping distance, and no location means that every
candidate is farther than it (`Locator.snapped_location_is_nearest`,
`Locator.snapped_double_is_nearest`). A NaN breaks both halves, since it
fails every comparison: a query with a NaN coordinate is at distance NaN
from every element, so the first candidate is never replaced and never found
too far (`Locator.nan_query_snapped_beyond_bound`).
-/

namespace Subsurface

/-- On the values of `K` that are not NaN, `<` and `≤` compare as in a linear
order. -/
structure NumOrder (K : Type) [Scalar K] : Prop where
  le_refl : ∀ {a : K}, Scalar.isNaN a = false → a ≤ a
  le_of_lt : ∀ {a b : K}, Scalar.isNaN a = false → Scalar.isNaN b = false → a < b → a ≤ b
  le_of_not_lt : ∀ {a b : K}, Scalar.isNaN a = false → Scalar.isNaN b = false → ¬a < b → b ≤ a
  lt_of_lt_of_le : ∀ {a b c : K}, Scalar.isNaN a = false → Scalar.isNaN b = false →
    Scalar.isNaN c = false → a < b → b ≤ c → a < c

theorem numOrder_real : NumOrder ℝ where
  le_refl _ := le_rfl
  le_of_lt _ _ h := h.le
  le_of_not_lt _ _ h := le_of_not_gt h
  lt_of_lt_of_le _ _ _ h h' := lt_of_lt_of_le h h'

theorem numOrder_float : NumOrder Float where
  le_refl := Doubles.num_le_self
  le_of_lt := Doubles.num_le_of_lt
  le_of_not_lt := Doubles.num_le_of_not_lt
  lt_of_lt_of_le := Doubles.num_lt_of_lt_of_le

namespace Locator

section Scan

variable {K : Type} [Scalar K] {l : Locator K} {q : Point K}

/-- The candidate that element `e` offers `q`: the distance from `q` to the
point of `e` closest to it, with that point's weights; `none` when a vertex
index of `e` is out of range or no face of `e` gives weights. -/
def candidate (l : Locator K) (q : Point K) (e : ℕ) : Option (K × List K) :=
  (l.corners e).bind fun cs =>
    (Simplex.closestWeights l.dim cs q).map fun w => (Point.distance (Point.interpolate l.dim cs w) q, w)

/-- One step of the scan for the nearest element: the candidate of element
`e` replaces the current one only when strictly nearer. -/
def scanStep (l : Locator K) (q : Point K) (best : Option (K × Location K)) (e : ℕ) :
    Option (K × Location K) :=
  match l.candidate q e, best with
  | none, _ => best
  | some c, some b => if c.1 < b.1 then some (c.1, ⟨e, c.2, false⟩) else best
  | some c, none => some (c.1, ⟨e, c.2, false⟩)

theorem scanStep_of_none {best : Option (K × Location K)} {e : ℕ} (hc : l.candidate q e = none) :
    l.scanStep q best e = best := by
  unfold scanStep
  rw [hc]

theorem scanStep_none {e : ℕ} {c : K × List K} (hc : l.candidate q e = some c) :
    l.scanStep q none e = some (c.1, ⟨e, c.2, false⟩) := by
  unfold scanStep
  rw [hc]

theorem scanStep_some {b : K × Location K} {e : ℕ} {c : K × List K} (hc : l.candidate q e = some c) :
    l.scanStep q (some b) e = if c.1 < b.1 then some (c.1, ⟨e, c.2, false⟩) else some b := by
  unfold scanStep
  rw [hc]

/-- The fallback is the scan over all elements, cut off at the snapping
distance. -/
theorem nearest_eq (l : Locator K) (q : Point K) :
    l.nearest q = ((List.range l.elements.size).foldl (l.scanStep q) none).bind
      fun b => if b.1 > l.maxDistance then none else some b.2 := by
  unfold nearest
  dsimp only
  rw [List.foldl_ext _ (l.scanStep q) _ fun best e _ => ?_]
  · cases (List.range l.elements.size).foldl (l.scanStep q) none <;> rfl
  · -- the fallback's step reads the corners, then the weights, then compares
    unfold scanStep candidate
    cases l.corners e with
    | none => rfl
    | some cs =>
      dsimp only [Option.bind]
      cases Simplex.closestWeights l.dim cs q with
      | none => rfl
      | some w => cases best <;> rfl

theorem inside_of_containing {e : ℕ} {loc : Location K} (h : l.containing e q = some loc) :
    loc.inside = true := by
  unfold containing at h
  simp only [Option.bind_eq_bind, Option.bind_eq_some_iff] at h
  obtain ⟨cs, -, w, -, h⟩ := h
  split at h
  · cases h
    rfl
  · cases h

theorem locate_eq_or (l : Locator K) (q : Point K) :
    (∃ e loc, l.containing e q = some loc ∧ l.locate q = some loc) ∨ l.locate q = l.nearest q := by
  -- what a search through candidate elements finds comes from one of them
  have hfound : ∀ {L : List ℕ} {loc : Location K}, L.findSome? (l.containing · q) = some loc →
      ∃ e, l.containing e q = some loc := by
    intro L loc hf
    obtain ⟨e, -, he⟩ := List.exists_of_findSome?_eq_some hf
    exact ⟨e, he⟩
  unfold locate
  dsimp only
  split
  · split
    · next loc hf =>
      obtain ⟨e, he⟩ := hfound hf
      exact .inl ⟨e, loc, he, rfl⟩
    · exact .inr rfl
  · split_ifs
    · split
      · next loc hf =>
        obtain ⟨e, he⟩ := hfound hf
        exact .inl ⟨e, loc, he, rfl⟩
      · exact .inr rfl
    · exact .inr rfl

theorem nearest_of_locate {loc : Location K} (h : l.locate q = some loc) (hin : loc.inside = false) :
    l.nearest q = some loc := by
  rcases locate_eq_or l q with ⟨e, loc', hc, hl⟩ | hl
  · rw [h, Option.some.injEq] at hl
    subst hl
    rw [inside_of_containing hc] at hin
    cases hin
  · rw [← hl, h]

theorem nearest_of_locate_eq_none (h : l.locate q = none) : l.nearest q = none := by
  rcases locate_eq_or l q with ⟨e, loc', hc, hl⟩ | hl
  · rw [h] at hl
    cases hl
  · rw [← hl, h]

theorem lt_of_containing {e : ℕ} {loc : Location K} (h : l.containing e q = some loc) :
    e < l.elements.size ∧ loc.element = e ∧ ∃ cs, l.corners e = some cs := by
  unfold containing at h
  simp only [Option.bind_eq_bind, Option.bind_eq_some_iff] at h
  obtain ⟨cs, hcs, w, hw, h⟩ := h
  refine ⟨Nat.lt_of_not_le fun he => ?_, ?_, cs, hcs⟩
  · -- past the last element the corners are those of an empty element
    rw [corners_of_size_le he] at hcs
    cases hcs
    simp [Simplex.barycentric] at hw
  · split at h
    · cases h
      rfl
    · cases h

theorem lt_of_candidate {e : ℕ} {c : K × List K} (h : l.candidate q e = some c) :
    e < l.elements.size ∧ ∃ cs, l.corners e = some cs := by
  unfold candidate at h
  obtain ⟨cs, hcs, hw⟩ := Option.bind_eq_some_iff.1 h
  refine ⟨Nat.lt_of_not_le fun he => ?_, cs, hcs⟩
  rw [corners_of_size_le he] at hcs
  cases hcs
  simp [Simplex.closestWeights] at hw

theorem nearest_element {loc : Location K} (h : l.nearest q = some loc) :
    loc.element < l.elements.size ∧ ∃ cs, l.corners loc.element = some cs := by
  rw [nearest_eq, Option.bind_eq_some_iff] at h
  obtain ⟨b, hb, hloc⟩ := h
  -- every candidate the scan takes is one of an element of the locator
  have hkeep := foldl_keeps (fun b : K × Location K => b.2.element < l.elements.size ∧
      ∃ cs, l.corners b.2.element = some cs) (g := l.scanStep q) (fun best e p hp => ?_)
    (List.range l.elements.size) none (fun _ h => by cases h) b hb
  · split at hloc
    · cases hloc
    · rw [Option.some.injEq] at hloc
      exact hloc ▸ hkeep
  · cases hc : l.candidate q e with
    | none => exact .inl (by rw [scanStep_of_none hc] at hp; exact hp)
    | some c =>
      have hnew : p = (c.1, ⟨e, c.2, false⟩) → (p.2.element < l.elements.size ∧
          ∃ cs, l.corners p.2.element = some cs) := by
        rintro rfl
        exact lt_of_candidate hc
      cases best with
      | none =>
        rw [scanStep_none hc, Option.some.injEq] at hp
        exact .inr (hnew hp.symm)
      | some b' =>
        rw [scanStep_some hc] at hp
        split at hp
        · rw [Option.some.injEq] at hp
          exact .inr (hnew hp.symm)
        · exact .inl hp

theorem locate_element {loc : Location K} (h : l.locate q = some loc) :
    loc.element < l.elements.size ∧ ∀ v ∈ l.elements.getD loc.element [], v < l.points.size := by
  rcases locate_eq_or l q with ⟨e, loc', hc, hl⟩ | hl
  · rw [h, Option.some.injEq] at hl
    subst hl
    obtain ⟨he, rfl, cs, hcs⟩ := lt_of_containing hc
    exact ⟨he, valid_of_corners hcs⟩
  · rw [h] at hl
    obtain ⟨he, cs, hcs⟩ := nearest_element hl.symm
    exact ⟨he, valid_of_corners hcs⟩

end Scan

section Law

variable {K : Type} [Scalar K] {l : Locator K} {q : Point K}

/-- Every candidate that `l` offers `q` is at a distance that is a number. -/
def NumDistances (l : Locator K) (q : Point K) : Prop :=
  ∀ e d w, l.candidate q e = some (d, w) → Scalar.isNaN d = false

/-- `loc`, at distance `d` from `q`, is the snapped location on the earliest
element below `n` whose candidate is nearest to `q`. -/
structure IsNearest (l : Locator K) (q : Point K) (n : ℕ) (d : K) (loc : Location K) : Prop where
  inside : loc.inside = false
  lt : loc.element < n
  candidate : l.candidate q loc.element = some (d, loc.weights)
  le : ∀ e < n, ∀ d' w, l.candidate q e = some (d', w) → d ≤ d'
  lt_of_lt : ∀ e < loc.element, ∀ d' w, l.candidate q e = some (d', w) → d < d'

/-- What the scan holds after the elements below `n`: nothing when none of
them offers a candidate, and otherwise the location on the earliest nearest
one. -/
def Scanned (l : Locator K) (q : Point K) (n : ℕ) : Option (K × Location K) → Prop
  | none => ∀ e < n, l.candidate q e = none
  | some b => l.IsNearest q n b.1 b.2

theorem IsNearest.keep {n : ℕ} {d : K} {loc : Location K} (h : l.IsNearest q n d loc)
    (hn : ∀ d' w, l.candidate q n = some (d', w) → d ≤ d') : l.IsNearest q (n + 1) d loc where
  inside := h.inside
  lt := Nat.lt_succ_of_lt h.lt
  candidate := h.candidate
  le e he := by
    rcases Nat.lt_succ_iff_lt_or_eq.1 he with he | rfl
    · exact h.le e he
    · exact hn
  lt_of_lt := h.lt_of_lt

section Order

variable (ho : NumOrder K) (hd : l.NumDistances q)
include ho hd

theorem isNearest_last {n : ℕ} {d : K} {w : List K} (hc : l.candidate q n = some (d, w))
    (hlt : ∀ e < n, ∀ d' w', l.candidate q e = some (d', w') → d < d') :
    l.IsNearest q (n + 1) d ⟨n, w, false⟩ where
  inside := rfl
  lt := Nat.lt_succ_self n
  candidate := hc
  le e he d' w' he' := by
    rcases Nat.lt_succ_iff_lt_or_eq.1 he with he | rfl
    · exact ho.le_of_lt (hd _ _ _ hc) (hd _ _ _ he') (hlt e he d' w' he')
    · rw [hc, Option.some.injEq, Prod.mk.injEq] at he'
      obtain ⟨rfl, -⟩ := he'
      exact ho.le_refl (hd _ _ _ hc)
  lt_of_lt := hlt

theorem Scanned.step {n : ℕ} {best : Option (K × Location K)} (h : l.Scanned q n best) :
    l.Scanned q (n + 1) (l.scanStep q best n) := by
  cases hc : l.candidate q n with
  | none =>
    -- the element offers nothing, and the scan keeps what it has
    rw [scanStep_of_none hc]
    cases best with
    | none =>
      intro e he
      rcases Nat.lt_succ_iff_lt_or_eq.1 he with he | rfl
      · exact h e he
      · exact hc
    | some b => exact IsNearest.keep h fun d' w hd => absurd (hd.symm.trans hc) (Option.some_ne_none _)
  | some c =>
    cases best with
    | none =>
      -- the first candidate is the nearest so far
      rw [scanStep_none hc]
      exact isNearest_last ho hd hc fun e he d' w' he' =>
        absurd (he'.symm.trans (h e he)) (Option.some_ne_none _)
    | some b =>
      rw [scanStep_some hc]
      -- both distances compared are numbers, so the order is linear on them
      have hnew : Scalar.isNaN c.1 = false := hd n c.1 c.2 hc
      have hkept : Scalar.isNaN b.1 = false := hd _ _ _ h.candidate
      by_cases hlt : c.1 < b.1
      · rw [if_pos hlt]
        exact isNearest_last ho hd hc fun e he d' w' he' =>
          ho.lt_of_lt_of_le hnew hkept (hd _ _ _ he') hlt (h.le e he d' w' he')
      · rw [if_neg hlt]
        refine IsNearest.keep h fun d' w hd' => ?_
        rw [hc, Option.some.injEq] at hd'
        subst hd'
        exact ho.le_of_not_lt hnew hkept hlt

/-- The scan over the first `n` elements holds nothing when none of them
offers a candidate, and otherwise the location on the earliest nearest
one. -/
theorem scanned_range (n : ℕ) : l.Scanned q n ((List.range n).foldl (l.scanStep q) none) := by
  induction n with
  | zero => exact fun e he => absurd he (Nat.not_lt_zero e)
  | succ n ih =>
    rw [List.range_succ, List.foldl_append, List.foldl_cons, List.foldl_nil]
    exact ih.step ho hd

variable (hmax : Scalar.isNaN l.maxDistance = false)
include hmax

theorem nearest_eq_some {loc : Location K} (h : l.nearest q = some loc) :
    ∃ d, l.IsNearest q l.elements.size d loc ∧ d ≤ l.maxDistance := by
  rw [nearest_eq, Option.bind_eq_some_iff] at h
  obtain ⟨b, hb, h⟩ := h
  have hs := scanned_range ho hd l.elements.size
  rw [hb] at hs
  split at h
  · cases h
  · next hfar =>
    rw [Option.some.injEq] at h
    subst h
    exact ⟨b.1, hs, ho.le_of_not_lt hmax (hd _ _ _ hs.candidate) hfar⟩

theorem nearest_eq_none (h : l.nearest q = none) :
    ∀ e < l.elements.size, ∀ d w, l.candidate q e = some (d, w) → l.maxDistance < d := by
  intro e he d w hc
  rw [nearest_eq, Option.bind_eq_none_iff] at h
  have hs := scanned_range ho hd l.elements.size
  cases hscan : (List.range l.elements.size).foldl (l.scanStep q) none with
  | none =>
    rw [hscan] at hs
    rw [hs e he] at hc
    cases hc
  | some b =>
    -- the candidate kept was too far, and the others are no nearer
    rw [hscan] at hs
    have hfar : b.1 > l.maxDistance := by
      by_contra hle
      have := h b hscan
      rw [if_neg hle] at this
      cases this
    exact ho.lt_of_lt_of_le hmax (hd _ _ _ hs.candidate) (hd _ _ _ hc) hfar (hs.le e he d w hc)

end Order

theorem maxDistance_build (dim : ℕ) (points : Array (Point ℝ)) (elements : Array (List ℕ))
    (params : LocatorParams ℝ) :
    (build dim points elements params).maxDistance =
      params.outsideTolerance * ((Box.ofPoints points.toList).map fun b => b.diagonal.norm).getD 0 := by
  unfold maxDistance
  rw [params_build, bbox_build]
  cases Box.ofPoints points.toList <;> rfl

/-- **Snapping picks the earliest nearest element within the snapping
distance.** In exact arithmetic, for any points, elements, parameters of
either strategy and query point: a location that is not inside is on the
earliest element whose closest point is nearest to the query, at most the
outside tolerance times the diagonal of the points' box away; and when
there is no location, every element's closest point is farther than that. -/
theorem snapped_location_is_nearest (dim : ℕ) (points : Array (Point ℝ))
    (elements : Array (List ℕ)) (params : LocatorParams ℝ) (q : Point ℝ) :
    (∀ loc, (build dim points elements params).locate q = some loc → loc.inside = false →
      ∃ d, (build dim points elements params).IsNearest q elements.size d loc ∧
        d ≤ params.outsideTolerance *
          ((Box.ofPoints points.toList).map fun b => b.diagonal.norm).getD 0) ∧
    ((build dim points elements params).locate q = none →
      ∀ e < elements.size, ∀ d w, (build dim points elements params).candidate q e = some (d, w) →
        params.outsideTolerance * ((Box.ofPoints points.toList).map fun b => b.diagonal.norm).getD 0 <
          d) := by
  rw [← maxDistance_build]
  -- no real number is NaN
  have hd : (build dim points elements params).NumDistances q := fun _ _ _ _ => rfl
  refine ⟨fun _ h hin => nearest_eq_some numOrder_real hd rfl (nearest_of_locate h hin), fun h => ?_⟩
  exact nearest_eq_none numOrder_real hd rfl (nearest_of_locate_eq_none h)

/-- **Snapping doubles picks the earliest nearest element within the snapping
distance**, wherever the distances compared are numbers. For any points,
elements, parameters of either strategy and query point at which no
candidate's distance and not the snapping distance is NaN: a location that
is not inside is on the earliest element whose closest point is nearest to
the query, within the snapping distance; and when there is no location,
every element's closest point is farther than that. -/
theorem snapped_double_is_nearest (dim : ℕ) (points : Array (Point Float))
    (elements : Array (List ℕ)) (params : LocatorParams Float) (q : Point Float)
    (hd : ∀ e d w, (build dim points elements params).candidate q e = some (d, w) → d.isNaN = false)
    (hmax : (build dim points elements params).maxDistance.isNaN = false) :
    (∀ loc, (build dim points elements params).locate q = some loc → loc.inside = false →
      ∃ d, (build dim points elements params).IsNearest q elements.size d loc ∧
        d ≤ (build dim points elements params).maxDistance) ∧
    ((build dim points elements params).locate q = none →
      ∀ e < elements.size, ∀ d w, (build dim points elements params).candidate q e = some (d, w) →
        (build dim points elements params).maxDistance < d) :=
  ⟨fun _ h hin => nearest_eq_some numOrder_float hd hmax (nearest_of_locate h hin),
    fun h => nearest_eq_none numOrder_float hd hmax (nearest_of_locate_eq_none h)⟩

/-- The triangle (0, 0), (1, 0), (0, 1), with the default parameters. -/
def unitTriangle : Locator Float := build 2 #[#[0, 0], #[1, 0], #[0, 1]] #[[0, 1, 2]] {}

theorem snapped_beside_unitTriangle :
    (∀ e d w, unitTriangle.candidate #[-1e-7, 0.5] e = some (d, w) → d.isNaN = false) ∧
    unitTriangle.maxDistance.isNaN = false ∧
    ∃ loc, unitTriangle.locate #[-1e-7, 0.5] = some loc ∧ loc.element = 0 ∧ loc.inside = false ∧
      ∃ d, unitTriangle.IsNearest #[-1e-7, 0.5] 1 d loc ∧ d ≤ unitTriangle.maxDistance := by
  have hd : ∀ e d w, unitTriangle.candidate #[-1e-7, 0.5] e = some (d, w) → d.isNaN = false := by
    intro e d w h
    -- the triangle is the only element
    obtain rfl : e = 0 := Nat.lt_one_iff.1 (lt_of_candidate h).1
    have h0 : (unitTriangle.candidate #[-1e-7, 0.5] 0).map (fun c => c.1.isNaN) = some false := by
      decide +kernel
    rw [h] at h0
    exact Option.some.inj h0
  have hmax : unitTriangle.maxDistance.isNaN = false := by decide +kernel
  have hloc : (unitTriangle.locate #[-1e-7, 0.5]).map (fun loc => (loc.element, loc.inside)) =
      some (0, false) := by
    decide +kernel
  obtain ⟨loc, hl, hel⟩ := Option.map_eq_some_iff.1 hloc
  rw [Prod.mk.injEq] at hel
  exact ⟨hd, hmax, loc, hl, hel.1, hel.2,
    (snapped_double_is_nearest 2 _ _ {} _ hd hmax).1 loc hl hel.2⟩

/-- A query with a NaN coordinate is at distance NaN from the triangle, and is
snapped onto it all the same, although that distance is not within the
snapping distance. -/
theorem nan_query_snapped_beyond_bound :
    ∃ loc d w, unitTriangle.locate #[0 / 0, 0] = some loc ∧ loc.element = 0 ∧ loc.inside = false ∧
      unitTriangle.candidate #[0 / 0, 0] 0 = some (d, w) ∧ d.isNaN = true ∧
        ¬d ≤ unitTriangle.maxDistance := by
  have hloc : (unitTriangle.locate #[0 / 0, 0]).map (fun loc => (loc.element, loc.inside)) =
      some (0, false) := by
    decide +kernel
  have hc : (unitTriangle.candidate #[0 / 0, 0] 0).map
      (fun c => (c.1.isNaN, decide (c.1 ≤ unitTriangle.maxDistance))) = some (true, false) := by
    decide +kernel
  obtain ⟨loc, hl, hel⟩ := Option.map_eq_some_iff.1 hloc
  obtain ⟨⟨d, w⟩, hcw, hdw⟩ := Option.map_eq_some_iff.1 hc
  rw [Prod.mk.injEq] at hel hdw
  exact ⟨loc, d, w, hl, hel.1, hel.2, hcw, hdw.1, of_decide_eq_false hdw.2⟩

end Law

end Locator

end Subsurface
