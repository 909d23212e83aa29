import Mathlib
import Subsurface.Mesh.Locate
import Subsurface.Proofs.Geometry.Barycentric
/-!
Point location in exact arithmetic.

With no tolerance, an element contains a point exactly when the point's
weights in it are all nonnegative, and those weights are the only ones that
reproduce the point (`holds_of_containing`, `containing_of_holds`). A point
inside some element is then found inside an element, by either strategy
(`locate_inside`): brute force tries every element, and the grid tries every
element whose box covers the point's cell, which the element holding the
point does, since the cell index grows with the coordinate and a point of an
element lies in its box.

The same two facts make the grid an exact index: for any index lists as
elements, every element containing the query point without tolerance is among
the grid's candidates, and the point lies in the grid's box, so the grid
returns what brute force returns (`locate_grid_eq_bruteForce`). A slack on
the weights breaks this, since the grid reads it as a distance around its box
(`grid_misses_point_in_slack`).
-/

namespace Subsurface

namespace Point

variable {i : ℕ}

-- A weighted sum with nonnegative weights lies between the bounds of the
-- points, scaled by the total weight.
theorem weighted_bounds : ∀ {pts : List (Point ℝ)} {w : List ℝ}, pts.length = w.length →
    (∀ x ∈ w, 0 ≤ x) → ∀ {lo hi : ℝ}, (∀ p ∈ pts, lo ≤ p.coord i ∧ p.coord i ≤ hi) →
      lo * w.sum ≤ weighted i pts w ∧ weighted i pts w ≤ hi * w.sum
  | [], [], _, _, _, _, _ => by simp [weighted]
  | p :: pts, x :: w, hlen, hw, lo, hi, hb => by
    have ih : lo * w.sum ≤ weighted i pts w ∧ weighted i pts w ≤ hi * w.sum :=
      weighted_bounds (by simpa using hlen) (fun y hy => hw y (by simp [hy]))
        (fun q hq => hb q (by simp [hq]))
    have hx : 0 ≤ x := hw x (by simp)
    have hp := hb p (by simp)
    simp only [weighted, List.zip_cons_cons, List.map_cons, List.sum_cons] at ih ⊢
    rw [mul_add, mul_add]
    exact ⟨add_le_add (mul_le_mul_of_nonneg_right hp.1 hx) ih.1,
      add_le_add (mul_le_mul_of_nonneg_right hp.2 hx) ih.2⟩

end Point

namespace Box

variable {d : ℕ}

/-- A box of dimension `d` holding a point. -/
def Holds (b : Box ℝ) (d : ℕ) (p : Point ℝ) : Prop :=
  ∀ i < d, b.min.coord i ≤ p.coord i ∧ p.coord i ≤ b.max.coord i

theorem coord_zipWith {a b : Point ℝ} (f : ℝ → ℝ → ℝ) {i : ℕ} (ha : i < a.size)
    (hb : i < b.size) : Point.coord (Array.zipWith f a b) i = f (a.coord i) (b.coord i) := by
  rw [Point.coord_of_lt (by simp [ha, hb]), Point.coord_of_lt ha, Point.coord_of_lt hb,
    Array.getElem_zipWith]

-- Growing a box keeps every point it held and holds the new one.
theorem foldl_addPoint : ∀ (pts : List (Point ℝ)) (b : Box ℝ), b.min.size = d → b.max.size = d →
    (∀ p ∈ pts, p.size = d) →
      (pts.foldl addPoint b).min.size = d ∧ (pts.foldl addPoint b).max.size = d ∧
      (∀ p, b.Holds d p → (pts.foldl addPoint b).Holds d p) ∧
      ∀ p ∈ pts, (pts.foldl addPoint b).Holds d p := by
  intro pts
  induction pts with
  | nil => intro b hmin hmax _; simp [hmin, hmax]
  | cons q pts ih =>
    intro b hmin hmax hpts
    have hq : q.size = d := hpts q (by simp)
    have hmin' : (b.addPoint q).min.size = d := by simp [addPoint, hq, hmin]
    have hmax' : (b.addPoint q).max.size = d := by simp [addPoint, hq, hmax]
    -- one step: the new corners are the axis-wise min and max with `q`
    have hstep : ∀ i < d, (b.addPoint q).min.coord i = Min.min (q.coord i) (b.min.coord i) ∧
        (b.addPoint q).max.coord i = Max.max (q.coord i) (b.max.coord i) := fun i hi => by
      simp only [addPoint]
      rw [coord_zipWith _ (by omega) (by omega), coord_zipWith _ (by omega) (by omega),
        Exact.minNum_eq, Exact.maxNum_eq]
      exact ⟨rfl, rfl⟩
    obtain ⟨hsmin, hsmax, hkeep, hall⟩ := ih (b.addPoint q) hmin' hmax'
      (fun p hp => hpts p (by simp [hp]))
    refine ⟨hsmin, hsmax, fun p hp => hkeep p fun i hi => ?_, fun p hp => ?_⟩
    · rw [(hstep i hi).1, (hstep i hi).2]
      exact ⟨min_le_of_right_le (hp i hi).1, le_max_of_le_right (hp i hi).2⟩
    · rcases List.mem_cons.1 hp with rfl | hp
      · exact hkeep p fun i hi => by
          rw [(hstep i hi).1, (hstep i hi).2]
          exact ⟨min_le_left _ _, le_max_left _ _⟩
      · exact hall p hp

theorem ofPoints_spec {pts : List (Point ℝ)} (hne : pts ≠ []) (hpts : ∀ p ∈ pts, p.size = d) :
    ∃ b, ofPoints pts = some b ∧ b.min.size = d ∧ b.max.size = d ∧ ∀ p ∈ pts, b.Holds d p := by
  obtain ⟨p, rest, rfl⟩ := List.exists_cons_of_ne_nil hne
  have hp : p.size = d := hpts p (by simp)
  obtain ⟨hmin, hmax, hkeep, hall⟩ := foldl_addPoint rest (ofPoint p) hp hp
    (fun q hq => hpts q (by simp [hq]))
  refine ⟨_, rfl, hmin, hmax, fun q hq => ?_⟩
  rcases List.mem_cons.1 hq with rfl | hq
  · exact hkeep q fun i _ => ⟨le_rfl, le_rfl⟩
  · exact hall q hq

/-- A box holding some points holds their weighted sums with nonnegative
weights summing to one. -/
theorem Holds.interpolate {b : Box ℝ} {pts : List (Point ℝ)} (hb : ∀ p ∈ pts, b.Holds d p)
    (hpts : ∀ p ∈ pts, p.size = d) {w : List ℝ} (hlen : pts.length = w.length)
    (hw : ∀ x ∈ w, 0 ≤ x) (hsum : w.sum = 1) : b.Holds d (Point.interpolate d pts w) := by
  intro i hi
  rw [(Point.interpolate_spec pts w hpts).2 i hi]
  have h := Point.weighted_bounds hlen hw fun p hp => hb p hp i hi
  rw [hsum, mul_one, mul_one] at h
  exact h

theorem contains_of_holds {b : Box ℝ} (hmin : b.min.size = d) {p : Point ℝ} (h : b.Holds d p) :
    b.contains p 0 = true := by
  simp only [contains, hmin, List.all_eq_true, List.mem_range, sub_zero, add_zero,
    Bool.and_eq_true, decide_eq_true_eq]
  exact fun i hi => ⟨(h i hi).1, (h i hi).2⟩

end Box

namespace Locator

section Build

variable {K : Type} [Scalar K] (dim : ℕ) (points : Array (Point K)) (elements : Array (List ℕ))
  (params : LocatorParams K)

@[simp] theorem dim_build : (build dim points elements params).dim = dim := rfl

@[simp] theorem points_build : (build dim points elements params).points = points := rfl

@[simp] theorem elements_build : (build dim points elements params).elements = elements := rfl

@[simp] theorem params_build : (build dim points elements params).params = params := rfl

@[simp] theorem bbox_build :
    (build dim points elements params).bbox = Box.ofPoints points.toList := rfl

theorem length_cellOf (l : Locator K) (n : ℕ) (p : Point K) : (l.cellOf n p).length = l.dim := by
  unfold cellOf
  split <;> simp

end Build

variable {l : Locator ℝ}

/-- A locator in exact arithmetic without tolerance, whose elements are
simplices of the model space that are not flat. -/
structure Exact (l : Locator ℝ) : Prop where
  dim_le : l.dim ≤ 3
  point_size : ∀ p ∈ l.points, p.size = l.dim
  length : ∀ e ∈ l.elements, e.length = l.dim + 1
  valid : ∀ e ∈ l.elements, ∀ v ∈ e, v < l.points.size
  not_flat : ∀ e ∈ l.elements, Simplex.isFlat l.dim (e.map (l.points.getD · #[])) = false
  tolerance : l.params.tolerance = 0
  bbox : l.bbox = Box.ofPoints l.points.toList

/-- A locator in exact arithmetic without tolerance, over points of a model
space of dimension at most three; its elements may be any index lists. -/
structure Plain (l : Locator ℝ) : Prop where
  dim_le : l.dim ≤ 3
  point_size : ∀ p ∈ l.points, p.size = l.dim
  tolerance : l.params.tolerance = 0

theorem Exact.plain (h : l.Exact) : l.Plain := ⟨h.dim_le, h.point_size, h.tolerance⟩

/-- The positions of the vertices of element `e`. -/
def cornerPoints (l : Locator ℝ) (e : ℕ) : List (Point ℝ) :=
  (l.elements.getD e []).map (l.points.getD · #[])

/-- Element `e` is a simplex of the model space that is not flat: `dim + 1`
valid vertex indices. -/
structure Proper (l : Locator ℝ) (e : ℕ) : Prop where
  lt : e < l.elements.size
  length : (l.elements.getD e []).length = l.dim + 1
  valid : ∀ v ∈ l.elements.getD e [], v < l.points.size
  not_flat : Simplex.isFlat l.dim (l.cornerPoints e) = false

/-- `q` is the weighted sum of the corners of element `e` with the
nonnegative weights `w`, which sum to one. -/
def Holds (l : Locator ℝ) (e : ℕ) (w : List ℝ) (q : Point ℝ) : Prop :=
  w.length = l.dim + 1 ∧ (∀ x ∈ w, 0 ≤ x) ∧ w.sum = 1 ∧ Point.interpolate l.dim (l.cornerPoints e) w = q

theorem mapM_eq_pure_map {m : Type → Type} [Monad m] [LawfulMonad m] {α β : Type} {f : α → m β}
    {g : α → β} : ∀ vs : List α, (∀ v ∈ vs, f v = pure (g v)) → vs.mapM f = pure (vs.map g)
  | [], _ => by simp
  | v :: vs, h => by
    rw [List.mapM_cons, h v (by simp), mapM_eq_pure_map vs fun u hu => h u (by simp [hu])]
    simp

theorem isSome_of_mapM_eq_some {α β : Type} {f : α → Option β} :
    ∀ {vs : List α} {ys : List β}, vs.mapM f = some ys → ∀ v ∈ vs, (f v).isSome
  | [], _, _ => by simp
  | v :: vs, ys, h => by
    rw [List.mapM_cons] at h
    cases hv : f v with
    | none => rw [hv] at h; cases h
    | some y =>
      cases hvs : vs.mapM f with
      | none => rw [hv, hvs] at h; cases h
      | some zs =>
        intro u hu
        rcases List.mem_cons.1 hu with rfl | hu
        · rw [hv]; rfl
        · exact isSome_of_mapM_eq_some hvs u hu

theorem mem_elements {e : ℕ} (he : e < l.elements.size) : l.elements.getD e [] ∈ l.elements := by
  simp [Array.getD, he, Array.getElem_mem]

theorem Exact.proper (h : l.Exact) {e : ℕ} (he : e < l.elements.size) : l.Proper e :=
  ⟨he, h.length _ (mem_elements he), h.valid _ (mem_elements he), h.not_flat _ (mem_elements he)⟩

section

variable {e : ℕ}

theorem corners_eq (hv : ∀ v ∈ l.elements.getD e [], v < l.points.size) :
    l.corners e = some (l.cornerPoints e) :=
  mapM_eq_pure_map _ fun v hv' => by simp [Array.getD, hv v hv']

theorem corners_of_size_le {K : Type} [Scalar K] {l : Locator K} (he : l.elements.size ≤ e) :
    l.corners e = some [] := by
  simp [corners, Array.getD, Nat.not_lt.2 he]

theorem valid_of_corners {K : Type} [Scalar K] {l : Locator K} {cs : List (Point K)}
    (h : l.corners e = some cs) : ∀ v ∈ l.elements.getD e [], v < l.points.size := fun v hv => by
  simpa using isSome_of_mapM_eq_some h v hv

theorem length_cornerPoints (hp : l.Proper e) : (l.cornerPoints e).length = l.dim + 1 := by
  rw [cornerPoints, List.length_map, hp.length]

theorem size_cornerPoints (h : l.Plain) (hp : l.Proper e) : ∀ p ∈ l.cornerPoints e, p.size = l.dim := by
  intro p hp'
  simp only [cornerPoints, List.mem_map] at hp'
  obtain ⟨v, hv, rfl⟩ := hp'
  exact h.point_size _ (by simp [Array.getD, hp.valid v hv, Array.getElem_mem])

/-- An element that contains a point, at any tolerance, has `dim + 1` valid
indices whose points are not flat. -/
theorem proper_of_containing {q : Point ℝ} {loc : Location ℝ} (hc : l.containing e q = some loc) :
    l.Proper e := by
  simp only [containing, Option.bind_eq_bind] at hc
  obtain ⟨cs, hcs, hc⟩ := Option.bind_eq_some_iff.1 hc
  obtain ⟨w, hw, -⟩ := Option.bind_eq_some_iff.1 hc
  have hvalid := valid_of_corners hcs
  rw [corners_eq hvalid, Option.some.injEq] at hcs
  subst hcs
  obtain ⟨hlen, hflat⟩ := Simplex.barycentric_eq_some hw
  have hlen' : (l.elements.getD e []).length = l.dim + 1 := by
    rw [← hlen, cornerPoints, List.length_map]
  -- an index past the last element reads as the empty element
  have hlt : e < l.elements.size := by
    by_contra hge
    simp [Array.getD, hge] at hlen'
  exact ⟨hlt, hlen', hvalid, hflat⟩

/-- An element contains a point, without tolerance, only at nonnegative weights
that reproduce it. -/
theorem holds_of_containing (h : l.Plain) (hp : l.Proper e) {q : Point ℝ} (hq : q.size = l.dim)
    {loc : Location ℝ} (hc : l.containing e q = some loc) :
    loc.element = e ∧ loc.inside = true ∧ l.Holds e loc.weights q := by
  obtain ⟨w, hw, hlen, hsum, hinterp⟩ := Simplex.barycentric_spec h.dim_le
    (length_cornerPoints hp) (size_cornerPoints h hp) hp.not_flat hq
  simp only [containing, corners_eq hp.valid, hw, Option.bind_eq_bind, Option.bind_some,
    h.tolerance, neg_zero] at hc
  split at hc
  · cases hc
    refine ⟨rfl, rfl, hlen, fun x hx => ?_, hsum, hinterp⟩
    exact of_decide_eq_true (List.all_eq_true.1 ‹_› x hx)
  · cases hc

/-- An element contains, without tolerance, each point of it, at its weights
there. -/
theorem containing_of_holds (h : l.Plain) (hp : l.Proper e) {w : List ℝ} {q : Point ℝ}
    (hq : l.Holds e w q) : l.containing e q = some ⟨e, w, true⟩ := by
  obtain ⟨hlen, hnonneg, hsum, rfl⟩ := hq
  have hw := Simplex.barycentric_interpolate h.dim_le (length_cornerPoints hp)
    (size_cornerPoints h hp) hp.not_flat hlen hsum
  simp only [containing, corners_eq hp.valid, hw, Option.bind_eq_bind, Option.bind_some,
    h.tolerance, neg_zero]
  rw [if_pos (List.all_eq_true.2 fun x hx => by simpa using hnonneg x hx)]

end

theorem cellIndex_mono (n : ℕ) {t t' : ℝ} (h : t ≤ t') : cellIndex n t ≤ cellIndex n t' := by
  unfold cellIndex
  simp only [Exact.floorNat_eq]
  exact min_le_min_right _ (Nat.floor_le_floor (mul_le_mul_of_nonneg_right h (Nat.cast_nonneg _)))

theorem cellOf_mono (n : ℕ) {a b : Point ℝ} (hle : ∀ i < l.dim, a.coord i ≤ b.coord i) :
    ∀ axis < l.dim, (l.cellOf n a).getD axis 0 ≤ (l.cellOf n b).getD axis 0 := by
  intro axis haxis
  unfold cellOf
  split
  · simp
  · next b _ =>
    simp only [List.getD_eq_getElem?_getD, List.getElem?_map, List.getElem?_range haxis,
      Option.map_some, Option.getD_some]
    split
    · exact le_rfl
    · exact cellIndex_mono n (div_le_div_of_nonneg_right (by linarith [hle axis haxis])
        (le_of_lt (not_le.1 ‹_›)))

section

variable (h : l.Plain) {e : ℕ} (hp : l.Proper e)
include h hp

/-- The grid tries the element holding a point: the element's box covers the
point's cell. -/
theorem covers_of_holds {w : List ℝ} {q : Point ℝ} (hq : l.Holds e w q) (n : ℕ) :
    l.covers n e (l.cellOf n q) = true := by
  obtain ⟨eb, hb, hmin, hmax, hall⟩ := Box.ofPoints_spec
    (List.ne_nil_of_length_pos (by rw [length_cornerPoints hp]; omega))
    (size_cornerPoints h hp)
  have hqb : eb.Holds l.dim q := by
    obtain ⟨hlen, hnonneg, hsum, rfl⟩ := hq
    exact Box.Holds.interpolate hall (size_cornerPoints h hp)
      (by rw [length_cornerPoints hp, hlen]) hnonneg hsum
  unfold covers
  rw [corners_eq hp.valid]
  simp only [hb]
  -- the three lists of cell coordinates, one per axis, read index by index
  rw [List.all_eq_true]
  intro t ht
  obtain ⟨axis, hzip, hcell⟩ := List.getElem_of_mem ht
  simp only [List.length_zip, length_cellOf] at hzip
  have hlow := cellOf_mono (l := l) n (a := eb.min) (b := q) (fun i hi => (hqb i hi).1) axis
    (by omega)
  have hhigh := cellOf_mono (l := l) n (a := q) (b := eb.max) (fun i hi => (hqb i hi).2) axis
    (by omega)
  subst hcell
  simp only [List.getElem_zip, Bool.and_eq_true, decide_eq_true_eq]
  simp only [List.getD_eq_getElem?_getD, List.getElem?_eq_getElem (by rw [length_cellOf]; omega :
    axis < (l.cellOf n eb.min).length), List.getElem?_eq_getElem (by rw [length_cellOf]; omega :
    axis < (l.cellOf n eb.max).length), List.getElem?_eq_getElem (by rw [length_cellOf]; omega :
    axis < (l.cellOf n q).length), Option.getD_some] at hlow hhigh
  exact ⟨hlow, hhigh⟩

/-- The box of all the points of the locator holds, without tolerance, each
point of an element. -/
theorem bbox_contains_of_holds (hb : l.bbox = Box.ofPoints l.points.toList) {w : List ℝ}
    {q : Point ℝ} (hq : l.Holds e w q) : ∃ b, l.bbox = some b ∧ b.contains q 0 = true := by
  obtain ⟨b, hbox, hmin, -, hbpts⟩ := @Box.ofPoints_spec l.dim l.points.toList
    (by
      obtain ⟨v, hv⟩ : ∃ v, v ∈ l.elements.getD e [] :=
        List.exists_mem_of_ne_nil _ (List.ne_nil_of_length_pos (by rw [hp.length]; omega))
      exact List.ne_nil_of_mem (Array.mem_toList_iff.2 (Array.getElem_mem (hp.valid v hv))))
    (fun p hp' => h.point_size p (Array.mem_toList_iff.1 hp'))
  have hcorner : ∀ p ∈ l.cornerPoints e, b.Holds l.dim p := by
    intro p hp'
    simp only [cornerPoints, List.mem_map] at hp'
    obtain ⟨v, hv, rfl⟩ := hp'
    exact hbpts _ (Array.mem_toList_iff.2 (by simp [Array.getD, hp.valid v hv, Array.getElem_mem]))
  obtain ⟨hlen, hnonneg, hsum, hinterp⟩ := hq
  rw [← hinterp]
  exact ⟨b, hb.trans hbox, Box.contains_of_holds hmin (Box.Holds.interpolate hcorner
    (size_cornerPoints h hp) (by rw [length_cornerPoints hp, hlen]) hnonneg hsum)⟩

end

theorem findSome?_of_mem {β : Type} {f : ℕ → Option β} {L : List ℕ} {e : ℕ} (he : e ∈ L)
    (hf : (f e).isSome) : ∃ b, L.findSome? f = some b ∧ ∃ e' ∈ L, f e' = some b := by
  cases hfind : L.findSome? f with
  | none =>
    rw [List.findSome?_eq_none_iff] at hfind
    simp [hfind e he] at hf
  | some b => exact ⟨b, rfl, List.exists_of_findSome?_eq_some hfind⟩

/-- Searching only the candidates a filter keeps finds what searching them all
finds, when the filter keeps every candidate the search can stop at. -/
theorem findSome?_filter_of_complete {β : Type} {f : ℕ → Option β} {p : ℕ → Bool} :
    ∀ {L : List ℕ}, (∀ x ∈ L, (f x).isSome → p x = true) → (L.filter p).findSome? f = L.findSome? f
  | [], _ => rfl
  | x :: L, hc => by
    have ih := findSome?_filter_of_complete (L := L) fun y hy => hc y (List.mem_cons_of_mem x hy)
    cases hfx : f x with
    | none =>
      rw [List.findSome?_cons_of_isNone (by rw [hfx]; rfl), ← ih]
      by_cases hpx : p x = true
      · rw [List.filter_cons_of_pos hpx, List.findSome?_cons_of_isNone (by rw [hfx]; rfl)]
      · rw [List.filter_cons_of_neg hpx]
    | some y =>
      have hpx := hc x List.mem_cons_self (by rw [hfx]; rfl)
      rw [List.filter_cons_of_pos hpx, List.findSome?_cons_of_isSome (by rw [hfx]; rfl),
        List.findSome?_cons_of_isSome (by rw [hfx]; rfl)]

/-- A point inside an element is found inside an element, by either strategy:
the element found holds it, at nonnegative weights summing to one. -/
theorem locate_inside (h : l.Exact) {e : ℕ} (he : e < l.elements.size) {w : List ℝ}
    {q : Point ℝ} (hq : l.Holds e w q) :
    ∃ loc, l.locate q = some loc ∧ loc.element < l.elements.size ∧ loc.inside = true ∧
      l.Holds loc.element loc.weights q := by
  have hp := h.proper he
  have hqsize : q.size = l.dim := by
    rw [← hq.2.2.2]
    exact (Point.interpolate_spec _ _ (size_cornerPoints h.plain hp)).1
  -- whatever list of candidates holds `e`, the first element containing `q` holds it
  have hfound : ∀ L : List ℕ, e ∈ L →
      ∃ loc, L.findSome? (l.containing · q) = some loc ∧ loc.element < l.elements.size ∧
        loc.inside = true ∧ l.Holds loc.element loc.weights q := by
    intro L heL
    obtain ⟨loc, hloc, e', -, he'⟩ := findSome?_of_mem (f := (l.containing · q)) heL
      (by rw [containing_of_holds h.plain hp hq]; rfl)
    have hp' := proper_of_containing he'
    obtain ⟨hel, hin, hholds⟩ := holds_of_containing h.plain hp' hqsize he'
    exact ⟨loc, hloc, hel ▸ hp'.lt, hin, hel ▸ hholds⟩
  unfold locate
  dsimp only
  split
  · obtain ⟨loc, hloc, hrest⟩ := hfound _ (List.mem_range.2 he)
    exact ⟨loc, by rw [hloc], hrest⟩
  · next n _ =>
    obtain ⟨b, hb, hcontains⟩ := bbox_contains_of_holds h.plain hp h.bbox hq
    rw [hb, h.tolerance]
    simp only [hcontains, if_true]
    obtain ⟨loc, hloc, hrest⟩ := hfound _
      (List.mem_filter (p := fun x => l.covers n x (l.cellOf n q)).2
        ⟨List.mem_range.2 he, covers_of_holds h.plain hp hq n⟩)
    exact ⟨loc, by rw [hloc], hrest⟩

/-! ## The grid finds what brute force finds -/

/-- Brute force tries every element in order, then falls back to the nearest
one. -/
theorem locate_of_bruteForce (hres : l.resolution = none) (q : Point ℝ) :
    l.locate q = ((List.range l.elements.size).findSome? (l.containing · q)).or (l.nearest q) := by
  unfold locate
  rw [hres]
  dsimp only
  cases (List.range l.elements.size).findSome? (l.containing · q) <;> rfl

/-- Without tolerance, a grid locator over all its points answers as brute
force does: every element containing the query point covers its cell, and
the point then lies in the box of the grid. -/
theorem locate_of_grid (h : l.Plain) (hb : l.bbox = Box.ofPoints l.points.toList) {n : ℕ}
    (hres : l.resolution = some n) {q : Point ℝ} (hq : q.size = l.dim) :
    l.locate q = ((List.range l.elements.size).findSome? (l.containing · q)).or (l.nearest q) := by
  have hcomplete : ∀ e ∈ List.range l.elements.size, (l.containing e q).isSome →
      l.covers n e (l.cellOf n q) = true := by
    intro e _ hs
    obtain ⟨loc, hloc⟩ := Option.isSome_iff_exists.1 hs
    have hp := proper_of_containing hloc
    exact covers_of_holds h hp (holds_of_containing h hp hq hloc).2.2 n
  unfold locate
  rw [hres]
  dsimp only
  rw [findSome?_filter_of_complete hcomplete]
  cases hfind : (List.range l.elements.size).findSome? (l.containing · q) with
  | none => rw [ite_self]; rfl
  | some loc =>
    -- the element found holds `q`, so the box of the grid does
    obtain ⟨e, -, hloc⟩ := List.exists_of_findSome?_eq_some hfind
    have hp := proper_of_containing hloc
    obtain ⟨b, hbox, hcontains⟩ := bbox_contains_of_holds h hp hb
      (holds_of_containing h hp hq hloc).2.2
    rw [hbox, h.tolerance]
    simp only [hcontains, if_true]
    rfl

/-- A point outside the box of a grid, enlarged by the tolerance, falls back
to the nearest element. -/
theorem locate_outside_grid {n : ℕ} (hres : l.resolution = some n) {b : Box ℝ}
    (hb : l.bbox = some b) {q : Point ℝ} (hq : b.contains q l.params.tolerance = false) :
    l.locate q = l.nearest q := by
  unfold locate
  rw [hres]
  dsimp only
  rw [hb]
  simp [hq]

/-- **The grid finds what brute force finds.** In exact arithmetic and
without tolerance, for points of a model space of dimension at most three and
any index lists as elements, the grid locator, at any resolution, returns for
each query point the same element, weights and flag as the brute-force
locator, or the same nearest element, or nothing when that does. -/
theorem locate_grid_eq_bruteForce {dim : ℕ} {points : Array (Point ℝ)}
    {elements : Array (List ℕ)} {params : LocatorParams ℝ} (hdim : dim ≤ 3)
    (hpts : ∀ p ∈ points, p.size = dim) (htol : params.tolerance = 0) (n : ℕ) {q : Point ℝ}
    (hq : q.size = dim) :
    (build dim points elements { params with strategy := .grid n }).locate q =
      (build dim points elements { params with strategy := .bruteForce }).locate q := by
  rw [locate_of_grid ⟨hdim, hpts, htol⟩ rfl rfl hq, locate_of_bruteForce rfl]
  rfl

theorem triangle_grid_eq_bruteForce :
    (2 ≤ 3 ∧ (∀ p ∈ (#[#[0, 0], #[1, 0], #[0, 1]] : Array (Point ℝ)), p.size = 2) ∧
      ({ tolerance := 0 } : LocatorParams ℝ).tolerance = 0 ∧ (#[1 / 4, 1 / 4] : Point ℝ).size = 2) ∧
    (build 2 #[#[0, 0], #[1, 0], #[0, 1]] #[[0, 1, 2]]
        { ({ tolerance := 0 } : LocatorParams ℝ) with strategy := .grid 16 }).locate #[1 / 4, 1 / 4] =
      (build 2 #[#[0, 0], #[1, 0], #[0, 1]] #[[0, 1, 2]]
        { ({ tolerance := 0 } : LocatorParams ℝ) with strategy := .bruteForce }).locate
        #[1 / 4, 1 / 4] := by
  have hpts : ∀ p ∈ (#[#[0, 0], #[1, 0], #[0, 1]] : Array (Point ℝ)), p.size = 2 := by
    intro p hp
    simp only [Array.mem_iff_getElem, List.size_toArray, List.length_cons, List.length_nil] at hp
    obtain ⟨i, hi, rfl⟩ := hp
    interval_cases i <;> rfl
  exact ⟨⟨by norm_num, hpts, rfl, rfl⟩, locate_grid_eq_bruteForce (by norm_num) hpts rfl 16 rfl⟩

/-- A scan that keeps its candidate or replaces it by one satisfying `P`
ends on a candidate satisfying `P`, when it starts from none or from one. -/
theorem foldl_keeps {α β : Type} (P : β → Prop) {g : Option β → α → Option β}
    (hg : ∀ b a p, g b a = some p → b = some p ∨ P p) :
    ∀ (L : List α) (acc : Option β), (∀ p, acc = some p → P p) →
      ∀ p, L.foldl g acc = some p → P p
  | [], _, hacc => hacc
  | a :: L, acc, hacc => foldl_keeps P hg L (g acc a) fun p hp => (hg acc a p hp).elim (hacc p) id

/-- A location that brute force or the grid falls back to is marked as
snapped, not inside. -/
theorem nearest_inside {q : Point ℝ} {loc : Location ℝ} (h : l.nearest q = some loc) :
    loc.inside = false := by
  unfold nearest at h
  dsimp only at h
  split at h
  · cases h
  · next dist loc' hfold =>
    split at h
    · cases h
    · cases h
      -- each step keeps its candidate or takes a snapped one
      refine foldl_keeps (fun p => p.2.inside = false) (fun b e p hs => ?_) _ none
        (fun _ h => by cases h) _ hfold
      split at hs
      · exact .inl hs
      · split at hs
        · exact .inl hs
        · split at hs
          · split at hs
            · cases hs; exact .inr rfl
            · exact .inl hs
          · cases hs; exact .inr rfl

section SlackTriangle

/-- The triangle (0, 0), (4, 0), (0, 4), located by the strategy `s` with a
slack of one on the weights. -/
noncomputable def slackTriangle (s : Strategy) : Locator ℝ :=
  build 2 #[#[0, 0], #[4, 0], #[0, 4]] #[[0, 1, 2]] { tolerance := 1, strategy := s }

theorem cornerPoints_slackTriangle (s : Strategy) :
    (slackTriangle s).cornerPoints 0 = [#[0, 0], #[4, 0], #[0, 4]] := by
  simp [cornerPoints, slackTriangle, Array.getD]

theorem isFlat_slackTriangle : Simplex.isFlat 2 [(#[0, 0] : Point ℝ), #[4, 0], #[0, 4]] = false := by
  simp [Simplex.isFlat, Simplex.longestEdge, Simplex.edges, Matrix.determinant, Matrix.entry,
    Matrix.ofFn, Point.distance, Point.norm, Point.normSq, Point.sub, Point.coord, Simplex.powi,
    Simplex.powi.go, Simplex.tolerance]
  norm_num

/-- The point (-2, 2) has the weights 1, -1/2 and 1/2 in the triangle, which
pass the slack. -/
theorem containing_slackTriangle (s : Strategy) :
    (slackTriangle s).containing 0 #[-2, 2] = some ⟨0, [1, -1 / 2, 1 / 2], true⟩ := by
  have hw : Simplex.barycentric 2 [(#[0, 0] : Point ℝ), #[4, 0], #[0, 4]] #[-2, 2] =
      some [1, -1 / 2, 1 / 2] := by
    have h : Simplex.barycentric 2 [(#[0, 0] : Point ℝ), #[4, 0], #[0, 4]]
        (Point.interpolate 2 [(#[0, 0] : Point ℝ), #[4, 0], #[0, 4]] [1, -1 / 2, 1 / 2]) =
          some [1, -1 / 2, 1 / 2] :=
      Simplex.barycentric_interpolate (by norm_num) rfl (by simp) isFlat_slackTriangle rfl
        (by norm_num)
    have hq : Point.interpolate 2 [(#[0, 0] : Point ℝ), #[4, 0], #[0, 4]] [1, -1 / 2, 1 / 2] =
        #[-2, 2] := by
      simp [Point.interpolate, Point.add, Point.scale, Point.origin, Array.replicate_succ]
      norm_num
    rwa [hq] at h
  have hv : ∀ v ∈ (slackTriangle s).elements.getD 0 [], v < (slackTriangle s).points.size := by
    simp [slackTriangle, Array.getD]
  have hdim : (slackTriangle s).dim = 2 := rfl
  simp only [containing, corners_eq hv, cornerPoints_slackTriangle, hdim, hw, Option.bind_eq_bind,
    Option.bind_some]
  norm_num [slackTriangle]

theorem bbox_slackTriangle (s : Strategy) :
    (slackTriangle s).bbox = some ⟨#[0, 0], #[4, 4]⟩ := by
  simp [slackTriangle, Box.ofPoints, Box.addPoint, Box.ofPoint]

/-- **The grid can miss what brute force finds.** With a slack of one
on the weights, brute force finds (-2, 2) inside the triangle (0, 0), (4, 0),
(0, 4), at a weight of -1/2; the grid tries only points of the triangle's
box enlarged by one, which (-2, 2) is not, and falls back to the nearest
element, which it never marks as inside. -/
theorem grid_misses_point_in_slack :
    (slackTriangle .bruteForce).locate #[-2, 2] = some ⟨0, [1, -1 / 2, 1 / 2], true⟩ ∧
      (slackTriangle (.grid 16)).locate #[-2, 2] = (slackTriangle (.grid 16)).nearest #[-2, 2] ∧
      (slackTriangle (.grid 16)).locate #[-2, 2] ≠ (slackTriangle .bruteForce).locate #[-2, 2] := by
  have hbrute : (slackTriangle .bruteForce).locate #[-2, 2] = some ⟨0, [1, -1 / 2, 1 / 2], true⟩ := by
    have hsize : (slackTriangle .bruteForce).elements.size = 1 := rfl
    rw [locate_of_bruteForce rfl, hsize, List.range_one,
      List.findSome?_cons_of_isSome (by rw [containing_slackTriangle]; rfl), containing_slackTriangle]
    rfl
  -- the grid's box, from (0, 0) to (4, 4), enlarged by one, misses (-2, 2)
  have hgrid : (slackTriangle (.grid 16)).locate #[-2, 2] =
      (slackTriangle (.grid 16)).nearest #[-2, 2] := by
    obtain ⟨n, hres⟩ : ∃ n, (slackTriangle (.grid 16)).resolution = some n := ⟨_, rfl⟩
    refine locate_outside_grid hres (bbox_slackTriangle _) ?_
    norm_num [slackTriangle, Box.contains, List.range_succ, Point.coord]
  refine ⟨hbrute, hgrid, fun heq => ?_⟩
  rw [hgrid, hbrute] at heq
  exact absurd (nearest_inside heq) (by simp)

end SlackTriangle

end Locator

end Subsurface
