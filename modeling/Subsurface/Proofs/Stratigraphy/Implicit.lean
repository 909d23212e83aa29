import Mathlib
import Subsurface.Proofs.Stratigraphy.MappedElements
import Subsurface.Proofs.Numeric.Doubles
/-!
The implicit value at a point against the last coordinate of its image.

Forward, the image of a point is the interpolation of the stratigraphic
points of the corners of the element that holds it (`forward_eq_ok`). The
implicit value there sums the implicit values of the same corners, with the
same weights and in the same order (`implicitValue_of_locate`). The
stratigraphic point of a vertex ends with its implicit value
(`vertexImage_last`), so the last coordinate of the image and the implicit
value add the same products in the same order. They differ only in that one
multiplies a coordinate by its weight and the other the weight by the value,
so in any arithmetic whose multiplication commutes, the implicit value at a
point that has an image is the last coordinate of that image
(`implicitValue_eq_last_coord`).
-/

namespace Subsurface

namespace MeshMapping

open Stratigraphy

section Points

variable {K : Type} [Scalar K] {d i : ℕ}

/-- Adding weighted points coordinate by coordinate: coordinate `i` of the
sum is the sum of the coordinates `i`, each times its weight. -/
theorem coord_foldl_add_scale (hi : i < d) : ∀ (l : List (Point K × K)) (acc : Point K),
    acc.size = d → (∀ pw ∈ l, pw.1.size = d) →
      (l.foldl (fun acc pw => Point.add acc (Point.scale pw.1 pw.2)) acc).coord i =
        l.foldl (fun a pw => a + pw.1.coord i * pw.2) (acc.coord i)
  | [], _, _, _ => rfl
  | pw :: l, acc, hacc, hl => by
    have hpw : pw.1.size = d := hl pw List.mem_cons_self
    have hnext : (Point.add acc (Point.scale pw.1 pw.2)).size = d := by
      simp [Point.add, Point.scale, hacc, hpw]
    have hcoord : (Point.add acc (Point.scale pw.1 pw.2)).coord i = acc.coord i + pw.1.coord i * pw.2 := by
      simp [Point.add, Point.scale, Point.coord, Array.getD, hacc, hpw, hi]
    rw [List.foldl_cons, List.foldl_cons, ← hcoord]
    exact coord_foldl_add_scale hi l _ hnext fun q hq => hl q (List.mem_cons_of_mem _ hq)

/-- Coordinate `i` of a weighted sum of points of dimension `d`, summed from
zero in the order of the points. -/
theorem coord_interpolate (hi : i < d) {pts : List (Point K)} (hpts : ∀ p ∈ pts, p.size = d)
    (ws : List K) :
    (Point.interpolate d pts ws).coord i = (pts.zip ws).foldl (fun a pw => a + pw.1.coord i * pw.2) 0 := by
  rw [Point.interpolate, coord_foldl_add_scale hi _ _ (Point.size_origin d)
    fun pw hpw => hpts _ (List.of_mem_zip hpw).1]
  simp [Point.origin, Point.coord, Array.getD, hi]

end Points

section Vertices

variable {K : Type} [Scalar K] {d : ℕ} {item : Uuid} {mesh : SimplexMesh}

/-- The stratigraphic point of a vertex of the mesh has dimension `d ≥ 1`
and ends with the vertex's implicit value. -/
theorem vertexImage_last {v : ℕ} {p : Point K} (h : vertexImage d item mesh v = some p) :
    v < mesh.nbVertices ∧ p.size = d ∧ 0 < d ∧
      ((mesh.attributes.encoded? implicitKey v).bind List.head?).map Scalar.ofBinary64 =
        some (p.coord (d - 1)) := by
  obtain ⟨hv, hp⟩ := vertexImage_eq_some.1 h
  unfold stratigraphicPoint at hp
  cases hc : stratigraphicCoordinates d item mesh v with
  | error e => simp [hc, Functor.map, Except.map, Except.toOption] at hp
  | ok c =>
    simp only [hc, Functor.map, Except.map, Except.toOption, Option.some.injEq] at hp
    subst hp
    obtain ⟨location, implicit, rfl, hlen, himp⟩ := stratigraphicCoordinates_eq_ok hc
    subst hlen
    refine ⟨hv, by simp [Point.ofEncoded], Nat.succ_pos _, ?_⟩
    rw [himp]
    simp [Point.ofEncoded, Point.coord, Array.getD]

variable {params : LocatorParams K} {mp : MeshMapping K}

/-- The mapping keeps for each vertex of the mesh the first value of its
implicit attribute. -/
theorem build_implicitValue (hb : build d item mesh params = .ok mp) {v : ℕ} (hv : v < mesh.nbVertices) :
    mp.implicitValues.getD v none =
      ((mesh.attributes.encoded? implicitKey v).bind List.head?).map Scalar.ofBinary64 := by
  unfold build at hb
  by_cases hsize : mesh.simplexSize ≠ d + 1
  · rw [if_pos hsize] at hb
    cases hb
  rw [if_neg hsize] at hb
  cases hpts : (List.range mesh.nbVertices).mapM (pointOrMissing (K := K) d item mesh) with
  | error e =>
    simp only [hpts, bind, Except.bind] at hb
    cases hb
  | ok pts =>
    simp only [hpts, bind, Except.bind, pure, Except.pure] at hb
    rw [← Array.foldl_toList, foldl_addElement_empty] at hb
    obtain rfl := Except.ok.inj hb
    simp [Array.getD, hv]

end Vertices

section Queries

variable {K : Type} [Scalar K] {mp : MeshMapping K} {q : Point K}

/-- A forward image is the interpolation, with the weights of the point's
location, of the stratigraphic points of the located element's vertices,
every one of which has one. -/
theorem forward_eq_ok {p : Point K} (h : mp.forward q = .ok p) :
    ∃ loc, mp.geometric.locate q = some loc ∧
      (∀ v ∈ mp.elements.getD loc.element [], ∃ s, mp.vertexPoint v = some s) ∧
      p = Point.interpolate mp.dim
        ((mp.elements.getD loc.element []).map fun v => (mp.vertexPoint v).getD #[]) loc.weights := by
  unfold forward at h
  split at h
  · next loc hloc =>
    simp only [bind, Except.bind] at h
    split at h
    · cases h
    · next corners hcorners =>
      -- each corner is the point of its vertex
      have hcs : corners =
          (mp.elements.getD loc.element []).map fun v => (mp.vertexPoint v).getD #[] := by
        refine mapM_except_eq_map (fun v b hb => ?_) hcorners
        split at hb
        · next s hs =>
          rw [hs]
          exact (Except.ok.inj hb).symm
        · cases hb
      refine ⟨loc, hloc, fun v hv => ?_, ?_⟩
      · obtain ⟨b, hb⟩ := forall_ok_of_mapM_ok hcorners v hv
        split at hb
        · next s hs => exact ⟨s, hs⟩
        · cases hb
      · rw [← hcs]
        exact (Except.ok.inj h).symm
  · cases h

/-- The implicit value at a located point sums, from zero and in the order of
the element's vertices, each weight times the implicit value of its vertex,
when every vertex has one: here coordinate `i` of a point `g v` per vertex. -/
theorem implicitValue_of_locate {loc : Location K} (hloc : mp.geometric.locate q = some loc)
    {g : ℕ → Point K} {i : ℕ}
    (hX : ∀ v ∈ mp.elements.getD loc.element [], mp.implicitValues.getD v none = some ((g v).coord i)) :
    mp.implicitValue q = .ok ((((mp.elements.getD loc.element []).map g).zip loc.weights).foldl
      (fun a pw => a + pw.2 * pw.1.coord i) 0) := by
  unfold implicitValue
  simp only [hloc]
  generalize mp.elements.getD loc.element [] = es at hX ⊢
  generalize loc.weights = ws
  generalize (0 : K) = acc
  -- one vertex after the other, from the accumulated sum
  induction es generalizing ws acc with
  | nil => rfl
  | cons v es ih =>
    cases ws with
    | nil => rfl
    | cons w ws =>
      rw [List.zip_cons_cons, List.foldlM_cons, List.map_cons, List.zip_cons_cons, List.foldl_cons]
      simp only [hX v List.mem_cons_self, pure_bind]
      exact ih (fun u hu => hX u (List.mem_cons_of_mem _ hu)) ws _

end Queries

section Last

variable {K : Type} [Scalar K] {d : ℕ} {item : Uuid} {mesh : SimplexMesh} {params : LocatorParams K}
  {mp : MeshMapping K}

/-- **The implicit value is the last coordinate of the image.** In an
arithmetic whose multiplication commutes, wherever the mapping of a mesh
gives a point an image, the implicit value at that point is the last
coordinate of the image: both add the same products in the same order. -/
theorem implicitValue_eq_last_coord (hcomm : ∀ a b : K, a * b = b * a)
    (hb : build d item mesh params = .ok mp) {q p : Point K} (hf : mp.forward q = .ok p) :
    mp.implicitValue q = .ok (p.coord (d - 1)) := by
  have hk := build_keeps hb
  obtain ⟨loc, hloc, hpts, rfl⟩ := forward_eq_ok hf
  set g : ℕ → Point K := fun v => (mp.vertexPoint v).getD #[]
  -- every corner's point has dimension `d` and ends with the corner's implicit value
  have hcorner : ∀ v ∈ mp.elements.getD loc.element [], (g v).size = d ∧ 0 < d ∧
      mp.implicitValues.getD v none = some ((g v).coord (d - 1)) := by
    intro v hv
    obtain ⟨s, hs⟩ := hpts v hv
    obtain ⟨hvn, hsize, hd, himp⟩ := vertexImage_last (hk.vertexPoint v ▸ hs)
    simp only [g, hs, Option.getD_some]
    exact ⟨hsize, hd, (build_implicitValue hb hvn).trans himp⟩
  rw [implicitValue_of_locate hloc fun v hv => (hcorner v hv).2.2, hk.dim]
  generalize mp.elements.getD loc.element [] = es at hcorner ⊢
  rcases Nat.eq_zero_or_pos d with rfl | hd
  · -- without a dimension no vertex has a point, and both sums are empty
    obtain rfl : es = [] := List.eq_nil_iff_forall_not_mem.2 fun v hv => lt_irrefl 0 (hcorner v hv).2.1
    simp [Point.interpolate, Point.origin, Point.coord]
  · rw [coord_interpolate (by omega) fun s hs => by
      obtain ⟨v, hv, rfl⟩ := List.mem_map.1 hs
      exact (hcorner v hv).1]
    -- the same products, their factors in the other order
    congr 2
    funext a pw
    rw [hcomm]

end Last

/-- In exact arithmetic the corner (0, 1) of `innerVertexMesh`, whose
stratigraphic point is its position, has the implicit value 1. -/
theorem implicitValue_innerVertexMesh_corner :
    ∃ mp, build 2 default innerVertexMesh ({ tolerance := 0 } : LocatorParams ℝ) = .ok mp ∧
      mp.forward (position innerVertexMesh 2) = .ok #[0, 1] ∧
      mp.implicitValue (position innerVertexMesh 2) = .ok 1 := by
  have hm := innerVertexMesh_mappable
  obtain ⟨mp, hbuild, hmp⟩ :=
    build_maps hm (show ({ tolerance := 0 } : LocatorParams ℝ).tolerance = 0 from rfl)
  have hpoint : innerVertexPoint 2 = #[0, 1] := by
    rw [innerVertexPoint, if_neg (by decide), position_innerVertexMesh]
    rfl
  have hf : mp.forward (position innerVertexMesh 2) = .ok #[0, 1] := by
    rw [← hpoint]
    have he : [0, 1, 2] ∈ innerVertexMesh.elements := by simp [innerVertexMesh]
    exact forward_of_corresponds hm hmp innerVertexMesh_biUnique.2
      (corresponds_vertex hm he (by simp))
  refine ⟨mp, hbuild, hf, ?_⟩
  rw [implicitValue_eq_last_coord mul_comm hbuild hf]
  simp [Point.coord]

/-- In doubles, at the point (1/4, 1/4) of `innerVertexMesh`, the implicit
value is the last coordinate of the image. -/
theorem implicitValue_innerVertexMesh_double :
    ∃ mp p, build 2 default innerVertexMesh ({} : LocatorParams Float) = .ok mp ∧
      mp.forward #[0.25, 0.25] = .ok p ∧ mp.implicitValue #[0.25, 0.25] = .ok (p.coord (2 - 1)) := by
  have hok : (build 2 default innerVertexMesh ({} : LocatorParams Float) >>= fun mp =>
      mp.forward #[0.25, 0.25]).toBool = true := by
    decide +kernel
  cases hb : build 2 default innerVertexMesh ({} : LocatorParams Float) with
  | error e => rw [hb] at hok; cases hok
  | ok mp =>
    rw [hb] at hok
    change (mp.forward #[0.25, 0.25]).toBool = true at hok
    cases hf : mp.forward #[0.25, 0.25] with
    | error e => rw [hf] at hok; cases hok
    | ok p => exact ⟨mp, p, rfl, hf, implicitValue_eq_last_coord Doubles.float_mul_comm hb hf⟩

end MeshMapping

end Subsurface
