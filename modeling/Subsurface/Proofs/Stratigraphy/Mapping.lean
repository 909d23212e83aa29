import Mathlib
import Subsurface.Stratigraphy.Mapping
import Subsurface.Proofs.Mesh.Locate
/-!
Mesh mappings in exact arithmetic.

The points of an element of a cell mesh and the points of its image in
stratigraphic space correspond when the same weights give them from the
positions and from the stratigraphic points of the element's vertices
(`Corresponds`). Read in exact arithmetic with no locator tolerance, over a
mesh whose elements are not flat (`Mappable`), the mapping computes this
correspondence whenever it is one to one: a point of an element goes to its
corresponding point and back (`forward_of_corresponds`,
`inverse_of_corresponds`), whichever element the locators find, since the
correspondence does not depend on it.

Two things fall outside. A vertex that no element uses is mapped as a point
of the element it lies in, not to its own stratigraphic point. And the
locators test flatness on the vertices in the order the mapping stores them,
the first two exchanged when the image is folded over, while the test is not
symmetric in the vertices: an element that is not flat in the mesh's order may
be flat in the mapping's, so both orders are required here.
-/

namespace Subsurface

namespace Binary64

/-- A positive normal encoding with exponent field `e` and fraction field `f`
stands for `(2^52 + f) · 2^(e - 1075)`. -/
theorem toReal_normal {x : Binary64} {e f : ℕ} (hs : x.bits >>> 63 ≠ 1)
    (he : ((x.bits >>> 52) &&& 0x7FF).toNat = e) (hf : (x.bits &&& 0xFFFFFFFFFFFFF).toNat = f)
    (he0 : e ≠ 0) (he1 : e ≠ 0x7FF) :
    x.toReal = (2 ^ 52 + f) * 2 ^ ((e : ℤ) - 1075) := by
  simp only [Binary64.toReal, he, hf, if_neg hs, if_neg he0, if_neg he1, one_mul]

theorem toReal_zero : toReal ⟨0⟩ = 0 := by
  simp [toReal]

theorem toReal_one : toReal ⟨0x3FF0000000000000⟩ = 1 := by
  rw [toReal_normal (e := 1023) (f := 0) (by decide) (by decide) (by decide) (by decide)
    (by decide)]
  norm_num

theorem toReal_quarter : toReal ⟨0x3FD0000000000000⟩ = 1 / 4 := by
  rw [toReal_normal (e := 1021) (f := 0) (by decide) (by decide) (by decide) (by decide)
    (by decide)]
  norm_num

theorem toReal_five : toReal ⟨0x4014000000000000⟩ = 5 := by
  rw [toReal_normal (e := 1025) (f := 0x4000000000000) (by decide) (by decide) (by decide)
    (by decide) (by decide)]
  norm_num

end Binary64

namespace Point

variable {d : ℕ}

/-- A weighted sum depends on the pairs of points and weights, not on their
order. -/
theorem interpolate_perm {pts pts' : List (Point ℝ)} {w w' : List ℝ}
    (hperm : (pts.zip w).Perm (pts'.zip w')) (hpts : ∀ p ∈ pts, p.size = d)
    (hpts' : ∀ p ∈ pts', p.size = d) : interpolate d pts w = interpolate d pts' w' := by
  obtain ⟨hsize, hcoord⟩ := interpolate_spec pts w hpts
  obtain ⟨hsize', hcoord'⟩ := interpolate_spec pts' w' hpts'
  refine ext_coord hsize hsize' fun i hi => ?_
  rw [hcoord i hi, hcoord' i hi, weighted, weighted]
  exact (hperm.map _).sum_eq

/-- The weights that pick the `j`-th of `n` points. -/
noncomputable def unitWeights (n j : ℕ) : List ℝ :=
  (List.range n).map fun k => if k = j then 1 else 0

theorem getD_unitWeights {n j c : ℕ} (hc : c < n) :
    (unitWeights n j).getD c 0 = if c = j then 1 else 0 := by
  simp [unitWeights, hc]

theorem length_unitWeights (n j : ℕ) : (unitWeights n j).length = n := by
  simp [unitWeights]

theorem nonneg_unitWeights (n j : ℕ) : ∀ x ∈ unitWeights n j, 0 ≤ x := by
  intro x hx
  simp only [unitWeights, List.mem_map] at hx
  obtain ⟨k, -, rfl⟩ := hx
  split <;> norm_num

theorem sum_unitWeights {n j : ℕ} (hj : j < n) : (unitWeights n j).sum = 1 := by
  rw [Simplex.sum_eq_sum_getD, length_unitWeights,
    Finset.sum_congr rfl fun c hc => getD_unitWeights (Finset.mem_range.1 hc)]
  simp [hj]

/-- The `j`-th point is the weighted sum of the points with the weights that
pick it. -/
theorem interpolate_unitWeights {pts : List (Point ℝ)} (hpts : ∀ p ∈ pts, p.size = d) {j : ℕ}
    (hj : j < pts.length) : interpolate d pts (unitWeights pts.length j) = pts[j] := by
  obtain ⟨hsize, hcoord⟩ := interpolate_spec pts (unitWeights pts.length j) hpts
  refine ext_coord hsize (hpts _ (List.getElem_mem hj)) fun i hi => ?_
  rw [hcoord i hi, Simplex.weighted_eq_sum i _ _ (length_unitWeights _ _).symm,
    Finset.sum_congr rfl fun c hc => by rw [getD_unitWeights (Finset.mem_range.1 hc)]]
  simp [hj]

end Point

namespace MeshMapping

open Stratigraphy

section Swap

variable {α : Type}

/-- The list with its first two entries exchanged when `b` holds. -/
def swapWhen (b : Bool) (l : List α) : List α := if b then swapFirstTwo l else l

theorem map_swapWhen {β : Type} (f : α → β) (b : Bool) (l : List α) :
    (swapWhen b l).map f = swapWhen b (l.map f) := by
  cases b
  · rfl
  · rcases l with _ | ⟨x, _ | ⟨y, l⟩⟩ <;> rfl

theorem perm_swapWhen (b : Bool) (l : List α) : (swapWhen b l).Perm l := by
  cases b
  · exact List.Perm.refl _
  · rcases l with _ | ⟨x, _ | ⟨y, l⟩⟩
    · exact List.Perm.refl _
    · exact List.Perm.refl _
    · exact List.Perm.swap _ _ _

theorem swapWhen_swapWhen (b : Bool) (l : List α) : swapWhen b (swapWhen b l) = l := by
  cases b
  · rfl
  · rcases l with _ | ⟨x, _ | ⟨y, l⟩⟩ <;> rfl

theorem zip_swapWhen {β : Type} (b : Bool) {l : List α} {l' : List β} (h : l.length = l'.length) :
    (swapWhen b l).zip (swapWhen b l') = swapWhen b (l.zip l') := by
  cases b
  · rfl
  -- both lists change only from two entries on, and their lengths agree
  · rcases l with _ | ⟨x, _ | ⟨y, l⟩⟩ <;> rcases l' with _ | ⟨a, _ | ⟨c, l'⟩⟩ <;>
      simp_all [swapWhen, swapFirstTwo]

theorem length_swapWhen (b : Bool) (l : List α) : (swapWhen b l).length = l.length :=
  (perm_swapWhen b l).length_eq

end Swap

section Mesh

variable {d : ℕ} {item : Uuid} {mesh : SimplexMesh} {S : ℕ → Point ℝ}

/-- The position of vertex `v` of a mesh. -/
noncomputable def position (mesh : SimplexMesh) (v : ℕ) : Point ℝ :=
  (mesh.points (K := ℝ)).getD v #[]

/-- The vertices of an element in the order the mapping stores them, for the
stratigraphic points `S`: the first two exchanged when the image of the
element is folded over. -/
noncomputable def orient (d : ℕ) (S : ℕ → Point ℝ) (vs : List ℕ) : List ℕ :=
  swapWhen (isFolded d (vs.map S)) vs

/-- `p` and `s` correspond: the same weights, nonnegative and summing to one,
give `p` from the positions of the vertices of an element and `s` from their
stratigraphic points `S`. -/
def Corresponds (d : ℕ) (mesh : SimplexMesh) (S : ℕ → Point ℝ) (p s : Point ℝ) : Prop :=
  ∃ e ∈ mesh.elements, ∃ w : List ℝ, w.length = d + 1 ∧ (∀ x ∈ w, 0 ≤ x) ∧ w.sum = 1 ∧
    Point.interpolate d (e.map (position mesh)) w = p ∧ Point.interpolate d (e.map S) w = s

/-- A cell mesh of dimension at most three whose vertex `v` has the
stratigraphic point `S v`, and whose elements are simplices that are flat
neither in space nor in stratigraphic space, whichever of their first two
vertices comes first. -/
structure Mappable (d : ℕ) (item : Uuid) (mesh : SimplexMesh) (S : ℕ → Point ℝ) : Prop where
  dim_le : d ≤ 3
  simplexSize : mesh.simplexSize = d + 1
  point : ∀ v < mesh.nbVertices, stratigraphicPoint d item mesh v = .ok (S v)
  coordinates : ∀ c ∈ mesh.coordinates, c.size = d
  length : ∀ e ∈ mesh.elements, e.length = d + 1
  valid : ∀ e ∈ mesh.elements, ∀ v ∈ e, v < mesh.nbVertices
  not_flat : ∀ e ∈ mesh.elements, ∀ b : Bool,
    Simplex.isFlat d ((swapWhen b e).map (position mesh)) = false ∧
      Simplex.isFlat d ((swapWhen b e).map S) = false

/-- The coordinates of a vertex, when it has them, are its location followed
by the first value of its implicit attribute, `d` in all. -/
theorem stratigraphicCoordinates_eq_ok {v : ℕ} {c : Array Binary64}
    (h : stratigraphicCoordinates d item mesh v = .ok c) :
    ∃ location implicit, c = (location ++ [implicit]).toArray ∧ location.length + 1 = d ∧
      (mesh.attributes.encoded? implicitKey v).bind List.head? = some implicit := by
  unfold stratigraphicCoordinates at h
  cases hloc : mesh.attributes.encoded? locationKey v with
  | none => simp [hloc] at h
  | some location =>
    cases himp : (mesh.attributes.encoded? implicitKey v).bind List.head? with
    | none => simp [hloc, himp] at h
    | some implicit =>
      simp only [hloc, himp] at h
      by_cases hlen : location.length + 1 = d
      · simp only [hlen, ne_eq, not_true_eq_false, if_false] at h
        exact ⟨location, implicit, (Except.ok.inj h).symm, hlen, rfl⟩
      · simp only [hlen, ne_eq, not_false_eq_true, if_true] at h
        cases h

theorem size_of_stratigraphicCoordinates {v : ℕ} {c : Array Binary64}
    (h : stratigraphicCoordinates d item mesh v = .ok c) : c.size = d := by
  obtain ⟨location, implicit, rfl, hlen, -⟩ := stratigraphicCoordinates_eq_ok h
  simp only [List.size_toArray, List.length_append, List.length_singleton]
  exact hlen

theorem size_of_stratigraphicPoint {v : ℕ} {p : Point ℝ}
    (h : stratigraphicPoint d item mesh v = .ok p) : p.size = d := by
  unfold stratigraphicPoint at h
  cases hc : stratigraphicCoordinates d item mesh v with
  | error e => rw [hc] at h; cases h
  | ok c =>
    rw [hc] at h
    cases h
    simp [Point.ofEncoded, size_of_stratigraphicCoordinates hc]

section

variable (hm : Mappable d item mesh S)
include hm

theorem size_point {v : ℕ} (hv : v < mesh.nbVertices) : (S v).size = d :=
  size_of_stratigraphicPoint (hm.point v hv)

theorem size_position {v : ℕ} (hv : v < mesh.nbVertices) : (position mesh v).size = d := by
  have hv' : v < mesh.coordinates.size := hv
  have hsize : (position mesh v).size = mesh.coordinates[v].size := by
    simp [position, SimplexMesh.points, Array.getD, hv', Point.ofEncoded]
  rw [hsize]
  exact hm.coordinates _ (Array.getElem_mem hv')

theorem lt_of_mem_swapWhen {e : List ℕ} (he : e ∈ mesh.elements) (b : Bool) {v : ℕ}
    (hv : v ∈ swapWhen b e) : v < mesh.nbVertices :=
  hm.valid e he v ((perm_swapWhen b e).mem_iff.1 hv)

/-- Exchanging the first two vertices of an element and the first two weights
keeps the weighted sum of any points of the vertices. -/
theorem interpolate_swapWhen {f : ℕ → Point ℝ} (hf : ∀ v < mesh.nbVertices, (f v).size = d)
    {e : List ℕ} (he : e ∈ mesh.elements) (b : Bool) {w : List ℝ} (hw : w.length = d + 1) :
    Point.interpolate d ((swapWhen b e).map f) (swapWhen b w) = Point.interpolate d (e.map f) w := by
  apply Point.interpolate_perm
  · rw [map_swapWhen, zip_swapWhen b (by rw [List.length_map, hm.length e he, hw])]
    exact perm_swapWhen b _
  · simp only [List.mem_map]
    rintro _ ⟨v, hv, rfl⟩
    exact hf v (lt_of_mem_swapWhen hm he b hv)
  · simp only [List.mem_map]
    rintro _ ⟨v, hv, rfl⟩
    exact hf v (hm.valid e he v hv)

end

theorem weights_swapWhen (b : Bool) {w : List ℝ}
    (hw : w.length = d + 1 ∧ (∀ x ∈ w, 0 ≤ x) ∧ w.sum = 1) :
    (swapWhen b w).length = d + 1 ∧ (∀ x ∈ swapWhen b w, 0 ≤ x) ∧ (swapWhen b w).sum = 1 := by
  obtain ⟨hlen, hnn, hsum⟩ := hw
  refine ⟨by rw [length_swapWhen, hlen], fun x hx => hnn x ((perm_swapWhen b w).mem_iff.1 hx), ?_⟩
  rw [(perm_swapWhen b w).sum_eq, hsum]

theorem getD_mem_elements {i : ℕ} (hi : i < mesh.elements.size) :
    mesh.elements.getD i [] ∈ mesh.elements := by
  simp [Array.getD, hi, Array.getElem_mem]

/-- A correspondence read through the index of its element, with the vertices
in the mapping's order. -/
theorem corresponds_iff (hm : Mappable d item mesh S) {p s : Point ℝ} :
    Corresponds d mesh S p s ↔ ∃ i < mesh.elements.size, ∃ w : List ℝ, w.length = d + 1 ∧
      (∀ x ∈ w, 0 ≤ x) ∧ w.sum = 1 ∧
      Point.interpolate d ((orient d S (mesh.elements.getD i [])).map (position mesh)) w = p ∧
      Point.interpolate d ((orient d S (mesh.elements.getD i [])).map S) w = s := by
  constructor
  · rintro ⟨e, he, w, hlen, hnn, hsum, hp, hs⟩
    obtain ⟨i, hi, rfl⟩ := Array.mem_iff_getElem.1 he
    have hget : mesh.elements.getD i [] = mesh.elements[i] := by simp [Array.getD, hi]
    set b := isFolded d (mesh.elements[i].map S)
    obtain ⟨hlen', hnn', hsum'⟩ := weights_swapWhen b ⟨hlen, hnn, hsum⟩
    refine ⟨i, hi, swapWhen b w, hlen', hnn', hsum', ?_, ?_⟩
    · rw [hget, orient, interpolate_swapWhen hm (fun v hv => size_position hm hv) he b hlen, hp]
    · rw [hget, orient, interpolate_swapWhen hm (fun v hv => size_point hm hv) he b hlen, hs]
  · rintro ⟨i, hi, w, hlen, hnn, hsum, hp, hs⟩
    have he := getD_mem_elements hi
    set b := isFolded d ((mesh.elements.getD i []).map S)
    obtain ⟨hlen', hnn', hsum'⟩ := weights_swapWhen b ⟨hlen, hnn, hsum⟩
    refine ⟨_, he, swapWhen b w, hlen', hnn', hsum', ?_, ?_⟩
    · rw [← interpolate_swapWhen hm (fun v hv => size_position hm hv) he b hlen', swapWhen_swapWhen]
      exact hp
    · rw [← interpolate_swapWhen hm (fun v hv => size_point hm hv) he b hlen', swapWhen_swapWhen]
      exact hs

/-- A vertex of an element corresponds to its stratigraphic point, through the
weights that pick it. -/
theorem corresponds_vertex (hm : Mappable d item mesh S) {e : List ℕ} (he : e ∈ mesh.elements)
    {v : ℕ} (hv : v ∈ e) : Corresponds d mesh S (position mesh v) (S v) := by
  have hj : e.idxOf v < e.length := List.idxOf_lt_length_of_mem hv
  have hlen := hm.length e he
  have hsizes : ∀ f : ℕ → Point ℝ, (∀ u < mesh.nbVertices, (f u).size = d) →
      Point.interpolate d (e.map f) (Point.unitWeights (d + 1) (e.idxOf v)) = f v := by
    intro f hf
    have h := @Point.interpolate_unitWeights d (e.map f)
      (fun p hp => by
        obtain ⟨u, hu, rfl⟩ := List.mem_map.1 hp
        exact hf u (hm.valid e he u hu))
      (e.idxOf v) (by rw [List.length_map]; exact hj)
    simp only [List.length_map, hlen, List.getElem_map, List.getElem_idxOf] at h
    exact h
  refine ⟨e, he, Point.unitWeights (d + 1) (e.idxOf v), Point.length_unitWeights _ _,
    Point.nonneg_unitWeights _ _, Point.sum_unitWeights (by omega), ?_, ?_⟩
  · exact hsizes _ fun u hu => size_position hm hu
  · exact hsizes _ fun u hu => size_point hm hu

end Mesh

section Build

variable {d : ℕ} {item : Uuid} {mesh : SimplexMesh} {S : ℕ → Point ℝ}

theorem getD_toArray_map {α : Type} (f : ℕ → α) {n v : ℕ} (hv : v < n) (x : α) :
    ((List.range n).map f).toArray.getD v x = f v := by
  simp [Array.getD, hv]

theorem mem_map_orient (hm : Mappable d item mesh S) {e : List ℕ}
    (he : e ∈ mesh.elements.map (orient d S)) : e.length = d + 1 ∧ ∀ v ∈ e, v < mesh.nbVertices := by
  obtain ⟨e0, he0, rfl⟩ := Array.mem_map.1 he
  exact ⟨by rw [orient, length_swapWhen, hm.length e0 he0], fun v hv => lt_of_mem_swapWhen hm he0 _ hv⟩

section Fold

variable {n : ℕ} {P : Array (Option (Point ℝ))} (hP : ∀ v < n, P.getD v none = some (S v))
include hP

/-- An element whose vertices all have stratigraphic points is stored in the
mapping's order and recorded as mapped. -/
theorem addElement_eq {vs : List ℕ} (hvs : ∀ v ∈ vs, v < n) (es : Array (List ℕ))
    (ms : Array ℕ) : addElement d P (es, ms) vs = (es.push (orient d S vs), ms.push es.size) := by
  have himage : vs.mapM (P.getD · none) = some (vs.map S) :=
    Locator.mapM_eq_pure_map vs fun v hv => hP v (hvs v hv)
  simp only [addElement, himage]
  rfl

/-- When every vertex has a stratigraphic point, every element is stored in
the mapping's order and recorded as mapped, under its own index. -/
theorem foldl_addElement : ∀ (L : List (List ℕ)) (es : Array (List ℕ)),
    (∀ e ∈ L, ∀ v ∈ e, v < n) →
      L.foldl (addElement d P) (es, Array.range es.size) =
        (es ++ (L.map (orient d S)).toArray, Array.range (es.size + L.length)) := by
  intro L
  induction L with
  | nil => intro es _; simp
  | cons e L ih =>
    intro es hL
    have hrange : (Array.range es.size).push es.size =
        Array.range (es.push (orient d S e)).size := by
      rw [Array.size_push, Array.range_succ]
      rfl
    rw [List.foldl_cons, addElement_eq hP (hL e (by simp)), hrange,
      ih _ fun e' he' => hL e' (by simp [he'])]
    simp [Nat.add_comm, Nat.add_left_comm]

end Fold

section

variable (hm : Mappable d item mesh S) {params : LocatorParams ℝ} (htol : params.tolerance = 0)
include hm htol

theorem exact_geometric :
    (Locator.build d mesh.points (mesh.elements.map (orient d S)) params).Exact where
  dim_le := hm.dim_le
  point_size := by
    intro p hp
    obtain ⟨c, hc, rfl⟩ := Array.mem_map.1 hp
    simp [Point.ofEncoded, hm.coordinates c hc]
  length := fun _ he => (mem_map_orient hm he).1
  valid := fun _ he v hv => by
    simpa [SimplexMesh.points, SimplexMesh.nbVertices] using (mem_map_orient hm he).2 v hv
  not_flat := by
    intro e he
    obtain ⟨e0, he0, rfl⟩ := Array.mem_map.1 he
    exact (hm.not_flat e0 he0 _).1
  tolerance := htol
  bbox := rfl

theorem exact_stratigraphic :
    (Locator.build d ((List.range mesh.nbVertices).map S).toArray (mesh.elements.map (orient d S))
      params).Exact where
  dim_le := hm.dim_le
  point_size := by
    intro p hp
    simp only [Locator.points_build, List.mem_toArray, List.mem_map, List.mem_range] at hp
    obtain ⟨v, hv, rfl⟩ := hp
    exact size_point hm hv
  length := fun _ he => (mem_map_orient hm he).1
  valid := fun _ he v hv => by simpa using (mem_map_orient hm he).2 v hv
  not_flat := by
    intro e he
    obtain ⟨e0, he0, rfl⟩ := Array.mem_map.1 he
    have hcorner : (orient d S e0).map (((List.range mesh.nbVertices).map S).toArray.getD · #[]) =
        (orient d S e0).map S :=
      List.map_congr_left fun v hv => getD_toArray_map S (lt_of_mem_swapWhen hm he0 _ hv) #[]
    simp only [Locator.dim_build, Locator.points_build]
    rw [hcorner]
    exact (hm.not_flat e0 he0 _).2
  tolerance := htol
  bbox := rfl

end

end Build

/-- What the mapping `mp` of a mesh holds, element by element: both locators
are exact, over the mesh's elements in the mapping's order, with the positions
and the stratigraphic points of the vertices as corners, and every element is
mapped under its own index. -/
structure Maps (mp : MeshMapping ℝ) (d : ℕ) (mesh : SimplexMesh) (S : ℕ → Point ℝ) : Prop where
  dim : mp.dim = d
  geometric : mp.geometric.Exact
  stratigraphic : mp.stratigraphic.Exact
  geometric_dim : mp.geometric.dim = d
  stratigraphic_dim : mp.stratigraphic.dim = d
  geometric_size : mp.geometric.elements.size = mesh.elements.size
  stratigraphic_size : mp.stratigraphic.elements.size = mesh.elements.size
  geometric_corners : ∀ i < mesh.elements.size,
    mp.geometric.cornerPoints i = (orient d S (mesh.elements.getD i [])).map (position mesh)
  stratigraphic_corners : ∀ i < mesh.elements.size,
    mp.stratigraphic.cornerPoints i = (orient d S (mesh.elements.getD i [])).map S
  element : ∀ i < mesh.elements.size, mp.elements.getD i [] = orient d S (mesh.elements.getD i [])
  mapped : ∀ i < mesh.elements.size, mp.mappedElements.getD i 0 = i
  vertexPoint : ∀ v < mesh.nbVertices, mp.vertexPoint v = some (S v)
  geometricPoint : ∀ v < mesh.nbVertices, mp.geometricPoints.getD v #[] = position mesh v

section

variable {d : ℕ} {item : Uuid} {mesh : SimplexMesh} {S : ℕ → Point ℝ}

theorem build_maps (hm : Mappable d item mesh S) {params : LocatorParams ℝ}
    (htol : params.tolerance = 0) : ∃ mp, build d item mesh params = .ok mp ∧ mp.Maps d mesh S := by
  have hP : ∀ v < mesh.nbVertices,
      ((List.range mesh.nbVertices).map fun v => some (S v)).toArray.getD v none = some (S v) :=
    fun v hv => getD_toArray_map _ hv none
  have hpts : (List.range mesh.nbVertices).mapM (pointOrMissing d item mesh) =
      .ok ((List.range mesh.nbVertices).map fun v => some (S v)) := by
    refine Locator.mapM_eq_pure_map _ fun v hv => ?_
    rw [pointOrMissing, hm.point v (List.mem_range.1 hv)]
    rfl
  have hfold : mesh.elements.foldl
      (addElement d ((List.range mesh.nbVertices).map fun v => some (S v)).toArray) (#[], #[]) =
        (mesh.elements.map (orient d S), Array.range mesh.elements.size) := by
    rw [← Array.foldl_toList]
    have h := foldl_addElement (d := d) hP mesh.elements.toList #[]
      fun e he v hv => hm.valid e (Array.mem_toList_iff.1 he) v hv
    rw [show Array.range (#[] : Array (List ℕ)).size = #[] from rfl] at h
    rw [h, Prod.mk.injEq]
    exact ⟨Array.ext' (by simp), by simp⟩
  have hmapped : (Array.range mesh.elements.size).map ((mesh.elements.map (orient d S)).getD · []) =
      mesh.elements.map (orient d S) := by
    apply Array.ext (by simp)
    intro i hi _
    simp only [Array.size_map, Array.size_range] at hi
    simp [Array.getD, hi]
  have hfill : ∀ filler : Point ℝ,
      ((List.range mesh.nbVertices).map fun v => some (S v)).toArray.map (·.getD filler) =
        ((List.range mesh.nbVertices).map S).toArray := by
    intro filler
    simp [List.map_map, Function.comp_def]
  have hget : ∀ i < mesh.elements.size,
      (mesh.elements.map (orient d S)).getD i [] = orient d S (mesh.elements.getD i []) := by
    intro i hi
    simp [Array.getD, hi]
  unfold build
  rw [if_neg (by rw [hm.simplexSize]; exact fun h => h rfl)]
  dsimp only
  rw [hpts]
  simp only [bind, Except.bind, hfold, hmapped, hfill]
  refine ⟨_, rfl, ?_⟩
  exact {
    dim := rfl
    geometric := exact_geometric hm htol
    stratigraphic := exact_stratigraphic hm htol
    geometric_dim := rfl
    stratigraphic_dim := rfl
    geometric_size := Array.size_map ..
    stratigraphic_size := Array.size_map ..
    geometric_corners := fun i hi => by
      simp only [Locator.cornerPoints, Locator.elements_build, Locator.points_build, hget i hi]
      rfl
    stratigraphic_corners := fun i hi => by
      simp only [Locator.cornerPoints, Locator.elements_build, Locator.points_build, hget i hi]
      exact List.map_congr_left fun v hv =>
        getD_toArray_map S (lt_of_mem_swapWhen hm (getD_mem_elements hi) _ hv) #[]
    element := hget
    mapped := fun i hi => by simp [Array.getD, hi]
    vertexPoint := hP
    geometricPoint := fun _ _ => rfl }

end

/-- A locator over the mesh's elements in the mapping's order, with the points
`f` of their vertices as corners, finds a point of an element inside an
element, at weights that give it from that element's corners. -/
theorem locate_oriented {d : ℕ} {mesh : SimplexMesh} {S f : ℕ → Point ℝ} {l : Locator ℝ}
    (hl : l.Exact) (hdim : l.dim = d) (hsize : l.elements.size = mesh.elements.size)
    (hcorners : ∀ i < mesh.elements.size,
      l.cornerPoints i = (orient d S (mesh.elements.getD i [])).map f)
    {i : ℕ} (hi : i < mesh.elements.size) {w : List ℝ} (hlen : w.length = d + 1)
    (hnn : ∀ x ∈ w, 0 ≤ x) (hsum : w.sum = 1) {q : Point ℝ}
    (hq : Point.interpolate d ((orient d S (mesh.elements.getD i [])).map f) w = q) :
    ∃ loc, l.locate q = some loc ∧ loc.element < mesh.elements.size ∧
      loc.weights.length = d + 1 ∧ (∀ x ∈ loc.weights, 0 ≤ x) ∧ loc.weights.sum = 1 ∧
      Point.interpolate d ((orient d S (mesh.elements.getD loc.element [])).map f) loc.weights = q := by
  have hholds : l.Holds i w q := by
    refine ⟨by rw [hdim]; exact hlen, hnn, hsum, ?_⟩
    rw [hdim, hcorners i hi]
    exact hq
  obtain ⟨loc, hloc, hj, -, hlen', hnn', hsum', hq'⟩ :=
    Locator.locate_inside hl (by rw [hsize]; exact hi) hholds
  rw [hsize] at hj
  rw [hdim, hcorners _ hj] at hq'
  exact ⟨loc, hloc, hj, by rw [← hdim]; exact hlen', hnn', hsum', hq'⟩

section

variable {d : ℕ} {item : Uuid} {mesh : SimplexMesh} {S : ℕ → Point ℝ} {mp : MeshMapping ℝ}
  (hm : Mappable d item mesh S) (hmp : mp.Maps d mesh S)
include hm hmp

/-- A point of an element is mapped to its corresponding point, which is
unique: whichever element holds it, the image found is the same. -/
theorem forward_of_corresponds (huniq : Relator.RightUnique (Corresponds d mesh S))
    {p s : Point ℝ} (h : Corresponds d mesh S p s) : mp.forward p = .ok s := by
  obtain ⟨i, hi, w, hlen, hnn, hsum, hp, -⟩ := (corresponds_iff hm).1 h
  obtain ⟨loc, hloc, hj, hlen', hnn', hsum', hp'⟩ := locate_oriented hmp.geometric
    hmp.geometric_dim hmp.geometric_size hmp.geometric_corners hi hlen hnn hsum hp
  -- the image is the point corresponding to `p` through the element found
  have hcorr := (corresponds_iff hm).2 ⟨loc.element, hj, loc.weights, hlen', hnn', hsum', hp', rfl⟩
  rw [huniq h hcorr]
  simp only [forward, hloc, hmp.element _ hj, hmp.dim]
  rw [Locator.mapM_eq_pure_map (g := S)]
  · rfl
  · intro v hv
    rw [hmp.vertexPoint v (lt_of_mem_swapWhen hm (getD_mem_elements hj) _ hv)]

/-- A point of the image of an element is mapped back to its corresponding
point, which is unique: whichever image holds it, the preimage found is the
same. -/
theorem inverse_of_corresponds (huniq : Relator.LeftUnique (Corresponds d mesh S))
    {p s : Point ℝ} (h : Corresponds d mesh S p s) : mp.inverse s = .ok p := by
  obtain ⟨i, hi, w, hlen, hnn, hsum, -, hs⟩ := (corresponds_iff hm).1 h
  obtain ⟨loc, hloc, hj, hlen', hnn', hsum', hs'⟩ := locate_oriented hmp.stratigraphic
    hmp.stratigraphic_dim hmp.stratigraphic_size hmp.stratigraphic_corners hi hlen hnn hsum hs
  -- the preimage is the point corresponding to `s` through the element found
  have hcorr := (corresponds_iff hm).2 ⟨loc.element, hj, loc.weights, hlen', hnn', hsum', rfl, hs'⟩
  rw [huniq h hcorr]
  have hcorners : (orient d S (mesh.elements.getD loc.element [])).map (mp.geometricPoints.getD · #[]) =
      (orient d S (mesh.elements.getD loc.element [])).map (position mesh) :=
    List.map_congr_left fun v hv =>
      hmp.geometricPoint v (lt_of_mem_swapWhen hm (getD_mem_elements hj) _ hv)
  simp only [inverse, hloc, hmp.mapped _ hj, hmp.element _ hj, hcorners, hmp.dim]
  rfl

end

/-- The image of every element is its own: the stratigraphic point of each
vertex of an element is its position. The correspondence is then the identity
on the elements. -/
theorem eq_of_corresponds {d : ℕ} {mesh : SimplexMesh} {S : ℕ → Point ℝ}
    (hS : ∀ e ∈ mesh.elements, ∀ v ∈ e, S v = position mesh v) {p s : Point ℝ}
    (h : Corresponds d mesh S p s) : s = p := by
  obtain ⟨e, he, w, -, -, -, hp, hs⟩ := h
  rw [← hs, ← hp, List.map_congr_left (hS e he)]

theorem biUnique_of_eq {d : ℕ} {mesh : SimplexMesh} {S : ℕ → Point ℝ}
    (hS : ∀ e ∈ mesh.elements, ∀ v ∈ e, S v = position mesh v) :
    Relator.BiUnique (Corresponds d mesh S) :=
  ⟨fun _ _ _ ha hb => (eq_of_corresponds hS ha).symm.trans (eq_of_corresponds hS hb),
    fun _ _ _ hb hc => (eq_of_corresponds hS hb).trans (eq_of_corresponds hS hc).symm⟩

section Triangle

/-- A right triangle with a fourth vertex inside it that no element uses. The
corners (0, 0), (1, 0) and (0, 1) have their positions as stratigraphic
points; the inner vertex (1/4, 1/4) has (5, 5). -/
def innerVertexMesh : SimplexMesh where
  kind := .surface
  coordinates := #[#[⟨0⟩, ⟨0⟩], #[⟨0x3FF0000000000000⟩, ⟨0⟩], #[⟨0⟩, ⟨0x3FF0000000000000⟩],
    #[⟨0x3FD0000000000000⟩, ⟨0x3FD0000000000000⟩]]
  elements := #[[0, 1, 2]]
  attributes := ⟨4, [
    ("implicit_function", ⟨1, #[⟨0⟩, ⟨0⟩, ⟨0x3FF0000000000000⟩, ⟨0x4014000000000000⟩],
      #[true, true, true, true]⟩),
    ("stratigraphic_location", ⟨1, #[⟨0⟩, ⟨0x3FF0000000000000⟩, ⟨0⟩, ⟨0x4014000000000000⟩],
      #[true, true, true, true]⟩)]⟩

/-- The stratigraphic points of the vertices of `innerVertexMesh`. -/
noncomputable def innerVertexPoint (v : ℕ) : Point ℝ :=
  if v = 3 then #[5, 5] else position innerVertexMesh v

theorem points_innerVertexMesh :
    (innerVertexMesh.points : Array (Point ℝ)) = #[#[0, 0], #[1, 0], #[0, 1], #[1 / 4, 1 / 4]] := by
  simp [SimplexMesh.points, innerVertexMesh, Point.ofEncoded, Binary64.toReal_one,
    Binary64.toReal_quarter, Binary64.toReal_zero]

theorem position_eq_ofEncoded (mesh : SimplexMesh) (v : ℕ) :
    position mesh v = Point.ofEncoded (mesh.coordinates.getD v #[]) := by
  unfold position SimplexMesh.points
  by_cases hv : v < mesh.coordinates.size <;> simp [Array.getD, hv, Point.ofEncoded]

theorem position_innerVertexMesh (v : ℕ) : position innerVertexMesh v =
    (#[#[0, 0], #[1, 0], #[0, 1], #[1 / 4, 1 / 4]] : Array (Point ℝ)).getD v #[] := by
  rw [position, points_innerVertexMesh]

theorem isFlat_triangle : Simplex.isFlat 2 [(#[0, 0] : Point ℝ), #[1, 0], #[0, 1]] = false := by
  simp [Simplex.isFlat, Simplex.longestEdge, Simplex.edges, Matrix.determinant, Matrix.entry,
    Matrix.ofFn, Point.distance, Point.norm, Point.normSq, Point.sub, Point.coord, Simplex.powi,
    Simplex.powi.go, Simplex.tolerance]
  norm_num

theorem isFlat_triangle_swapped :
    Simplex.isFlat 2 [(#[1, 0] : Point ℝ), #[0, 0], #[0, 1]] = false := by
  simp [Simplex.isFlat, Simplex.longestEdge, Simplex.edges, Matrix.determinant, Matrix.entry,
    Matrix.ofFn, Point.distance, Point.norm, Point.normSq, Point.sub, Point.coord, Simplex.powi,
    Simplex.powi.go, Simplex.tolerance]
  norm_num
  rw [Real.le_sqrt] <;> norm_num

theorem innerVertexPoint_of_mem {e : List ℕ} (he : e ∈ innerVertexMesh.elements) {v : ℕ}
    (hv : v ∈ e) : innerVertexPoint v = position innerVertexMesh v := by
  have he' : e = [0, 1, 2] := by simpa [innerVertexMesh] using he
  subst he'
  have hv3 : v ≠ 3 := by simp at hv; omega
  rw [innerVertexPoint, if_neg hv3]

theorem innerVertexMesh_mappable : Mappable 2 default innerVertexMesh innerVertexPoint where
  dim_le := by norm_num
  simplexSize := rfl
  point := by
    intro v hv
    by_cases h3 : v = 3
    · subst h3
      rw [stratigraphicPoint, show stratigraphicCoordinates 2 default innerVertexMesh 3 =
        .ok #[⟨0x4014000000000000⟩, ⟨0x4014000000000000⟩] by decide]
      simp [innerVertexPoint, Point.ofEncoded, Binary64.toReal_five]
    · -- a corner's attributes are its coordinates
      have hcorner : ∀ v < 3, stratigraphicCoordinates 2 default innerVertexMesh v =
          .ok (innerVertexMesh.coordinates.getD v #[]) := by decide
      have hv3 : v < 3 := by
        have : innerVertexMesh.nbVertices = 4 := rfl
        omega
      rw [stratigraphicPoint, hcorner v hv3, innerVertexPoint, if_neg h3, position_eq_ofEncoded]
      rfl
  coordinates := by decide
  length := by decide
  valid := by decide
  not_flat := by
    intro e he b
    rw [List.map_congr_left fun v hv => innerVertexPoint_of_mem he
      ((perm_swapWhen b e).mem_iff.1 hv), and_self]
    have he' : e = [0, 1, 2] := by simpa [innerVertexMesh] using he
    subst he'
    cases b
    · simpa [swapWhen, position_innerVertexMesh] using isFlat_triangle
    · simpa [swapWhen, swapFirstTwo, position_innerVertexMesh] using isFlat_triangle_swapped

theorem innerVertexMesh_biUnique :
    Relator.BiUnique (Corresponds 2 innerVertexMesh innerVertexPoint) :=
  biUnique_of_eq fun _ he _ hv => innerVertexPoint_of_mem he hv

end Triangle

section

variable {d : ℕ} {item : Uuid} {mesh : SimplexMesh} {S : ℕ → Point ℝ}

/-- In exact arithmetic with no locator tolerance, the mapping of a mappable
mesh whose correspondence is one to one is built; it takes every point of an
element to its image and back, every point of an element's image back and
forth, and each vertex of an element to the vertex's stratigraphic point. -/
theorem exact_mapping_round_trip (hm : Mappable d item mesh S)
    (hR : Relator.BiUnique (Corresponds d mesh S)) {params : LocatorParams ℝ}
    (htol : params.tolerance = 0) :
    ∃ mp, build d item mesh params = .ok mp ∧
      (∀ p s, Corresponds d mesh S p s → (mp.forward p >>= mp.inverse) = .ok p) ∧
      (∀ p s, Corresponds d mesh S p s → (mp.inverse s >>= mp.forward) = .ok s) ∧
      ∀ e ∈ mesh.elements, ∀ v ∈ e, mp.forward (position mesh v) = .ok (S v) := by
  obtain ⟨mp, hbuild, hmp⟩ := build_maps hm htol
  refine ⟨mp, hbuild, fun p s h => ?_, fun p s h => ?_, fun e he v hv => ?_⟩
  · rw [forward_of_corresponds hm hmp hR.2 h]
    exact inverse_of_corresponds hm hmp hR.1 h
  · rw [inverse_of_corresponds hm hmp hR.1 h]
    exact forward_of_corresponds hm hmp hR.2 h
  · exact forward_of_corresponds hm hmp hR.2 (corresponds_vertex hm he hv)

end

theorem inner_vertex_mesh_round_trip :
    Mappable 2 default innerVertexMesh innerVertexPoint ∧
      Relator.BiUnique (Corresponds 2 innerVertexMesh innerVertexPoint) ∧
      ({ tolerance := 0 } : LocatorParams ℝ).tolerance = 0 ∧
      ∃ mp, build 2 default innerVertexMesh ({ tolerance := 0 } : LocatorParams ℝ) = .ok mp ∧
        (∀ p s, Corresponds 2 innerVertexMesh innerVertexPoint p s →
          (mp.forward p >>= mp.inverse) = .ok p) ∧
        (∀ p s, Corresponds 2 innerVertexMesh innerVertexPoint p s →
          (mp.inverse s >>= mp.forward) = .ok s) ∧
        ∀ e ∈ innerVertexMesh.elements, ∀ v ∈ e,
          mp.forward (position innerVertexMesh v) = .ok (innerVertexPoint v) :=
  ⟨innerVertexMesh_mappable, innerVertexMesh_biUnique, rfl,
    exact_mapping_round_trip innerVertexMesh_mappable innerVertexMesh_biUnique rfl⟩

/-- The inner vertex of `innerVertexMesh`, which no element uses, is mapped
as a point of the triangle, to (1/4, 1/4), and not to its stratigraphic point
(5, 5). -/
theorem inner_vertex_maps_inside_triangle :
    Mappable 2 default innerVertexMesh innerVertexPoint ∧
      Relator.BiUnique (Corresponds 2 innerVertexMesh innerVertexPoint) ∧
      ∃ mp, build 2 default innerVertexMesh ({ tolerance := 0 } : LocatorParams ℝ) = .ok mp ∧
        position innerVertexMesh 3 = #[1 / 4, 1 / 4] ∧
        mp.forward (position innerVertexMesh 3) = .ok #[1 / 4, 1 / 4] ∧
        innerVertexPoint 3 = #[5, 5] := by
  have hm := innerVertexMesh_mappable
  have hR := innerVertexMesh_biUnique
  obtain ⟨mp, hbuild, hmp⟩ :=
    build_maps hm (show ({ tolerance := 0 } : LocatorParams ℝ).tolerance = 0 from rfl)
  have hpos : position innerVertexMesh 3 = #[1 / 4, 1 / 4] := by
    rw [position_innerVertexMesh]
    rfl
  -- weights 1/2, 1/4, 1/4 give the inner vertex from the corners
  have hcorr : Corresponds 2 innerVertexMesh innerVertexPoint (position innerVertexMesh 3)
      #[1 / 4, 1 / 4] := by
    refine ⟨[0, 1, 2], by simp [innerVertexMesh], [1 / 2, 1 / 4, 1 / 4], rfl, by norm_num,
      by norm_num, ?_, ?_⟩
    · simp [position_innerVertexMesh, hpos, Point.interpolate, Point.add, Point.scale,
        Point.origin, Array.replicate_succ]
    · simp [innerVertexPoint, position_innerVertexMesh, Point.interpolate, Point.add, Point.scale,
        Point.origin, Array.replicate_succ]
  exact ⟨hm, hR, mp, hbuild, hpos, forward_of_corresponds hm hmp hR.2 hcorr, if_pos rfl⟩

end MeshMapping

end Subsurface
