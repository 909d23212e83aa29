import Mathlib
import Subsurface.Proofs.Stratigraphy.Mapping
import Subsurface.Proofs.Mesh.Nearest
import Subsurface.Proofs.Catalog
/-!
The elements a mesh mapping keeps.

Building the mapping of a cell mesh fails exactly when the elements are not
full-dimensional simplices, or when some vertex has both stratigraphic
attributes with a location of the wrong length (`MeshMapping.build_fails_iff`,
`MeshMapping.build_eq_error`).
A vertex missing either attribute only leaves the vertex without a point.

Otherwise the mapping keeps every element of the mesh, under its own index,
with its first two vertices exchanged exactly when every vertex has a point
and the image is folded over; the mapped elements are, in increasing order,
those whose vertices all have points, and they are the only elements the
stratigraphic locator sees, so the filler point that stands for a vertex
without a point is a corner of none (`MeshMapping.Keeps`). Whatever either
locator finds is an element it holds with vertices among its points, and the
three point sets of the mapping have one entry per vertex, so forward,
backward and implicit queries only read entries that exist.

The exchanged elements are the ones the folded-element report lists for the
mesh when every vertex is attributed (`MeshMapping.foldedElements_eq`), and
in exact arithmetic the exchange makes every mapped image positively
oriented, since exchanging two vertices of a simplex of the model space
negates its orientation (`MeshMapping.orientation_swapFirstTwo`).
-/

namespace Subsurface

open Stratigraphy

namespace MeshMapping

section Monadic

variable {α β ε : Type} {f : α → Except ε β}

theorem isSome_of_mapM_isSome {g : α → Option β} :
    ∀ {l : List α}, (l.mapM g).isSome → ∀ a ∈ l, (g a).isSome
  | x :: l, h, a, ha => by
    rw [List.mapM_cons] at h
    cases hx : g x with
    | none => simp [hx] at h
    | some b =>
      cases hl : l.mapM g with
      | none => simp [hx, hl] at h
      | some bs =>
        rcases List.mem_cons.1 ha with rfl | ha
        · simp [hx]
        · exact isSome_of_mapM_isSome (by simp [hl]) a ha

end Monadic

section Points

variable {K : Type} [Scalar K] {d : ℕ} {item : Uuid} {mesh : SimplexMesh}

/-- Vertex `v` has both stratigraphic attributes, but its location has
`location.length` coordinates where a point of dimension `d` needs `d - 1`. -/
def WrongLocation (d : ℕ) (mesh : SimplexMesh) (v : ℕ) (location : List Binary64) : Prop :=
  mesh.attributes.encoded? locationKey v = some location ∧
    ((mesh.attributes.encoded? implicitKey v).bind List.head?).isSome ∧ location.length + 1 ≠ d

/-- The stratigraphic point of `v`, none when `v` is not a vertex of the
mesh or misses an attribute. -/
def vertexImage (d : ℕ) (item : Uuid) (mesh : SimplexMesh) (v : ℕ) : Option (Point K) :=
  if v < mesh.nbVertices then (stratigraphicPoint d item mesh v).toOption else none

/-- The stratigraphic image of an element: the points of its vertices, when
every one of them has a point. -/
def elementImage (d : ℕ) (item : Uuid) (mesh : SimplexMesh) (vs : List ℕ) :
    Option (List (Point K)) :=
  vs.mapM (vertexImage d item mesh)

theorem vertexImage_eq_some {v : ℕ} {p : Point K} :
    vertexImage d item mesh v = some p ↔
      v < mesh.nbVertices ∧ (stratigraphicPoint d item mesh v).toOption = some p := by
  unfold vertexImage
  split_ifs with hv <;> simp [hv]

/-- Whether the mapping exchanges the first two vertices of an element: its
image exists and is folded over. -/
def flipped (d : ℕ) (item : Uuid) (mesh : SimplexMesh) (vs : List ℕ) : Bool :=
  (elementImage (K := K) d item mesh vs).any (isFolded d)

/-- Reading the coordinates of a vertex fails on a missing attribute, or on
a location of the wrong length. -/
theorem stratigraphicCoordinates_eq_error {v : ℕ} {e : MappingError}
    (h : stratigraphicCoordinates d item mesh v = .error e) :
    (∃ key, e = .missingAttribute item v key) ∨
      ∃ location, WrongLocation d mesh v location ∧
        e = .attributeDimension locationKey (d - 1) location.length := by
  unfold stratigraphicCoordinates at h
  cases hloc : mesh.attributes.encoded? locationKey v with
  | none =>
    simp only [hloc] at h
    exact .inl ⟨_, (Except.error.inj h).symm⟩
  | some location =>
    cases himp : (mesh.attributes.encoded? implicitKey v).bind List.head? with
    | none =>
      simp only [hloc, himp] at h
      exact .inl ⟨_, (Except.error.inj h).symm⟩
    | some implicit =>
      simp only [hloc, himp, bind, Except.bind] at h
      split at h
      · next hlen =>
        exact .inr ⟨location, ⟨hloc, by simp [himp], hlen⟩, (Except.error.inj h).symm⟩
      · cases h

theorem stratigraphicCoordinates_of_wrong {v : ℕ} {location : List Binary64}
    (h : WrongLocation d mesh v location) :
    stratigraphicCoordinates d item mesh v =
      .error (.attributeDimension locationKey (d - 1) location.length) := by
  obtain ⟨hloc, himp, hlen⟩ := h
  obtain ⟨implicit, himp⟩ := Option.isSome_iff_exists.1 himp
  unfold stratigraphicCoordinates
  simp only [hloc, himp, bind, Except.bind]
  rw [if_pos hlen]
  rfl

/-- A vertex read for the mapping has its point, or none when it misses an
attribute. -/
theorem pointOrMissing_eq_ok {v : ℕ} {x : Option (Point K)}
    (h : pointOrMissing d item mesh v = .ok x) :
    x = (stratigraphicPoint d item mesh v).toOption := by
  unfold pointOrMissing at h
  split at h
  · next p hp =>
    rw [hp]
    exact (Except.ok.inj h).symm
  · next hp =>
    rw [hp]
    exact (Except.ok.inj h).symm
  · cases h

/-- Reading a vertex for the mapping fails exactly on a location of the wrong
length. -/
theorem pointOrMissing_eq_error {v : ℕ} {e : MappingError} :
    pointOrMissing (K := K) d item mesh v = .error e ↔
      ∃ location, WrongLocation d mesh v location ∧
        e = .attributeDimension locationKey (d - 1) location.length := by
  unfold pointOrMissing stratigraphicPoint
  constructor
  · intro h
    cases hc : stratigraphicCoordinates d item mesh v with
    | ok c => simp [hc, Functor.map, Except.map] at h
    | error e' =>
      simp only [hc, Functor.map, Except.map] at h
      rcases stratigraphicCoordinates_eq_error hc with ⟨key, rfl⟩ | ⟨location, hw, rfl⟩
      · cases h
      · exact ⟨location, hw, (Except.error.inj h).symm⟩
  · rintro ⟨location, hw, rfl⟩
    rw [stratigraphicCoordinates_of_wrong hw]
    rfl

end Points

section Fold

variable {K : Type} [Scalar K] {d : ℕ} (P : Array (Option (Point K)))

/-- One element added: stored, exchanged when its image is folded over, and
recorded as mapped when its image exists. -/
theorem addElement_push (es : Array (List ℕ)) (ms : Array ℕ) (vs : List ℕ) :
    addElement d P (es, ms) vs =
      (es.push (swapWhen ((vs.mapM (P.getD · none)).any (isFolded d)) vs),
        if (vs.mapM (P.getD · none)).isSome then ms.push es.size else ms) := by
  unfold addElement
  cases vs.mapM (P.getD · none) <;> rfl

/-- The elements a run of additions stores, and the indices it records as
mapped: those whose image exists, in increasing order. -/
theorem foldl_addElement_empty (L : List (List ℕ)) :
    L.foldl (addElement d P) (#[], #[]) =
      ((L.map fun vs => swapWhen ((vs.mapM (P.getD · none)).any (isFolded d)) vs).toArray,
        ((List.range L.length).filter fun i =>
          ((L.getD i []).mapM (P.getD · none)).isSome).toArray) := by
  -- the run grows at the end, so the induction adds the last element
  induction L using List.reverseRecOn with
  | nil => rfl
  | append_singleton L vs ih =>
    have hfilter : ((List.range L.length).filter fun i =>
        (((L ++ [vs]).getD i []).mapM (P.getD · none)).isSome) =
          (List.range L.length).filter fun i => ((L.getD i []).mapM (P.getD · none)).isSome :=
      List.filter_congr fun i hi => by
        rw [List.getD_append _ _ _ _ (List.mem_range.1 hi)]
    rw [List.foldl_append, ih, List.foldl_cons, List.foldl_nil, addElement_push]
    simp only [List.size_toArray, List.length_map, List.length_append, List.length_singleton,
      List.range_succ, List.filter_append, hfilter, List.map_append, List.map_cons,
      List.map_nil]
    split <;> simp_all

end Fold

section Build

variable {K : Type} [Scalar K] {d : ℕ} {item : Uuid} {mesh : SimplexMesh}
  {params : LocatorParams K}

theorem points_eq_map {pts : List (Option (Point K))}
    (h : (List.range mesh.nbVertices).mapM (pointOrMissing d item mesh) = .ok pts) :
    pts = (List.range mesh.nbVertices).map fun v => (stratigraphicPoint d item mesh v).toOption :=
  mapM_except_eq_map (fun _ _ => pointOrMissing_eq_ok) h

@[simp] theorem getD_points (v : ℕ) :
    ((List.range mesh.nbVertices).map fun v =>
      (stratigraphicPoint (K := K) d item mesh v).toOption).toArray.getD v none =
        vertexImage d item mesh v := by
  unfold vertexImage
  split_ifs with hv
  · exact getD_toArray_map _ hv none
  · simp [Array.getD, hv]

/-- The two ways building a mapping fails: elements that are not simplices
of the dimension, or a vertex with a location of the wrong length. -/
theorem build_eq_error {e : MappingError} (h : build d item mesh params = .error e) :
    (mesh.simplexSize ≠ d + 1 ∧ ∃ detail, e = .invalidTopology detail) ∨
      (mesh.simplexSize = d + 1 ∧ ∃ v < mesh.nbVertices, ∃ location,
        WrongLocation d mesh v location ∧
          e = .attributeDimension locationKey (d - 1) location.length) := by
  unfold build at h
  by_cases hsize : mesh.simplexSize ≠ d + 1
  · rw [if_pos hsize] at h
    exact .inl ⟨hsize, _, (Except.error.inj h).symm⟩
  rw [if_neg hsize] at h
  cases hpts : (List.range mesh.nbVertices).mapM (pointOrMissing (K := K) d item mesh) with
  | error e' =>
    simp only [hpts, bind, Except.bind, Except.error.injEq] at h
    obtain ⟨v, hv, he⟩ := mapM_except_eq_error hpts
    obtain ⟨location, hw, rfl⟩ := pointOrMissing_eq_error.1 he
    exact .inr ⟨not_not.1 hsize, v, List.mem_range.1 hv, location, hw, h.symm⟩
  | ok pts =>
    simp only [hpts, bind, Except.bind, pure, Except.pure] at h
    cases h

/-- Building a mapping fails exactly on elements that are not simplices of
the dimension or on a vertex with a location of the wrong length; a vertex
missing an attribute never makes it fail. -/
theorem build_fails_iff :
    (∃ e, build d item mesh params = .error e) ↔
      mesh.simplexSize ≠ d + 1 ∨
        ∃ v < mesh.nbVertices, ∃ location, WrongLocation d mesh v location := by
  constructor
  · rintro ⟨e, h⟩
    rcases build_eq_error h with ⟨hsize, -⟩ | ⟨-, v, hv, location, hw, -⟩
    · exact .inl hsize
    · exact .inr ⟨v, hv, location, hw⟩
  · intro h
    unfold build
    by_cases hsize : mesh.simplexSize ≠ d + 1
    · rw [if_pos hsize]
      exact ⟨_, rfl⟩
    rw [if_neg hsize]
    obtain ⟨v, hv, location, hw⟩ := h.resolve_left hsize
    have hfail : pointOrMissing (K := K) d item mesh v =
        .error (.attributeDimension locationKey (d - 1) location.length) :=
      pointOrMissing_eq_error.2 ⟨location, hw, rfl⟩
    obtain ⟨e, hpts⟩ := exists_mapM_except_eq_error hfail (List.mem_range.2 hv)
    exact ⟨e, by simp only [hpts, bind, Except.bind]⟩

/-- What the mapping of a mesh keeps of it, whatever the arithmetic: every
element under its own index, exchanged when its image is folded over; as
mapped elements, in increasing order, those whose image exists, and only
those in the stratigraphic locator, whose points there are their own; one
point and one implicit value per vertex. -/
structure Keeps (mp : MeshMapping K) (d : ℕ) (item : Uuid) (mesh : SimplexMesh) : Prop where
  dim : mp.dim = d
  elements_size : mp.elements.size = mesh.elements.size
  element : ∀ e < mesh.elements.size,
    mp.elements.getD e [] = swapWhen (flipped (K := K) d item mesh (mesh.elements.getD e []))
      (mesh.elements.getD e [])
  mapped : mp.mappedElements.toList = (List.range mesh.elements.size).filter fun e =>
    (elementImage (K := K) d item mesh (mesh.elements.getD e [])).isSome
  vertexPoint : ∀ v, mp.vertexPoint v = vertexImage d item mesh v
  stratigraphicPoints_size : mp.stratigraphicPoints.size = mesh.nbVertices
  geometricPoints_size : mp.geometricPoints.size = mesh.nbVertices
  implicitValues_size : mp.implicitValues.size = mesh.nbVertices
  geometric_points : mp.geometric.points = mp.geometricPoints
  geometric_elements : mp.geometric.elements = mp.elements
  stratigraphic_dim : mp.stratigraphic.dim = d
  stratigraphic_points_size : mp.stratigraphic.points.size = mesh.nbVertices
  stratigraphic_point : ∀ v p, vertexImage (K := K) d item mesh v = some p →
    mp.stratigraphic.points[v]? = some p
  stratigraphic_elements :
    mp.stratigraphic.elements = mp.mappedElements.map (mp.elements.getD · [])

theorem build_keeps {mp : MeshMapping K} (h : build d item mesh params = .ok mp) :
    mp.Keeps d item mesh := by
  unfold build at h
  by_cases hsize : mesh.simplexSize ≠ d + 1
  · rw [if_pos hsize] at h
    cases h
  rw [if_neg hsize] at h
  cases hpts : (List.range mesh.nbVertices).mapM (pointOrMissing (K := K) d item mesh) with
  | error e =>
    simp only [hpts, bind, Except.bind] at h
    cases h
  | ok pts =>
    obtain rfl := points_eq_map hpts
    simp only [hpts, bind, Except.bind, pure, Except.pure] at h
    rw [← Array.foldl_toList, foldl_addElement_empty] at h
    simp only [getD_points] at h
    obtain rfl := Except.ok.inj h
    exact {
      dim := rfl
      elements_size := by simp
      element := fun e he => by simp [Array.getD, he, flipped, elementImage]
      mapped := by simp [elementImage]
      vertexPoint := getD_points
      stratigraphicPoints_size := by simp
      geometricPoints_size := by simp [SimplexMesh.points, SimplexMesh.nbVertices]
      implicitValues_size := by simp
      geometric_points := rfl
      geometric_elements := rfl
      stratigraphic_dim := rfl
      stratigraphic_points_size := by simp
      stratigraphic_point := fun v p hp => by
        obtain ⟨hv, hp⟩ := vertexImage_eq_some.1 hp
        simp [hv, hp]
      stratigraphic_elements := rfl }

end Build

theorem getD_mem_of_lt {α : Type} {a : Array α} {i : ℕ} (hi : i < a.size) (x : α) :
    a.getD i x ∈ a := by
  simp [Array.getD, hi]

section Keeps

variable {K : Type} [Scalar K] {d : ℕ} {item : Uuid} {mesh : SimplexMesh}
  {mp : MeshMapping K} (hk : mp.Keeps d item mesh)
include hk

theorem Keeps.mem_mapped {e : ℕ} (he : e ∈ mp.mappedElements) :
    e < mesh.elements.size ∧
      (elementImage (K := K) d item mesh (mesh.elements.getD e [])).isSome := by
  rw [← Array.mem_toList_iff, hk.mapped, List.mem_filter, List.mem_range] at he
  exact he

theorem Keeps.mapped_increasing : mp.mappedElements.toList.Pairwise (· < ·) := by
  rw [hk.mapped]
  exact List.pairwise_lt_range.filter _

/-- Element `i` of the stratigraphic locator is the mapping's element that
mapped element `i` names. -/
theorem Keeps.stratigraphic_element {i : ℕ} (hi : i < mp.mappedElements.size) :
    mp.stratigraphic.elements.getD i [] = mp.elements.getD (mp.mappedElements.getD i 0) [] := by
  simp [hk.stratigraphic_elements, Array.getD, hi]

/-- Element `i` of the stratigraphic locator is a mesh element whose image
exists, stored in the mapping's order. -/
theorem Keeps.mapped_element {i : ℕ} (hi : i < mp.mappedElements.size) :
    ∃ vs, (elementImage (K := K) d item mesh vs).isSome ∧
      mp.stratigraphic.elements.getD i [] = swapWhen (flipped (K := K) d item mesh vs) vs := by
  obtain ⟨he, himage⟩ := hk.mem_mapped (getD_mem_of_lt hi 0)
  exact ⟨_, himage, by rw [hk.stratigraphic_element hi, hk.element _ he]⟩

/-- Every corner of an element of the stratigraphic locator is a vertex with
a stratigraphic point, and that point is the one the locator holds for it:
the filler of vertices without a point is never a corner. -/
theorem Keeps.corner_point {i v : ℕ} (hv : v ∈ mp.stratigraphic.elements.getD i []) :
    ∃ p, vertexImage (K := K) d item mesh v = some p ∧
      mp.stratigraphic.points[v]? = some p := by
  have hi : i < mp.mappedElements.size := by
    by_contra hi
    simp [hk.stratigraphic_elements, Array.getD, hi] at hv
  obtain ⟨vs, himage, hvs⟩ := hk.mapped_element hi
  rw [hvs] at hv
  have hsome := isSome_of_mapM_isSome himage v ((perm_swapWhen _ _).mem_iff.1 hv)
  obtain ⟨p, hp⟩ := Option.isSome_iff_exists.1 hsome
  exact ⟨p, hp, hk.stratigraphic_point v p hp⟩

/-- A point the geometric locator finds lies in an element of the mapping
whose vertices have an entry in each point set of the mapping: the forward
map and the implicit value read no missing entry. -/
theorem Keeps.geometric_in_range {q : Point K} {loc : Location K}
    (h : mp.geometric.locate q = some loc) :
    loc.element < mp.elements.size ∧ ∀ v ∈ mp.elements.getD loc.element [],
      v < mp.stratigraphicPoints.size ∧ v < mp.implicitValues.size ∧
        v < mp.geometricPoints.size := by
  obtain ⟨he, hv⟩ := Locator.locate_element h
  rw [hk.geometric_elements] at he hv
  rw [hk.geometric_points] at hv
  refine ⟨he, fun v hmem => ?_⟩
  have := hv v hmem
  rw [hk.geometricPoints_size] at this
  rw [hk.stratigraphicPoints_size, hk.implicitValues_size, hk.geometricPoints_size]
  exact ⟨this, this, this⟩

/-- A point the stratigraphic locator finds lies in a mapped element that
names an element of the mapping, whose vertices have positions: the inverse
map reads no missing entry. -/
theorem Keeps.stratigraphic_in_range {q : Point K} {loc : Location K}
    (h : mp.stratigraphic.locate q = some loc) :
    loc.element < mp.mappedElements.size ∧
      mp.mappedElements.getD loc.element 0 < mp.elements.size ∧
      ∀ v ∈ mp.elements.getD (mp.mappedElements.getD loc.element 0) [],
        v < mp.geometricPoints.size := by
  obtain ⟨he, hv⟩ := Locator.locate_element h
  have hi : loc.element < mp.mappedElements.size := by
    simpa [hk.stratigraphic_elements] using he
  rw [hk.stratigraphic_element hi, hk.stratigraphic_points_size] at hv
  refine ⟨hi, ?_, by rwa [hk.geometricPoints_size]⟩
  rw [hk.elements_size]
  exact (hk.mem_mapped (getD_mem_of_lt hi 0)).1

end Keeps

section Report

variable {d : ℕ} {item : Uuid} {mesh : SimplexMesh}

/-- The positions of the raised flags of a list of flags, in increasing
order. -/
theorem filterMap_zipIdx_flags {β : Type} (g : Bool × ℕ → Option ℕ)
    (hg : ∀ b e, g (b, e) = if b then some e else none) (p : β → Bool) (x : β) (L : List β) :
    (L.map p).zipIdx.filterMap g = (List.range L.length).filter fun e => p (L.getD e x) := by
  induction L using List.reverseRecOn with
  | nil => rfl
  | append_singleton L a ih =>
    have hfilter : ((List.range L.length).filter fun e => p ((L ++ [a]).getD e x)) =
        (List.range L.length).filter fun e => p (L.getD e x) :=
      List.filter_congr fun e he => by rw [List.getD_append _ _ _ _ (List.mem_range.1 he)]
    rw [List.map_append, List.zipIdx_append, List.filterMap_append, ih]
    simp only [List.length_append, List.length_singleton, List.range_succ, List.filter_append,
      hfilter, List.length_map, List.map_cons, List.map_nil, List.zipIdx_cons, List.zipIdx_nil,
      List.filterMap_cons, List.filterMap_nil, hg, Nat.zero_add]
    split <;> simp_all

/-- When every vertex of every element has a stratigraphic point, the
folded-element report lists, in increasing order, exactly the elements the
mapping exchanges. -/
theorem foldedElements_eq (hattr : ∀ vs ∈ mesh.elements, ∀ v ∈ vs,
      v < mesh.nbVertices ∧ ∃ p, stratigraphicPoint (K := Float) d item mesh v = .ok p) :
    foldedElements d item mesh = .ok ((List.range mesh.elements.size).filter fun e =>
      flipped (K := Float) d item mesh (mesh.elements.getD e [])) := by
  -- the point of each vertex, read once and for all
  let S : ℕ → Point := fun v =>
    ((stratigraphicPoint (K := Float) d item mesh v).toOption).getD #[]
  have hS : ∀ vs ∈ mesh.elements, ∀ v ∈ vs,
      v < mesh.nbVertices ∧ stratigraphicPoint (K := Float) d item mesh v = .ok (S v) := by
    intro vs hvs v hv
    obtain ⟨hlt, p, hp⟩ := hattr vs hvs v hv
    exact ⟨hlt, by simp only [S, hp]; rfl⟩
  have himage : ∀ vs ∈ mesh.elements,
      elementImage (K := Float) d item mesh vs = some (vs.map S) :=
    fun vs hvs => Locator.mapM_eq_pure_map vs fun v hv => by
      obtain ⟨hlt, hp⟩ := hS vs hvs v hv
      simp only [vertexImage, if_pos hlt, hp]
      rfl
  unfold foldedElements
  rw [Locator.mapM_eq_pure_map (g := flipped (K := Float) d item mesh) _ fun vs hvs => ?_]
  · simp only [bind, Except.bind, pure, Except.pure]
    rw [filterMap_zipIdx_flags _ (fun _ _ => rfl) _ [], Array.length_toList]
    simp only [Array.getD_eq_getD_getElem?, List.getD_eq_getElem?_getD, Array.getElem?_toList]
  · have hvs' := Array.mem_toList_iff.1 hvs
    rw [Locator.mapM_eq_pure_map (g := S) vs fun v hv => by
      rw [Stratigraphy.vertexPoint, (hS vs hvs' v hv).2]
      rfl]
    simp only [flipped, himage vs hvs']
    rfl

end Report

section Orientation

variable {d : ℕ}

theorem entry_edges {r c : ℕ} (vs : List (Point ℝ)) (hr : r < d) (hc : c < d) :
    (Simplex.edges d vs).entry r c =
      (vs.getD (c + 1) #[]).coord r - (vs.headD #[]).coord r := by
  rw [Simplex.edges, Matrix.entry_ofFn _ hr hc]

/-- Exchanging the first two vertices of a simplex negates its orientation:
the first edge changes sign and the others lose the first edge, a row
operation. -/
theorem determinant_edges_swap (hd : 1 ≤ d) (hd3 : d ≤ 3) (a b : Point ℝ)
    (rest : List (Point ℝ)) :
    (Simplex.edges d (b :: a :: rest)).determinant d =
      -(Simplex.edges d (a :: b :: rest)).determinant d := by
  interval_cases d <;>
    simp (disch := decide) only [Matrix.determinant, entry_edges, List.getD_cons_succ,
      List.getD_cons_zero, List.headD_cons] <;> ring

theorem orientation_swapFirstTwo (hd : 1 ≤ d) (hd3 : d ≤ 3) (vs : List (Point ℝ)) :
    Simplex.orientation d (swapFirstTwo vs) = (Simplex.orientation d vs).map Neg.neg := by
  rcases vs with _ | ⟨a, _ | ⟨b, rest⟩⟩
  · show Simplex.orientation d [] = _
    simp [Simplex.orientation]
  · show Simplex.orientation d [a] = _
    rw [Simplex.orientation, if_pos (by simp; omega)]
    rfl
  · show Simplex.orientation d (b :: a :: rest) = _
    unfold Simplex.orientation
    simp only [List.length_cons]
    split_ifs
    · rfl
    · rw [determinant_edges_swap hd hd3, Option.map_some]

theorem orientation_swapWhen_nonneg (hd3 : d ≤ 3) (image : List (Point ℝ)) {o : ℝ}
    (h : Simplex.orientation d (swapWhen (isFolded d image) image) = some o) : 0 ≤ o := by
  cases ho : Simplex.orientation d image with
  | none =>
    have hf : isFolded d image = false := by
      unfold isFolded
      rw [ho]
    rw [hf, swapWhen, if_neg Bool.false_ne_true, ho] at h
    cases h
  | some o' =>
    have hf : isFolded d image = decide (o' < 0) := by
      unfold isFolded
      rw [ho]
    rw [hf] at h
    by_cases hneg : o' < 0
    · -- a negative orientation needs two vertices or more to exchange
      have hd : 1 ≤ d := by
        by_contra hd
        obtain rfl : d = 0 := by omega
        simp only [Simplex.orientation, Matrix.determinant] at ho
        split_ifs at ho
        cases ho
        norm_num at hneg
      rw [decide_eq_true hneg, swapWhen, if_pos rfl, orientation_swapFirstTwo hd hd3, ho,
        Option.map_some, Option.some.injEq] at h
      linarith
    · rw [decide_eq_false hneg, swapWhen, if_neg Bool.false_ne_true, ho, Option.some.injEq] at h
      linarith

/-- The corners of an element of the stratigraphic locator are the image of
a mesh element, exchanged when it is folded over. -/
theorem Keeps.cornerPoints_eq {item : Uuid} {mesh : SimplexMesh} {mp : MeshMapping ℝ}
    (hk : mp.Keeps d item mesh) {i : ℕ} (hi : i < mp.mappedElements.size) :
    ∃ image, mp.stratigraphic.cornerPoints i = swapWhen (isFolded d image) image := by
  obtain ⟨vs, himage, hvs⟩ := hk.mapped_element hi
  obtain ⟨image, himg⟩ := Option.isSome_iff_exists.1 himage
  -- the locator holds each vertex's own point, so the corners are the image
  have hpoint : ∀ v ∈ vs,
      vertexImage d item mesh v = pure (mp.stratigraphic.points.getD v #[]) := by
    intro v hv
    have hmem : v ∈ mp.stratigraphic.elements.getD i [] := by
      rw [hvs]
      exact (perm_swapWhen _ _).mem_iff.2 hv
    obtain ⟨p, hp, hq⟩ := hk.corner_point hmem
    rw [hp, Array.getD_eq_getD_getElem?, hq]
    rfl
  have himage_eq : image = vs.map (mp.stratigraphic.points.getD · #[]) :=
    Option.some.inj (himg.symm.trans (Locator.mapM_eq_pure_map vs hpoint))
  refine ⟨image, ?_⟩
  rw [Locator.cornerPoints, hvs, map_swapWhen, ← himage_eq, flipped, himg]
  rfl

/-- In exact arithmetic every element of the stratigraphic locator, the image
of a mapped element in the mapping's order, is positively oriented or flat. -/
theorem Keeps.orientation_nonneg {item : Uuid} {mesh : SimplexMesh} {mp : MeshMapping ℝ}
    (hk : mp.Keeps d item mesh) (hd3 : d ≤ 3) (i : ℕ) {o : ℝ}
    (h : Simplex.orientation d (mp.stratigraphic.cornerPoints i) = some o) : 0 ≤ o := by
  by_cases hi : i < mp.mappedElements.size
  · obtain ⟨image, hcorner⟩ := hk.cornerPoints_eq hi
    rw [hcorner] at h
    exact orientation_swapWhen_nonneg hd3 image h
  · -- past the mapped elements the locator has no element, and no orientation
    have hnil : mp.stratigraphic.cornerPoints i = [] := by
      simp [Locator.cornerPoints, hk.stratigraphic_elements, Array.getD, hi]
    rw [hnil] at h
    simp [Simplex.orientation] at h

end Orientation

/-- Building the mapping of a mesh fails exactly on elements that are not
simplices of the dimension, or on a vertex that has both stratigraphic
attributes with a location of the wrong length. Otherwise the mapping keeps
every element under its own index, exchanged exactly when its image exists
and is folded over; its mapped elements are, in increasing order, those whose
image exists; the corners of the stratigraphic locator's elements are
vertices with their own points; and the queries read only entries that
exist. The exchanged elements are those the folded-element report lists when
every vertex is attributed, and in exact arithmetic no element of the
stratigraphic locator is negatively oriented. -/
theorem build_keeps_mesh_elements (d : ℕ) (item : Uuid) (mesh : SimplexMesh) :
    (∀ params : LocatorParams,
      ((∃ e, build d item mesh params = .error e) ↔
        mesh.simplexSize ≠ d + 1 ∨
          ∃ v < mesh.nbVertices, ∃ location, WrongLocation d mesh v location) ∧
      (∀ e, build d item mesh params = .error e →
        (mesh.simplexSize ≠ d + 1 ∧ ∃ detail, e = .invalidTopology detail) ∨
          (mesh.simplexSize = d + 1 ∧ ∃ v < mesh.nbVertices, ∃ location,
            WrongLocation d mesh v location ∧
              e = .attributeDimension locationKey (d - 1) location.length)) ∧
      ∀ mp, build d item mesh params = .ok mp →
        mp.Keeps d item mesh ∧
        mp.mappedElements.toList.Pairwise (· < ·) ∧
        (∀ i, ∀ v ∈ mp.stratigraphic.elements.getD i [], ∃ p,
          vertexImage d item mesh v = some p ∧ mp.stratigraphic.points[v]? = some p) ∧
        (∀ q loc, mp.geometric.locate q = some loc →
          loc.element < mp.elements.size ∧ ∀ v ∈ mp.elements.getD loc.element [],
            v < mp.stratigraphicPoints.size ∧ v < mp.implicitValues.size ∧
              v < mp.geometricPoints.size) ∧
        ∀ q loc, mp.stratigraphic.locate q = some loc →
          loc.element < mp.mappedElements.size ∧
            mp.mappedElements.getD loc.element 0 < mp.elements.size ∧
            ∀ v ∈ mp.elements.getD (mp.mappedElements.getD loc.element 0) [],
              v < mp.geometricPoints.size) ∧
    ((∀ vs ∈ mesh.elements, ∀ v ∈ vs,
        v < mesh.nbVertices ∧ ∃ p, stratigraphicPoint (K := Float) d item mesh v = .ok p) →
      foldedElements d item mesh = .ok ((List.range mesh.elements.size).filter fun e =>
        flipped (K := Float) d item mesh (mesh.elements.getD e []))) ∧
    (d ≤ 3 → ∀ (params : LocatorParams ℝ) (mp : MeshMapping ℝ),
      build d item mesh params = .ok mp → ∀ i o,
        Simplex.orientation d (mp.stratigraphic.cornerPoints i) = some o → 0 ≤ o) := by
  refine ⟨fun params => ⟨build_fails_iff, fun e => build_eq_error, fun mp h => ?_⟩,
    foldedElements_eq, fun hd3 params mp h i o => (build_keeps h).orientation_nonneg hd3 i⟩
  have hk := build_keeps h
  exact ⟨hk, hk.mapped_increasing, fun i v => hk.corner_point,
    fun q loc => hk.geometric_in_range, fun q loc => hk.stratigraphic_in_range⟩

end MeshMapping

end Subsurface
