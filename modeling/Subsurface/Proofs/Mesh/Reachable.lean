import Subsurface.Proofs.Mesh.Attributes
import Subsurface.Proofs.Archive.Model
/-!
Every mesh built by the mesh operations is well formed, and its attribute
store keeps the store's laws.

A mesh is reached from a new or an empty mesh by adding vertices and
elements, moving its points, and working on its attribute store
(`SimplexMesh.Reachable`); points have the space's dimension and elements the
kind's number of vertices. Every such mesh is well formed: its elements hold
distinct vertices of the mesh, and its store is sized for the mesh's vertex
count (`SimplexMesh.Reachable.wellFormed`). Its store then keeps
`VertexAttributes.Laws`, and adding a vertex fails only on storage that
overflows, keeps every value and leaves the new vertex unassigned
(`SimplexMesh.VertexLaws`).

The values of an attribute are counted in 64-bit sizes, so a dimension whose
product with the vertex count wraps around holds fewer values than its
vertices need. Declaring a dimension of `2^63` over two vertices stores no
value at all, and adding a third vertex then asks for `2^63` values and
overflows (`addVertex_overflows_wrapped_attribute`).
-/

namespace Subsurface

/-! ## Loops that go through -/

/-- A loop that goes through, and each of whose passes goes on when it goes
through, went through every pass. -/
theorem forall_of_forIn_eq_ok {ε α : Type} {g : α → Unit → Except ε (ForInStep Unit)} :
    ∀ {l : List α} {u : Unit}, forIn l () g = .ok u → (∀ x s, g x () = .ok s → s = .yield ()) →
      ∀ x ∈ l, g x () = .ok (.yield ()) := by
  intro l
  induction l with
  | nil => exact fun _ _ x hx => absurd hx List.not_mem_nil
  | cons x l ih =>
    intro u h hy y hy'
    rw [List.forIn_cons] at h
    obtain ⟨s, hs, h⟩ := except_bind_eq_ok.1 h
    obtain rfl := hy x s hs
    rcases List.mem_cons.1 hy' with rfl | hy'
    · exact hs
    · exact ih h hy y hy'

namespace SimplexMesh

variable {dim n i : Nat} {e : List Nat} {m m' : SimplexMesh} {p : Point}

/-! ## Checking an element -/

/-- A list none of whose entries occurs again after its position has no
duplicate. -/
theorem nodup_of_not_contains_drop
    (h : ∀ q ∈ e.zipIdx, ¬(e.drop (q.2 + 1)).contains q.1 = true) : e.Nodup := by
  rw [List.nodup_iff_getElem?_ne_getElem?]
  intro i j hij hj heq
  have hi : i < e.length := Nat.lt_trans hij hj
  have hmem : (e[i], i) ∈ e.zipIdx := List.mem_zipIdx_iff_getElem?.2 (List.getElem?_eq_getElem hi)
  apply h _ hmem
  -- the entry at `j` is the entry at `i`, and it lies in the rest after `i`
  have hdrop : (e.drop (i + 1))[j - (i + 1)]? = some e[i] := by
    rw [List.getElem?_drop, Nat.add_sub_cancel' (by omega), ← heq, List.getElem?_eq_getElem hi]
  simpa using List.mem_of_getElem? hdrop

/-- An element passes the check exactly when its vertices are vertices of the
mesh and distinct. -/
theorem checkElement_eq_ok_iff : checkElement n i e = .ok () ↔ (∀ v ∈ e, v < n) ∧ e.Nodup := by
  refine ⟨fun h => ?_, fun h => checkElement_eq_ok h.1 h.2⟩
  unfold checkElement at h
  split at h
  · cases h
  · rename_i hfind
    split at h
    · cases h
    · rename_i hrep
      refine ⟨fun v hv => ?_, nodup_of_not_contains_drop fun q hq => ?_⟩
      · simpa using List.find?_eq_none.1 hfind v hv
      · have := List.find?_eq_none.1 hrep q hq
        simpa using this

/-! ## What each operation does -/

theorem eq_of_ofCoordinates_eq_ok {kind : MeshKind} {c : Array (Array Binary64)} {el : Array (List Nat)}
    (h : ofCoordinates kind c el = .ok m) :
    m = ⟨kind, c, el, .new c.size⟩ ∧ ∀ e ∈ el.toList, (∀ v ∈ e, v < c.size) ∧ e.Nodup := by
  unfold ofCoordinates at h
  obtain ⟨u, hloop, h⟩ := except_bind_eq_ok.1 h
  rw [except_pure_eq_ok] at h
  refine ⟨h.symm, fun e he => ?_⟩
  have hall := forall_of_forIn_eq_ok hloop fun x s hs => by
    obtain ⟨s', -, hs⟩ := except_bind_eq_ok.1 hs
    exact (except_pure_eq_ok.1 hs).symm
  obtain ⟨j, hj⟩ := List.mem_iff_getElem?.1 he
  obtain ⟨u', hcheck, -⟩ := except_bind_eq_ok.1 (hall (e, j) (List.mem_zipIdx_iff_getElem?.2 hj))
  exact checkElement_eq_ok_iff.1 hcheck

theorem addVertex_eq_ok : m.addVertex p = .ok (i, m') ↔
    ∃ va, m.attributes.resize (m.nbVertices + 1) = .ok va ∧ i = m.nbVertices ∧
      m' = { m with coordinates := m.coordinates.push p.encode, attributes := va } := by
  unfold addVertex
  rw [except_bind_eq_ok]
  simp only [except_pure_eq_ok, Prod.mk.injEq]
  constructor
  · rintro ⟨va, hva, hi, hm⟩
    exact ⟨va, hva, hi.symm, hm.symm⟩
  · rintro ⟨va, hva, hi, hm⟩
    exact ⟨va, hva, hi.symm, hm.symm⟩

theorem addVertex_error {err : Error} (h : m.addVertex p = .error err) : err = .capacityOverflow := by
  unfold addVertex at h
  rcases except_bind_eq_error.1 h with h | ⟨_, -, h⟩
  · exact VertexAttributes.resize_error h
  · cases h

theorem addElement_eq_ok : m.addElement e = .ok (i, m') ↔
    checkElement m.nbVertices m.elements.size e = .ok () ∧ i = m.elements.size ∧
      m' = { m with elements := m.elements.push e } := by
  unfold addElement
  rw [except_bind_eq_ok]
  simp only [except_pure_eq_ok, Prod.mk.injEq]
  constructor
  · rintro ⟨⟨⟩, hc, hi, hm⟩
    exact ⟨hc, hi.symm, hm.symm⟩
  · rintro ⟨hc, hi, hm⟩
    exact ⟨(), hc, hi.symm, hm.symm⟩

theorem withPoints_eq_ok {points : Array Point} : m.withPoints points = .ok m' ↔
    points.size = m.nbVertices ∧ m' = { m with coordinates := points.map Point.encode } := by
  unfold withPoints withCoordinates
  rw [Array.size_map]
  split
  · simp_all
  · simp_all [eq_comm]

/-! ## Well-formed meshes -/

/-- A well-formed mesh: its points, its elements, and a store sized for its
vertices. -/
theorem wellFormed_iff : m.WellFormed dim ↔
    (∀ p ∈ m.coordinates.toList, p.size = dim) ∧
    (∀ e ∈ m.elements.toList, e.length = m.simplexSize ∧ (∀ v ∈ e, v < m.coordinates.size) ∧ e.Nodup) ∧
    m.attributes.nbVertices = m.coordinates.size ∧ m.attributes.Sized := by
  constructor
  · intro hw
    refine ⟨hw.points, hw.elements, hw.nbVertices, hw.names, fun q hq => ?_⟩
    obtain ⟨hflags, hvalues, hdim⟩ := hw.attributes q hq
    exact ⟨hflags.trans hw.nbVertices.symm, by rw [hvalues, hflags, hw.nbVertices], hdim⟩
  · rintro ⟨hp, he, hn, hs⟩
    refine ⟨hp, he, hn, hs.names, fun q hq => ?_⟩
    have hq' := hs.attributes q hq
    exact ⟨hq'.flags.trans hn, by rw [hq'.values, hq'.flags], hq'.dimension⟩

theorem WellFormed.sized (hw : m.WellFormed dim) : m.attributes.Sized :=
  (wellFormed_iff.1 hw).2.2.2

theorem points_encode (points : Array Point) (hp : ∀ p ∈ points.toList, p.size = dim) :
    ∀ c ∈ (points.map Point.encode).toList, c.size = dim := by
  intro c hc
  rw [Array.toList_map] at hc
  obtain ⟨q, hq, rfl⟩ := List.mem_map.1 hc
  simpa [Point.encode] using hp q hq

theorem wellFormed_new {kind : MeshKind} {points : Array Point} {elements : Array (List Nat)}
    (hp : ∀ p ∈ points.toList, p.size = dim) (he : ∀ e ∈ elements.toList, e.length = kind.simplexSize)
    (h : SimplexMesh.new kind points elements = .ok m) : m.WellFormed dim := by
  obtain ⟨rfl, hel⟩ := eq_of_ofCoordinates_eq_ok h
  exact wellFormed_iff.2 ⟨points_encode points hp, fun e hmem => ⟨he e hmem, hel e hmem⟩, rfl,
    VertexAttributes.sized_new _⟩

theorem wellFormed_empty (kind : MeshKind) : (SimplexMesh.empty kind).WellFormed dim :=
  wellFormed_iff.2 ⟨fun _ hp => absurd hp List.not_mem_nil, fun _ he => absurd he List.not_mem_nil, rfl,
    VertexAttributes.sized_new 0⟩

theorem WellFormed.addVertex (hw : m.WellFormed dim) (hp : p.size = dim) (h : m.addVertex p = .ok (i, m')) :
    m'.WellFormed dim := by
  obtain ⟨hpts, hel, hn, hs⟩ := wellFormed_iff.1 hw
  obtain ⟨va, hva, -, rfl⟩ := addVertex_eq_ok.1 h
  obtain ⟨hs', hn'⟩ := hs.resize hva
  refine wellFormed_iff.2 ⟨fun c hc => ?_, fun e he => ?_, ?_, hs'⟩
  · rcases (by simpa using hc : c ∈ m.coordinates ∨ c = p.encode) with hc | rfl
    · exact hpts c (by simpa using hc)
    · simpa [Point.encode] using hp
  · obtain ⟨hlen, hv, hnd⟩ := hel e he
    exact ⟨hlen, fun v hv' => by simpa using Nat.lt_succ_of_lt (hv v hv'), hnd⟩
  · rw [hn', Array.size_push]
    rfl

theorem WellFormed.addElement (hw : m.WellFormed dim) (he : e.length = m.simplexSize)
    (h : m.addElement e = .ok (i, m')) : m'.WellFormed dim := by
  obtain ⟨hpts, hel, hn, hs⟩ := wellFormed_iff.1 hw
  obtain ⟨hc, -, rfl⟩ := addElement_eq_ok.1 h
  refine wellFormed_iff.2 ⟨hpts, fun e' he' => ?_, hn, hs⟩
  rcases (by simpa using he' : e' ∈ m.elements ∨ e' = e) with he' | rfl
  · exact hel e' (by simpa using he')
  · exact ⟨he, checkElement_eq_ok_iff.1 hc⟩

theorem WellFormed.withPoints {points : Array Point} (hw : m.WellFormed dim)
    (hp : ∀ p ∈ points.toList, p.size = dim) (h : m.withPoints points = .ok m') : m'.WellFormed dim := by
  obtain ⟨-, hel, hn, hs⟩ := wellFormed_iff.1 hw
  obtain ⟨hsize, rfl⟩ := withPoints_eq_ok.1 h
  have hsize' : (points.map Point.encode).size = m.coordinates.size := by
    rw [Array.size_map]
    exact hsize
  exact wellFormed_iff.2 ⟨points_encode points hp, fun e he => hsize' ▸ hel e he, hsize' ▸ hn, hs⟩

theorem WellFormed.storeStep {va : VertexAttributes} (hw : m.WellFormed dim)
    (h : VertexAttributes.Step m.attributes va) : ({ m with attributes := va } : SimplexMesh).WellFormed dim := by
  obtain ⟨hpts, hel, hn, hs⟩ := wellFormed_iff.1 hw
  obtain ⟨hs', hn'⟩ := hs.step h
  exact wellFormed_iff.2 ⟨hpts, hel, hn'.trans hn, hs'⟩

/-! ## Meshes reached by the mesh operations -/

/-- The meshes reached from a new or an empty mesh by the mesh operations;
a failed operation leaves the mesh as it was. Points have `dim` coordinates
and elements the kind's number of vertices. -/
inductive Reachable (dim : Nat) : SimplexMesh → Prop
  | new {kind : MeshKind} {points : Array Point} {elements : Array (List Nat)} {m : SimplexMesh}
      (hp : ∀ p ∈ points.toList, p.size = dim) (he : ∀ e ∈ elements.toList, e.length = kind.simplexSize)
      (h : SimplexMesh.new kind points elements = .ok m) : Reachable dim m
  | empty (kind : MeshKind) : Reachable dim (SimplexMesh.empty kind)
  | addVertex {m m' : SimplexMesh} {p : Point} {i : Nat} (hm : Reachable dim m) (hp : p.size = dim)
      (h : m.addVertex p = .ok (i, m')) : Reachable dim m'
  | addElement {m m' : SimplexMesh} {e : List Nat} {i : Nat} (hm : Reachable dim m)
      (he : e.length = m.simplexSize) (h : m.addElement e = .ok (i, m')) : Reachable dim m'
  | withPoints {m m' : SimplexMesh} {points : Array Point} (hm : Reachable dim m)
      (hp : ∀ p ∈ points.toList, p.size = dim) (h : m.withPoints points = .ok m') : Reachable dim m'
  | attributes {m : SimplexMesh} {va : VertexAttributes} (hm : Reachable dim m)
      (h : VertexAttributes.Step m.attributes va) : Reachable dim { m with attributes := va }

theorem Reachable.wellFormed (h : m.Reachable dim) : m.WellFormed dim := by
  induction h with
  | new hp he h => exact wellFormed_new hp he h
  | empty kind => exact wellFormed_empty kind
  | addVertex _ hp h ih => exact ih.addVertex hp h
  | addElement _ he h ih => exact ih.addElement he h
  | withPoints _ hp h ih => exact ih.withPoints hp h
  | attributes _ h ih => exact ih.storeStep h

/-! ## Adding a vertex -/

/-- What adding a vertex to a mesh does to its store. -/
structure VertexLaws (m : SimplexMesh) : Prop where
  /-- Adding a vertex fails only on attribute storage that overflows. -/
  addVertex_error : ∀ p err, m.addVertex p = .error err → err = .capacityOverflow
  /-- Adding a vertex goes through when every attribute's values and flags
  for one more vertex fit. -/
  addVertex_ok : ∀ p, (∀ q ∈ m.attributes.entries,
      q.2.dimension * (m.nbVertices + 1) < Attribute.maxSlots ∧ m.nbVertices + 1 < Attribute.maxFlags) →
    ∃ m', m.addVertex p = .ok (m.nbVertices, m')
  /-- The new vertex is the next index, and is unassigned in every attribute;
  every other value stays, in an attribute that does not wrap around. -/
  addVertex_keeps : ∀ p i m', m.addVertex p = .ok (i, m') →
    i = m.nbVertices ∧ (∀ name, m'.attributes.encoded? name m.nbVertices = none) ∧
      ∀ name v, (∀ a, m.attributes.attribute? name = some a → a.dimension * (m.nbVertices + 1) < 2 ^ 64) →
        v < m.nbVertices → m'.attributes.encoded? name v = m.attributes.encoded? name v

theorem WellFormed.vertexLaws (hw : m.WellFormed dim) : m.VertexLaws where
  addVertex_error _ _ h := addVertex_error h
  addVertex_ok p h := by
    obtain ⟨va, hva⟩ := VertexAttributes.resize_ok h
    exact ⟨_, addVertex_eq_ok.2 ⟨va, hva, rfl, rfl⟩⟩
  addVertex_keeps p i m' h := by
    obtain ⟨-, -, hn, hs⟩ := wellFormed_iff.1 hw
    obtain ⟨va, hva, rfl, rfl⟩ := addVertex_eq_ok.1 h
    have hn' : m.attributes.nbVertices = m.nbVertices := hn
    refine ⟨rfl, fun name => VertexAttributes.encoded?_resize_of_le hs hva hn'.le,
      fun name v hfit hv => ?_⟩
    exact VertexAttributes.encoded?_resize_of_lt hs hva (by omega) hfit (by omega)

/-- Every attribute store reached by its operations is sized and keeps the
store's laws; every mesh reached by the mesh operations is well formed, its
store keeps the store's laws, and adding a vertex to it keeps every value. -/
theorem reachable_attribute_stores_lawful {va : VertexAttributes} (hva : va.Reachable) {dim : Nat}
    {m : SimplexMesh} (hm : m.Reachable dim) :
    (va.Sized ∧ va.Laws) ∧ (m.WellFormed dim ∧ m.attributes.Laws ∧ m.VertexLaws) := by
  have hs := hva.sized
  have hw := hm.wellFormed
  exact ⟨⟨hs, hs.laws⟩, hw, hw.sized.laws, hw.vertexLaws⟩

/-- Two vertices joined by a segment, with an attribute `w` of dimension
`2^63` whose `2^63 · 2` values wrap around to none. -/
def wrappedSegment : SimplexMesh :=
  ⟨.curve, #[#[0], #[1]].map Point.encode, #[[0, 1]],
    ⟨2, [("w", ⟨Nat.pow 2 63, #[], #[false, false]⟩)]⟩⟩

theorem declare_wrappedSegment :
    (VertexAttributes.new 2).declare "w" (Nat.pow 2 63) = .ok wrappedSegment.attributes := rfl

theorem reachable_wrappedSegment : wrappedSegment.Reachable 1 := by
  have hsize : (#[#[0], #[1]].map Point.encode).size = 2 := by simp
  have hnew : SimplexMesh.new .curve #[#[0], #[1]] #[[0, 1]] =
      .ok ⟨.curve, #[#[0], #[1]].map Point.encode, #[[0, 1]], .new 2⟩ := by
    show ofCoordinates .curve (#[#[0], #[1]].map Point.encode) #[[0, 1]] = _
    rw [ofCoordinates_eq_ok (by simp), hsize]
  exact .attributes (.new (by decide) (by decide) hnew) (.declare (by decide) declare_wrappedSegment)

theorem wrappedSegment_lawful :
    wrappedSegment.attributes.Reachable ∧ wrappedSegment.Reachable 1 ∧
      (wrappedSegment.attributes.Sized ∧ wrappedSegment.attributes.Laws) ∧
        (wrappedSegment.WellFormed 1 ∧ wrappedSegment.attributes.Laws ∧ wrappedSegment.VertexLaws) :=
  have hstore : wrappedSegment.attributes.Reachable :=
    .step (.new 2) (.declare (by decide) declare_wrappedSegment)
  ⟨hstore, reachable_wrappedSegment,
    reachable_attribute_stores_lawful hstore reachable_wrappedSegment⟩

/-- A reachable mesh whose attribute holds fewer values than its vertices
need: `2^63 · 2` values wrap around to none, and adding a vertex, which asks
for `2^63 · 3 mod 2^64 = 2^63` values, overflows. -/
theorem addVertex_overflows_wrapped_attribute :
    wrappedSegment.Reachable 1 ∧ wrappedSegment.nbVertices = 2 ∧
      (∃ a, wrappedSegment.attributes.attribute? "w" = some a ∧
        a.dimension * wrappedSegment.nbVertices = 2 ^ 64 ∧ a.values.size = 0) ∧
      wrappedSegment.addVertex #[2] = .error .capacityOverflow := by
  have hn : wrappedSegment.nbVertices = 2 := by simp [wrappedSegment, nbVertices]
  have hattr : wrappedSegment.attributes.attribute? "w" = some ⟨Nat.pow 2 63, #[], #[false, false]⟩ := rfl
  have hcount : Nat.pow 2 63 * wrappedSegment.nbVertices = 2 ^ 64 := by
    rw [hn]
    decide
  have hresize : (⟨Nat.pow 2 63, #[], #[false, false]⟩ : Attribute).resize 3 = .error .capacityOverflow := by
    unfold Attribute.resize
    exact if_pos (by decide)
  have hadd : wrappedSegment.addVertex #[2] = .error .capacityOverflow := by
    unfold addVertex VertexAttributes.resize
    rw [hn]
    simp only [wrappedSegment, List.mapM_cons, hresize]
    rfl
  exact ⟨reachable_wrappedSegment, hn, ⟨_, hattr, hcount, rfl⟩, hadd⟩

end SimplexMesh

end Subsurface
