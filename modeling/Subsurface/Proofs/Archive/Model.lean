import Subsurface.Proofs.Archive.Records
import Subsurface.Proofs.Stratigraphy.Mirror
import Subsurface.Proofs.Relation.Rebuild
/-!
Restoring a stored model gives the model back.

Each part of a model is restored from what was written of it. A catalog
with distinct identifiers, written kind by kind, is registered again
component by component and lists every kind as before
(`Catalog.restore_all`). A relation that keeps a duplicate-free edge list,
written as sorted per-node lists, is rebuilt keeping the same list, so
every node has the same children and parents in the same order, and is
written again as the same sorted lists (`Relation.restore_ofRelation`).
A well-formed mesh is cut back into its points and elements, and its
attributes are inserted again in name order (`MeshRecord.restore_ofMesh`).
-/

namespace Subsurface

/-! ## Catalogs -/

namespace Catalog

/-- A component listed after the components of a catalog, with no
identifier repeated, is not registered yet. -/
theorem contains_eq_false_of_nodup {c : Catalog} {x : Component} {L : List Component}
    (h : ((c.components ++ x :: L).map (·.id)).Nodup) : c.contains x.id = false := by
  rw [List.map_append, List.nodup_append] at h
  refine Bool.eq_false_iff.2 fun hc => ?_
  obtain ⟨z, hz, hzx⟩ := List.any_eq_true.1 hc
  exact h.2.2 z.id (List.mem_map_of_mem hz) x.id (by simp) (by simpa using hzx)

/-- Registering components under distinct new identifiers one by one
appends them. -/
theorem foldlM_insert : ∀ (L : List Component) (c : Catalog),
    ((c.components ++ L).map (·.id)).Nodup → L.foldlM Catalog.insert c = .ok ⟨c.components ++ L⟩
  | [], c, _ => by simp
  | x :: L, c, h => by
    have hins : c.insert x = .ok (c.register x) := if_neg (by simp [contains_eq_false_of_nodup h])
    rw [List.foldlM_cons, hins]
    have := foldlM_insert L (c.register x) (by simpa [register] using h)
    simp only [register, List.append_assoc, List.singleton_append] at this
    exact this

theorem filter_ofKind (c : Catalog) (k' k : ComponentKind) :
    (c.ofKind k').filter (·.kind == k) = if k' = k then c.ofKind k else [] := by
  split
  · next hk =>
    subst hk
    exact List.filter_eq_self.2 fun x hx => (List.mem_filter.1 hx).2
  · next hk =>
    refine List.filter_eq_nil_iff.2 fun x hx hxk => hk ?_
    have h1 := (List.mem_filter.1 hx).2
    simp only [beq_iff_eq] at h1 hxk
    rw [← h1, hxk]

theorem ofKind_all (c : Catalog) (k : ComponentKind) : (⟨c.all⟩ : Catalog).ofKind k = c.ofKind k := by
  show (ComponentKind.all.flatMap c.ofKind).filter (·.kind == k) = c.ofKind k
  rw [List.filter_flatMap]
  simp only [filter_ofKind]
  cases k <;> simp [ComponentKind.all]

/-- A catalog with distinct identifiers, registered again kind by kind,
lists every kind as before. -/
theorem restore_all {c : Catalog} (h : c.Distinct) :
    c.all.foldlM Catalog.insert Catalog.empty = .ok ⟨c.all⟩ :=
  foldlM_insert c.all Catalog.empty h.all

end Catalog

/-! ## Relations -/

namespace Adjacency

variable {a a' : Adjacency} {L : List (Uuid × Uuid)}

theorem Lists.adjacencyOf_sorted (h : a.Lists L) : (Relation.adjacencyOf a.sorted).Lists L :=
  ⟨(Relation.adjacencyOf_spec _).1, fun k =>
    (Relation.get_adjacencyOf_sorted h.toWF k).trans (h.get_eq k)⟩

theorem Lists.sorted_eq (h : a.Lists L) (h' : a'.Lists L) : a'.sorted = a.sorted := by
  have hpw : ∀ {b : Adjacency}, b.WF → b.sorted.Pairwise fun x y => x.1 < y.1 :=
    fun hb => List.pairwise_map.1 hb.sorted_keys
  have hnd : ∀ {b : Adjacency}, b.WF → b.sorted.Nodup :=
    fun hb => List.Nodup.of_map _ (sorted_keys_nodup hb)
  have hanti : ∀ x y, x ∈ a'.sorted → y ∈ a.sorted → x.1 < y.1 → y.1 < x.1 → x = y :=
    fun _ _ _ _ hxy hyx => absurd (Nat.lt_trans hxy hyx) (Nat.lt_irrefl _)
  refine List.Perm.eq_of_pairwise hanti (hpw h'.toWF) (hpw h.toWF) ?_
  refine (List.perm_ext_iff_of_nodup (hnd h'.toWF) (hnd h.toWF)).2 fun e => ?_
  rw [h'.mem_sorted, h.mem_sorted]

end Adjacency

namespace Relation

variable {r : Relation} {L : List (Uuid × Uuid)}

/-- The sorted lists of both sides of a relation describe it again: the
rebuilt relation keeps the same edges. -/
theorem Abstracts.ofLists (h : r.Abstracts L) :
    ∃ r', Relation.ofLists r.childrenLists r.parentsLists = some r' ∧ r'.Abstracts L := by
  obtain ⟨r', hof, -⟩ := h.describes.consistent.rebuild
  obtain ⟨rfl, -⟩ := ofLists_eq_some_iff.1 hof
  exact ⟨_, hof, h.nodup, h.children.adjacencyOf_sorted, h.parents.adjacencyOf_sorted⟩

/-- **A stored relation is restored keeping the same edges**, and is
written again as the same lists. -/
theorem restore_ofRelation (h : r.Abstracts L) :
    ∃ r', (Archive.RelationRecord.ofRelation r).restore = .ok r' ∧ r'.Abstracts L ∧
      r'.childrenLists = r.childrenLists ∧ r'.parentsLists = r.parentsLists := by
  obtain ⟨r', hof, h'⟩ := h.ofLists
  refine ⟨r', ?_, h', h.children.sorted_eq h'.children, h.parents.sorted_eq h'.parents⟩
  simp [Archive.RelationRecord.restore, Archive.RelationRecord.ofRelation, hof]

end Relation

/-! ## Meshes -/

namespace SimplexMesh

/-- A mesh as the mesh constructors build it, its points having `dim`
coordinates: every element has the kind's number of vertices, all distinct
and all vertices of the mesh; the attributes count the mesh's vertices and
are sorted by name; every attribute has a flag for every vertex and its
values for every vertex, and a dimension that a 64-bit count holds. -/
structure WellFormed (dim : Nat) (x : SimplexMesh) : Prop where
  points : ∀ p ∈ x.coordinates.toList, p.size = dim
  elements : ∀ e ∈ x.elements.toList,
    e.length = x.simplexSize ∧ (∀ v ∈ e, v < x.coordinates.size) ∧ e.Nodup
  nbVertices : x.attributes.nbVertices = x.coordinates.size
  names : (x.attributes.entries.map (·.1)).Pairwise (· < ·)
  attributes : ∀ p ∈ x.attributes.entries, p.2.assigned.size = x.coordinates.size ∧
    p.2.values.size = Attribute.slotCount p.2.dimension p.2.assigned.size ∧ p.2.dimension < 2 ^ 64

theorem checkElement_eq_ok {n i : Nat} {e : List Nat} (hv : ∀ v ∈ e, v < n) (hnd : e.Nodup) :
    checkElement n i e = .ok () := by
  have h1 : e.find? (· ≥ n) = none :=
    List.find?_eq_none.2 fun v hv' => by simpa using hv v hv'
  unfold checkElement
  rw [h1]
  dsimp only
  rw [List.find?_eq_none.2 fun p hp => ?_]
  obtain ⟨a, j⟩ := p
  -- a vertex of the element occurs once, so not again after its position
  have hj : e[j]? = some a := List.mem_zipIdx_iff_getElem?.1 hp
  have htake : a ∈ e.take (j + 1) := by
    rw [List.mem_iff_getElem?]
    exact ⟨j, by simp [hj]⟩
  have hdisj := (List.nodup_append.1 ((List.take_append_drop (j + 1) e).symm ▸ hnd)).2.2
  simpa using fun hdrop => hdisj a htake a hdrop rfl

theorem forIn_yield_eq_ok {ε α : Type} {g : α → PUnit → Except ε (ForInStep PUnit)} :
    ∀ {l : List α}, (∀ x ∈ l, g x ⟨⟩ = .ok (.yield ⟨⟩)) → forIn l ⟨⟩ g = .ok ⟨⟩
  | [], _ => rfl
  | x :: l, h => by
    rw [List.forIn_cons, h x List.mem_cons_self]
    exact forIn_yield_eq_ok fun y hy => h y (List.mem_cons_of_mem _ hy)

/-- Elements of distinct vertices of the mesh make a mesh, with no
attribute. -/
theorem ofCoordinates_eq_ok {kind : MeshKind} {c : Array (Array Binary64)} {el : Array (List Nat)}
    (h : ∀ e ∈ el.toList, (∀ v ∈ e, v < c.size) ∧ e.Nodup) :
    ofCoordinates kind c el = .ok ⟨kind, c, el, .new c.size⟩ := by
  unfold ofCoordinates
  rw [forIn_yield_eq_ok fun p hp => ?_]
  · rfl
  · obtain ⟨e, i⟩ := p
    have he := h e (List.mem_of_getElem? (List.mem_zipIdx_iff_getElem?.1 hp))
    show (checkElement c.size i e >>= fun _ => pure _) = _
    rw [checkElement_eq_ok he.1 he.2]
    rfl

theorem simplexSize_pos (x : SimplexMesh) : 0 < x.simplexSize := by
  cases h : x.kind <;> simp [simplexSize, h, MeshKind.simplexSize]

end SimplexMesh

theorem MeshKind.ofSimplexSize?_simplexSize (k : MeshKind) : ofSimplexSize? k.simplexSize = some k := by
  cases k <;> rfl

namespace Archive

/-- Cutting groups of `k` items, put end to end, into groups of `k` gives
the groups back. -/
theorem chunks_flatten {α : Type} {k : Nat} (hk : 0 < k) :
    ∀ {xss : List (List α)} {fuel : Nat}, (∀ xs ∈ xss, xs.length = k) → xss.length ≤ fuel →
      chunks k xss.flatten fuel = xss
  | [], 0, _, _ => rfl
  | [], _ + 1, _, _ => rfl
  | _ :: _, 0, _, hf => absurd hf (by simp)
  | xs :: xss, fuel + 1, h, hf => by
    have hxs := h xs List.mem_cons_self
    have hne : xs ≠ [] := List.ne_nil_of_length_pos (hxs ▸ hk)
    rw [List.flatten_cons, chunks, if_neg (by simp [hne]), List.take_left' hxs, List.drop_left' hxs,
      chunks_flatten hk (fun ys hy => h ys (List.mem_cons_of_mem _ hy)) (by simpa using hf)]

theorem length_flatten_of_length {α : Type} {k : Nat} :
    ∀ {xss : List (List α)}, (∀ xs ∈ xss, xs.length = k) → xss.flatten.length = xss.length * k
  | [], _ => by simp
  | xs :: xss, h => by
    rw [List.flatten_cons, List.length_append, h xs List.mem_cons_self,
      length_flatten_of_length fun ys hy => h ys (List.mem_cons_of_mem _ hy), List.length_cons,
      Nat.succ_mul, Nat.add_comm]

theorem chunksExact?_flatten {α : Type} {k : Nat} (hk : 0 < k) {xss : List (List α)}
    (h : ∀ xs ∈ xss, xs.length = k) : chunksExact? k xss.flatten = some xss := by
  have hlen := length_flatten_of_length h
  unfold chunksExact?
  rw [if_neg (by simp [hlen, Nat.pos_iff_ne_zero.1 hk]),
    chunks_flatten hk h (by rw [hlen]; exact Nat.le_mul_of_pos_right _ hk)]

end Archive

namespace VertexAttributes

theorem putEntry_of_lt {name : String} {a : Attribute} :
    ∀ {E : List (String × Attribute)}, (∀ p ∈ E, p.1 < name) → putEntry E name a = E ++ [(name, a)]
  | [], _ => rfl
  | (k, b) :: E, h => by
    have hk : k < name := h (k, b) List.mem_cons_self
    have hne : name ≠ k := fun he => String.lt_irrefl k (he ▸ hk)
    rw [putEntry, if_neg hne, if_neg (String.lt_asymm hk),
      putEntry_of_lt fun p hp => h p (List.mem_cons_of_mem _ hp)]
    rfl

end VertexAttributes

namespace Archive

/-- The stored form of a named attribute. -/
def AttributeRecord.ofEntry (p : String × Attribute) : AttributeRecord :=
  ⟨p.1, p.2.dimension, p.2.values.toList, p.2.assigned.toList⟩

/-- Inserting stored attributes in increasing name order, each with a flag
for every vertex and its values for every vertex, appends them. The step
`f` is any that inserts an attribute passing both checks. -/
theorem foldlM_insertAttributes {n : Nat}
    {f : VertexAttributes → AttributeRecord → Except Error VertexAttributes}
    (hf : ∀ E₀ (a : AttributeRecord), a.values.length = Attribute.slotCount a.dimension a.assigned.length →
      a.assigned.length = n → f ⟨n, E₀⟩ a =
        .ok ⟨n, VertexAttributes.putEntry E₀ a.name ⟨a.dimension, a.values.toArray, a.assigned.toArray⟩⟩) :
    ∀ (E E₀ : List (String × Attribute)), ((E₀ ++ E).map (·.1)).Pairwise (· < ·) →
      (∀ p ∈ E, p.2.assigned.size = n ∧
        p.2.values.size = Attribute.slotCount p.2.dimension p.2.assigned.size) →
      (E.map AttributeRecord.ofEntry).foldlM f ⟨n, E₀⟩ = .ok ⟨n, E₀ ++ E⟩
  | [], E₀, _, _ => by simp
  | p :: E, E₀, hnames, hsize => by
    obtain ⟨hn, hv⟩ := hsize p List.mem_cons_self
    have hlt : ∀ q ∈ E₀, q.1 < p.1 := by
      rw [List.map_append, List.pairwise_append] at hnames
      exact fun q hq => hnames.2.2 q.1 (List.mem_map_of_mem hq) p.1 (by simp)
    have hstep : f ⟨n, E₀⟩ (AttributeRecord.ofEntry p) = .ok ⟨n, E₀ ++ [p]⟩ := by
      rw [hf E₀ _ (by simpa [AttributeRecord.ofEntry] using hv) (by simpa [AttributeRecord.ofEntry] using hn)]
      simp [AttributeRecord.ofEntry, VertexAttributes.putEntry_of_lt hlt]
    rw [List.map_cons, List.foldlM_cons, hstep]
    have := foldlM_insertAttributes hf E (E₀ ++ [p]) (by simpa using hnames)
      fun q hq => hsize q (List.mem_cons_of_mem _ hq)
    simp only [List.append_assoc, List.singleton_append] at this
    exact this

end Archive

namespace Archive

section OfMesh

variable (id : Uuid) (x : SimplexMesh)

theorem MeshRecord.ofMesh_coordinates :
    (MeshRecord.ofMesh id x).coordinates = x.coordinates.toList.flatMap Array.toList := rfl

theorem MeshRecord.ofMesh_elements : (MeshRecord.ofMesh id x).elements = x.elements.toList.flatten :=
  rfl

theorem MeshRecord.ofMesh_simplexSize : (MeshRecord.ofMesh id x).simplexSize = x.kind.simplexSize :=
  rfl

theorem MeshRecord.ofMesh_attributes :
    (MeshRecord.ofMesh id x).attributes = x.attributes.entries.map AttributeRecord.ofEntry := rfl

end OfMesh

/-- **A well-formed mesh is restored as it was**: its points and elements
are cut back out of the flat lists, every element passes the check, and its
attributes are inserted again in name order. -/
theorem MeshRecord.restore_ofMesh {dim : Nat} (hdim : 0 < dim) (id : Uuid) {x : SimplexMesh}
    (hx : x.WellFormed dim) : (MeshRecord.ofMesh id x).restore dim = .ok x := by
  have hpoints : chunksExact? dim (x.coordinates.toList.flatMap Array.toList) =
      some (x.coordinates.toList.map Array.toList) := by
    rw [List.flatMap_def]
    exact chunksExact?_flatten hdim fun p hp => by
      obtain ⟨q, hq, rfl⟩ := List.mem_map.1 hp
      simpa using hx.points q hq
  have hnew : VertexAttributes.new (x.coordinates.toList.map Array.toList).length =
      ⟨x.coordinates.size, []⟩ := by
    simp [VertexAttributes.new]
  have hcoords : ((x.coordinates.toList.map Array.toList).map List.toArray).toArray = x.coordinates := by
    simp [Function.comp_def]
  have helements : chunksExact? x.kind.simplexSize x.elements.toList.flatten = some x.elements.toList :=
    chunksExact?_flatten x.simplexSize_pos fun e he => (hx.elements e he).1
  have hattrs : x.attributes = ⟨x.coordinates.size, [] ++ x.attributes.entries⟩ := by
    rw [List.nil_append, ← hx.nbVertices]
  unfold MeshRecord.restore
  rw [MeshRecord.ofMesh_coordinates, hpoints]
  dsimp only
  rw [hnew, MeshRecord.ofMesh_attributes, foldlM_insertAttributes (fun E₀ a h1 h2 => ?_) x.attributes.entries [] (by simpa using hx.names)
    fun p hp => ⟨(hx.attributes p hp).1, (hx.attributes p hp).2.1⟩, ← hattrs]
  · rw [MeshRecord.ofMesh_simplexSize, MeshKind.ofSimplexSize?_simplexSize]
    dsimp only
    rw [MeshRecord.ofMesh_elements, helements]
    dsimp only
    rw [hcoords, Array.toArray_toList, SimplexMesh.ofCoordinates_eq_ok fun e he =>
      ⟨(hx.elements e he).2.1, (hx.elements e he).2.2⟩]
    rfl
  · -- a stored attribute that passes the size check is inserted
    simp [VertexAttributes.insertAttribute, h1, h2]

end Archive

/-! ## Models -/

namespace Catalog

variable {c : Catalog} {k k' : ComponentKind} {y : Uuid}

theorem all_all (c : Catalog) : (⟨c.all⟩ : Catalog).all = c.all := by
  show ComponentKind.all.flatMap (⟨c.all⟩ : Catalog).ofKind = _
  rw [show (⟨c.all⟩ : Catalog).ofKind = c.ofKind from funext (ofKind_all c)]
  rfl

theorem Distinct.ids (h : c.Distinct) (k : ComponentKind) : (c.ids k).Nodup :=
  h.sublist (List.filter_sublist.map _)

theorem Distinct.ids_append (h : c.Distinct) (hk : k ≠ k') : (c.ids k ++ c.ids k').Nodup := by
  refine List.nodup_append.2 ⟨h.ids k, h.ids k', fun a ha b hb hab => hk ?_⟩
  obtain ⟨x, hx, rfl⟩ := List.mem_map.1 ha
  obtain ⟨z, hz, rfl⟩ := List.mem_map.1 hb
  obtain ⟨hx, hxk⟩ := List.mem_filter.1 hx
  obtain ⟨hz, hzk⟩ := List.mem_filter.1 hz
  obtain rfl := List.inj_on_of_nodup_map h hx hz hab
  simp only [beq_iff_eq] at hxk hzk
  rw [← hxk, ← hzk]

theorem mem_ids_of_kindOf? (h : c.kindOf? y = some k) : y ∈ c.ids k := by
  obtain ⟨x, hx, rfl⟩ := get_of_kindOf? h
  obtain ⟨hmem, rfl⟩ := get?_eq_some (get?_of_get hx)
  exact List.mem_map_of_mem (List.mem_filter.2 ⟨hmem, by simp⟩)

end Catalog

namespace MeshTable

variable {t : MeshTable} {id : Uuid} {x : SimplexMesh}

theorem get?_of_mem (hk : t.keys.Nodup) (h : (id, x) ∈ t) : t.get? id = some x := lookup_of_mem hk h

theorem foldl_put_fresh (l t : MeshTable) (h : (t.keys ++ l.keys).Nodup) :
    l.foldl (fun t p => t.put p.1 p.2) t = t ++ l := by
  -- a mesh written under an identifier the table lacks is appended
  have hput : ∀ (t : MeshTable) (p : Uuid × SimplexMesh), p.1 ∉ t.map (·.1) → t.put p.1 p.2 = t ++ [p] :=
    fun t p hp => by
      have hp' : p.1 ∉ t.keys := hp
      rw [put, if_neg (by simpa [any_eq_mem_keys] using hp')]
  exact foldl_append_of_fresh hput l t (by simpa [keys] using h)

end MeshTable

theorem foldlM_ok_of_forall {ε α β : Type} {f : β → α → Except ε β} {g : β → α → β} :
    ∀ {xs : List α} {b : β}, (∀ b, ∀ x ∈ xs, f b x = .ok (g b x)) →
      xs.foldlM f b = .ok (xs.foldl g b)
  | [], _, _ => rfl
  | x :: xs, b, h => by
    rw [List.foldlM_cons, h b x List.mem_cons_self]
    exact foldlM_ok_of_forall fun b y hy => h b y (List.mem_cons_of_mem _ hy)

namespace Model

variable {m m' : Model}

theorem Step.distinct {locked : Bool} (hs : Step locked m m') (h : m.catalog.Distinct) :
    m'.catalog.Distinct := by
  rcases hs.catalog_shape with hc | ⟨x, hfresh, hc⟩ | ⟨id, k, -, -, hc | ⟨f, hc, hid⟩⟩
  · exact hc ▸ h
  · exact hc ▸ h.register hfresh
  · exact hc ▸ h.without
  · exact hc ▸ h.update hid

theorem Reachable.distinct (h : m.Reachable) : m.catalog.Distinct := by
  induction h with
  | empty dim => exact List.nodup_nil
  | step _ hs ih => exact hs.distinct ih
  | copy _ _ _ hc _ ihsrc =>
    rw [copyInto_eq_ok hc]
    exact ihsrc

theorem facetKind_ne_cellKind (dim : Nat) : facetKind dim ≠ cellKind dim := by
  unfold facetKind cellKind
  split <;> decide

/-- The item meshes list exactly the meshes of the table: every mesh
belongs to a facet or a cell. -/
theorem Inv.mem_itemMeshes (h : m.Inv) {id : Uuid} {x : SimplexMesh} :
    (id, x) ∈ m.itemMeshes ↔ m.meshes.get? id = some x := by
  unfold itemMeshes
  rw [List.mem_filterMap]
  constructor
  · rintro ⟨y, -, hy⟩
    obtain ⟨z, hz, hyz⟩ := Option.map_eq_some_iff.1 hy
    simp only [Prod.mk.injEq] at hyz
    obtain ⟨rfl, rfl⟩ := hyz
    exact hz
  · intro hg
    refine ⟨id, ?_, by simp [hg]⟩
    have hk := h.mesh_kind _ (MeshTable.mem_of_get? hg)
    have hs := h.supported id _ hk (itemKindOf_isItem _)
    simp only [supportsItemKind, Bool.or_eq_true, beq_iff_eq] at hs
    rcases hs with hc | hf
    · exact List.mem_append_right _ (Catalog.mem_ids_of_kindOf? (hc ▸ hk))
    · exact List.mem_append_left _ (Catalog.mem_ids_of_kindOf? (hf ▸ hk))

theorem keys_itemMeshes (hd : m.catalog.Distinct) : MeshTable.keys m.itemMeshes |>.Nodup := by
  unfold itemMeshes MeshTable.keys
  rw [List.map_filterMap]
  refine ((hd.ids_append (facetKind_ne_cellKind m.dim)).filterMap fun a a' b ha ha' => ?_)
  simp only [Option.map_map, Function.comp_def, Option.mem_def, Option.map_eq_some_iff] at ha ha'
  obtain ⟨-, -, rfl⟩ := ha
  obtain ⟨-, -, rfl⟩ := ha'
  rfl

/-- The item meshes of a model with distinct identifiers find every mesh
under its identifier. -/
theorem get?_itemMeshes (h : m.Inv) (hd : m.catalog.Distinct) (id : Uuid) :
    MeshTable.get? m.itemMeshes id = m.meshes.get? id := by
  cases hg : m.meshes.get? id with
  | some x => exact MeshTable.get?_of_mem (keys_itemMeshes hd) (h.mem_itemMeshes.2 hg)
  | none =>
    cases hl : MeshTable.get? m.itemMeshes id with
    | none => rfl
    | some x =>
      have := h.mem_itemMeshes.1 (MeshTable.mem_of_get? hl)
      rw [hg] at this
      cases this

end Model

namespace Relation

variable {r r' : Relation}

/-- `r'` keeps the edges of `r`: both keep one duplicate-free edge list, in
the same order on both sides. -/
def SameEdges (r' r : Relation) : Prop := ∃ L, r.Abstracts L ∧ r'.Abstracts L

theorem SameEdges.childrenOf_eq (h : r'.SameEdges r) (p : Uuid) : r'.childrenOf p = r.childrenOf p :=
  let ⟨_, hL, hL'⟩ := h
  (hL'.childrenOf_eq p).trans (hL.childrenOf_eq p).symm

theorem SameEdges.parentsOf_eq (h : r'.SameEdges r) (c : Uuid) : r'.parentsOf c = r.parentsOf c :=
  let ⟨_, hL, hL'⟩ := h
  (hL'.parentsOf_eq c).trans (hL.parentsOf_eq c).symm

theorem SameEdges.childrenLists_eq (h : r'.SameEdges r) : r'.childrenLists = r.childrenLists :=
  let ⟨_, hL, hL'⟩ := h
  hL.children.sorted_eq hL'.children

theorem SameEdges.parentsLists_eq (h : r'.SameEdges r) : r'.parentsLists = r.parentsLists :=
  let ⟨_, hL, hL'⟩ := h
  hL.parents.sorted_eq hL'.parents

end Relation

namespace Model

variable {m m' : Model}

/-- `m'` answers every query as `m` does: the same dimension, the same
components of each kind in the same order, the same edges in each relation,
the same mesh under every identifier, and the same reference system. -/
structure Alike (m' m : Model) : Prop where
  dim : m'.dim = m.dim
  ofKind : ∀ k, m'.catalog.ofKind k = m.catalog.ofKind k
  membership : m'.membership.SameEdges m.membership
  boundaries : m'.boundaries.SameEdges m.boundaries
  internals : m'.internals.SameEdges m.internals
  meshes : ∀ id, m'.meshes.get? id = m.meshes.get? id
  crs : m'.crs = m.crs

theorem Alike.all_eq (h : m'.Alike m) : m'.catalog.all = m.catalog.all := by
  unfold Catalog.all
  rw [show m'.catalog.ofKind = m.catalog.ofKind from funext h.ofKind]

theorem Alike.itemMeshes_eq (h : m'.Alike m) : m'.itemMeshes = m.itemMeshes := by
  unfold itemMeshes Catalog.ids
  simp only [h.dim, h.ofKind, h.meshes]

theorem Alike.putModel_eq (h : m'.Alike m) : Archive.putModel m' = Archive.putModel m := by
  unfold Archive.putModel Archive.putRelation
  rw [h.all_eq, h.membership.childrenLists_eq, h.membership.parentsLists_eq,
    h.boundaries.childrenLists_eq, h.boundaries.parentsLists_eq, h.internals.childrenLists_eq,
    h.internals.parentsLists_eq, h.itemMeshes_eq, h.crs]

end Model

namespace Archive

open Model in
/-- **A stored model is restored alike**: the components kind by kind, the
three relations with the same edges, the meshes of its items and its
reference system, when its meshes are well formed and its identifiers
distinct. -/
theorem ModelRecord.restore_ofModel {m : Model} (h : m.Inv) (hd : m.catalog.Distinct)
    (hdim : 0 < m.dim) (hmesh : ∀ p ∈ m.meshes, p.2.WellFormed m.dim) :
    ∃ m', (ModelRecord.ofModel m).restore m.dim = .ok m' ∧ m'.Alike m := by
  obtain ⟨L1, hL1, -⟩ := h.membership
  obtain ⟨L2, hL2, -⟩ := h.boundaries
  obtain ⟨L3, hL3, -⟩ := h.internals
  obtain ⟨r1, hr1, h1, -, -⟩ := Relation.restore_ofRelation hL1
  obtain ⟨r2, hr2, h2, -, -⟩ := Relation.restore_ofRelation hL2
  obtain ⟨r3, hr3, h3, -, -⟩ := Relation.restore_ofRelation hL3
  have hitem : ∀ p ∈ m.itemMeshes, p.2.WellFormed m.dim := fun p hp =>
    hmesh p (MeshTable.mem_of_get? (h.mem_itemMeshes.1 hp))
  refine ⟨⟨m.dim, ⟨m.catalog.all⟩, r1, r2, r3, m.itemMeshes, m.crs⟩, ?_,
    ⟨rfl, Catalog.ofKind_all m.catalog, ⟨L1, hL1, h1⟩, ⟨L2, hL2, h2⟩, ⟨L3, hL3, h3⟩,
      get?_itemMeshes h hd, rfl⟩⟩
  unfold ModelRecord.restore
  have hmeshes := MeshTable.foldl_put_fresh m.itemMeshes [] (by simpa [MeshTable.keys] using keys_itemMeshes hd)
  rw [List.nil_append] at hmeshes
  simp only [ModelRecord.ofModel, Catalog.restore_all hd, List.foldlM_map, hr1, hr2, hr3]
  rw [foldlM_ok_of_forall (g := fun t p => t.put p.1 p.2) fun t p hp => ?_, hmeshes]
  · rfl
  · show ((MeshRecord.ofMesh p.1 p.2).restore m.dim >>= _) = _
    rw [MeshRecord.restore_ofMesh hdim p.1 (hitem p hp)]
    rfl

end Archive

namespace Archive

/-- The numbers a well-formed mesh writes in eight bytes fit in them when
its bytes fit: its vertex indices are below its number of points, which its
coordinates outnumber. -/
theorem MeshRecord.inRange_ofMesh {dim : Nat} (hdim : 0 < dim) (id : Uuid) {x : SimplexMesh}
    (hx : x.WellFormed dim) (hfit : Fits (putMesh (MeshRecord.ofMesh id x))) :
    (MeshRecord.ofMesh id x).InRange := by
  have hcoords : Fits ((MeshRecord.ofMesh id x).coordinates.flatMap putFloat) := by
    unfold putMesh at hfit
    simp only [List.append_assoc] at hfit
    exact @Fits.right (putU64 _) _ hfit.right.right.left
  have hlen : (MeshRecord.ofMesh id x).coordinates.length = x.coordinates.size * dim := by
    rw [ofMesh_coordinates, List.flatMap_def, length_flatten_of_length fun p hp => by
      obtain ⟨q, hq, rfl⟩ := List.mem_map.1 hp
      simpa using hx.points q hq]
    simp
  have hsize : x.coordinates.size < 2 ^ 64 :=
    calc x.coordinates.size ≤ x.coordinates.size * dim := Nat.le_mul_of_pos_right _ hdim
      _ = (MeshRecord.ofMesh id x).coordinates.length := hlen.symm
      _ < 2 ^ 64 := Fits.length_lt (fun y _ => putFloat_ne_nil y) hcoords
  refine ⟨?_, fun v hv => ?_, fun a ha => ?_⟩
  · rw [ofMesh_simplexSize]
    cases x.kind <;> decide
  · rw [ofMesh_elements, List.mem_flatten] at hv
    obtain ⟨e, he, hve⟩ := hv
    exact Nat.lt_trans ((hx.elements e he).2.1 v hve) hsize
  · rw [ofMesh_attributes] at ha
    obtain ⟨p, hp, rfl⟩ := List.mem_map.1 ha
    exact (hx.attributes p hp).2.2

end Archive

namespace Model

variable {m : Model}

/-- The records of well-formed meshes hold their numbers in range wherever
their bytes fit. -/
theorem Inv.meshRecords_inRange (h : m.Inv) (hdim : 0 < m.dim)
    (hmesh : ∀ p ∈ m.meshes, p.2.WellFormed m.dim) :
    ∀ r ∈ (Archive.ModelRecord.ofModel m).meshes, Archive.Fits (Archive.putMesh r) → r.InRange := by
  intro r hr hr'
  obtain ⟨p, hp, rfl⟩ := List.mem_map.1 hr
  exact Archive.MeshRecord.inRange_ofMesh hdim p.1
    (hmesh p (MeshTable.mem_of_get? (h.mem_itemMeshes.1 hp))) hr'

/-- **A saved model loads back alike and saves again to the same bytes**,
when its meshes are well formed, its identifiers distinct and its file fits
in a 64-bit count. -/
theorem load_save (h : m.Inv) (hd : m.catalog.Distinct) (hdim : 0 < m.dim)
    (hmesh : ∀ p ∈ m.meshes, p.2.WellFormed m.dim) {path : String} {bytes : List UInt8}
    (hs : m.save path = .ok bytes) (hfit : Archive.Fits bytes) :
    ∃ m', load m.dim path bytes = .ok m' ∧ m'.Alike m ∧ m'.save path = .ok bytes := by
  have hpay : Archive.Fits (Archive.putModel m) := by
    rw [Archive.writeFile_eq_ok hs] at hfit
    exact hfit.right
  have hread := Archive.readFile_writeFile hs hfit
    (Archive.getModel_reads m hpay (h.meshRecords_inRange hdim hmesh))
  obtain ⟨m', hr, halike⟩ := Archive.ModelRecord.restore_ofModel h hd hdim hmesh
  refine ⟨m', ?_, halike, ?_⟩
  · simp only [load, hread, hr, bind, Except.bind]
  · rw [save, halike.putModel_eq, halike.dim]
    exact hs

end Model

end Subsurface
