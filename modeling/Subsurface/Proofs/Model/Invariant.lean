import Subsurface.Model.Edit
import Subsurface.Proofs.Catalog
import Subsurface.Proofs.Relation
/-!
The five stores of a geological model agree.

A model keeps its components in a catalog, three relations between them and
the meshes of its items. They agree (`Model.Inv`) when every membership joins
a collection to an item of the kind the collection gathers, every boundary
and internal edge joins a cell to a facet, no facet both bounds a cell and
lies inside it, and the meshes are kept exactly for the registered items, one
each and of the item's shape, the items being of the two kinds the dimension
supports. Every edit of the model keeps the agreement, relying on the checks
it makes before it changes anything.
-/

namespace Subsurface

namespace MeshTable

variable {t : MeshTable} {id y : Uuid} {x : SimplexMesh} {p : Uuid × SimplexMesh}

/-- The identifiers that have a mesh, in table order. -/
def keys (t : MeshTable) : List Uuid := t.map (·.1)

theorem any_eq_mem_keys : t.any (·.1 == id) = decide (id ∈ t.keys) := by
  rw [Bool.eq_iff_iff, decide_eq_true_iff, List.any_eq_true, keys, List.mem_map]
  simp only [beq_iff_eq]

theorem keys_put : (t.put id x).keys = if id ∈ t.keys then t.keys else t.keys ++ [id] := by
  unfold put
  rw [any_eq_mem_keys]
  by_cases hk : id ∈ t.keys
  · rw [decide_eq_true hk, if_pos rfl, if_pos hk, keys, keys, List.map_map]
    apply List.map_congr_left
    rintro ⟨k, v⟩ -
    simp only [Function.comp]
    split <;> rfl
  · rw [decide_eq_false hk, if_neg Bool.false_ne_true, if_neg hk, keys, keys, List.map_append]
    rfl

theorem mem_keys_put : y ∈ (t.put id x).keys ↔ y = id ∨ y ∈ t.keys := by
  rw [keys_put]
  split
  · next hk =>
    constructor
    · exact .inr
    · rintro (rfl | hy)
      · exact hk
      · exact hy
  · simp [or_comm]

theorem nodup_keys_put (h : t.keys.Nodup) : (t.put id x).keys.Nodup := by
  rw [keys_put]
  split
  · exact h
  · next hk =>
    refine List.nodup_append.2 ⟨h, List.nodup_singleton id, fun a ha b hb => ?_⟩
    rw [List.mem_singleton] at hb
    exact hb ▸ fun he => hk (he ▸ ha)

/-- An entry after writing the mesh of `id` is that mesh, or an entry of
another identifier that was there. -/
theorem mem_put (h : p ∈ t.put id x) : p = (id, x) ∨ (p ∈ t ∧ p.1 ≠ id) := by
  unfold put at h
  split at h
  · obtain ⟨⟨k, v⟩, hq, rfl⟩ := List.mem_map.1 h
    by_cases hk : k = id
    · left
      simp [hk]
    · right
      simpa [hk] using hq
  · next hany =>
    rcases List.mem_append.1 h with h | h
    · refine .inr ⟨h, fun he => hany ?_⟩
      exact List.any_eq_true.2 ⟨p, h, by simp [he]⟩
    · exact .inl (List.mem_singleton.1 h)

theorem mem_erase : p ∈ t.erase id ↔ p ∈ t ∧ p.1 ≠ id := by
  simp [erase]

theorem keys_erase : (t.erase id).keys = t.keys.filter (· != id) := by
  simp only [erase, keys, List.filter_map]
  rfl

theorem mem_keys_erase : y ∈ (t.erase id).keys ↔ y ∈ t.keys ∧ y ≠ id := by
  simp [keys_erase]

theorem nodup_keys_erase (h : t.keys.Nodup) : (t.erase id).keys.Nodup := by
  rw [keys_erase]
  exact h.filter _

theorem mem_of_get? (h : t.get? id = some x) : (id, x) ∈ t := mem_of_lookup h

/-- A table rewritten entry by entry, each entry keeping its identifier and
its shape, keeps the identifiers and the shapes. -/
theorem mapM_eq_ok {g : Uuid × SimplexMesh → Except Error (Uuid × SimplexMesh)}
    (hg : ∀ p q, g p = .ok q → q.1 = p.1 ∧ q.2.kind = p.2.kind) :
    ∀ {t t' : MeshTable}, t.mapM g = .ok t' →
      t'.keys = t.keys ∧ ∀ q ∈ t', ∃ p ∈ t, p.1 = q.1 ∧ p.2.kind = q.2.kind
  | [], t', h => by
    rw [List.mapM_nil, except_pure_eq_ok] at h
    subst h
    exact ⟨rfl, fun q hq => by cases hq⟩
  | p :: t, t', h => by
    rw [List.mapM_cons] at h
    obtain ⟨q, hq, h⟩ := except_bind_eq_ok.1 h
    obtain ⟨qs, hqs, h⟩ := except_bind_eq_ok.1 h
    obtain rfl := except_pure_eq_ok.1 h
    obtain ⟨hkeys, hkind⟩ := mapM_eq_ok hg hqs
    obtain ⟨h1, h2⟩ := hg p q hq
    refine ⟨?_, fun r hr => ?_⟩
    · simp only [keys, List.map_cons] at hkeys ⊢
      rw [h1, hkeys]
    · rcases List.mem_cons.1 hr with rfl | hr
      · exact ⟨p, List.mem_cons_self, h1.symm, h2.symm⟩
      · obtain ⟨p', hp', he⟩ := hkind r hr
        exact ⟨p', List.mem_cons_of_mem _ hp', he⟩

theorem get?_isSome : (t.get? id).isSome ↔ id ∈ t.keys := by
  rw [get?, List.lookup_isSome_iff, keys, List.mem_map]
  simp only [beq_iff_eq]
  exact ⟨fun ⟨q, hq, he⟩ => ⟨q, hq, he.symm⟩, fun ⟨q, hq, he⟩ => ⟨q, hq, he.symm⟩⟩

end MeshTable

namespace Catalog

variable {cat cat' : Catalog} {dim : Nat} {c i y : Uuid} {x : Component}

/-- The collection `c` gathers the item `i`: `i` has the kind that the kind
of `c` gathers in dimension `dim`. -/
def Gathers (cat : Catalog) (dim : Nat) (c i : Uuid) : Prop :=
  ∃ kc ki, cat.kindOf? c = some kc ∧ cat.kindOf? i = some ki ∧ Model.gatheredKind dim kc = some ki

/-- `c` is a cell and `f` a facet in dimension `dim`. -/
def CellFacet (cat : Catalog) (dim : Nat) (c f : Uuid) : Prop :=
  cat.kindOf? c = some (Model.cellKind dim) ∧ cat.kindOf? f = some (Model.facetKind dim)

/-- `cat'` keeps every component of `cat` with its kind. -/
def Extends (cat' cat : Catalog) : Prop := ∀ y k, cat.kindOf? y = some k → cat'.kindOf? y = some k

theorem Gathers.extend (h : cat.Gathers dim c i) (he : cat'.Extends cat) : cat'.Gathers dim c i :=
  let ⟨kc, ki, hc, hi, hg⟩ := h
  ⟨kc, ki, he c kc hc, he i ki hi, hg⟩

theorem CellFacet.extend (h : cat.CellFacet dim c i) (he : cat'.Extends cat) :
    cat'.CellFacet dim c i :=
  ⟨he c _ h.1, he i _ h.2⟩

theorem Gathers.without (h : cat.Gathers dim c i) (hc : c ≠ y) (hi : i ≠ y) :
    (cat.without y).Gathers dim c i := by
  obtain ⟨kc, ki, hkc, hki, hg⟩ := h
  refine ⟨kc, ki, ?_, ?_, hg⟩
  · rw [kindOf?_without, if_neg hc, hkc]
  · rw [kindOf?_without, if_neg hi, hki]

theorem CellFacet.without (h : cat.CellFacet dim c i) (hc : c ≠ y) (hi : i ≠ y) :
    (cat.without y).CellFacet dim c i := by
  rw [CellFacet, kindOf?_without, if_neg hc, kindOf?_without, if_neg hi]
  exact h

theorem extends_register (h : cat.contains x.id = false) : (cat.register x).Extends cat := by
  intro y k hy
  rw [kindOf?_register h, if_neg]
  · exact hy
  · rintro rfl
    rw [contains_of_kindOf? hy] at h
    cases h

end Catalog

namespace Model

variable {m m' : Model} {id y : Uuid} {k : ComponentKind}

/-- The five stores of the model agree. -/
structure Inv (m : Model) : Prop where
  /-- The items are of the two kinds the dimension supports. -/
  supported : ∀ y k, m.catalog.kindOf? y = some k → k.isItem = true →
    supportsItemKind m.dim k = true
  membership : m.membership.AllEdges (m.catalog.Gathers m.dim)
  boundaries : m.boundaries.AllEdges (m.catalog.CellFacet m.dim)
  internals : m.internals.AllEdges (m.catalog.CellFacet m.dim)
  /-- No facet both bounds a cell and lies inside it. -/
  exclusive : ∀ c f, m.boundaries.hasEdge c f = true → m.internals.hasEdge c f = false
  keys_nodup : m.meshes.keys.Nodup
  /-- Every mesh belongs to a registered item of its shape. -/
  mesh_kind : ∀ p ∈ m.meshes, m.catalog.kindOf? p.1 = some (itemKindOf p.2.kind)
  /-- Every registered item has a mesh. -/
  meshed : ∀ y k, m.catalog.kindOf? y = some k → k.isItem = true → y ∈ m.meshes.keys

theorem inv_empty (dim : Nat) : (empty dim).Inv where
  supported _ _ h := by simp [empty, Catalog.empty, Catalog.kindOf?, Catalog.get?] at h
  membership := Relation.allEdges_empty
  boundaries := Relation.allEdges_empty
  internals := Relation.allEdges_empty
  exclusive _ _ h := by
    simp [empty, Relation.empty, Relation.hasEdge, Adjacency.get, IdSet.contains, IdSet.empty] at h
  keys_nodup := List.nodup_nil
  mesh_kind _ h := by cases h
  meshed _ _ h := by simp [empty, Catalog.empty, Catalog.kindOf?, Catalog.get?] at h

theorem cellKind_isItem (dim : Nat) : (cellKind dim).isItem = true := by
  unfold cellKind
  split <;> rfl

theorem facetKind_isItem (dim : Nat) : (facetKind dim).isItem = true := by
  unfold facetKind
  split <;> rfl

theorem itemKindOf_isItem (mk : MeshKind) : (itemKindOf mk).isItem = true := by
  cases mk <;> rfl

theorem ne_of_kindOf? {cat : Catalog} {a b : Uuid} {ka kb : ComponentKind}
    (ha : cat.kindOf? a = some ka) (hb : cat.kindOf? b = some kb) (hne : ka.isItem ≠ kb.isItem) :
    a ≠ b := by
  rintro rfl
  rw [ha, Option.some_inj] at hb
  exact hne (hb ▸ rfl)

/-! ## Changes of one store -/

theorem Inv.withCrs (h : m.Inv) (c : Option CrsInfo) : { m with crs := c }.Inv :=
  ⟨h.supported, h.membership, h.boundaries, h.internals, h.exclusive, h.keys_nodup, h.mesh_kind,
    h.meshed⟩

/-- A catalog that keeps every component with its kind and adds only
collections keeps the agreement. -/
theorem Inv.extend (h : m.Inv) {cat : Catalog} (hext : cat.Extends m.catalog)
    (hnew : ∀ y k, cat.kindOf? y = some k → m.catalog.kindOf? y = none → k.isItem = false) :
    { m with catalog := cat }.Inv := by
  -- an item of the new catalog is an item of the old one
  have hold : ∀ y k, cat.kindOf? y = some k → k.isItem = true → m.catalog.kindOf? y = some k := by
    intro y k hy hk
    cases hm : m.catalog.kindOf? y with
    | none =>
      rw [hnew y k hy hm] at hk
      cases hk
    | some k' =>
      rw [hext y k' hm] at hy
      rw [hy]
  exact {
    supported := fun y k hy hk => h.supported y k (hold y k hy hk) hk
    membership := h.membership.mono fun _ _ hg => hg.extend hext
    boundaries := h.boundaries.mono fun _ _ hb => hb.extend hext
    internals := h.internals.mono fun _ _ hb => hb.extend hext
    exclusive := h.exclusive
    keys_nodup := h.keys_nodup
    mesh_kind := fun p hp => hext _ _ (h.mesh_kind p hp)
    meshed := fun y k hy hk => h.meshed y k (hold y k hy hk) hk }

theorem Inv.register (h : m.Inv) {x : Component} (hx : x.kind.isItem = false)
    (hfresh : m.catalog.contains x.id = false) :
    { m with catalog := m.catalog.register x }.Inv := by
  refine h.extend (Catalog.extends_register hfresh) fun y k hy hm => ?_
  rw [Catalog.kindOf?_register hfresh] at hy
  split at hy
  · rw [← Option.some_inj.1 hy]
    exact hx
  · rw [hm] at hy
    cases hy

theorem Inv.update (h : m.Inv) {f : Component → Component} (hid : ∀ z, (f z).id = z.id)
    (hkind : ∀ z, (f z).kind = z.kind) : { m with catalog := m.catalog.update id f }.Inv := by
  have hk : (m.catalog.update id f).kindOf? = m.catalog.kindOf? := Catalog.kindOf?_update hid hkind
  refine h.extend (fun y k hy => by rw [hk]; exact hy) fun y k hy hm => ?_
  rw [hk, hm] at hy
  cases hy

/-- Dropping a component with every edge and the mesh it has keeps the
agreement, whatever its kind. -/
theorem Inv.drop (h : m.Inv) (id : Uuid) :
    { m with membership := (m.membership.removeNode id).2
             boundaries := (m.boundaries.removeNode id).2
             internals := (m.internals.removeNode id).2
             meshes := m.meshes.erase id
             catalog := m.catalog.without id }.Inv where
  supported y k hy hk := by
    rw [Catalog.kindOf?_without] at hy
    split at hy
    · cases hy
    · exact h.supported y k hy hk
  membership := (h.membership.removeNode id).mono fun _ _ ⟨hg, ha, hb⟩ => hg.without ha hb
  boundaries := (h.boundaries.removeNode id).mono fun _ _ ⟨hcf, ha, hb⟩ => hcf.without ha hb
  internals := (h.internals.removeNode id).mono fun _ _ ⟨hcf, ha, hb⟩ => hcf.without ha hb
  exclusive c f hb := by
    cases hi : (m.internals.removeNode id).2.hasEdge c f
    · rfl
    · have := h.exclusive c f (h.boundaries.hasEdge_removeNode hb)
      rw [h.internals.hasEdge_removeNode hi] at this
      cases this
  keys_nodup := MeshTable.nodup_keys_erase h.keys_nodup
  mesh_kind p hp := by
    obtain ⟨hp, hne⟩ := MeshTable.mem_erase.1 hp
    rw [Catalog.kindOf?_without, if_neg hne]
    exact h.mesh_kind p hp
  meshed y k hy hk := by
    rw [Catalog.kindOf?_without] at hy
    split at hy
    · cases hy
    · next hne => exact MeshTable.mem_keys_erase.2 ⟨h.meshed y k hy hk, hne⟩

/-- Dropping a collection with its memberships keeps the agreement: no
other store mentions a collection. -/
theorem Inv.dropCollection (h : m.Inv) (hk : m.catalog.kindOf? id = some k)
    (hc : k.isItem = false) :
    { m with membership := (m.membership.removeNode id).2
             catalog := m.catalog.without id }.Inv := by
  have hcell : ∀ a, m.catalog.kindOf? a = some (cellKind m.dim) → a ≠ id := fun a ha =>
    ne_of_kindOf? ha hk (by rw [cellKind_isItem, hc]; decide)
  have hfacet : ∀ a, m.catalog.kindOf? a = some (facetKind m.dim) → a ≠ id := fun a ha =>
    ne_of_kindOf? ha hk (by rw [facetKind_isItem, hc]; decide)
  exact {
    supported := fun y k hy hk => by
      rw [Catalog.kindOf?_without] at hy
      split at hy
      · cases hy
      · exact h.supported y k hy hk
    membership := (h.membership.removeNode id).mono fun _ _ ⟨hg, ha, hb⟩ => hg.without ha hb
    boundaries := h.boundaries.mono fun a b hab => hab.without (hcell a hab.1) (hfacet b hab.2)
    internals := h.internals.mono fun a b hab => hab.without (hcell a hab.1) (hfacet b hab.2)
    exclusive := h.exclusive
    keys_nodup := h.keys_nodup
    mesh_kind := fun p hp => by
      have hp' := h.mesh_kind p hp
      rw [Catalog.kindOf?_without, if_neg (ne_of_kindOf? hp' hk (by rw [itemKindOf_isItem, hc]; decide))]
      exact hp'
    meshed := fun y k hy hk => by
      rw [Catalog.kindOf?_without] at hy
      split at hy
      · cases hy
      · exact h.meshed y k hy hk }

theorem Inv.registerItem (h : m.Inv) {x : SimplexMesh} (hfresh : m.catalog.contains id = false)
    (hs : supportsItemKind m.dim (itemKindOf x.kind) = true) :
    { m with catalog := m.catalog.register (Component.new id (itemKindOf x.kind))
             meshes := m.meshes.put id x }.Inv := by
  have hfresh' : m.catalog.contains (Component.new id (itemKindOf x.kind)).id = false := hfresh
  have hext := Catalog.extends_register hfresh'
  have hkind : (m.catalog.register (Component.new id (itemKindOf x.kind))).kindOf? id =
      some (itemKindOf x.kind) :=
    (Catalog.kindOf?_register hfresh').trans (if_pos rfl)
  -- a new identifier has no mesh yet
  have hkey : id ∉ m.meshes.keys := by
    intro hk
    obtain ⟨p, hp, rfl⟩ := List.mem_map.1 hk
    rw [Catalog.contains_of_kindOf? (h.mesh_kind p hp)] at hfresh
    cases hfresh
  exact {
    supported := fun y k hy hk => by
      rw [Catalog.kindOf?_register hfresh'] at hy
      split at hy
      · rw [← Option.some_inj.1 hy]
        exact hs
      · exact h.supported y k hy hk
    membership := h.membership.mono fun _ _ hg => hg.extend hext
    boundaries := h.boundaries.mono fun _ _ hb => hb.extend hext
    internals := h.internals.mono fun _ _ hb => hb.extend hext
    exclusive := h.exclusive
    keys_nodup := MeshTable.nodup_keys_put h.keys_nodup
    mesh_kind := fun p hp => by
      rcases MeshTable.mem_put hp with rfl | ⟨hp, -⟩
      · exact hkind
      · exact hext _ _ (h.mesh_kind p hp)
    meshed := fun y k hy hk => by
      rw [Catalog.kindOf?_register hfresh'] at hy
      split at hy
      · next hy' => exact MeshTable.mem_keys_put.2 (.inl hy')
      · exact MeshTable.mem_keys_put.2 (.inr (h.meshed y k hy hk)) }

theorem Inv.putMesh (h : m.Inv) {x : SimplexMesh}
    (hk : m.catalog.kindOf? id = some (itemKindOf x.kind)) :
    { m with meshes := m.meshes.put id x }.Inv := by
  refine ⟨h.supported, h.membership, h.boundaries, h.internals, h.exclusive,
    MeshTable.nodup_keys_put h.keys_nodup, fun p hp => ?_,
    fun y k hy hk => MeshTable.mem_keys_put.2 (.inr (h.meshed y k hy hk))⟩
  rcases MeshTable.mem_put hp with rfl | ⟨hp, -⟩
  · exact hk
  · exact h.mesh_kind p hp

/-- Replacing the meshes by ones of the same items and shapes keeps the
agreement. -/
theorem Inv.withMeshes (h : m.Inv) {t : MeshTable} (hkeys : t.keys = m.meshes.keys)
    (hkind : ∀ q ∈ t, ∃ p ∈ m.meshes, p.1 = q.1 ∧ p.2.kind = q.2.kind) :
    { m with meshes := t }.Inv := by
  refine ⟨h.supported, h.membership, h.boundaries, h.internals, h.exclusive,
    hkeys ▸ h.keys_nodup, fun q hq => ?_, fun y k hy hk => hkeys ▸ h.meshed y k hy hk⟩
  obtain ⟨p, hp, h1, h2⟩ := hkind q hq
  rw [← h1, ← h2]
  exact h.mesh_kind p hp

theorem Inv.addMembership (h : m.Inv) {c i : Uuid} (hg : m.catalog.Gathers m.dim c i) :
    { m with membership := (m.membership.addEdge c i).2 }.Inv :=
  ⟨h.supported, h.membership.addEdge hg, h.boundaries, h.internals, h.exclusive, h.keys_nodup,
    h.mesh_kind, h.meshed⟩

theorem Inv.removeMembership (h : m.Inv) (c i : Uuid) :
    { m with membership := (m.membership.removeEdge c i).2 }.Inv :=
  ⟨h.supported, h.membership.removeEdge c i, h.boundaries, h.internals, h.exclusive,
    h.keys_nodup, h.mesh_kind, h.meshed⟩

theorem Inv.addBoundaryEdge (h : m.Inv) {c f : Uuid} (hcf : m.catalog.CellFacet m.dim c f)
    (hi : m.internals.hasEdge c f = false) :
    { m with boundaries := (m.boundaries.addEdge c f).2 }.Inv := by
  refine ⟨h.supported, h.membership, h.boundaries.addEdge hcf, h.internals, fun x y hxy => ?_,
    h.keys_nodup, h.mesh_kind, h.meshed⟩
  rcases h.boundaries.hasEdge_addEdge hxy with hxy | ⟨rfl, rfl⟩
  · exact h.exclusive x y hxy
  · exact hi

theorem Inv.addInternalEdge (h : m.Inv) {c f : Uuid} (hcf : m.catalog.CellFacet m.dim c f)
    (hb : m.boundaries.hasEdge c f = false) :
    { m with internals := (m.internals.addEdge c f).2 }.Inv := by
  refine ⟨h.supported, h.membership, h.boundaries, h.internals.addEdge hcf, fun x y hxy => ?_,
    h.keys_nodup, h.mesh_kind, h.meshed⟩
  cases hi : (m.internals.addEdge c f).2.hasEdge x y
  · rfl
  · rcases h.internals.hasEdge_addEdge hi with hi | ⟨rfl, rfl⟩
    · rw [h.exclusive x y hxy] at hi
      cases hi
    · rw [hb] at hxy
      cases hxy

theorem Inv.removeBoundaryEdge (h : m.Inv) (c f : Uuid) :
    { m with boundaries := (m.boundaries.removeEdge c f).2 }.Inv :=
  ⟨h.supported, h.membership, h.boundaries.removeEdge c f, h.internals,
    fun x y hxy => h.exclusive x y (h.boundaries.hasEdge_removeEdge hxy), h.keys_nodup,
    h.mesh_kind, h.meshed⟩

theorem Inv.removeInternalEdge (h : m.Inv) (c f : Uuid) :
    { m with internals := (m.internals.removeEdge c f).2 }.Inv := by
  refine ⟨h.supported, h.membership, h.boundaries, h.internals.removeEdge c f, fun x y hxy => ?_,
    h.keys_nodup, h.mesh_kind, h.meshed⟩
  cases hi : (m.internals.removeEdge c f).2.hasEdge x y
  · rfl
  · have hex := h.exclusive x y hxy
    rw [h.internals.hasEdge_removeEdge hi] at hex
    cases hex

/-! ## The edits -/

theorem mesh_eq_ok {x : SimplexMesh} : m.mesh id = .ok x ↔ m.meshes.get? id = some x := by
  unfold mesh
  cases m.meshes.get? id with
  | none => simp
  | some z => simp

theorem Inv.addCollection (h : m.Inv) (hk : k.isCollection = true)
    (hfresh : m.catalog.contains id = false) : (m.addCollection k id).Inv := by
  refine h.register (x := Component.new id k) ?_ hfresh
  show (!k.isCollection) = false
  rw [hk]
  rfl

theorem Inv.addCollectionWithId (h : m.Inv) (hk : k.isCollection = true)
    (hs : m.addCollectionWithId k id = .ok m') : m'.Inv := by
  obtain ⟨c, hc, hs⟩ := except_bind_eq_ok.1 hs
  obtain ⟨hfresh, rfl⟩ := Catalog.insert_eq_ok hc
  obtain rfl := except_pure_eq_ok.1 hs
  exact h.addCollection hk hfresh

theorem Inv.setName (h : m.Inv) {locked : Bool} {name : String}
    (hs : m.setName locked id k name = .ok m') : m'.Inv := by
  obtain ⟨-, -, hs⟩ := except_bind_eq_ok.1 hs
  obtain ⟨c, hc, hs⟩ := except_bind_eq_ok.1 hs
  obtain ⟨-, rfl⟩ := Catalog.setName_eq_ok hc
  obtain rfl := except_pure_eq_ok.1 hs
  exact h.update (fun _ => rfl) fun _ => rfl

theorem Inv.setFaultType (h : m.Inv) {t : FaultType} (hs : m.setFaultType id t = .ok m') :
    m'.Inv := by
  obtain ⟨c, hc, hs⟩ := except_bind_eq_ok.1 hs
  obtain ⟨-, rfl⟩ := Catalog.setType_eq_ok hc
  obtain rfl := except_pure_eq_ok.1 hs
  exact h.update (fun _ => rfl) fun _ => rfl

theorem Inv.setHorizonType (h : m.Inv) {locked : Bool} {t : HorizonType}
    (hs : m.setHorizonType locked id t = .ok m') : m'.Inv := by
  obtain ⟨-, -, hs⟩ := except_bind_eq_ok.1 hs
  obtain ⟨c, hc, hs⟩ := except_bind_eq_ok.1 hs
  obtain ⟨-, rfl⟩ := Catalog.setType_eq_ok hc
  obtain rfl := except_pure_eq_ok.1 hs
  exact h.update (fun _ => rfl) fun _ => rfl

/-- Run as a whole, the builder's removal of a collection checks the
component and the lock, then drops the memberships and unregisters it. -/
theorem removeCollection_eq (m : Model) (locked : Bool) (id : Uuid) (kind : ComponentKind) :
    m.removeCollection locked id kind = (do
      let _ ← m.catalog.getOfKind id kind
      checkUnlocked locked id kind
      let membership := (m.membership.removeNode id).2
      let (_, catalog) ← m.catalog.remove id kind
      pure { m with membership := membership, catalog := catalog }) := by
  unfold removeCollection Builder.removeCollection
  simp only [InPlace.commit_get_bind, InPlace.commit_lift_bind, InPlace.commit_modify_bind,
    InPlace.commit_modify]
  rfl

/-- Run as a whole, the builder's removal of an item checks the component,
then unregisters it and drops its relations and mesh: the catalog is not
among the stores written before it. -/
theorem removeItem_eq (m : Model) (id : Uuid) (kind : ComponentKind) :
    m.removeItem id kind = (do
      let _ ← m.catalog.getOfKind id kind
      let (_, catalog) ← m.catalog.remove id kind
      pure { m with
        membership := (m.membership.removeNode id).2
        boundaries := (m.boundaries.removeNode id).2
        internals := (m.internals.removeNode id).2
        meshes := m.meshes.erase id
        catalog := catalog }) := by
  unfold removeItem Builder.removeItem
  simp only [InPlace.commit_get_bind, InPlace.commit_lift_bind, InPlace.commit_modify_bind,
    InPlace.commit_modify]
  rfl

/-- Run as a whole, adding a collection with a type registers it and sets
the type in the catalog. -/
theorem addWithType_eq (m : Model) (id : Uuid) (t : ComponentType) :
    m.addWithType id t = (do
      let m := m.addCollection t.kind id
      pure { m with catalog := ← m.catalog.setType id t }) := by
  unfold addWithType Builder.addWithType
  simp only [InPlace.commit_modify_bind, InPlace.commit_apply]

theorem removeCollection_eq_ok {locked : Bool} (hs : m.removeCollection locked id k = .ok m') :
    m.catalog.kindOf? id = some k ∧
      m' = { m with membership := (m.membership.removeNode id).2
                    catalog := m.catalog.without id } := by
  rw [removeCollection_eq] at hs
  obtain ⟨-, -, hs⟩ := except_bind_eq_ok.1 hs
  obtain ⟨-, -, hs⟩ := except_bind_eq_ok.1 hs
  obtain ⟨⟨z, c⟩, hr, hs⟩ := except_bind_eq_ok.1 hs
  obtain ⟨hk, rfl⟩ := Catalog.remove_eq_ok hr
  dsimp only at hs
  exact ⟨hk, (except_pure_eq_ok.1 hs).symm⟩

theorem Inv.removeCollection (h : m.Inv) {locked : Bool} (hk : k.isCollection = true)
    (hs : m.removeCollection locked id k = .ok m') : m'.Inv := by
  obtain ⟨hkind, rfl⟩ := removeCollection_eq_ok hs
  refine h.dropCollection hkind ?_
  show (!k.isCollection) = false
  rw [hk]
  rfl

theorem Inv.removeItem (h : m.Inv) (hs : m.removeItem id k = .ok m') : m'.Inv := by
  rw [removeItem_eq] at hs
  obtain ⟨-, -, hs⟩ := except_bind_eq_ok.1 hs
  obtain ⟨⟨z, c⟩, hr, hs⟩ := except_bind_eq_ok.1 hs
  obtain ⟨-, rfl⟩ := Catalog.remove_eq_ok hr
  dsimp only at hs
  obtain rfl := except_pure_eq_ok.1 hs
  exact h.drop id

theorem Inv.removeComponent (h : m.Inv) {locked : Bool}
    (hs : m.removeComponent locked id k = .ok m') : m'.Inv := by
  unfold Model.removeComponent at hs
  split at hs
  · next hk => exact h.removeCollection hk hs
  · exact h.removeItem hs

/-- What a successful `addItem` did: the kind is supported, an identifier
that is not fresh by promise was checked, and the item is registered with
its mesh. -/
theorem addItem_eq_ok {fresh : Bool} {mesh : SimplexMesh}
    (hs : m.addItem k id fresh mesh = .ok m') :
    supportsItemKind m.dim k = true ∧ (fresh = false → m.catalog.contains id = false) ∧
      m' = { m with catalog := m.catalog.register (Component.new id k)
                    meshes := m.meshes.put id mesh } := by
  unfold Model.addItem at hs
  dsimp only at hs
  split at hs
  · next hsup =>
    split at hs
    · next hf =>
      obtain ⟨c, hc, hs⟩ := except_bind_eq_ok.1 hs
      obtain rfl := except_pure_eq_ok.1 hc
      obtain rfl := except_pure_eq_ok.1 hs
      refine ⟨hsup, fun hf' => ?_, rfl⟩
      rw [hf'] at hf
      cases hf
    · obtain ⟨c, hc, hs⟩ := except_bind_eq_ok.1 hs
      obtain ⟨hfresh, rfl⟩ := Catalog.insert_eq_ok hc
      obtain rfl := except_pure_eq_ok.1 hs
      exact ⟨hsup, fun _ => hfresh, rfl⟩
  · simp at hs

/-- An item added with a mesh of its shape, under an identifier that is
fresh by promise or checked, keeps the agreement. -/
theorem Inv.addItem (h : m.Inv) {fresh : Bool} {mesh : SimplexMesh}
    (hk : itemKindOf mesh.kind = k) (hfresh : fresh = true → m.catalog.contains id = false)
    (hs : m.addItem k id fresh mesh = .ok m') : m'.Inv := by
  obtain ⟨hsup, hnew, rfl⟩ := addItem_eq_ok hs
  subst hk
  have hc : m.catalog.contains id = false := by
    cases fresh with
    | false => exact hnew rfl
    | true => exact hfresh rfl
  exact h.registerItem hc hsup

/-- What a successful `setItemMesh` did: the item has the kind of the mesh's
shape, and the mesh is written. -/
theorem setItemMesh_eq_ok {mesh : SimplexMesh} (hs : m.setItemMesh id mesh = .ok m') :
    m.catalog.kindOf? id = some (itemKindOf mesh.kind) ∧
      m' = { m with meshes := m.meshes.put id mesh } := by
  obtain ⟨c, hc, hs⟩ := except_bind_eq_ok.1 hs
  dsimp only at hs
  split at hs
  · simp at hs
  · next hkind =>
    obtain rfl := except_pure_eq_ok.1 hs
    refine ⟨?_, rfl⟩
    rw [Catalog.kindOf?_of_get hc, not_not.1 hkind]

theorem Inv.setItemMesh (h : m.Inv) {mesh : SimplexMesh} (hs : m.setItemMesh id mesh = .ok m') :
    m'.Inv := by
  obtain ⟨hk, rfl⟩ := setItemMesh_eq_ok hs
  exact h.putMesh hk

/-- What a successful `editAttributes` did: the item had a mesh, and the mesh
is written back with its attributes edited. -/
theorem editAttributes_eq_ok {α : Type} {f : VertexAttributes → Except Error (α × VertexAttributes)}
    {a : α} (hs : m.editAttributes id f = .ok (a, m')) :
    ∃ x va, m.meshes.get? id = some x ∧
      m' = { m with meshes := m.meshes.put id { x with attributes := va } } := by
  obtain ⟨x, hx, hs⟩ := except_bind_eq_ok.1 hs
  obtain ⟨⟨b, va⟩, -, hs⟩ := except_bind_eq_ok.1 hs
  dsimp only at hs
  obtain ⟨-, rfl⟩ := Prod.mk.inj (except_pure_eq_ok.1 hs)
  exact ⟨x, va, mesh_eq_ok.1 hx, rfl⟩

theorem Inv.editAttributes (h : m.Inv) {α : Type}
    {f : VertexAttributes → Except Error (α × VertexAttributes)} {a : α}
    (hs : m.editAttributes id f = .ok (a, m')) : m'.Inv := by
  obtain ⟨x, va, hx, rfl⟩ := editAttributes_eq_ok hs
  exact h.putMesh (h.mesh_kind _ (MeshTable.mem_of_get? hx))

theorem Inv.addItemInCollection (h : m.Inv) {item collection : Uuid}
    (hs : m.addItemInCollection item collection = .ok m') : m'.Inv := by
  obtain ⟨ci, hci, hs⟩ := except_bind_eq_ok.1 hs
  obtain ⟨cc, hcc, hs⟩ := except_bind_eq_ok.1 hs
  dsimp only at hs
  split at hs
  · simp at hs
  · next expected hg =>
    split at hs
    · simp at hs
    · next hne =>
      obtain rfl := except_pure_eq_ok.1 hs
      refine h.addMembership ⟨cc.kind, ci.kind, Catalog.kindOf?_of_get hcc,
        Catalog.kindOf?_of_get hci, ?_⟩
      rw [hg, not_not.1 hne]

theorem Inv.removeItemFromCollection (h : m.Inv) (item collection : Uuid) :
    (m.removeItemFromCollection item collection).2.Inv :=
  h.removeMembership collection item

theorem Inv.addTyped (h : m.Inv) {item collection : Uuid} {ki kc : ComponentKind}
    (hs : m.addTyped item ki collection kc = .ok m') : m'.Inv := by
  obtain ⟨-, -, hs⟩ := except_bind_eq_ok.1 hs
  obtain ⟨-, -, hs⟩ := except_bind_eq_ok.1 hs
  exact h.addItemInCollection hs

theorem checkFacetOfCell_eq_ok {facet cell : Uuid} {u : Unit}
    (h : m.checkFacetOfCell facet cell = .ok u) : m.catalog.CellFacet m.dim cell facet := by
  obtain ⟨x, hx, h⟩ := except_bind_eq_ok.1 h
  obtain ⟨y, hy, -⟩ := except_bind_eq_ok.1 h
  exact ⟨Catalog.kindOf?_of_getOfKind hy, Catalog.kindOf?_of_getOfKind hx⟩

/-- What a successful `addBoundary` did: a facet that does not lie inside the
cell now bounds it. -/
theorem addBoundary_eq_ok {boundary incident : Uuid} (hs : m.addBoundary boundary incident = .ok m') :
    m.catalog.CellFacet m.dim incident boundary ∧ m.internals.hasEdge incident boundary = false ∧
      m' = { m with boundaries := (m.boundaries.addEdge incident boundary).2 } := by
  obtain ⟨u, hu, hs⟩ := except_bind_eq_ok.1 hs
  dsimp only at hs
  split at hs
  · simp at hs
  · next hi =>
    obtain rfl := except_pure_eq_ok.1 hs
    exact ⟨checkFacetOfCell_eq_ok hu, by simpa using hi, rfl⟩

/-- What a successful `addInternal` did: a facet that does not bound the cell
now lies inside it. -/
theorem addInternal_eq_ok {internal embedding : Uuid}
    (hs : m.addInternal internal embedding = .ok m') :
    m.catalog.CellFacet m.dim embedding internal ∧ m.boundaries.hasEdge embedding internal = false ∧
      m' = { m with internals := (m.internals.addEdge embedding internal).2 } := by
  obtain ⟨u, hu, hs⟩ := except_bind_eq_ok.1 hs
  dsimp only at hs
  split at hs
  · simp at hs
  · next hb =>
    obtain rfl := except_pure_eq_ok.1 hs
    exact ⟨checkFacetOfCell_eq_ok hu, by simpa using hb, rfl⟩

theorem Inv.addBoundary (h : m.Inv) {boundary incident : Uuid}
    (hs : m.addBoundary boundary incident = .ok m') : m'.Inv := by
  obtain ⟨hcf, hi, rfl⟩ := addBoundary_eq_ok hs
  exact h.addBoundaryEdge hcf hi

theorem Inv.addInternal (h : m.Inv) {internal embedding : Uuid}
    (hs : m.addInternal internal embedding = .ok m') : m'.Inv := by
  obtain ⟨hcf, hb, rfl⟩ := addInternal_eq_ok hs
  exact h.addInternalEdge hcf hb

theorem Inv.removeBoundary (h : m.Inv) (boundary incident : Uuid) :
    (m.removeBoundary boundary incident).2.Inv :=
  h.removeBoundaryEdge incident boundary

theorem Inv.removeInternal (h : m.Inv) (internal embedding : Uuid) :
    (m.removeInternal internal embedding).2.Inv :=
  h.removeInternalEdge embedding internal

theorem copyInto_eq_ok {target source : Model} (hs : target.copyInto source = .ok m') :
    m' = { source with dim := target.dim } := by
  unfold Model.copyInto at hs
  split at hs
  · cases hs
  · cases hs
    rfl

theorem Inv.copyInto {target source : Model} (hsrc : source.Inv) (hdim : source.dim = target.dim)
    (hs : target.copyInto source = .ok m') : m'.Inv := by
  rw [copyInto_eq_ok hs, ← hdim]
  exact hsrc

theorem Inv.setCrs (h : m.Inv) (crs : CrsInfo) : (m.setCrs crs).Inv := h.withCrs _

theorem Inv.convertCrs (h : m.Inv) {transform : CoordinateTransform} {target : CrsInfo}
    (hs : m.convertCrs transform target = .ok m') : m'.Inv := by
  unfold Model.convertCrs at hs
  split at hs
  · obtain ⟨t, ht, rfl⟩ := except_map_eq_ok.1 hs
    obtain ⟨hkeys, hkind⟩ := MeshTable.mapM_eq_ok (fun p q hq => by
      obtain ⟨cs, -, rfl⟩ := except_map_eq_ok.1 hq
      exact ⟨rfl, rfl⟩) ht
    exact (h.withMeshes hkeys hkind).withCrs _
  · simp at hs

/-! ## What the agreement says -/

theorem Inv.collection_item (h : m.Inv) {c i : Uuid} (he : m.isItemInCollection i c = true) :
    ∃ cc ci, m.component c = .ok cc ∧ m.component i = .ok ci ∧
      gatheredKind m.dim cc.kind = some ci.kind := by
  obtain ⟨kc, ki, hc, hi, hg⟩ := h.membership.of_hasEdge he
  obtain ⟨cc, hcc, rfl⟩ := Catalog.get_of_kindOf? hc
  obtain ⟨ci, hci, rfl⟩ := Catalog.get_of_kindOf? hi
  exact ⟨cc, ci, hcc, hci, hg⟩

theorem Inv.cell_facet (h : m.Inv) {c f : Uuid}
    (he : m.isBoundary f c = true ∨ m.isInternal f c = true) :
    ∃ cc cf, m.component c = .ok cc ∧ m.component f = .ok cf ∧
      cc.kind = cellKind m.dim ∧ cf.kind = facetKind m.dim := by
  have hcf : m.catalog.CellFacet m.dim c f := by
    rcases he with he | he
    · exact h.boundaries.of_hasEdge he
    · exact h.internals.of_hasEdge he
  obtain ⟨cc, hcc, hkc⟩ := Catalog.get_of_kindOf? hcf.1
  obtain ⟨cf, hcf', hkf⟩ := Catalog.get_of_kindOf? hcf.2
  exact ⟨cc, cf, hcc, hcf', hkc, hkf⟩

theorem Inv.not_boundary_and_internal (h : m.Inv) (c f : Uuid) :
    ¬(m.isBoundary f c = true ∧ m.isInternal f c = true) := by
  rintro ⟨hb, hi⟩
  have hfalse : m.internals.hasEdge c f = false := h.exclusive c f hb
  exact absurd hi (by rw [isInternal, hfalse]; decide)

theorem Inv.mem_keys_iff (h : m.Inv) :
    id ∈ m.meshes.map (·.1) ↔ ∃ c, m.component id = .ok c ∧ c.kind.isItem = true := by
  constructor
  · intro hk
    obtain ⟨p, hp, rfl⟩ := List.mem_map.1 hk
    obtain ⟨c, hc, hkind⟩ := Catalog.get_of_kindOf? (h.mesh_kind p hp)
    exact ⟨c, hc, hkind ▸ itemKindOf_isItem _⟩
  · rintro ⟨c, hc, hi⟩
    exact h.meshed id c.kind (Catalog.kindOf?_of_get hc) hi

theorem Inv.mesh_item (h : m.Inv) {x : SimplexMesh} (hx : m.mesh id = .ok x) :
    ∃ c, m.component id = .ok c ∧ c.kind = itemKindOf x.kind :=
  Catalog.get_of_kindOf? (h.mesh_kind _ (MeshTable.mem_of_get? (mesh_eq_ok.1 hx)))

theorem Inv.item_supported (h : m.Inv) {c : Component} (hc : m.component id = .ok c)
    (hi : c.kind.isItem = true) : supportsItemKind m.dim c.kind = true :=
  h.supported id c.kind (Catalog.kindOf?_of_get hc) hi

theorem Inv.registered (h : m.Inv) {p c : Uuid}
    (he : m.membership.hasEdge p c = true ∨ m.boundaries.hasEdge p c = true ∨
      m.internals.hasEdge p c = true) :
    m.hasComponent p = true ∧ m.hasComponent c = true := by
  rcases he with he | he | he
  · obtain ⟨kp, kc, hp, hc, -⟩ := h.membership.of_hasEdge he
    exact ⟨Catalog.contains_of_kindOf? hp, Catalog.contains_of_kindOf? hc⟩
  · have hcf := h.boundaries.of_hasEdge he
    exact ⟨Catalog.contains_of_kindOf? hcf.1, Catalog.contains_of_kindOf? hcf.2⟩
  · have hcf := h.internals.of_hasEdge he
    exact ⟨Catalog.contains_of_kindOf? hcf.1, Catalog.contains_of_kindOf? hcf.2⟩

end Model

end Subsurface
