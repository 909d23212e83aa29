import Mathlib
import Subsurface.Proofs.Stack.Distinct
/-!
Every catalog the calls reach keeps its lookups, listings and counts in step.

A catalog is reached from the empty one by its calls (`Catalog.Step`):
creating a component under a fresh identifier or under a given one,
inserting a component, renaming, retyping and removing. A call that fails
hands back no catalog, so the catalog it was made on stays; such a call is a
step that changes nothing.

Two facts carry every reachable catalog (`Catalog.WellFormed`): no two
components share an identifier, and every type a component carries belongs
to its kind and is never `NoType`. From them follow the agreement of the
lookups with the listings by kind, the counts, and the full listing, which
lists every component once, kind by kind (`WellFormed.consistent`).

What one call changes is said apart (`Catalog.Transition`): no component
changes kind, and the listing of each kind keeps the identifiers that stay,
in their order, with the newly registered ones after them. Removing a
component makes its identifier unknown to every query (`remove_unknown`).
-/

namespace Subsurface

namespace ComponentType

theorem eq_of_normalized {t t' : ComponentType} (h : t.normalized = some t') : t' = t := by
  cases t with
  | fault f => cases f <;> simp_all [normalized]
  | horizon g => cases g <;> simp_all [normalized]

end ComponentType

namespace Component

variable {x : Component} {id : Uuid} {k : ComponentKind} {t : ComponentType}

/-- The type of the component belongs to its kind and is never `NoType`. -/
def TypeFits (x : Component) : Prop :=
  ∀ t, x.type = some t → t.kind = x.kind ∧ t.normalized = some t

theorem typeFits_new : (Component.new id k).TypeFits := by
  intro t ht
  cases ht

theorem TypeFits.rename (h : x.TypeFits) (n : String) : (x.rename n).TypeFits := h

theorem typeFits_retype (hk : t.kind = x.kind) : (x.retype t).TypeFits := by
  intro t' ht'
  have hn : t.normalized = some t' := ht'
  obtain rfl := ComponentType.eq_of_normalized hn
  exact ⟨hk, hn⟩

end Component

namespace Catalog

variable {c c' : Catalog} {x : Component} {id y : Uuid} {k : ComponentKind}

/-! ## Calls -/

/-- The catalog a call leaves: its result when it succeeds, the catalog it
was made on when it fails. -/
def after (c : Catalog) : Except Error Catalog → Catalog
  | .ok c' => c'
  | .error _ => c

/-- One call on a catalog. Creating draws identifiers until one is free, so
it registers under an identifier the catalog does not hold. A component
handed to `insert` is a new one or one read out of a catalog, so its type
fits its kind. -/
inductive Step : Catalog → Catalog → Prop
  | create {c : Catalog} (k : ComponentKind) (id : Uuid) (hfresh : c.contains id = false) :
      Step c (c.register (.new id k))
  | createWithId {c : Catalog} (k : ComponentKind) (id : Uuid) :
      Step c (c.after (c.createWithId k id))
  | insert {c : Catalog} (x : Component) (hx : x.TypeFits) : Step c (c.after (c.insert x))
  | setName {c : Catalog} (id : Uuid) (k : ComponentKind) (name : String) :
      Step c (c.after (c.setName id k name))
  | setType {c : Catalog} (id : Uuid) (t : ComponentType) : Step c (c.after (c.setType id t))
  | remove {c : Catalog} (id : Uuid) (k : ComponentKind) :
      Step c (c.after ((c.remove id k).map Prod.snd))

/-- Catalogs reached from the empty one by calls. -/
def Reachable (c : Catalog) : Prop := Relation.ReflTransGen Step empty c

theorem remove_snd_eq_ok (h : (c.remove id k).map Prod.snd = .ok c') :
    c.kindOf? id = some k ∧ c' = c.without id := by
  obtain ⟨p, hp, rfl⟩ := except_map_eq_ok.1 h
  exact remove_eq_ok hp

/-! ## Listings by kind -/

theorem mem_ids : y ∈ c.ids k ↔ ∃ x ∈ c.components, x.kind = k ∧ x.id = y := by
  simp [ids, ofKind, and_assoc]

theorem contains_of_mem_ids (h : y ∈ c.ids k) : c.contains y = true := by
  obtain ⟨x, hx, -, rfl⟩ := mem_ids.1 h
  exact contains_of_mem hx

theorem contains_iff_get : c.contains y = true ↔ ∃ x, c.get y = .ok x := by
  rw [contains_eq_isSome]
  cases hg : c.get? y with
  | none => simp [get, hg]
  | some x => simp [get, hg]

theorem count_eq_length_ids : c.count k = (c.ids k).length := by
  simp [count, ids]

theorem size_eq_sum_count (c : Catalog) : c.size = (ComponentKind.all.map c.count).sum := by
  rw [size, ← (perm_all c).length_eq, all, List.length_flatMap]
  rfl

theorem ids_register : (c.register x).ids k = c.ids k ++ if x.kind = k then [x.id] else [] := by
  by_cases hk : x.kind = k <;> simp [ids, ofKind, register, hk]

theorem ids_without : (c.without id).ids k = (c.ids k).filter (· != id) := by
  simp only [ids, ofKind, without, List.filter_map, List.filter_filter]
  congr 2
  funext z
  exact Bool.and_comm _ _

theorem filter_contains_ids (hc : ∀ y, c.contains y = true → c'.contains y = true) :
    (c.ids k).filter c'.contains = c.ids k :=
  List.filter_eq_self.2 fun _ hy => hc _ (contains_of_mem_ids hy)

/-! ## What distinct identifiers give -/

namespace Distinct

variable (h : c.Distinct)
include h

theorem mem_ids_iff : y ∈ c.ids k ↔ ∃ x, c.get y = .ok x ∧ x.kind = k := by
  constructor
  · intro hy
    obtain ⟨x, hx, hk, rfl⟩ := mem_ids.1 hy
    exact ⟨x, by simp [get, h.get?_of_mem hx], hk⟩
  · rintro ⟨x, hg, hk⟩
    obtain ⟨hx, rfl⟩ := get?_eq_some (get?_of_get hg)
    exact mem_ids.2 ⟨x, hx, hk, rfl⟩

theorem ids_nodup (k : ComponentKind) : (c.ids k).Nodup :=
  h.sublist (List.filter_sublist.map _)

theorem ofKind_eq_filterMap : c.ofKind k = (c.ids k).filterMap c.get? := by
  rw [ids, List.filterMap_map]
  have hself : ∀ x ∈ c.ofKind k, (c.get? ∘ (·.id)) x = some x :=
    fun x hx => h.get?_of_mem (List.mem_filter.1 hx).1
  rw [List.filterMap_congr hself, List.filterMap_some]

theorem all_eq : c.all = ComponentKind.all.flatMap fun k => (c.ids k).filterMap c.get? := by
  unfold Catalog.all
  congr 1
  funext k
  exact h.ofKind_eq_filterMap

theorem mem_all_iff_get : x ∈ c.all ↔ c.get x.id = .ok x := by
  rw [mem_all_iff]
  constructor
  · intro hx
    simp [get, h.get?_of_mem hx]
  · intro hg
    exact (get?_eq_some (get?_of_get hg)).1

end Distinct

/-! ## Reachable catalogs -/

/-- Distinct identifiers, and types that fit their components. -/
structure WellFormed (c : Catalog) : Prop where
  distinct : c.Distinct
  typed : ∀ x ∈ c.components, x.TypeFits

/-- How the queries of a catalog agree with one another: a registered
identifier is one that a lookup finds and that the listing of its kind, and
no other, lists once; the counts are the lengths of the listings and add up
to the size; the full listing looks up the listings kind by kind and lists
every registered component once; and every type belongs to its component's
kind. -/
structure Consistent (c : Catalog) : Prop where
  contains_iff_get : ∀ y, c.contains y = true ↔ ∃ x, c.get y = .ok x
  mem_ids_iff : ∀ y k, y ∈ c.ids k ↔ ∃ x, c.get y = .ok x ∧ x.kind = k
  ids_nodup : ∀ k, (c.ids k).Nodup
  count_eq : ∀ k, c.count k = (c.ids k).length
  size_eq : c.size = (ComponentKind.all.map c.count).sum
  all_eq : c.all = ComponentKind.all.flatMap fun k => (c.ids k).filterMap c.get?
  all_nodup : (c.all.map (·.id)).Nodup
  mem_all_iff : ∀ x, x ∈ c.all ↔ c.get x.id = .ok x
  typed : ∀ y x, c.get y = .ok x → x.TypeFits

theorem WellFormed.consistent (h : c.WellFormed) : c.Consistent where
  contains_iff_get _ := contains_iff_get
  mem_ids_iff _ _ := h.distinct.mem_ids_iff
  ids_nodup := h.distinct.ids_nodup
  count_eq _ := count_eq_length_ids
  size_eq := size_eq_sum_count c
  all_eq := h.distinct.all_eq
  all_nodup := h.distinct.all
  mem_all_iff _ := h.distinct.mem_all_iff_get
  typed _ x hg := h.typed x (get?_eq_some (get?_of_get hg)).1

theorem wellFormed_empty : empty.WellFormed :=
  ⟨List.nodup_nil, fun _ hx => by cases hx⟩

theorem WellFormed.register (h : c.WellFormed) (hfresh : c.contains x.id = false)
    (hx : x.TypeFits) : (c.register x).WellFormed := by
  refine ⟨h.distinct.register hfresh, fun z hz => ?_⟩
  rcases List.mem_append.1 hz with hz | hz
  · exact h.typed z hz
  · rw [List.mem_singleton.1 hz]
    exact hx

theorem WellFormed.update (h : c.WellFormed) {f : Component → Component}
    (hid : ∀ z, (f z).id = z.id) (hf : ∀ z ∈ c.components, z.id = id → (f z).TypeFits) :
    (c.update id f).WellFormed := by
  refine ⟨h.distinct.update hid, fun z hz => ?_⟩
  obtain ⟨w, hw, rfl⟩ := List.mem_map.1 hz
  by_cases hwid : w.id = id
  · simpa [hwid] using hf w hw hwid
  · simpa [hwid] using h.typed w hw

theorem WellFormed.without (h : c.WellFormed) : (c.without id).WellFormed :=
  ⟨h.distinct.without, fun z hz => h.typed z (List.mem_filter.1 hz).1⟩

theorem WellFormed.after (h : c.WellFormed) {r : Except Error Catalog}
    (hok : ∀ c', r = .ok c' → c'.WellFormed) : (c.after r).WellFormed := by
  cases r with
  | error e => exact h
  | ok c' => exact hok c' rfl

theorem WellFormed.kind_eq_of_kindOf? (h : c.WellFormed) {t : ComponentType}
    (hk : c.kindOf? id = some t.kind) {z : Component} (hz : z ∈ c.components) (hzid : z.id = id) :
    t.kind = z.kind := by
  rw [← hzid, kindOf?, h.distinct.get?_of_mem hz] at hk
  exact (Option.some_inj.1 hk).symm

theorem WellFormed.step (h : c.WellFormed) (hs : Step c c') : c'.WellFormed := by
  cases hs with
  | create k id hfresh => exact h.register hfresh Component.typeFits_new
  | createWithId k id =>
    refine h.after fun c' hc => ?_
    obtain ⟨hfresh, rfl⟩ := insert_eq_ok hc
    exact h.register hfresh Component.typeFits_new
  | insert x hx =>
    refine h.after fun c' hc => ?_
    obtain ⟨hfresh, rfl⟩ := insert_eq_ok hc
    exact h.register hfresh hx
  | setName id k name =>
    refine h.after fun c' hc => ?_
    obtain ⟨-, rfl⟩ := setName_eq_ok hc
    exact h.update (fun z => z.id_rename _) fun z hz _ => (h.typed z hz).rename _
  | setType id t =>
    refine h.after fun c' hc => ?_
    obtain ⟨hk, rfl⟩ := setType_eq_ok hc
    exact h.update (fun z => z.id_retype _) fun z hz hzid =>
      Component.typeFits_retype (h.kind_eq_of_kindOf? hk hz hzid)
  | remove id k =>
    refine h.after fun c' hc => ?_
    obtain ⟨-, rfl⟩ := remove_snd_eq_ok hc
    exact h.without

theorem Reachable.wellFormed (h : c.Reachable) : c.WellFormed := by
  induction h with
  | refl => exact wellFormed_empty
  | tail _ hs ih => exact ih.step hs

/-! ## What one call changes -/

/-- No component changes kind, and the listing of each kind keeps the
identifiers that stay, in their order, followed by newly registered ones. -/
structure Transition (c c' : Catalog) : Prop where
  kind_kept : ∀ y k, c.kindOf? y = some k → c'.contains y = true → c'.kindOf? y = some k
  ids_order : ∀ k, ∃ new, c'.ids k = (c.ids k).filter c'.contains ++ new ∧
    ∀ y ∈ new, c.contains y = false

theorem Transition.refl (c : Catalog) : c.Transition c :=
  ⟨fun _ _ hk _ => hk, fun _ => ⟨[], by rw [filter_contains_ids fun _ hy => hy, List.append_nil],
    fun _ hy => by cases hy⟩⟩

theorem transition_register (hfresh : c.contains x.id = false) : c.Transition (c.register x) := by
  have hkept : ∀ y, c.contains y = true → (c.register x).contains y = true := fun y hy => by
    simp [contains_register, hy]
  refine ⟨fun y k hk _ => ?_, fun k => ⟨if x.kind = k then [x.id] else [], ?_, ?_⟩⟩
  · have hne : y ≠ x.id := by
      rintro rfl
      rw [contains_of_kindOf? hk] at hfresh
      cases hfresh
    rw [kindOf?_register hfresh, if_neg hne, hk]
  · rw [ids_register, filter_contains_ids hkept]
  · intro y hy
    split at hy
    · rw [List.mem_singleton.1 hy]
      exact hfresh
    · cases hy

theorem transition_update {f : Component → Component} (hid : ∀ z, (f z).id = z.id)
    (hkind : ∀ z, (f z).kind = z.kind) : c.Transition (c.update id f) := by
  refine ⟨fun y k hk _ => ?_, fun k => ⟨[], ?_, fun _ hy => by cases hy⟩⟩
  · rw [kindOf?_update hid hkind, hk]
  · rw [ids, ofKind_ids_update hid hkind, ← ids, contains_update hid,
      filter_contains_ids fun _ hy => hy, List.append_nil]

theorem transition_without : c.Transition (c.without id) := by
  refine ⟨fun y k hk hy => ?_, fun k => ⟨[], ?_, fun _ hy => by cases hy⟩⟩
  · have hne : y ≠ id := (by simpa [contains_without] using hy : y ≠ id ∧ _).1
    rw [kindOf?_without, if_neg hne, hk]
  · rw [ids_without, List.append_nil]
    refine List.filter_congr fun y hy => ?_
    simp [contains_without, contains_of_mem_ids hy]

theorem Transition.after {r : Except Error Catalog} (hok : ∀ c', r = .ok c' → c.Transition c') :
    c.Transition (c.after r) := by
  cases r with
  | error e => exact Transition.refl c
  | ok c' => exact hok c' rfl

theorem Step.transition (hs : Step c c') : c.Transition c' := by
  cases hs with
  | create k id hfresh => exact transition_register hfresh
  | createWithId k id =>
    refine Transition.after fun c' hc => ?_
    obtain ⟨hfresh, rfl⟩ := insert_eq_ok hc
    exact transition_register hfresh
  | insert x hx =>
    refine Transition.after fun c' hc => ?_
    obtain ⟨hfresh, rfl⟩ := insert_eq_ok hc
    exact transition_register hfresh
  | setName id k name =>
    refine Transition.after fun c' hc => ?_
    obtain ⟨-, rfl⟩ := setName_eq_ok hc
    exact transition_update (fun z => z.id_rename _) fun z => z.kind_rename _
  | setType id t =>
    refine Transition.after fun c' hc => ?_
    obtain ⟨-, rfl⟩ := setType_eq_ok hc
    exact transition_update (fun z => z.id_retype _) fun z => z.kind_retype _
  | remove id k =>
    refine Transition.after fun c' hc => ?_
    obtain ⟨-, rfl⟩ := remove_snd_eq_ok hc
    exact transition_without

theorem setType_get {t : ComponentType} (h : c.setType id t = .ok c') :
    ∃ x, c'.get id = .ok x ∧ x.kind = t.kind ∧ x.type = t.normalized := by
  obtain ⟨hk, rfl⟩ := setType_eq_ok h
  obtain ⟨w, hw, hwk⟩ := get_of_kindOf? hk
  have hw? := get?_of_get hw
  have hwid := (get?_eq_some hw?).2
  refine ⟨w.retype t, ?_, by simp [hwk], rfl⟩
  simp [get, get?_update fun z => z.id_retype t, hw?, hwid]

/-! ## Removing -/

/-- No query of the catalog answers with the identifier `id`. -/
structure Unknown (c : Catalog) (id : Uuid) : Prop where
  contains : c.contains id = false
  get : c.get id = .error (.component (.unknownId id))
  getOfKind : ∀ k, c.getOfKind id k = .error (.component (.notFound k id))
  ids : ∀ k, id ∉ c.ids k
  all : ∀ x ∈ c.all, x.id ≠ id
  findByName : ∀ k name, c.findByName k name ≠ some id

theorem unknown_of_contains (h : c.contains id = false) : c.Unknown id := by
  have hnone : c.get? id = none := by
    rw [contains_eq_isSome] at h
    exact Option.not_isSome_iff_eq_none.1 (by simp [h])
  have hnot : ∀ x ∈ c.components, x.id ≠ id := by
    rintro x hx rfl
    rw [contains_of_mem hx] at h
    cases h
  refine ⟨h, by simp [get, hnone], fun k => by simp [getOfKind, hnone], ?_, ?_, ?_⟩
  · intro k hk
    rw [contains_of_mem_ids hk] at h
    cases h
  · exact fun x hx => hnot x (mem_all hx)
  · intro k name hf
    obtain ⟨x, hx, hxid⟩ := Option.map_eq_some_iff.1 hf
    exact hnot x (List.mem_filter.1 (List.mem_of_find?_eq_some hx)).1 hxid

theorem remove_unknown {z : Component} (h : c.remove id k = .ok (z, c')) : c'.Unknown id := by
  obtain ⟨-, rfl⟩ := remove_eq_ok h
  exact unknown_of_contains (by simp [contains_without])

end Catalog

end Subsurface
