import Subsurface.Proofs.Stratigraphy.Reachable
import Subsurface.Proofs.Stack.Distinct
/-!
The stack of a stratigraphic model is mirrored in its geological model.

Horizons and units are registered twice: as nodes of the stack and as
components of the model. The stratigraphic edits keep the two in step, and
the model builder, locked, refuses the edits of horizons and units that
would undo it. So in every stratigraphic model the stratigraphic builder
reaches, every node of the stack is a component of the model with its
identifier and kind, and every isovalue belongs to a horizon of the stack
(`edited_stack_mirrored`).

Replacing the stack registers in the model only the nodes it lacks, and
keeps the model's name and type for the others. Names and types are then
mirrored too as long as each stack that replaced the stack carried, for each
node the model held, the model's name and type (`Edited` with its flag set);
a stack renamed on its own breaks that (`set_stack_keeps_model_name`).
-/

namespace Subsurface

namespace Catalog

variable {named : Bool} {c m m' : Catalog} {x : Component} {id y : Uuid}

/-! ## One catalog mirrored in another -/

/-- Every component of `c` is registered in `m` under its identifier, with
its kind and, when `named`, as the same record: same name and type. -/
def MirroredIn (named : Bool) (c m : Catalog) : Prop :=
  ∀ y x, c.get? y = some x → ∃ x', m.get? y = some x' ∧ x'.kind = x.kind ∧ (named = true → x' = x)

theorem without_of_contains (h : c.contains id = false) : c.without id = c := by
  cases c with
  | mk l =>
    unfold without
    congr 1
    refine List.filter_eq_self.2 fun x hx => ?_
    have hx := contains_of_mem (c := ⟨l⟩) hx
    simp only [bne_iff_ne, ne_eq]
    rintro rfl
    rw [hx] at h
    cases h

theorem setName_of_kindOf? {k : ComponentKind} {n : String} (hk : c.kindOf? id = some k) :
    c.setName id k n = .ok (c.update id (·.rename n)) := by
  obtain ⟨x, hx⟩ := getOfKind_of_kindOf? hk
  unfold setName
  rw [hx]
  rfl

theorem setType_of_kindOf? {t : ComponentType} (hk : c.kindOf? id = some t.kind) :
    c.setType id t = .ok (c.update id (·.retype t)) := by
  obtain ⟨x, hx⟩ := getOfKind_of_kindOf? hk
  unfold setType
  rw [hx]
  rfl

theorem get?_register_of_ne (hy : y ≠ x.id) : (c.register x).get? y = c.get? y := by
  unfold register get?
  rw [List.find?_append]
  cases c.components.find? (·.id == y) with
  | some z => rfl
  | none => simp [Ne.symm hy]

/-- Whether `m` registers every component of `c` it holds as the same
record. -/
def agrees (m c : Catalog) : Bool := c.components.all fun x => (m.get? x.id).all (· == x)

theorem agrees_iff : m.agrees c = true ↔ ∀ x ∈ c.components, ∀ x', m.get? x.id = some x' → x' = x := by
  simp only [agrees, List.all_eq_true]
  refine forall₂_congr fun x _ => ?_
  cases m.get? x.id <;> simp

theorem mirroredIn_of_nil (hc : c.components = []) : c.MirroredIn named m := by
  intro y x hx
  obtain ⟨hx, -⟩ := get?_eq_some hx
  rw [hc] at hx
  cases hx

theorem MirroredIn.mono (h : c.MirroredIn named m) {named' : Bool}
    (hb : named' = true → named = true) : c.MirroredIn named' m := fun y x hx =>
  let ⟨x', hg, hk, hn⟩ := h y x hx
  ⟨x', hg, hk, fun h' => hn (hb h')⟩

theorem MirroredIn.contains (h : c.MirroredIn named m) (hy : c.contains y = true) :
    m.contains y = true := by
  obtain ⟨x, hx⟩ := get?_of_contains hy
  obtain ⟨x', hg, -⟩ := h y x hx
  exact contains_of_get? hg

theorem MirroredIn.of_get? (h : c.MirroredIn named m) {x' : Component} (hx : c.get? y = some x)
    (hx' : m.get? y = some x') : x'.kind = x.kind ∧ (named = true → x' = x) := by
  obtain ⟨x'', hg, hk, hn⟩ := h y x hx
  rw [hx'] at hg
  cases hg
  exact ⟨hk, hn⟩

theorem MirroredIn.kindOf? (h : c.MirroredIn named m) (hy : c.contains y = true) :
    m.kindOf? y = c.kindOf? y := by
  obtain ⟨x, hx⟩ := get?_of_contains hy
  obtain ⟨x', hg, hk, -⟩ := h y x hx
  simp [Catalog.kindOf?, hg, hx, hk]

theorem MirroredIn.frame (h : c.MirroredIn named m)
    (hm : ∀ y, c.contains y = true → m'.get? y = m.get? y) : c.MirroredIn named m' := by
  intro y x hx
  rw [hm y (contains_of_get? hx)]
  exact h y x hx

theorem MirroredIn.register (h : c.MirroredIn named m) (hx : m.contains x.id = false) :
    (c.register x).MirroredIn named (m.register x) := by
  have hcx : c.contains x.id = false := by
    cases hc : c.contains x.id
    · rfl
    · rw [h.contains hc] at hx
      cases hx
  intro y z hz
  rw [get?_register hcx] at hz
  rw [get?_register hx]
  split
  · next hy =>
    rw [if_pos hy] at hz
    cases hz
    exact ⟨x, rfl, rfl, fun _ => rfl⟩
  · next hy =>
    rw [if_neg hy] at hz
    exact h y z hz

theorem get?_update_of_ne {f : Component → Component} (hid : ∀ z, (f z).id = z.id) (hy : y ≠ id) :
    (c.update id f).get? y = c.get? y := by
  rw [get?_update hid]
  cases hg : c.get? y with
  | none => rfl
  | some z =>
    have hz : z.id ≠ id := by
      rw [(get?_eq_some hg).2]
      exact hy
    simp [hz]

theorem MirroredIn.update (h : c.MirroredIn named m) {f : Component → Component}
    (hid : ∀ z, (f z).id = z.id) (hkind : ∀ z, (f z).kind = z.kind) :
    (c.update id f).MirroredIn named (m.update id f) := by
  intro y z hz
  rw [get?_update hid] at hz
  obtain ⟨z0, hz0, rfl⟩ := Option.map_eq_some_iff.1 hz
  obtain ⟨x', hg, hk, hn⟩ := h y z0 hz0
  have hid' : x'.id = z0.id := by
    rw [(get?_eq_some hg).2, (get?_eq_some hz0).2]
  refine ⟨if x'.id == id then f x' else x', by rw [get?_update hid, hg]; rfl, ?_, fun hb => ?_⟩
  · rw [hid']
    split <;> simp [hkind, hk]
  · rw [hid', hn hb]

theorem MirroredIn.without (h : c.MirroredIn named m) :
    (c.without id).MirroredIn named (m.without id) := by
  intro y z hz
  rw [get?_without] at hz
  rw [get?_without]
  split
  · next hy => rw [if_pos hy] at hz; cases hz
  · next hy => rw [if_neg hy] at hz; exact h y z hz

/-- Registering in `m` the components of `c` that it lacks mirrors `c` in it,
when the identifiers of `c` are distinct and `m` registers the others with
their kinds and, when `named`, as the same records. -/
theorem mirroredIn_append (hc : c.Distinct)
    (hm : ∀ y x x', c.get? y = some x → m.get? y = some x' →
      x'.kind = x.kind ∧ (named = true → x' = x))
    {p : Component → Bool} (hp : ∀ x ∈ c.components, p x = !m.contains x.id) :
    c.MirroredIn named ⟨m.components ++ c.all.filter p⟩ := by
  have hl : (⟨c.all.filter p⟩ : Catalog).Distinct := hc.all.sublist (List.filter_sublist.map _)
  intro y x hx
  obtain ⟨hmem, rfl⟩ := get?_eq_some hx
  have happ : (⟨m.components ++ c.all.filter p⟩ : Catalog).get? x.id =
      (m.get? x.id).or ((⟨c.all.filter p⟩ : Catalog).get? x.id) := List.find?_append
  rw [happ]
  cases hg : m.get? x.id with
  | some x' =>
    obtain ⟨hk, hn⟩ := hm x.id x x' hx hg
    exact ⟨x', rfl, hk, hn⟩
  | none =>
    -- a component the model lacks is among the registered ones
    have hin : x ∈ c.all.filter p := by
      refine List.mem_filter.2 ⟨mem_all_iff.2 hmem, ?_⟩
      rw [hp x hmem, contains_eq_isSome, hg]
      rfl
    exact ⟨x, hl.get?_of_mem hin, rfl, fun _ => rfl⟩

end Catalog

namespace Build

open StratigraphicModel

variable {s : StratigraphicModel} {m : Model} {k : HorizonStack} {l : List Component}

/-! ## Registering the nodes the model lacks -/

theorem foldlM_filter {F : List Component → Component → Except Error (List Component)}
    {P : Component → Prop} {p : Component → Bool}
    (hF : ∀ acc x r, F acc x = .ok r ↔ P x ∧ r = if p x then acc ++ [x] else acc) :
    ∀ (L acc l : List Component), L.foldlM F acc = .ok l ↔ (∀ x ∈ L, P x) ∧ l = acc ++ L.filter p
  | [], acc, l => by
    rw [List.foldlM_nil, except_pure_eq_ok]
    simp [eq_comm]
  | x :: L, acc, l => by
    rw [List.foldlM_cons, except_bind_eq_ok]
    constructor
    · rintro ⟨r, hr, hl⟩
      obtain ⟨hx, rfl⟩ := (hF acc x r).1 hr
      obtain ⟨hL, rfl⟩ := (foldlM_filter hF L _ _).1 hl
      refine ⟨List.forall_mem_cons.2 ⟨hx, hL⟩, ?_⟩
      cases hp : p x <;> simp [hp]
    · rintro ⟨hall, rfl⟩
      obtain ⟨hx, hL⟩ := List.forall_mem_cons.1 hall
      refine ⟨_, (hF acc x _).2 ⟨hx, rfl⟩, (foldlM_filter hF L _ _).2 ⟨hL, ?_⟩⟩
      cases hp : p x <;> simp [hp]

/-- What `missingStackNodes` does: it refuses a node the model holds with
another kind, and otherwise lists, kind by kind, the nodes the model lacks. -/
theorem missingStackNodes_eq_ok : missingStackNodes m k = .ok l ↔
    (∀ x ∈ k.catalog.components, ∀ x', m.catalog.get? x.id = some x' → x'.kind = x.kind) ∧
      l = k.catalog.all.filter fun x => !m.catalog.contains x.id := by
  have hall : (∀ x ∈ k.catalog.components, ∀ x', m.catalog.get? x.id = some x' →
      x'.kind = x.kind) ↔
      ∀ x ∈ k.catalog.all, ∀ x', m.catalog.get? x.id = some x' → x'.kind = x.kind :=
    forall_congr' fun x => by rw [Catalog.mem_all_iff]
  rw [hall, ← List.nil_append (List.filter _ _)]
  refine foldlM_filter (fun acc x r => ?_) _ _ _
  -- one node: looked up in the model by its identifier
  cases hg : m.catalog.get? x.id with
  | none =>
    have hc : m.catalog.contains x.id = false := by
      rw [Catalog.contains_eq_isSome, hg]
      rfl
    simp [Model.component, Catalog.get, hg, hc, eq_comm]
  | some x' =>
    have hc := Catalog.contains_of_get? hg
    by_cases hk : x'.kind = x.kind
    · simp [Model.component, Catalog.get, hg, hc, hk, eq_comm]
    · simp [Model.component, Catalog.get, hg, hk]

theorem runOn_registerNodes (hl : (⟨l⟩ : Catalog).Distinct)
    (hfresh : ∀ x ∈ l, s.model.catalog.contains x.id = false) :
    (registerNodes l).runOn s =
      (.ok (), { s with model := { s.model with catalog := ⟨s.model.catalog.components ++ l⟩ } }) := by
  induction l generalizing s with
  | nil => simp [registerNodes]
  | cons x l ih =>
    rw [Catalog.Distinct, List.map_cons, List.nodup_cons] at hl
    have hx : s.model.catalog.insert x = .ok (s.model.catalog.register x) := by
      simp [Catalog.insert, hfresh x List.mem_cons_self]
    show (onModel _ >>= fun _ => registerNodes l).runOn s = _
    rw [runOn_bind, runOn_onModel]
    simp only [hx, bind, Except.bind, pure, Except.pure]
    rw [ih hl.2 fun y hy => ?_]
    · simp [Catalog.register]
    · rw [Catalog.contains_register, hfresh y (List.mem_cons_of_mem x hy), Bool.false_or,
        beq_eq_false_iff_ne]
      intro h
      apply hl.1
      rw [h]
      exact List.mem_map_of_mem hy

end Build

namespace Model

variable {m m' : Model}

/-! ## The locked model builder leaves horizons and units alone -/

theorem checkUnlocked_locked {id : Uuid} {k : ComponentKind} {u : Unit}
    (h : checkUnlocked true id k = .ok u) : k ≠ .horizon ∧ k ≠ .stratigraphicUnit := by
  unfold checkUnlocked at h
  split at h
  · cases h
  · next hk =>
    simp only [Bool.true_and, Bool.or_eq_true, beq_iff_eq, not_or] at hk
    exact hk

theorem addItemInCollection_catalog {item collection : Uuid}
    (hs : m.addItemInCollection item collection = .ok m') : m'.catalog = m.catalog := by
  obtain ⟨ci, -, hs⟩ := except_bind_eq_ok.1 hs
  obtain ⟨cc, -, hs⟩ := except_bind_eq_ok.1 hs
  dsimp only at hs
  split at hs
  · simp at hs
  · split at hs
    · simp at hs
    · obtain rfl := except_pure_eq_ok.1 hs
      rfl

theorem setName_eq_ok {locked : Bool} {id : Uuid} {k : ComponentKind} {name : String}
    (hs : m.setName locked id k name = .ok m') :
    m.catalog.kindOf? id = some k ∧ m'.catalog = m.catalog.update id (·.rename name) := by
  obtain ⟨-, -, hs⟩ := except_bind_eq_ok.1 hs
  obtain ⟨c, hc, hs⟩ := except_bind_eq_ok.1 hs
  obtain ⟨hk, rfl⟩ := Catalog.setName_eq_ok hc
  obtain rfl := except_pure_eq_ok.1 hs
  exact ⟨hk, rfl⟩

theorem setHorizonType_eq_ok {locked : Bool} {id : Uuid} {t : HorizonType}
    (hs : m.setHorizonType locked id t = .ok m') :
    m.catalog.kindOf? id = some .horizon ∧
      m'.catalog = m.catalog.update id (·.retype (.horizon t)) := by
  obtain ⟨-, -, hs⟩ := except_bind_eq_ok.1 hs
  obtain ⟨c, hc, hs⟩ := except_bind_eq_ok.1 hs
  obtain ⟨hk, rfl⟩ := Catalog.setType_eq_ok hc
  obtain rfl := except_pure_eq_ok.1 hs
  exact ⟨hk, rfl⟩

/-- What an edit does to the catalog: nothing, a new component under a fresh
identifier, or a change to one registered component, which under the lock is
neither a horizon nor a unit. -/
theorem Step.catalog_shape {locked : Bool} (hs : Step locked m m') :
    m'.catalog = m.catalog ∨
      (∃ x, m.catalog.contains x.id = false ∧ m'.catalog = m.catalog.register x) ∨
      ∃ id k, m.catalog.kindOf? id = some k ∧
        (locked = true → k ≠ .horizon ∧ k ≠ .stratigraphicUnit) ∧
        (m'.catalog = m.catalog.without id ∨
          ∃ f : Component → Component, m'.catalog = m.catalog.update id f ∧ ∀ z, (f z).id = z.id) := by
  cases hs with
  | addCollection hk hfresh => exact .inr (.inl ⟨_, hfresh, rfl⟩)
  | addCollectionWithId hk hs =>
    obtain ⟨c, hc, hs⟩ := except_bind_eq_ok.1 hs
    obtain ⟨hfresh, rfl⟩ := Catalog.insert_eq_ok hc
    obtain rfl := except_pure_eq_ok.1 hs
    exact .inr (.inl ⟨_, hfresh, rfl⟩)
  | setName hs =>
    obtain ⟨u, hu, -⟩ := except_bind_eq_ok.1 hs
    obtain ⟨hk, hc⟩ := setName_eq_ok hs
    exact .inr (.inr ⟨_, _, hk, fun hl => checkUnlocked_locked (hl ▸ hu),
      .inr ⟨_, hc, fun _ => rfl⟩⟩)
  | setFaultType hs =>
    obtain ⟨c, hc, hs⟩ := except_bind_eq_ok.1 hs
    obtain ⟨hk, rfl⟩ := Catalog.setType_eq_ok hc
    obtain rfl := except_pure_eq_ok.1 hs
    exact .inr (.inr ⟨_, _, hk, fun _ => ⟨by simp [ComponentType.kind], by simp [ComponentType.kind]⟩,
      .inr ⟨_, rfl, fun _ => rfl⟩⟩)
  | setHorizonType hs =>
    -- the lock refuses every horizon type
    obtain ⟨u, hu, -⟩ := except_bind_eq_ok.1 hs
    obtain ⟨hk, hc⟩ := setHorizonType_eq_ok hs
    exact .inr (.inr ⟨_, _, hk, fun hl => absurd rfl (checkUnlocked_locked (hl ▸ hu)).1,
      .inr ⟨_, hc, fun _ => rfl⟩⟩)
  | removeComponent hs =>
    unfold Model.removeComponent at hs
    split at hs
    · have hc := hs
      rw [removeCollection_eq] at hc
      obtain ⟨-, -, hs'⟩ := except_bind_eq_ok.1 hc
      obtain ⟨u, hu, -⟩ := except_bind_eq_ok.1 hs'
      obtain ⟨hk, rfl⟩ := removeCollection_eq_ok hs
      exact .inr (.inr ⟨_, _, hk, fun hl => checkUnlocked_locked (hl ▸ hu), .inl rfl⟩)
    · next hcoll =>
      -- an item, which no horizon or unit is
      rw [removeItem_eq] at hs
      obtain ⟨c, -, hs⟩ := except_bind_eq_ok.1 hs
      obtain ⟨⟨z, cat⟩, hr, hs⟩ := except_bind_eq_ok.1 hs
      obtain ⟨hk, rfl⟩ := Catalog.remove_eq_ok hr
      dsimp only at hs
      obtain rfl := except_pure_eq_ok.1 hs
      refine .inr (.inr ⟨_, _, hk, fun _ => ⟨?_, ?_⟩, .inl rfl⟩) <;> (rintro rfl; exact hcoll rfl)
  | addItem hk hfresh hs =>
    obtain ⟨-, hfr, rfl⟩ := addItem_eq_ok hs
    -- a fresh identifier is one by promise, another one was checked
    exact .inr (.inl ⟨_, (Bool.eq_false_or_eq_true _).elim hfresh hfr, rfl⟩)
  | setItemMesh hs =>
    obtain ⟨-, rfl⟩ := setItemMesh_eq_ok hs
    exact .inl rfl
  | editAttributes hs =>
    obtain ⟨x, va, -, rfl⟩ := editAttributes_eq_ok hs
    exact .inl rfl
  | addItemInCollection hs => exact .inl (addItemInCollection_catalog hs)
  | removeItemFromCollection item collection => exact .inl rfl
  | addTyped hs =>
    obtain ⟨-, -, hs⟩ := except_bind_eq_ok.1 hs
    obtain ⟨-, -, hs⟩ := except_bind_eq_ok.1 hs
    exact .inl (addItemInCollection_catalog hs)
  | addBoundary hs =>
    obtain ⟨-, -, rfl⟩ := addBoundary_eq_ok hs
    exact .inl rfl
  | addInternal hs =>
    obtain ⟨-, -, rfl⟩ := addInternal_eq_ok hs
    exact .inl rfl
  | removeBoundary boundary incident => exact .inl rfl
  | removeInternal internal embedding => exact .inl rfl
  | setCrs crs => exact .inl rfl
  | convertCrs hs =>
    unfold Model.convertCrs at hs
    split at hs
    · obtain ⟨t, -, rfl⟩ := except_map_eq_ok.1 hs
      exact .inl rfl
    · simp at hs

/-- What a locked edit does to the catalog: nothing, a new component under a
fresh identifier, or a change to one component that is neither a horizon nor
a unit. -/
theorem Step.catalog_cases (hs : Step true m m') :
    m'.catalog = m.catalog ∨
      (∃ x, m.catalog.contains x.id = false ∧ m'.catalog = m.catalog.register x) ∨
      ∃ id k, m.catalog.kindOf? id = some k ∧ k ≠ .horizon ∧ k ≠ .stratigraphicUnit ∧
        (m'.catalog = m.catalog.without id ∨
          ∃ f : Component → Component, m'.catalog = m.catalog.update id f ∧ ∀ z, (f z).id = z.id) := by
  rcases hs.catalog_shape with hc | hc | ⟨id, k, hk, hlock, hc⟩
  · exact .inl hc
  · exact .inr (.inl hc)
  · exact .inr (.inr ⟨id, k, hk, (hlock rfl).1, (hlock rfl).2, hc⟩)

/-- **A locked edit keeps every horizon and every unit** as the model registers it. -/
theorem Step.get?_of_stackKind (hs : Step true m m') {y : Uuid}
    (hy : m.catalog.kindOf? y = some .horizon ∨ m.catalog.kindOf? y = some .stratigraphicUnit) :
    m'.catalog.get? y = m.catalog.get? y := by
  -- the component changed, if any, is of another kind than `y`
  have hne : ∀ id k, m.catalog.kindOf? id = some k → k ≠ .horizon → k ≠ .stratigraphicUnit →
      y ≠ id := by
    rintro id k hk h1 h2 rfl
    rcases hy with hy | hy <;> rw [hy] at hk <;> cases hk
    · exact h1 rfl
    · exact h2 rfl
  rcases hs.catalog_cases with hc | ⟨x, hfresh, hc⟩ | ⟨id, k, hk, h1, h2, hc | ⟨f, hc, hid⟩⟩
  · rw [hc]
  · have hyx : y ≠ x.id := by
      intro he
      have hc : m.catalog.contains y = true := by
        rcases hy with hy | hy <;> exact Catalog.contains_of_kindOf? hy
      rw [he, hfresh] at hc
      cases hc
    rw [hc, Catalog.get?_register hfresh, if_neg hyx]
  · rw [hc, Catalog.get?_without, if_neg (hne id k hk h1 h2)]
  · rw [hc, Catalog.get?_update_of_ne hid (hne id k hk h1 h2)]

theorem removeCollection_of_kindOf? {id : Uuid} {k : ComponentKind}
    (hk : m.catalog.kindOf? id = some k) :
    m.removeCollection false id k =
      .ok { m with membership := (m.membership.removeNode id).2, catalog := m.catalog.without id } := by
  obtain ⟨x, hg⟩ := Catalog.getOfKind_of_kindOf? hk
  simp [Model.removeCollection_eq, hg, checkUnlocked, Catalog.remove, Catalog.without, bind,
    Except.bind, pure, Except.pure]

end Model

namespace HorizonStack

variable {t : HorizonStack} {y : Uuid}

theorem removeNode_of_kindOf? {id : Uuid} {k : ComponentKind} (hk : t.catalog.kindOf? id = some k) :
    t.removeNode id k = .ok (touch { t.unlinkNode id with catalog := t.catalog.without id }) := by
  obtain ⟨x, hg⟩ := Catalog.getOfKind_of_kindOf? hk
  simp [removeNode_eq, hg, Catalog.remove, Catalog.without, bind, Except.bind, pure, Except.pure]

theorem splitUnit_get?_of_ne {t' : HorizonStack} {unit : Uuid} {sp : UnitSplit}
    (hs : t.splitUnit unit sp = .ok t') (hh : y ≠ sp.horizon) (ha : y ≠ sp.unitAbove)
    (hu : y ≠ sp.unitUnder) : t'.catalog.get? y = (t.catalog.without unit).get? y := by
  obtain ⟨c, -, hc⟩ := splitUnit_catalog hs
  rw [hc, Catalog.get?_update_of_ne (Component.id_rename · _) hu,
    Catalog.get?_update_of_ne (Component.id_rename · _) ha]
  show ((((t.catalog.without unit).register _).register _).register _).get? y = _
  rw [Catalog.get?_register_of_ne (x := Component.new _ _) hu,
    Catalog.get?_register_of_ne (x := Component.new _ _) ha,
    Catalog.get?_register_of_ne (x := Component.new _ _) hh]

section Split

variable {t' : HorizonStack} {unit : Uuid} {sp : UnitSplit} {c : Catalog}

/-- A split keeps every node registered in a catalog that lacks the three
new identifiers. -/
theorem splitUnit_get?_of_contains (hs : t.splitUnit unit sp = .ok t')
    (hfresh : ∀ z ∈ [sp.horizon, sp.unitAbove, sp.unitUnder], c.contains z = false)
    (hy : c.contains y = true) : t'.catalog.get? y = (t.catalog.without unit).get? y := by
  have hne : ∀ z ∈ [sp.horizon, sp.unitAbove, sp.unitUnder], y ≠ z := by
    rintro z hz rfl
    rw [hfresh y hz] at hy
    cases hy
  exact splitUnit_get?_of_ne hs (hne _ (by simp)) (hne _ (by simp)) (hne _ (by simp))

/-- A node after a split that such a catalog registers was a node before it,
other than the unit. -/
theorem splitUnit_get?_old {x : Component} (hs : t.splitUnit unit sp = .ok t')
    (hfresh : ∀ z ∈ [sp.horizon, sp.unitAbove, sp.unitUnder], c.contains z = false)
    (hx : t'.catalog.get? y = some x) (hy : c.contains y = true) :
    y ≠ unit ∧ t.catalog.get? y = some x := by
  rw [splitUnit_get?_of_contains hs hfresh hy, Catalog.get?_without] at hx
  split at hx
  · cases hx
  · next hne => exact ⟨hne, hx⟩

end Split

theorem NodeKinds.kindOf? (h : t.NodeKinds) (hy : t.contains y = true) :
    t.catalog.kindOf? y = some .horizon ∨ t.catalog.kindOf? y = some .stratigraphicUnit := by
  obtain ⟨x, hx⟩ := Catalog.get?_of_contains hy
  rcases h x (Catalog.get?_eq_some hx).1 with hk | hk <;> simp [Catalog.kindOf?, hx, hk]

end HorizonStack

namespace StratigraphicModel

open Build

variable {named : Bool} {s : StratigraphicModel} {m : Model} {t : HorizonStack} {id : Uuid}

/-! ## The stack mirrored in the model -/

/-- The nodes of the stack, horizons and units under distinct identifiers,
are components of the model with their identifiers and kinds and, when
`named`, with their names and types; every isovalue belongs to a horizon of
the stack. -/
structure Mirrors (named : Bool) (s : StratigraphicModel) : Prop where
  nodes : s.stack.catalog.MirroredIn named s.model.catalog
  isovalues : ∀ p ∈ s.isovalues, s.stack.catalog.kindOf? p.1 = some .horizon
  kinds : s.stack.NodeKinds
  distinct : s.stack.catalog.Distinct

theorem Mirrors.mono (h : s.Mirrors named) {named' : Bool} (hb : named' = true → named = true) :
    s.Mirrors named' :=
  ⟨h.nodes.mono hb, h.isovalues, h.kinds, h.distinct⟩

theorem mirrors_of_nil (hc : s.stack.catalog.components = []) (hi : s.isovalues = []) :
    s.Mirrors named := by
  refine ⟨Catalog.mirroredIn_of_nil hc, fun p hp => ?_, fun x hx => ?_, ?_⟩
  · rw [hi] at hp
    cases hp
  · rw [hc] at hx
    cases hx
  · simp [Catalog.Distinct, hc]

theorem Mirrors.withModel (h : s.Mirrors named)
    (hm : ∀ y, s.stack.contains y = true → m.catalog.get? y = s.model.catalog.get? y) :
    { s with model := m }.Mirrors named :=
  ⟨h.nodes.frame hm, h.isovalues, h.kinds, h.distinct⟩

theorem Mirrors.withStack (h : s.Mirrors named) (ht : t.catalog = s.stack.catalog) :
    { s with stack := t }.Mirrors named := by
  obtain ⟨hn, hi, hk, hd⟩ := h
  exact ⟨ht ▸ hn, ht ▸ hi, hk.of_catalog ht, ht ▸ hd⟩

theorem Mirrors.model (h : s.Mirrors named) (hs : Model.Step true s.model m) :
    { s with model := m }.Mirrors named :=
  h.withModel fun y hy => hs.get?_of_stackKind (by
    rw [h.nodes.kindOf? hy]
    exact h.kinds.kindOf? hy)

theorem Mirrors.isovalue_kindOf? (h : s.Mirrors named) {p : Uuid × Binary64} (hp : p ∈ s.isovalues) :
    s.model.catalog.kindOf? p.1 = some .horizon := by
  have hiso := h.isovalues p hp
  rw [h.nodes.kindOf? (Catalog.contains_of_kindOf? hiso)]
  exact hiso

theorem Mirrors.isovalue_ne (h : s.Mirrors named) {p : Uuid × Binary64} (hp : p ∈ s.isovalues)
    (hk : s.model.catalog.kindOf? id = some .stratigraphicUnit) : p.1 ≠ id := by
  rintro rfl
  have hiso := h.isovalue_kindOf? hp
  rw [hk] at hiso
  cases hiso

theorem Mirrors.copyModel (h : s.Mirrors named) {src : Model} (hc : s.model.copyInto src = .ok m) :
    { s with model := m }.Mirrors named := by
  have hempty : s.model.catalog.components = [] := by
    unfold Model.copyInto at hc
    split at hc
    · cases hc
    · next he => simpa [Model.isEmpty, Catalog.isEmpty_eq] using he
  -- every node would be a component of the empty model
  have hnil : s.stack.catalog.components = [] := by
    refine List.eq_nil_iff_forall_not_mem.2 fun x hx => ?_
    obtain ⟨x', hg, -⟩ := h.nodes x.id x (h.distinct.get?_of_mem hx)
    have := (Catalog.get?_eq_some hg).1
    rw [hempty] at this
    cases this
  exact ⟨Catalog.mirroredIn_of_nil hnil, h.isovalues, h.kinds, h.distinct⟩

/-! ## Stratigraphic edits -/

/-- Adding a node under an identifier the model lacks: the model registers
it, and the stack too unless it refuses it. -/
theorem Mirrors.addNode (h : s.Mirrors named) {k : ComponentKind}
    (hk : k = .horizon ∨ k = .stratigraphicUnit) (hfresh : s.model.catalog.contains id = false) :
    ((do onModel fun m => pure (m.addCollection k id)
         onStack (·.addNodeWithId k id) : Build Unit).runOn s).2.Mirrors named := by
  -- the stack's nodes are in the model, so `id` is none of them
  have hne : ∀ y, s.stack.contains y = true → y ≠ id := fun y hy he => by
    rw [← he, h.nodes.contains hy] at hfresh
    cases hfresh
  rw [runOn_bind, runOn_onModel]
  show (((onStack (·.addNodeWithId k id)).runOn { s with model := s.model.addCollection k id }).2).Mirrors
    named
  rw [runOn_onStack]
  cases hst : s.stack.addNodeWithId k id with
  | error e =>
    refine h.withModel fun y hy => ?_
    show (s.model.catalog.register (Component.new id k)).get? y = _
    rw [Catalog.get?_register (x := Component.new id k) hfresh,
      if_neg (show y ≠ (Component.new id k).id from hne y hy)]
  | ok t =>
    obtain ⟨hsf, rfl⟩ := HorizonStack.addNodeWithId_eq_ok hst
    refine ⟨h.nodes.register hfresh, fun p hp => ?_, h.kinds.addNode hk, h.distinct.register hsf⟩
    have hiso := h.isovalues p hp
    show (s.stack.catalog.register (Component.new id k)).kindOf? p.1 = _
    rw [Catalog.kindOf?_register hsf,
      if_neg (show p.1 ≠ (Component.new id k).id from hne _ (Catalog.contains_of_kindOf? hiso))]
    exact hiso

/-- Renaming or retyping a node: the model changes it, which it must hold
with the kind `k`, and the stack changes it too when it holds it. -/
theorem Mirrors.relabel (h : s.Mirrors named) {k : ComponentKind} {f : Component → Component}
    (hid : ∀ z, (f z).id = z.id) (hkind : ∀ z, (f z).kind = z.kind)
    {g : Model → Except Error Model} {g' : HorizonStack → Except Error HorizonStack}
    (hg : ∀ m m', g m = .ok m' → m.catalog.kindOf? id = some k ∧ m'.catalog = m.catalog.update id f)
    (hg' : ∀ t, t.catalog.kindOf? id = some k → g' t = .ok { t with catalog := t.catalog.update id f }) :
    ((do onModel g
         if (← get).stack.contains id then onStack g' : Build Unit).runOn s).2.Mirrors named := by
  rw [runOn_bind, runOn_onModel]
  cases hm : g s.model with
  | error e => exact h
  | ok m =>
    obtain ⟨hk, hcat⟩ := hg _ _ hm
    dsimp only
    rw [runOn_bind, runOn_get]
    dsimp only
    split
    · next hc =>
      -- the stack holds the node with the model's kind, so it changes it too
      have hks : s.stack.catalog.kindOf? id = some k := by rw [← h.nodes.kindOf? hc, hk]
      rw [runOn_onStack, hg' _ hks]
      refine ⟨?_, fun p hp => ?_, h.kinds.relabel ⟨id, f, hid, hkind, rfl⟩, h.distinct.update hid⟩
      · show (s.stack.catalog.update id f).MirroredIn named m.catalog
        rw [hcat]
        exact h.nodes.update hid hkind
      · show (s.stack.catalog.update id f).kindOf? p.1 = _
        rw [Catalog.kindOf?_update hid hkind]
        exact h.isovalues p hp
    · next hc =>
      rw [runOn_pure]
      refine h.withModel fun y hy => ?_
      rw [hcat, Catalog.get?_update_of_ne hid fun he => hc (by rw [← he]; exact hy)]

theorem Mirrors.setHorizonName (h : s.Mirrors named) (name : String) :
    ((setHorizonName id name).runOn s).2.Mirrors named :=
  h.relabel (k := .horizon) (Component.id_rename · name) (Component.kind_rename · name)
    (fun _ _ hm => Model.setName_eq_ok hm)
    fun _ hk => by rw [HorizonStack.setHorizonName, Catalog.setName_of_kindOf? hk]; rfl

theorem Mirrors.setHorizonType (h : s.Mirrors named) (ty : HorizonType) :
    ((setHorizonType id ty).runOn s).2.Mirrors named :=
  h.relabel (k := .horizon) (Component.id_retype · (.horizon ty)) (Component.kind_retype · _)
    (fun _ _ hm => Model.setHorizonType_eq_ok hm)
    fun _ hk => by rw [HorizonStack.setHorizonType, Catalog.setType_of_kindOf? hk]; rfl

theorem Mirrors.setUnitName (h : s.Mirrors named) (name : String) :
    ((setUnitName id name).runOn s).2.Mirrors named :=
  h.relabel (k := .stratigraphicUnit) (Component.id_rename · name) (Component.kind_rename · name)
    (fun _ _ hm => Model.setName_eq_ok hm)
    fun _ hk => by rw [HorizonStack.setUnitName, Catalog.setName_of_kindOf? hk]; rfl

/-- A node dropped from both catalogs, with the isovalues of other horizons
only. -/
theorem Mirrors.without (h : s.Mirrors named) (hm : m.catalog = s.model.catalog.without id)
    (ht : t.catalog = s.stack.catalog.without id) {iso : IsovalueMap}
    (hi : ∀ p ∈ iso, p ∈ s.isovalues ∧ p.1 ≠ id) :
    { s with model := m, stack := t, isovalues := iso }.Mirrors named := by
  refine ⟨?_, fun p hp => ?_, h.kinds.without ht, ?_⟩
  · show t.catalog.MirroredIn named m.catalog
    rw [hm, ht]
    exact h.nodes.without
  · obtain ⟨hp, hne⟩ := hi p hp
    show t.catalog.kindOf? p.1 = _
    rw [ht, Catalog.kindOf?_without, if_neg hne]
    exact h.isovalues p hp
  · show t.catalog.Distinct
    rw [ht]
    exact h.distinct.without

theorem Mirrors.removeHorizon (h : s.Mirrors named) :
    ((removeHorizon id).runOn s).2.Mirrors named := by
  unfold Build.removeHorizon
  rw [runOn_bind, runOn_onModel]
  cases hm : s.model.removeCollection false id .horizon with
  | error e => exact h
  | ok m =>
    obtain ⟨hk, rfl⟩ := Model.removeCollection_eq_ok hm
    -- the horizon's own isovalue goes with it
    have hi : ∀ p ∈ s.isovalues.erase id, p ∈ s.isovalues ∧ p.1 ≠ id := fun p hp => by
      simpa [IsovalueMap.erase] using hp
    dsimp only
    rw [runOn_bind, runOn_get]
    dsimp only
    split
    · next hc =>
      rw [runOn_bind, runOn_onStack,
        HorizonStack.removeNode_of_kindOf? (by rw [← h.nodes.kindOf? hc, hk])]
      exact h.without rfl rfl hi
    · next hc =>
      exact h.without rfl (Catalog.without_of_contains (Bool.eq_false_iff.2 hc)).symm hi

theorem Mirrors.removeUnit (h : s.Mirrors named) : ((removeUnit id).runOn s).2.Mirrors named := by
  unfold Build.removeUnit
  rw [runOn_bind, runOn_onModel]
  cases hm : s.model.removeCollection false id .stratigraphicUnit with
  | error e => exact h
  | ok m =>
    obtain ⟨hk, rfl⟩ := Model.removeCollection_eq_ok hm
    have hi : ∀ p ∈ s.isovalues, p ∈ s.isovalues ∧ p.1 ≠ id := fun p hp =>
      ⟨hp, h.isovalue_ne hp hk⟩
    dsimp only
    rw [runOn_bind, runOn_get]
    dsimp only
    split
    · next hc =>
      rw [runOn_onStack, HorizonStack.removeNode_of_kindOf? (by rw [← h.nodes.kindOf? hc, hk])]
      exact h.without rfl rfl hi
    · next hc =>
      exact h.without rfl (Catalog.without_of_contains (Bool.eq_false_iff.2 hc)).symm hi

theorem Mirrors.addHorizonUnder (h : s.Mirrors named) (horizon unit : Uuid) :
    ((addHorizonUnder horizon unit).runOn s).2.Mirrors named :=
  (keeps_onStack fun _ _ h hs =>
    h.withStack (HorizonStack.link_frame (HorizonStack.addHorizonUnder_eq_ok hs).2).1).run h

theorem Mirrors.addHorizonAbove (h : s.Mirrors named) (horizon unit : Uuid) :
    ((addHorizonAbove horizon unit).runOn s).2.Mirrors named :=
  (keeps_onStack fun _ _ h hs =>
    h.withStack (HorizonStack.link_frame (HorizonStack.addHorizonAbove_eq_ok hs).2).1).run h

/-! ## Splitting a unit and replacing the stack -/

theorem Mirrors.splitUnit_kindOf? (h : s.Mirrors named) {unit : Uuid} {sp : HorizonStack.UnitSplit}
    (hs : s.stack.splitUnit unit sp = .ok t) :
    s.model.catalog.kindOf? unit = some .stratigraphicUnit := by
  obtain ⟨c, hc, -⟩ := HorizonStack.splitUnit_catalog hs
  have hsu := Catalog.kindOf?_of_getOfKind hc
  rw [h.nodes.kindOf? (Catalog.contains_of_kindOf? hsu), hsu]

/-- After a split, the model drops the unit and registers the nodes it lacks,
the three new ones, with their records. -/
theorem Mirrors.splitNodes (h : s.Mirrors named) {unit : Uuid} {sp : HorizonStack.UnitSplit}
    (hf : sp.Fresh s.stack.catalog unit)
    (hfm : ∀ y ∈ [sp.horizon, sp.unitAbove, sp.unitUnder], s.model.catalog.contains y = false)
    (hs : s.stack.splitUnit unit sp = .ok t) (hm : m.catalog = s.model.catalog.without unit) :
    { s with stack := t, model := { m with catalog := ⟨m.catalog.components ++
        t.catalog.all.filter fun x : Component => !s.model.catalog.contains x.id⟩ } }.Mirrors
      named := by
  have hd : t.catalog.Distinct := HorizonStack.distinct_splitUnit h.distinct hf hs
  refine ⟨?_, fun p hp => ?_, h.kinds.splitUnit hs, hd⟩
  · show t.catalog.MirroredIn named ⟨m.catalog.components ++ _⟩
    rw [hm]
    refine Catalog.mirroredIn_append hd (fun y x x' hx hx' => ?_) fun x hx => ?_
    · rw [Catalog.get?_without] at hx'
      split at hx'
      · cases hx'
      · obtain ⟨-, hsx⟩ := HorizonStack.splitUnit_get?_old hs hfm hx (Catalog.contains_of_get? hx')
        exact h.nodes.of_get? hsx hx'
    · -- the unit is not among the nodes after the split
      rw [Catalog.contains_without]
      cases hc : s.model.catalog.contains x.id with
      | false => simp
      | true =>
        obtain ⟨hne, -⟩ := HorizonStack.splitUnit_get?_old hs hfm (hd.get?_of_mem hx) hc
        simp [hne]
  · have hiso := h.isovalues p hp
    have hc := Catalog.contains_of_kindOf? (h.isovalue_kindOf? hp)
    show t.catalog.kindOf? p.1 = _
    rw [Catalog.kindOf?, HorizonStack.splitUnit_get?_of_contains hs hfm hc, ← Catalog.kindOf?,
      Catalog.kindOf?_without, if_neg (h.isovalue_ne hp (h.splitUnit_kindOf? hs))]
    exact hiso

/-- After a split, every node the model holds has the kind it has in the
stack, so the nodes the model lacks are listed without failure. -/
theorem Mirrors.missingStackNodes_splitUnit (h : s.Mirrors named) {unit : Uuid}
    {sp : HorizonStack.UnitSplit} (hf : sp.Fresh s.stack.catalog unit)
    (hfm : ∀ y ∈ [sp.horizon, sp.unitAbove, sp.unitUnder], s.model.catalog.contains y = false)
    (hs : s.stack.splitUnit unit sp = .ok t) :
    missingStackNodes s.model t = .ok (t.catalog.all.filter fun x => !s.model.catalog.contains x.id) := by
  have hd : t.catalog.Distinct := HorizonStack.distinct_splitUnit h.distinct hf hs
  refine missingStackNodes_eq_ok.2 ⟨fun x hx x' hx' => ?_, rfl⟩
  obtain ⟨-, hsx⟩ := HorizonStack.splitUnit_get?_old hs hfm (hd.get?_of_mem hx)
    (Catalog.contains_of_get? hx')
  exact (h.nodes.of_get? hsx hx').1

theorem Mirrors.splitTail (h : s.Mirrors named) {unit : Uuid} {sp : HorizonStack.UnitSplit}
    (hf : sp.Fresh s.stack.catalog unit)
    (hfm : ∀ y ∈ [sp.horizon, sp.unitAbove, sp.unitUnder], s.model.catalog.contains y = false)
    {inModel : Bool} (hin : inModel = s.model.catalog.contains unit) :
    ((splitTail unit sp inModel).runOn s).2.Mirrors named := by
  unfold Build.splitTail
  rw [runOn_bind, runOn_onStack]
  cases hs : s.stack.splitUnit unit sp with
  | error e => exact h
  | ok t =>
    have hmu := h.splitUnit_kindOf? hs
    rw [Catalog.contains_of_kindOf? hmu] at hin
    subst hin
    dsimp only
    rw [runOn_bind, runOn_get]
    dsimp only
    have hd : t.catalog.Distinct := HorizonStack.distinct_splitUnit h.distinct hf hs
    rw [runOn_bind, runOn_check, h.missingStackNodes_splitUnit hf hfm hs]
    dsimp only
    rw [if_pos rfl, runOn_bind, runOn_onModel, Model.removeCollection_of_kindOf? hmu]
    dsimp only
    rw [runOn_registerNodes (hd.all.sublist (List.filter_sublist.map _)) fun x hx => ?_]
    · exact h.splitNodes hf hfm hs rfl
    · -- the registered nodes are those the model lacked
      have hx : s.model.catalog.contains x.id = false := by simpa using (List.mem_filter.1 hx).2
      show (s.model.catalog.without unit).contains x.id = false
      rw [Catalog.contains_without, hx, Bool.and_false]

theorem Mirrors.splitUnit (h : s.Mirrors named) {unit : Uuid} {sp : HorizonStack.UnitSplit}
    (hf : sp.Fresh s.stack.catalog unit)
    (hfm : ∀ y ∈ [sp.horizon, sp.unitAbove, sp.unitUnder], s.model.catalog.contains y = false) :
    ((splitUnit unit sp).runOn s).2.Mirrors named := by
  rw [splitUnit_eq, runOn_bind, runOn_get]
  dsimp only
  split
  · rw [runOn_bind, runOn_get]
    dsimp only
    rw [runOn_bind, runOn_check]
    cases s.model.componentOfKind unit .stratigraphicUnit with
    | error e => exact h
    | ok c => exact h.splitTail hf hfm rfl
  · exact h.splitTail hf hfm rfl

/-- Replacing the stack by one the stack builder reaches: the model registers
the nodes it lacks and keeps its own records of the others, which are the
new stack's when the model agrees with it. -/
theorem Mirrors.setStack (h : s.Mirrors named) {b : Bool} {k : HorizonStack}
    (hk : HorizonStack.Reachable b k) :
    ((setStack k).runOn s).2.Mirrors (named && s.model.catalog.agrees k.catalog) := by
  unfold Build.setStack
  rw [runOn_bind, runOn_get]
  dsimp only
  rw [runOn_bind, runOn_check]
  cases hm : missingStackNodes s.model k with
  | error e => exact h.mono fun hb => (Bool.and_eq_true_iff.1 hb).1
  | ok l =>
    obtain ⟨hkind, rfl⟩ := missingStackNodes_eq_ok.1 hm
    have hd := hk.distinct
    dsimp only
    rw [runOn_bind, runOn_modify]
    dsimp only
    rw [runOn_bind, runOn_registerNodes (hd.all.sublist (List.filter_sublist.map _))
      fun x hx => by simpa using (List.mem_filter.1 hx).2]
    dsimp only
    rw [runOn_modify]
    -- a node the model holds is there with its kind in the new stack
    have hsame : ∀ y x x', k.catalog.get? y = some x → s.model.catalog.get? y = some x' →
        x'.kind = x.kind ∧ ((named && s.model.catalog.agrees k.catalog) = true → x' = x) :=
      fun y x x' hx hx' => by
        obtain ⟨hmem, rfl⟩ := Catalog.get?_eq_some hx
        exact ⟨hkind x hmem x' hx', fun hb =>
          Catalog.agrees_iff.1 (Bool.and_eq_true_iff.1 hb).2 x hmem x' hx'⟩
    refine ⟨Catalog.mirroredIn_append hd hsame fun _ _ => rfl, ?_, hk.wellFormed.kinds, hd⟩
    -- the isovalues kept are of horizons of the model that the new stack holds
    rintro ⟨y, v⟩ hp
    obtain ⟨hp, hy⟩ := List.mem_filter.1 hp
    have hy : k.catalog.contains y = true := hy
    have hmk := h.isovalue_kindOf? hp
    obtain ⟨x, hx⟩ := Catalog.get?_of_contains hy
    obtain ⟨x', hx', hxk⟩ := Catalog.get_of_kindOf? hmk
    have hkx := (hsame y x x' hx (Catalog.get?_of_get hx')).1
    show k.catalog.kindOf? y = some .horizon
    simp [Catalog.kindOf?, hx, ← hkx, hxk]

/-! ## Coordinates, isovalues and copies -/

theorem keeps_onCell_mirrors (item : Uuid) (f : VertexAttributes → Except Error VertexAttributes) :
    Keeps (Mirrors named) (onCell item f) :=
  keeps_onCell_of (fun _ _ _ _ h he => h.model (.editAttributes he)) item f

theorem Mirrors.rescaled {t : StratigraphicModel} {factor : Float} (h : s.Mirrors named)
    (hr : rescaled factor s = .ok t) : t.Mirrors named := by
  unfold Build.rescaled at hr
  obtain ⟨meshes, -, rfl⟩ := except_map_eq_ok.1 hr
  refine ⟨h.nodes, fun p hp => ?_, h.kinds, h.distinct⟩
  obtain ⟨q, hq, rfl⟩ := List.mem_map.1 hp
  exact h.isovalues q hq

theorem keeps_rescale_mirrors (factor : Float) : Keeps (Mirrors named) (rescale factor) :=
  keeps_rescale_of Mirrors.rescaled

theorem Mirrors.setIsovalue (h : s.Mirrors named) (hz : Uuid) (value : Float) :
    ((setIsovalue hz value).runOn s).2.Mirrors named := by
  unfold Build.setIsovalue
  rw [runOn_bind, runOn_get]
  dsimp only
  rw [runOn_bind, runOn_check]
  cases hc : s.stack.horizon hz with
  | error e => exact h
  | ok c =>
    refine ⟨h.nodes, fun p hp => ?_, h.kinds, h.distinct⟩
    rcases List.mem_append.1 hp with hp | hp
    · exact h.isovalues p (List.mem_filter.1 hp).1
    · rw [List.mem_singleton.1 hp]
      exact Catalog.kindOf?_of_getOfKind hc

theorem Mirrors.setLocator (h : s.Mirrors named) (p : LocatorParams) :
    ((setLocator p).runOn s).2.Mirrors named :=
  ⟨h.nodes, h.isovalues, h.kinds, h.distinct⟩

/-- Copying into a model with an empty stack and no isovalues: the copy
mirrors its stack as the source does. -/
theorem Mirrors.copy {src : StratigraphicModel} (h : s.Mirrors named) (hsrc : src.Mirrors named) :
    ((copy src).runOn s).2.Mirrors named := by
  unfold Build.copy
  rw [runOn_bind, runOn_get]
  dsimp only
  split
  · rw [runOn_bind, runOn_throw]
    exact h
  · next hne =>
    simp only [Bool.or_eq_true, Bool.not_eq_true', not_or, Bool.not_eq_false] at hne
    obtain ⟨hs, hi⟩ := hne
    rw [runOn_bind, runOn_onModel]
    cases hm : s.model.copyInto src.model with
    | error e => exact h
    | ok m =>
      obtain rfl := Model.copyInto_eq_ok hm
      dsimp only
      rw [runOn_bind, runOn_onStack]
      cases ht : s.stack.copyInto src.stack with
      | error e =>
        exact mirrors_of_nil (by simpa [Catalog.isEmpty_eq] using hs)
          (by simpa [List.isEmpty_iff] using hi)
      | ok t =>
        unfold HorizonStack.copyInto at ht
        rw [if_neg (by simp [hs])] at ht
        cases ht
        exact ⟨hsrc.nodes, hsrc.isovalues, hsrc.kinds.of_catalog rfl, hsrc.distinct⟩

/-! ## Every edit keeps the mirror -/

/-- The stratigraphic models the stratigraphic builder reaches from a new one
or from a geological model, leaving the stack to its own edits: by the locked
model builder, by copies into the model, by the stratigraphic edits, whatever
they did before failing, and by copies of models reached the same way. New
horizons and units, and the nodes of a split, get identifiers neither the
model nor the stack holds. The flag says that every stack that replaced the
stack agreed with the model on the nodes the model held. -/
inductive Edited : Bool → StratigraphicModel → Prop
  | empty (dim : Nat) : Edited true (empty dim)
  | ofModel (m : Model) : Edited true (ofModel m)
  | model {named : Bool} {s : StratigraphicModel} {m : Model} (hr : Edited named s)
      (hs : Model.Step true s.model m) : Edited named { s with model := m }
  | copyModel {named : Bool} {s : StratigraphicModel} {src m : Model} (hr : Edited named s)
      (h : s.model.copyInto src = .ok m) : Edited named { s with model := m }
  | addHorizon {named : Bool} {s : StratigraphicModel} (id : Uuid) (hr : Edited named s)
      (hfresh : s.model.catalog.contains id = false) : Edited named ((addHorizon id).runOn s).2
  | addUnit {named : Bool} {s : StratigraphicModel} (id : Uuid) (hr : Edited named s)
      (hfresh : s.model.catalog.contains id = false) : Edited named ((addUnit id).runOn s).2
  | setHorizonName {named : Bool} {s : StratigraphicModel} (id : Uuid) (name : String)
      (hr : Edited named s) : Edited named ((setHorizonName id name).runOn s).2
  | setHorizonType {named : Bool} {s : StratigraphicModel} (id : Uuid) (ty : HorizonType)
      (hr : Edited named s) : Edited named ((setHorizonType id ty).runOn s).2
  | setUnitName {named : Bool} {s : StratigraphicModel} (id : Uuid) (name : String)
      (hr : Edited named s) : Edited named ((setUnitName id name).runOn s).2
  | removeHorizon {named : Bool} {s : StratigraphicModel} (id : Uuid) (hr : Edited named s) :
      Edited named ((removeHorizon id).runOn s).2
  | removeUnit {named : Bool} {s : StratigraphicModel} (id : Uuid) (hr : Edited named s) :
      Edited named ((removeUnit id).runOn s).2
  | addHorizonUnder {named : Bool} {s : StratigraphicModel} (horizon unit : Uuid)
      (hr : Edited named s) : Edited named ((addHorizonUnder horizon unit).runOn s).2
  | addHorizonAbove {named : Bool} {s : StratigraphicModel} (horizon unit : Uuid)
      (hr : Edited named s) : Edited named ((addHorizonAbove horizon unit).runOn s).2
  | splitUnit {named : Bool} {s : StratigraphicModel} (unit : Uuid) (sp : HorizonStack.UnitSplit)
      (hr : Edited named s) (hf : sp.Fresh s.stack.catalog unit)
      (hfm : ∀ y ∈ [sp.horizon, sp.unitAbove, sp.unitUnder], s.model.catalog.contains y = false) :
      Edited named ((splitUnit unit sp).runOn s).2
  | setStack {named : Bool} {s : StratigraphicModel} {b : Bool} {k : HorizonStack}
      (hr : Edited named s) (hk : HorizonStack.Reachable b k) :
      Edited (named && s.model.catalog.agrees k.catalog) ((setStack k).runOn s).2
  | setCoordinates {named : Bool} {s : StratigraphicModel} (item : Uuid) (vertex : Nat) (p : Point)
      (hr : Edited named s) : Edited named ((setCoordinates item vertex p).runOn s).2
  | setLocation {named : Bool} {s : StratigraphicModel} (item : Uuid) (vertex : Nat)
      (location : List Float) (hr : Edited named s) :
      Edited named ((setLocation item vertex location).runOn s).2
  | setImplicit {named : Bool} {s : StratigraphicModel} (item : Uuid) (vertex : Nat) (value : Float)
      (hr : Edited named s) : Edited named ((setImplicit item vertex value).runOn s).2
  | implicitFromField {named : Bool} {s : StratigraphicModel} (item : Uuid) (field : String)
      (hr : Edited named s) : Edited named ((implicitFromField item field).runOn s).2
  | locationFromAxes {named : Bool} {s : StratigraphicModel} (axis : Nat) (hr : Edited named s) :
      Edited named ((locationFromAxes axis).runOn s).2
  | rescale {named : Bool} {s : StratigraphicModel} (factor : Float) (hr : Edited named s) :
      Edited named ((rescale factor).runOn s).2
  | rescaleToBox {named : Bool} {s : StratigraphicModel} (hr : Edited named s) :
      Edited named (rescaleToBox.runOn s).2
  | setIsovalue {named : Bool} {s : StratigraphicModel} (h : Uuid) (value : Float)
      (hr : Edited named s) : Edited named ((setIsovalue h value).runOn s).2
  | setLocator {named : Bool} {s : StratigraphicModel} (p : LocatorParams) (hr : Edited named s) :
      Edited named ((setLocator p).runOn s).2
  | copy {named named' : Bool} {s src : StratigraphicModel} (hr : Edited named s)
      (hsrc : Edited named' src) : Edited (named && named') ((copy src).runOn s).2

theorem Edited.mirrors (h : s.Edited named) : s.Mirrors named := by
  induction h with
  | empty dim => exact mirrors_of_nil rfl rfl
  | ofModel m => exact mirrors_of_nil rfl rfl
  | model _ hs ih => exact ih.model hs
  | copyModel _ hc ih => exact ih.copyModel hc
  | addHorizon id _ hfresh ih => exact ih.addNode (.inl rfl) hfresh
  | addUnit id _ hfresh ih => exact ih.addNode (.inr rfl) hfresh
  | setHorizonName id name _ ih => exact ih.setHorizonName name
  | setHorizonType id ty _ ih => exact ih.setHorizonType ty
  | setUnitName id name _ ih => exact ih.setUnitName name
  | removeHorizon id _ ih => exact ih.removeHorizon
  | removeUnit id _ ih => exact ih.removeUnit
  | addHorizonUnder horizon unit _ ih => exact ih.addHorizonUnder horizon unit
  | addHorizonAbove horizon unit _ ih => exact ih.addHorizonAbove horizon unit
  | splitUnit unit sp _ hf hfm ih => exact ih.splitUnit hf hfm
  | setStack _ hk ih => exact ih.setStack hk
  | setCoordinates item vertex p _ ih =>
    exact (keeps_setCoordinates_of keeps_onCell_mirrors item vertex p).run ih
  | setLocation item vertex location _ ih =>
    exact (keeps_setLocation_of keeps_onCell_mirrors item vertex location).run ih
  | setImplicit item vertex value _ ih =>
    exact (keeps_setImplicit_of keeps_onCell_mirrors item vertex value).run ih
  | implicitFromField item field _ ih =>
    exact (keeps_implicitFromField_of keeps_onCell_mirrors item field).run ih
  | locationFromAxes axis _ ih => exact (keeps_locationFromAxes_of keeps_onCell_mirrors axis).run ih
  | rescale factor _ ih => exact (keeps_rescale_mirrors factor).run ih
  | rescaleToBox _ ih => exact (keeps_rescaleToBox_of keeps_rescale_mirrors).run ih
  | setIsovalue h value _ ih => exact ih.setIsovalue h value
  | setLocator p _ ih => exact ih.setLocator p
  | copy _ _ ih ihsrc =>
    exact (ih.mono fun hb => (Bool.and_eq_true_iff.1 hb).1).copy
      (ihsrc.mono fun hb => (Bool.and_eq_true_iff.1 hb).2)

/-- **The stack is mirrored in the model** all along the stratigraphic
builder: every node of the stack is a component of the model with its
identifier and kind, and with its name and type as long as every stack set
agreed with the model; every horizon with an isovalue is a horizon of the
stack. -/
theorem edited_stack_mirrored (h : s.Edited named) :
    (∀ c ∈ s.stack.catalog.components, ∃ c', s.model.component c.id = .ok c' ∧ c'.id = c.id ∧
      c'.kind = c.kind ∧ (named = true → c'.name = c.name ∧ c'.type = c.type)) ∧
    ∀ p ∈ s.isovalues, ∃ c, s.stack.horizon p.1 = .ok c := by
  have hm := h.mirrors
  refine ⟨fun c hc => ?_, fun p hp => ?_⟩
  · obtain ⟨c', hg, hk, hn⟩ := hm.nodes c.id c (hm.distinct.get?_of_mem hc)
    refine ⟨c', ?_, (Catalog.get?_eq_some hg).2, hk, fun hb => ?_⟩
    · show s.model.catalog.get c.id = .ok c'
      unfold Catalog.get
      rw [hg]
    · rw [hn hb]
      exact ⟨rfl, rfl⟩
  · obtain ⟨c, hc, hck⟩ := Catalog.get_of_kindOf? (hm.isovalues p hp)
    exact ⟨c, Catalog.getOfKind_eq_ok.2 ⟨Catalog.get?_of_get hc, hck⟩⟩

/-- A cross-section with one horizon. -/
def withOneHorizon : StratigraphicModel := ((addHorizon (Uuid.ofNat 0)).runOn (empty 2)).2

theorem layeredStrat_edited : layeredStrat.Edited true := by
  have h1 := Edited.addHorizon (Uuid.ofNat 5) (.ofModel Model.layeredSection) (by decide)
  have h2 := Edited.addUnit (Uuid.ofNat 6) h1 (by decide +kernel)
  exact .setIsovalue _ _ (.addHorizonUnder _ _ h2)

theorem layeredStrat_mirrored :
    (layeredStrat.stack.catalog.components.map (·.id) = [Uuid.ofNat 5, Uuid.ofNat 6] ∧
      layeredStrat.isovalues.map (·.1) = [Uuid.ofNat 5] ∧ layeredStrat.model.meshes.length = 3) ∧
    layeredStrat.Edited true ∧
    ((∀ c ∈ layeredStrat.stack.catalog.components, ∃ c',
      layeredStrat.model.component c.id = .ok c' ∧ c'.id = c.id ∧ c'.kind = c.kind ∧
        (true = true → c'.name = c.name ∧ c'.type = c.type)) ∧
      ∀ p ∈ layeredStrat.isovalues, ∃ c, layeredStrat.stack.horizon p.1 = .ok c) :=
  ⟨by decide +kernel, layeredStrat_edited, edited_stack_mirrored layeredStrat_edited⟩

/-- The stack builder's stack of one horizon, renamed. -/
def renamedHorizonStack : HorizonStack :=
  let t := (HorizonStack.empty 2).after ((HorizonStack.empty 2).addNodeWithId .horizon (Uuid.ofNat 0))
  t.after (t.setHorizonName (Uuid.ofNat 0) "renamed")

/-- Replacing the stack by a stack that renamed a horizon of the model keeps
the model's name: the stack and the model name the horizon differently. -/
theorem set_stack_keeps_model_name :
    ((setStack renamedHorizonStack).runOn withOneHorizon).2.Edited false ∧
    ((setStack renamedHorizonStack).runOn withOneHorizon).2.stack.catalog.get? (Uuid.ofNat 0) =
      some ⟨Uuid.ofNat 0, .horizon, "renamed", none⟩ ∧
    ((setStack renamedHorizonStack).runOn withOneHorizon).2.model.component (Uuid.ofNat 0) =
      .ok ⟨Uuid.ofNat 0, .horizon, "unknown", none⟩ := by
  have hk : HorizonStack.Reachable true renamedHorizonStack :=
    .step (.step (.empty 2) (.addHorizonWithId (Uuid.ofNat 0))) (.setHorizonName (Uuid.ofNat 0) "renamed")
  have hE : Edited (true && withOneHorizon.model.catalog.agrees renamedHorizonStack.catalog)
      ((setStack renamedHorizonStack).runOn withOneHorizon).2 :=
    .setStack (.addHorizon (Uuid.ofNat 0) (.empty 2) rfl) hk
  -- the model's horizon keeps the default name, which the new stack's lost
  have hflag : (true && withOneHorizon.model.catalog.agrees renamedHorizonStack.catalog) = false :=
    by decide
  rw [hflag] at hE
  exact ⟨hE, rfl, rfl⟩

end StratigraphicModel

end Subsurface
