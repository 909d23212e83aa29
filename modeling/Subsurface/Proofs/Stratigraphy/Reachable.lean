import Subsurface.Proofs.Stratigraphy.Build
/-!
The stores of every geological model the builders reach agree.

A geological model is reached from a new model by the edits of the model
builder, a failed edit leaving it as it was, and by copies of models reached
the same way (`Model.Reachable`). A stratigraphic model is reached from a new
one or from a reachable geological model, and then by the edits of its
locked model builder, by the stack builder's calls on its stack, by copies,
and by the stratigraphic edits, which keep what they did before a failure
(`StratigraphicModel.Reachable`). In both, every membership joins a
collection to an item of the kind it gathers, every boundary and internal
edge joins a cell to a facet, no facet both bounds a cell and lies inside
it, the meshes are kept exactly for the registered items and have their
shapes, and only the two item kinds of the dimension are registered
(`reachable_model_consistent`).
-/

namespace Subsurface

namespace Model

/-- One edit of the model builder that goes through; `locked` refuses
renaming, retyping and removing horizons and units. Collections get kinds
that gather items, an item gets a mesh of its shape, and a fresh identifier
is one no component has. -/
inductive Step (locked : Bool) : Model → Model → Prop
  | addCollection {m : Model} {k : ComponentKind} {id : Uuid} (hk : k.isCollection = true)
      (hfresh : m.catalog.contains id = false) : Step locked m (m.addCollection k id)
  | addCollectionWithId {m m' : Model} {k : ComponentKind} {id : Uuid}
      (hk : k.isCollection = true) (h : m.addCollectionWithId k id = .ok m') : Step locked m m'
  | setName {m m' : Model} {id : Uuid} {k : ComponentKind} {name : String}
      (h : m.setName locked id k name = .ok m') : Step locked m m'
  | setFaultType {m m' : Model} {id : Uuid} {t : FaultType}
      (h : m.setFaultType id t = .ok m') : Step locked m m'
  | setHorizonType {m m' : Model} {id : Uuid} {t : HorizonType}
      (h : m.setHorizonType locked id t = .ok m') : Step locked m m'
  | removeComponent {m m' : Model} {id : Uuid} {k : ComponentKind}
      (h : m.removeComponent locked id k = .ok m') : Step locked m m'
  | addItem {m m' : Model} {k : ComponentKind} {id : Uuid} {fresh : Bool} {mesh : SimplexMesh}
      (hk : itemKindOf mesh.kind = k) (hfresh : fresh = true → m.catalog.contains id = false)
      (h : m.addItem k id fresh mesh = .ok m') : Step locked m m'
  | setItemMesh {m m' : Model} {id : Uuid} {mesh : SimplexMesh}
      (h : m.setItemMesh id mesh = .ok m') : Step locked m m'
  | editAttributes {m m' : Model} {id : Uuid} {α : Type}
      {f : VertexAttributes → Except Error (α × VertexAttributes)} {a : α}
      (h : m.editAttributes id f = .ok (a, m')) : Step locked m m'
  | addItemInCollection {m m' : Model} {item collection : Uuid}
      (h : m.addItemInCollection item collection = .ok m') : Step locked m m'
  | removeItemFromCollection {m : Model} (item collection : Uuid) :
      Step locked m (m.removeItemFromCollection item collection).2
  | addTyped {m m' : Model} {item collection : Uuid} {ki kc : ComponentKind}
      (h : m.addTyped item ki collection kc = .ok m') : Step locked m m'
  | addBoundary {m m' : Model} {boundary incident : Uuid}
      (h : m.addBoundary boundary incident = .ok m') : Step locked m m'
  | addInternal {m m' : Model} {internal embedding : Uuid}
      (h : m.addInternal internal embedding = .ok m') : Step locked m m'
  | removeBoundary {m : Model} (boundary incident : Uuid) :
      Step locked m (m.removeBoundary boundary incident).2
  | removeInternal {m : Model} (internal embedding : Uuid) :
      Step locked m (m.removeInternal internal embedding).2
  | setCrs {m : Model} (crs : CrsInfo) : Step locked m (m.setCrs crs)
  | convertCrs {m m' : Model} {transform : CoordinateTransform} {target : CrsInfo}
      (h : m.convertCrs transform target = .ok m') : Step locked m m'

/-- The models the model builder reaches from a new model. A failed edit
leaves the model as it was, so only edits that go through are steps; a copy
takes a reached model of the same dimension. -/
inductive Reachable : Model → Prop
  | empty (dim : Nat) : Reachable (empty dim)
  | step {m m' : Model} (hr : Reachable m) (hs : Step false m m') : Reachable m'
  | copy {m src m' : Model} (hr : Reachable m) (hsrc : Reachable src) (hdim : src.dim = m.dim)
      (h : m.copyInto src = .ok m') : Reachable m'

variable {m m' : Model} {locked : Bool}

theorem Inv.step (h : m.Inv) (hs : Step locked m m') : m'.Inv := by
  cases hs with
  | addCollection hk hfresh => exact h.addCollection hk hfresh
  | addCollectionWithId hk hs => exact h.addCollectionWithId hk hs
  | setName hs => exact h.setName hs
  | setFaultType hs => exact h.setFaultType hs
  | setHorizonType hs => exact h.setHorizonType hs
  | removeComponent hs => exact h.removeComponent hs
  | addItem hk hfresh hs => exact h.addItem hk hfresh hs
  | setItemMesh hs => exact h.setItemMesh hs
  | editAttributes hs => exact h.editAttributes hs
  | addItemInCollection hs => exact h.addItemInCollection hs
  | removeItemFromCollection item collection => exact h.removeItemFromCollection item collection
  | addTyped hs => exact h.addTyped hs
  | addBoundary hs => exact h.addBoundary hs
  | addInternal hs => exact h.addInternal hs
  | removeBoundary boundary incident => exact h.removeBoundary boundary incident
  | removeInternal internal embedding => exact h.removeInternal internal embedding
  | setCrs crs => exact h.setCrs crs
  | convertCrs hs => exact h.convertCrs hs

theorem Reachable.inv (h : m.Reachable) : m.Inv := by
  induction h with
  | empty dim => exact inv_empty dim
  | step _ hs ih => exact ih.step hs
  | copy _ _ hdim hc _ ihsrc => exact ihsrc.copyInto hdim hc

end Model

namespace StratigraphicModel

open Build

/-- The stratigraphic models reached from a new one or from a reached
geological model: by the locked model builder, by copies of reached models
into the geological model, by the stack builder's calls on the stack and
copies of reached stacks into it, and by the stratigraphic edits, whatever
they did before failing. New horizons and units get identifiers the model
lacks, and a split draws identifiers the stack lacks. -/
inductive Reachable : StratigraphicModel → Prop
  | empty (dim : Nat) : Reachable (empty dim)
  | ofModel {m : Model} (hm : m.Reachable) : Reachable (ofModel m)
  | model {s : StratigraphicModel} {m : Model} (hr : Reachable s) (hs : Model.Step true s.model m) :
      Reachable { s with model := m }
  | copyModel {s : StratigraphicModel} {src m : Model} (hr : Reachable s) (hsrc : src.Reachable)
      (hdim : src.dim = s.model.dim) (h : s.model.copyInto src = .ok m) :
      Reachable { s with model := m }
  | stack {s : StratigraphicModel} {b : Bool} {k : HorizonStack} (hr : Reachable s)
      (hs : HorizonStack.Step s.stack b k) : Reachable { s with stack := k }
  | copyStack {s : StratigraphicModel} {b : Bool} {src : HorizonStack} (hr : Reachable s)
      (hsrc : HorizonStack.Reachable b src) :
      Reachable { s with stack := s.stack.after (s.stack.copyInto src) }
  | addHorizon {s : StratigraphicModel} (id : Uuid) (hr : Reachable s)
      (hfresh : s.model.catalog.contains id = false) : Reachable ((addHorizon id).runOn s).2
  | addUnit {s : StratigraphicModel} (id : Uuid) (hr : Reachable s)
      (hfresh : s.model.catalog.contains id = false) : Reachable ((addUnit id).runOn s).2
  | setHorizonName {s : StratigraphicModel} (id : Uuid) (name : String) (hr : Reachable s) :
      Reachable ((setHorizonName id name).runOn s).2
  | setHorizonType {s : StratigraphicModel} (id : Uuid) (ty : HorizonType) (hr : Reachable s) :
      Reachable ((setHorizonType id ty).runOn s).2
  | setUnitName {s : StratigraphicModel} (id : Uuid) (name : String) (hr : Reachable s) :
      Reachable ((setUnitName id name).runOn s).2
  | removeHorizon {s : StratigraphicModel} (id : Uuid) (hr : Reachable s) :
      Reachable ((removeHorizon id).runOn s).2
  | removeUnit {s : StratigraphicModel} (id : Uuid) (hr : Reachable s) :
      Reachable ((removeUnit id).runOn s).2
  | addHorizonUnder {s : StratigraphicModel} (horizon unit : Uuid) (hr : Reachable s) :
      Reachable ((addHorizonUnder horizon unit).runOn s).2
  | addHorizonAbove {s : StratigraphicModel} (horizon unit : Uuid) (hr : Reachable s) :
      Reachable ((addHorizonAbove horizon unit).runOn s).2
  | splitUnit {s : StratigraphicModel} (unit : Uuid) (sp : HorizonStack.UnitSplit)
      (hr : Reachable s) (hf : sp.Fresh s.stack.catalog unit) :
      Reachable ((splitUnit unit sp).runOn s).2
  | setStack {s : StratigraphicModel} {b : Bool} {k : HorizonStack} (hr : Reachable s)
      (hk : HorizonStack.Reachable b k) : Reachable ((setStack k).runOn s).2
  | setCoordinates {s : StratigraphicModel} (item : Uuid) (vertex : Nat) (p : Point)
      (hr : Reachable s) : Reachable ((setCoordinates item vertex p).runOn s).2
  | setLocation {s : StratigraphicModel} (item : Uuid) (vertex : Nat) (location : List Float)
      (hr : Reachable s) : Reachable ((setLocation item vertex location).runOn s).2
  | setImplicit {s : StratigraphicModel} (item : Uuid) (vertex : Nat) (value : Float)
      (hr : Reachable s) : Reachable ((setImplicit item vertex value).runOn s).2
  | implicitFromField {s : StratigraphicModel} (item : Uuid) (field : String) (hr : Reachable s) :
      Reachable ((implicitFromField item field).runOn s).2
  | locationFromAxes {s : StratigraphicModel} (axis : Nat) (hr : Reachable s) :
      Reachable ((locationFromAxes axis).runOn s).2
  | rescale {s : StratigraphicModel} (factor : Float) (hr : Reachable s) :
      Reachable ((rescale factor).runOn s).2
  | rescaleToBox {s : StratigraphicModel} (hr : Reachable s) : Reachable (rescaleToBox.runOn s).2
  | setIsovalue {s : StratigraphicModel} (h : Uuid) (value : Float) (hr : Reachable s) :
      Reachable ((setIsovalue h value).runOn s).2
  | setLocator {s : StratigraphicModel} (p : LocatorParams) (hr : Reachable s) :
      Reachable ((setLocator p).runOn s).2
  | copy {s src : StratigraphicModel} (hr : Reachable s) (hsrc : Reachable src)
      (hdim : src.dim = s.dim) : Reachable ((copy src).runOn s).2

variable {s : StratigraphicModel}

theorem Reachable.inv (h : s.Reachable) : s.Inv := by
  induction h with
  | empty dim => exact inv_empty dim
  | ofModel hm => exact inv_ofModel hm.inv
  | model _ hs ih => exact ⟨ih.model.step hs, ih.stack⟩
  | copyModel _ hsrc hdim hc ih => exact ⟨hsrc.inv.copyInto hdim hc, ih.stack⟩
  | stack _ hs ih =>
    obtain ⟨b, hw⟩ := ih.stack
    exact ⟨ih.model, _, hw.step hs⟩
  | @copyStack s b' src _ hsrc ih =>
    obtain ⟨b, hw⟩ := ih.stack
    refine ⟨ih.model, b && b', (hw.weaken fun hb => (Bool.and_eq_true_iff.1 hb).1).after fun _ hc => ?_⟩
    exact (hsrc.wellFormed.copyInto hc).weaken fun hb => (Bool.and_eq_true_iff.1 hb).2
  | addHorizon id _ hfresh ih => exact inv_addHorizon ih hfresh
  | addUnit id _ hfresh ih => exact inv_addUnit ih hfresh
  | setHorizonName id name _ ih => exact (keeps_setHorizonName id name).run ih
  | setHorizonType id ty _ ih => exact (keeps_setHorizonType id ty).run ih
  | setUnitName id name _ ih => exact (keeps_setUnitName id name).run ih
  | removeHorizon id _ ih => exact (keeps_removeHorizon id).run ih
  | removeUnit id _ ih => exact (keeps_removeUnit id).run ih
  | addHorizonUnder horizon unit _ ih => exact (keeps_addHorizonUnder horizon unit).run ih
  | addHorizonAbove horizon unit _ ih => exact (keeps_addHorizonAbove horizon unit).run ih
  | splitUnit unit sp _ hf ih => exact inv_splitUnit ih hf
  | setStack _ hk ih => exact (keeps_setStack ⟨_, hk.wellFormed⟩).run ih
  | setCoordinates item vertex p _ ih => exact (keeps_setCoordinates item vertex p).run ih
  | setLocation item vertex location _ ih => exact (keeps_setLocation item vertex location).run ih
  | setImplicit item vertex value _ ih => exact (keeps_setImplicit item vertex value).run ih
  | implicitFromField item field _ ih => exact (keeps_implicitFromField item field).run ih
  | locationFromAxes axis _ ih => exact (keeps_locationFromAxes axis).run ih
  | rescale factor _ ih => exact (keeps_rescale factor).run ih
  | rescaleToBox _ ih => exact keeps_rescaleToBox.run ih
  | setIsovalue h value _ ih => exact (keeps_setIsovalue h value).run ih
  | setLocator p _ ih => exact (keeps_setLocator p).run ih
  | copy _ _ hdim ih ihsrc => exact ((keeps_copy ihsrc).run ⟨ih, hdim.symm⟩).1

end StratigraphicModel

namespace Model

/-- **The stores of every geological model the builders reach agree**, the
model being edited on its own or inside a stratigraphic model: every
membership joins a registered collection to a registered item of the kind
the collection gathers; every boundary and internal edge joins a registered
cell to a registered facet; no facet both bounds a cell and lies inside it;
the mesh table has one entry for each registered item and no other, of the
item's shape; only the item kinds of the dimension are registered; and so no
relation mentions an unregistered component. -/
theorem reachable_model_consistent {m : Model}
    (h : m.Reachable ∨ ∃ s : StratigraphicModel, s.Reachable ∧ s.model = m) :
    (∀ c i, m.isItemInCollection i c = true → ∃ cc ci, m.component c = .ok cc ∧
      m.component i = .ok ci ∧ gatheredKind m.dim cc.kind = some ci.kind) ∧
    (∀ c f, m.isBoundary f c = true ∨ m.isInternal f c = true → ∃ cc cf,
      m.component c = .ok cc ∧ m.component f = .ok cf ∧ cc.kind = cellKind m.dim ∧
        cf.kind = facetKind m.dim) ∧
    (∀ c f, ¬(m.isBoundary f c = true ∧ m.isInternal f c = true)) ∧
    (m.meshes.map (·.1)).Nodup ∧
    (∀ id, id ∈ m.meshes.map (·.1) ↔ ∃ c, m.component id = .ok c ∧ c.kind.isItem = true) ∧
    (∀ id x, m.mesh id = .ok x → ∃ c, m.component id = .ok c ∧ c.kind = itemKindOf x.kind) ∧
    (∀ id c, m.component id = .ok c → c.kind.isItem = true →
      supportsItemKind m.dim c.kind = true) ∧
    (∀ p c, m.membership.hasEdge p c = true ∨ m.boundaries.hasEdge p c = true ∨
      m.internals.hasEdge p c = true → m.hasComponent p = true ∧ m.hasComponent c = true) := by
  have hinv : m.Inv := by
    rcases h with h | ⟨s, hs, rfl⟩
    · exact h.inv
    · exact hs.inv.model
  exact ⟨fun _ _ he => hinv.collection_item he, fun _ _ he => hinv.cell_facet he,
    hinv.not_boundary_and_internal, hinv.keys_nodup, fun _ => hinv.mem_keys_iff,
    fun _ _ hx => hinv.mesh_item hx, fun _ _ hc hi => hinv.item_supported hc hi,
    fun _ _ he => hinv.registered he⟩

/-- A right triangle whose vertices carry a stratigraphic location and an
implicit value: the implicit value grows from its base to its apex. -/
def layeredTriangle : SimplexMesh :=
  ⟨.surface, #[#[0, 0], #[1, 0], #[0, 1]].map Point.encode, #[[0, 1, 2]],
    ⟨3, [(Stratigraphy.implicitKey,
        ⟨1, #[Binary64.ofFloat 0, Binary64.ofFloat 0, Binary64.ofFloat 1], #[true, true, true]⟩),
      (Stratigraphy.locationKey,
        ⟨1, #[Binary64.ofFloat 0, Binary64.ofFloat 1, Binary64.ofFloat 0], #[true, true, true]⟩)]⟩⟩

/-- The base of the triangle. -/
def baseSegment : SimplexMesh :=
  ⟨.curve, #[#[0, 0], #[1, 0]].map Point.encode, #[[0, 1]], ⟨2, []⟩⟩

/-- A segment inside the triangle. -/
def innerSegment : SimplexMesh :=
  ⟨.curve, #[#[0.25, 0.25], #[0.5, 0.25]].map Point.encode, #[[0, 1]], ⟨2, []⟩⟩

/-- A cross-section with a horizon gathering the base of a triangle, a unit
gathering the triangle, the base bounding the triangle and a second line
inside it. -/
def layeredSection : Model :=
  { Model.empty 2 with
    catalog := ⟨[.new (Uuid.ofNat 0) .horizon, .new (Uuid.ofNat 1) .stratigraphicUnit,
      .new (Uuid.ofNat 2) .line, .new (Uuid.ofNat 3) .surface, .new (Uuid.ofNat 4) .line]⟩
    membership := ((Relation.empty.addEdge (Uuid.ofNat 0) (Uuid.ofNat 2)).2.addEdge
      (Uuid.ofNat 1) (Uuid.ofNat 3)).2
    boundaries := (Relation.empty.addEdge (Uuid.ofNat 3) (Uuid.ofNat 2)).2
    internals := (Relation.empty.addEdge (Uuid.ofNat 3) (Uuid.ofNat 4)).2
    meshes := [(Uuid.ofNat 2, baseSegment), (Uuid.ofNat 3, layeredTriangle),
      (Uuid.ofNat 4, innerSegment)] }

/-- The model builder reaches the section: two collections, three items with
their meshes, two memberships, a boundary and an internal line. -/
theorem layeredSection_reachable : layeredSection.Reachable := by
  have hn : false = true → ∀ (c : Catalog) id, c.contains id = false :=
    fun h => absurd h Bool.false_ne_true
  have h0 := (Reachable.empty 2).step
    (@Step.addCollection false _ .horizon (Uuid.ofNat 0) rfl (by decide))
  have h1 := h0.step (@Step.addCollection false _ .stratigraphicUnit (Uuid.ofNat 1) rfl (by decide))
  have h2 := h1.step (@Step.addItem false _ _ .line (Uuid.ofNat 2) false baseSegment rfl
    (fun h => hn h _ _) rfl)
  have h3 := h2.step (@Step.addItem false _ _ .surface (Uuid.ofNat 3) false layeredTriangle rfl
    (fun h => hn h _ _) rfl)
  have h4 := h3.step (@Step.addItem false _ _ .line (Uuid.ofNat 4) false innerSegment rfl
    (fun h => hn h _ _) rfl)
  have h5 := h4.step (@Step.addItemInCollection false _ _ (Uuid.ofNat 2) (Uuid.ofNat 0) rfl)
  have h6 := h5.step (@Step.addItemInCollection false _ _ (Uuid.ofNat 3) (Uuid.ofNat 1) rfl)
  have h7 := h6.step (@Step.addBoundary false _ _ (Uuid.ofNat 2) (Uuid.ofNat 3) rfl)
  exact h7.step (@Step.addInternal false _ _ (Uuid.ofNat 4) (Uuid.ofNat 3) rfl)

theorem layeredSection_consistent :
    (layeredSection.isItemInCollection (Uuid.ofNat 2) (Uuid.ofNat 0) = true ∧
      layeredSection.isItemInCollection (Uuid.ofNat 3) (Uuid.ofNat 1) = true ∧
      layeredSection.isBoundary (Uuid.ofNat 2) (Uuid.ofNat 3) = true ∧
      layeredSection.isInternal (Uuid.ofNat 4) (Uuid.ofNat 3) = true ∧
      layeredSection.meshes.length = 3) ∧
    (layeredSection.Reachable ∨ ∃ s : StratigraphicModel, s.Reachable ∧ s.model = layeredSection) ∧
    (∀ c i, layeredSection.isItemInCollection i c = true → ∃ cc ci,
      layeredSection.component c = .ok cc ∧ layeredSection.component i = .ok ci ∧
        gatheredKind layeredSection.dim cc.kind = some ci.kind) ∧
    (∀ c f, layeredSection.isBoundary f c = true ∨ layeredSection.isInternal f c = true → ∃ cc cf,
      layeredSection.component c = .ok cc ∧ layeredSection.component f = .ok cf ∧
        cc.kind = cellKind layeredSection.dim ∧ cf.kind = facetKind layeredSection.dim) ∧
    (∀ c f, ¬(layeredSection.isBoundary f c = true ∧ layeredSection.isInternal f c = true)) ∧
    (layeredSection.meshes.map (·.1)).Nodup ∧
    (∀ id, id ∈ layeredSection.meshes.map (·.1) ↔
      ∃ c, layeredSection.component id = .ok c ∧ c.kind.isItem = true) ∧
    (∀ id x, layeredSection.mesh id = .ok x →
      ∃ c, layeredSection.component id = .ok c ∧ c.kind = itemKindOf x.kind) ∧
    (∀ id c, layeredSection.component id = .ok c → c.kind.isItem = true →
      supportsItemKind layeredSection.dim c.kind = true) ∧
    (∀ p c, layeredSection.membership.hasEdge p c = true ∨
      layeredSection.boundaries.hasEdge p c = true ∨ layeredSection.internals.hasEdge p c = true →
        layeredSection.hasComponent p = true ∧ layeredSection.hasComponent c = true) :=
  have h : layeredSection.Reachable ∨
      ∃ s : StratigraphicModel, s.Reachable ∧ s.model = layeredSection :=
    .inl layeredSection_reachable
  ⟨by decide, h, reachable_model_consistent h⟩

end Model

namespace StratigraphicModel

open Build

/-- The layered cross-section given a stack: a new horizon under a new unit,
the horizon at isovalue 0. -/
def layeredStrat : StratigraphicModel :=
  let s := ofModel Model.layeredSection
  let s := ((addHorizon (Uuid.ofNat 5)).runOn s).2
  let s := ((addUnit (Uuid.ofNat 6)).runOn s).2
  let s := ((addHorizonUnder (Uuid.ofNat 5) (Uuid.ofNat 6)).runOn s).2
  ((setIsovalue (Uuid.ofNat 5) 0).runOn s).2

theorem layeredStrat_reachable : layeredStrat.Reachable := by
  have h1 := Reachable.addHorizon (Uuid.ofNat 5) (.ofModel Model.layeredSection_reachable)
    (by decide)
  have h2 := Reachable.addUnit (Uuid.ofNat 6) h1 (by decide +kernel)
  exact .setIsovalue _ _ (.addHorizonUnder _ _ h2)

end StratigraphicModel

end Subsurface
