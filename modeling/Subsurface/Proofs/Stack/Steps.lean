import Subsurface.Proofs.Stack.Column
/-!
What each edit of a horizon stack keeps.

Besides the links and the state, a stack keeps its erosions and baselaps
between registered nodes (`RelationsOK`): recording one checks both nodes,
and removing a node drops every relation it is in.

Splitting a unit is the one edit made of other edits: it unlinks and removes
the unit, adds a horizon and two units, renames the units, links them to one
another and to the unit's neighbours, and hands the unit's erosions and
baselaps to the new units (`splitUnit_eq_ok`). Each link it makes joins a
horizon and a unit, so the links stay well formed. The erosions and baselaps
it hands over are read before the unit is removed, so an erosion of the unit
by itself, or a baselap of the unit onto itself, is handed over to the unit
that is no longer there: the relations stay between registered nodes only
when the unit split has no such relation (`RelationsOK.splitUnit`).
-/

namespace Subsurface

namespace HorizonStack

variable {s s' t : HorizonStack} {x y : Uuid}

/-! ## Renaming and retyping -/

/-- `s'` is `s` with one component renamed or retyped: its identifier and
kind stay. -/
def Relabels (s s' : HorizonStack) : Prop :=
  ∃ x f, (∀ z, (f z).id = z.id) ∧ (∀ z, (f z).kind = z.kind) ∧
    s' = { s with catalog := s.catalog.update x f }

theorem setHorizonName_relabels {n : String} (h : s.setHorizonName x n = .ok s') : Relabels s s' := by
  obtain ⟨c, hc, h⟩ := except_bind_eq_ok.1 h
  obtain ⟨-, rfl⟩ := Catalog.setName_eq_ok hc
  exact ⟨x, (·.rename n), fun _ => rfl, fun _ => rfl, (except_pure_eq_ok.1 h).symm⟩

theorem setUnitName_relabels {n : String} (h : s.setUnitName x n = .ok s') : Relabels s s' := by
  obtain ⟨c, hc, h⟩ := except_bind_eq_ok.1 h
  obtain ⟨-, rfl⟩ := Catalog.setName_eq_ok hc
  exact ⟨x, (·.rename n), fun _ => rfl, fun _ => rfl, (except_pure_eq_ok.1 h).symm⟩

theorem setHorizonType_relabels {ty : HorizonType} (h : s.setHorizonType x ty = .ok s') :
    Relabels s s' := by
  obtain ⟨c, hc, h⟩ := except_bind_eq_ok.1 h
  obtain ⟨-, rfl⟩ := Catalog.setType_eq_ok hc
  exact ⟨x, (·.retype (.horizon ty)), fun _ => rfl, fun _ => rfl, (except_pure_eq_ok.1 h).symm⟩

/-- Renaming a horizon renames it in the catalog, which must hold it as a
horizon. -/
theorem setHorizonName_eq_ok {n : String} (h : s.setHorizonName x n = .ok s') :
    s.catalog.kindOf? x = some .horizon ∧ s' = { s with catalog := s.catalog.update x (·.rename n) } := by
  obtain ⟨c, hc, h⟩ := except_bind_eq_ok.1 h
  obtain ⟨hk, rfl⟩ := Catalog.setName_eq_ok hc
  exact ⟨hk, (except_pure_eq_ok.1 h).symm⟩

theorem setUnitName_eq_ok {n : String} (h : s.setUnitName x n = .ok s') :
    s.catalog.kindOf? x = some .stratigraphicUnit ∧
      s' = { s with catalog := s.catalog.update x (·.rename n) } := by
  obtain ⟨c, hc, h⟩ := except_bind_eq_ok.1 h
  obtain ⟨hk, rfl⟩ := Catalog.setName_eq_ok hc
  exact ⟨hk, (except_pure_eq_ok.1 h).symm⟩

theorem setHorizonType_eq_ok {ty : HorizonType} (h : s.setHorizonType x ty = .ok s') :
    s.catalog.kindOf? x = some .horizon ∧
      s' = { s with catalog := s.catalog.update x (·.retype (.horizon ty)) } := by
  obtain ⟨c, hc, h⟩ := except_bind_eq_ok.1 h
  obtain ⟨hk, rfl⟩ := Catalog.setType_eq_ok hc
  exact ⟨hk, (except_pure_eq_ok.1 h).symm⟩

theorem Relabels.kindOf? (h : Relabels s s') : s'.catalog.kindOf? = s.catalog.kindOf? := by
  obtain ⟨x, f, hid, hkind, rfl⟩ := h
  exact Catalog.kindOf?_update hid hkind

theorem Relabels.contains (h : Relabels s s') : s'.catalog.contains = s.catalog.contains := by
  obtain ⟨x, f, hid, -, rfl⟩ := h
  exact Catalog.contains_update hid

theorem Relabels.frame (h : Relabels s s') : s'.aboveOf = s.aboveOf ∧ s'.underOf = s.underOf ∧
    s'.erosions = s.erosions ∧ s'.baselaps = s.baselaps := by
  obtain ⟨x, f, -, -, rfl⟩ := h
  exact ⟨rfl, rfl, rfl, rfl⟩

theorem LinksOK.relabel (h : s.LinksOK) (hr : Relabels s s') : s'.LinksOK := by
  obtain ⟨x, f, hid, hkind, rfl⟩ := hr
  exact h.update hid hkind

theorem StateOK.relabel (h : s.StateOK) (hr : Relabels s s') : s'.StateOK := by
  obtain ⟨x, f, hid, hkind, rfl⟩ := hr
  exact h.update hid hkind

/-! ## Adding nodes and relations -/

theorem addNodeWithId_eq_ok {k : ComponentKind} (h : s.addNodeWithId k x = .ok s') :
    s.catalog.contains x = false ∧ s' = s.addNode k x := by
  obtain ⟨c, hc, h⟩ := except_bind_eq_ok.1 h
  obtain ⟨hfresh, rfl⟩ := Catalog.insert_eq_ok hc
  exact ⟨hfresh, (except_pure_eq_ok.1 h).symm⟩

theorem addErosion_eq_ok (h : s.addErosion x y = .ok s') :
    s.catalog.contains x = true ∧ s.catalog.contains y = true ∧
      s' = { s with erosions := (s.erosions.addEdge x y).2 } := by
  obtain ⟨c, hc, h⟩ := except_bind_eq_ok.1 h
  obtain ⟨d, hd, h⟩ := except_bind_eq_ok.1 h
  exact ⟨Catalog.contains_of_get hc, Catalog.contains_of_get hd, (except_pure_eq_ok.1 h).symm⟩

theorem addBaselap_eq_ok (h : s.addBaselap x y = .ok s') :
    s.catalog.contains x = true ∧ s.catalog.contains y = true ∧
      s' = { s with baselaps := (s.baselaps.addEdge x y).2 } := by
  obtain ⟨c, hc, h⟩ := except_bind_eq_ok.1 h
  obtain ⟨d, hd, h⟩ := except_bind_eq_ok.1 h
  exact ⟨Catalog.contains_of_get hc, Catalog.contains_of_get hd, (except_pure_eq_ok.1 h).symm⟩

theorem contains_addNode {k : ComponentKind} :
    (s.addNode k x).catalog.contains y = (s.catalog.contains y || x == y) :=
  Catalog.contains_register

/-! ## Erosions and baselaps between registered nodes -/

/-- Both nodes of an edge are registered. -/
def Registered (s : HorizonStack) (a b : Uuid) : Prop :=
  s.catalog.contains a = true ∧ s.catalog.contains b = true

/-- Every erosion and every baselap joins two registered nodes. -/
structure RelationsOK (s : HorizonStack) : Prop where
  erosions : s.erosions.AllEdges s.Registered
  baselaps : s.baselaps.AllEdges s.Registered

theorem relationsOK_empty (dim : Nat) : (empty dim).RelationsOK :=
  ⟨Relation.allEdges_empty, Relation.allEdges_empty⟩

theorem RelationsOK.grow (h : s.RelationsOK) (he : t.erosions = s.erosions)
    (hb : t.baselaps = s.baselaps)
    (hc : ∀ x, s.catalog.contains x = true → t.catalog.contains x = true) : t.RelationsOK := by
  have hreg : ∀ a b, s.Registered a b → t.Registered a b := fun a b hab => ⟨hc a hab.1, hc b hab.2⟩
  exact ⟨he ▸ h.erosions.mono hreg, hb ▸ h.baselaps.mono hreg⟩

theorem RelationsOK.addNode (h : s.RelationsOK) {k : ComponentKind} :
    (s.addNode k x).RelationsOK :=
  h.grow rfl rfl fun y hy => by rw [contains_addNode, hy, Bool.true_or]

theorem RelationsOK.relabel (h : s.RelationsOK) (hr : Relabels s s') : s'.RelationsOK := by
  obtain ⟨x, f, hid, -, rfl⟩ := hr
  exact h.grow rfl rfl fun y hy => by rw [Catalog.contains_update hid]; exact hy

theorem RelationsOK.link (h : s.RelationsOK) {a u : Uuid} (hl : s.link a u = .ok s') :
    s'.RelationsOK := by
  obtain ⟨hc, he, hb⟩ := link_frame hl
  exact h.grow he hb fun y hy => hc ▸ hy

theorem RelationsOK.addErosion (h : s.RelationsOK) (he : s.addErosion x y = .ok s') :
    s'.RelationsOK := by
  obtain ⟨hx, hy, rfl⟩ := addErosion_eq_ok he
  exact ⟨h.erosions.addEdge ⟨hx, hy⟩, h.baselaps⟩

theorem RelationsOK.addBaselap (h : s.RelationsOK) (hb : s.addBaselap x y = .ok s') :
    s'.RelationsOK := by
  obtain ⟨hx, hy, rfl⟩ := addBaselap_eq_ok hb
  exact ⟨h.erosions, h.baselaps.addEdge ⟨hx, hy⟩⟩

theorem RelationsOK.removeNode (h : s.RelationsOK) {n : Uuid} {k : ComponentKind}
    (hr : s.removeNode n k = .ok s') : s'.RelationsOK := by
  obtain ⟨-, rfl⟩ := removeNode_eq_ok hr
  have hreg : ∀ a b, (s.Registered a b ∧ a ≠ n ∧ b ≠ n) →
      Registered (HorizonStack.touch { s.unlinkNode n with catalog := s.catalog.without n }) a b := by
    rintro a b ⟨⟨ha, hb⟩, han, hbn⟩
    simp [Registered, Catalog.contains_without, ha, hb, han, hbn]
  exact ⟨(h.erosions.removeNode n).mono hreg, (h.baselaps.removeNode n).mono hreg⟩

/-! ## Splitting a unit -/

/-- The identifiers given to a split are new: pairwise different, and none
is a node of `c` other than the unit split. -/
structure UnitSplit.Fresh (sp : UnitSplit) (c : Catalog) (unit : Uuid) : Prop where
  horizon_ne_above : sp.horizon ≠ sp.unitAbove
  horizon_ne_under : sp.horizon ≠ sp.unitUnder
  above_ne_under : sp.unitAbove ≠ sp.unitUnder
  horizon : (c.without unit).contains sp.horizon = false
  above : (c.without unit).contains sp.unitAbove = false
  under : (c.without unit).contains sp.unitUnder = false

/-- Whether the unit erodes itself or laps onto itself. -/
def selfRelated (s : HorizonStack) (unit : Uuid) : Bool :=
  s.erosions.hasEdge unit unit || s.baselaps.hasEdge unit unit

variable {unit : Uuid} {sp : UnitSplit}

/-- The stack a split builds on: the unit unlinked and removed, and the new
horizon and units added. -/
def splitBase (s : HorizonStack) (unit : Uuid) (sp : UnitSplit) : HorizonStack :=
  (({ s.unlinkNode unit with catalog := s.catalog.without unit }.addNode .horizon sp.horizon).addNode
    .stratigraphicUnit sp.unitAbove).addNode .stratigraphicUnit sp.unitUnder

/-- Run as a whole, the builder's split is the chain of its steps: the unit
checked, unlinked and unregistered, the new nodes registered and renamed,
the four links made, the relations handed over. -/
theorem splitUnit_eq (s : HorizonStack) (unit : Uuid) (split : UnitSplit) :
    s.splitUnit unit split = (do
      let name := (← s.unit unit).name
      let above := s.aboveOf.get? unit
      let under := s.underOf.get? unit
      let erodedBy := s.erosions.parentsOf unit
      let lapsOnto := s.baselaps.childrenOf unit
      let s := s.unlinkNode unit
      let (_, catalog) ← s.catalog.remove unit .stratigraphicUnit
      let s := { s with catalog := catalog }
      let s := s.addNode .horizon split.horizon
      let s := s.addNode .stratigraphicUnit split.unitAbove
      let s := s.addNode .stratigraphicUnit split.unitUnder
      let s ← s.setUnitName split.unitAbove (name ++ "_above")
      let s ← s.setUnitName split.unitUnder (name ++ "_under")
      let s ← s.link split.unitAbove split.horizon
      let s ← s.link split.horizon split.unitUnder
      let s ← match above with
        | some a => s.link a split.unitAbove
        | none => pure s
      let s ← match under with
        | some u => s.link split.unitUnder u
        | none => pure s
      let erosions := erodedBy.foldl (fun r e => (r.addEdge e split.unitAbove).2) s.erosions
      let baselaps := lapsOnto.foldl (fun r b => (r.addEdge split.unitUnder b).2) s.baselaps
      pure { s with erosions := erosions, baselaps := baselaps }) := by
  unfold splitUnit Builder.splitUnit
  simp only [InPlace.commit_get_bind, InPlace.commit_lift_bind, InPlace.commit_modify_bind,
    InPlace.commit_apply_bind]
  -- the two optional links to the old neighbours
  rcases s.aboveOf.get? unit with _ | a <;> rcases s.underOf.get? unit with _ | u <;>
    simp only [InPlace.commit_apply_bind, InPlace.commit_modify_bind, InPlace.commit_modify,
      pure_bind] <;> rfl

/-- What a successful split did, edit by edit. -/
theorem splitUnit_eq_ok (h : s.splitUnit unit sp = .ok s') :
    ∃ c t6 t7 t8 t9 t10 t11, s.unit unit = .ok c ∧
      (s.splitBase unit sp).setUnitName sp.unitAbove (c.name ++ "_above") = .ok t6 ∧
      t6.setUnitName sp.unitUnder (c.name ++ "_under") = .ok t7 ∧
      t7.link sp.unitAbove sp.horizon = .ok t8 ∧
      t8.link sp.horizon sp.unitUnder = .ok t9 ∧
      (∀ a, s.aboveOf.get? unit = some a → t9.link a sp.unitAbove = .ok t10) ∧
      (s.aboveOf.get? unit = none → t10 = t9) ∧
      (∀ u, s.underOf.get? unit = some u → t10.link sp.unitUnder u = .ok t11) ∧
      (s.underOf.get? unit = none → t11 = t10) ∧
      s' = { t11 with
        erosions := (s.erosions.parentsOf unit).foldl (fun r e => (r.addEdge e sp.unitAbove).2)
          t11.erosions
        baselaps := (s.baselaps.childrenOf unit).foldl (fun r b => (r.addEdge sp.unitUnder b).2)
          t11.baselaps } := by
  rw [splitUnit_eq] at h
  obtain ⟨c, hc, h⟩ := except_bind_eq_ok.1 h
  obtain ⟨⟨z, cat⟩, hr, h⟩ := except_bind_eq_ok.1 h
  obtain ⟨-, rfl⟩ := Catalog.remove_eq_ok hr
  dsimp only at h
  obtain ⟨t6, h6, h⟩ := except_bind_eq_ok.1 h
  obtain ⟨t7, h7, h⟩ := except_bind_eq_ok.1 h
  obtain ⟨t8, h8, h⟩ := except_bind_eq_ok.1 h
  obtain ⟨t9, h9, h⟩ := except_bind_eq_ok.1 h
  refine ⟨c, t6, t7, t8, t9, ?_⟩
  -- the two optional links to the old neighbours
  cases ha : s.aboveOf.get? unit <;> cases hu : s.underOf.get? unit <;>
    simp only [ha, hu, pure_bind] at h
  case none.none =>
    exact ⟨t9, t9, hc, h6, h7, h8, h9, by simp, fun _ => rfl, by simp, fun _ => rfl,
      (except_pure_eq_ok.1 h).symm⟩
  case none.some u =>
    obtain ⟨t11, h11, h⟩ := except_bind_eq_ok.1 h
    exact ⟨t9, t11, hc, h6, h7, h8, h9, by simp, fun _ => rfl, by rintro _ ⟨⟩; exact h11,
      by simp, (except_pure_eq_ok.1 h).symm⟩
  case some.none a =>
    obtain ⟨t10, h10, h⟩ := except_bind_eq_ok.1 h
    exact ⟨t10, t10, hc, h6, h7, h8, h9, by rintro _ ⟨⟩; exact h10, by simp, by simp,
      fun _ => rfl, (except_pure_eq_ok.1 h).symm⟩
  case some.some a u =>
    obtain ⟨t10, h10, h⟩ := except_bind_eq_ok.1 h
    obtain ⟨t11, h11, h⟩ := except_bind_eq_ok.1 h
    exact ⟨t10, t11, hc, h6, h7, h8, h9, by rintro _ ⟨⟩; exact h10, by simp,
      by rintro _ ⟨⟩; exact h11, by simp, (except_pure_eq_ok.1 h).symm⟩

section Split

variable (hf : sp.Fresh s.catalog unit)
include hf

theorem UnitSplit.Fresh.above_after :
    ((s.catalog.without unit).register (Component.new sp.horizon .horizon)).contains sp.unitAbove =
      false := by
  rw [Catalog.contains_register, hf.above]
  simpa [Component.new] using hf.horizon_ne_above

theorem UnitSplit.Fresh.under_after :
    (((s.catalog.without unit).register (Component.new sp.horizon .horizon)).register
      (Component.new sp.unitAbove .stratigraphicUnit)).contains sp.unitUnder = false := by
  rw [Catalog.contains_register, Catalog.contains_register, hf.under]
  simpa [Component.new] using ⟨hf.horizon_ne_under, hf.above_ne_under⟩

/-- The kinds a split builds on: the new nodes, and the old ones but the
unit. -/
theorem splitBase_kindOf? (x : Uuid) : (s.splitBase unit sp).catalog.kindOf? x =
    if x = sp.unitUnder then some .stratigraphicUnit
    else if x = sp.unitAbove then some .stratigraphicUnit
    else if x = sp.horizon then some .horizon
    else (s.catalog.without unit).kindOf? x := by
  show Catalog.kindOf? ((((s.catalog.without unit).register (Component.new sp.horizon .horizon)).register
    (Component.new sp.unitAbove .stratigraphicUnit)).register
    (Component.new sp.unitUnder .stratigraphicUnit)) x = _
  rw [Catalog.kindOf?_register hf.under_after, Catalog.kindOf?_register hf.above_after,
    Catalog.kindOf?_register hf.horizon]
  rfl

theorem splitBase_kindOf?_neighbour (hunit : s.catalog.kindOf? unit = some .stratigraphicUnit)
    {a : Uuid} (hj : s.catalog.Joins unit a ∨ s.catalog.Joins a unit) :
    (s.splitBase unit sp).catalog.kindOf? a = some .horizon := by
  have hka : s.catalog.kindOf? a = some .horizon := by
    rcases hj with (⟨h1, h2⟩ | ⟨h1, h2⟩) | (⟨h1, h2⟩ | ⟨h1, h2⟩) <;> simp_all
  have hne : a ≠ unit := by
    rintro rfl
    rw [hunit] at hka
    cases hka
  have hca : (s.catalog.without unit).contains a = true := by
    rw [Catalog.contains_without, Catalog.contains_of_kindOf? hka]
    simpa using hne
  have hnew : ∀ {z}, (s.catalog.without unit).contains z = false → a ≠ z := by
    rintro z hz rfl
    rw [hca] at hz
    cases hz
  rw [splitBase_kindOf? hf, if_neg (hnew hf.under), if_neg (hnew hf.above),
    if_neg (hnew hf.horizon), Catalog.kindOf?_without, if_neg hne, hka]

theorem LinksOK.splitBase (h : s.LinksOK) : (s.splitBase unit sp).LinksOK := by
  have hw : { s.unlinkNode unit with catalog := s.catalog.without unit }.LinksOK :=
    (h.unlinkNode unit).congr rfl rfl fun x y hxy => by
      obtain ⟨-, hx, hy⟩ := h.unlinkNode_free unit x y hxy
      simp [Catalog.kindOf?_without, hx, hy]
  exact ((hw.addNode hf.horizon).addNode hf.above_after).addNode hf.under_after

theorem splitBase_kindOf?_horizon : (s.splitBase unit sp).catalog.kindOf? sp.horizon = some .horizon := by
  rw [splitBase_kindOf? hf, if_neg hf.horizon_ne_under, if_neg hf.horizon_ne_above, if_pos rfl]

theorem splitBase_kindOf?_above :
    (s.splitBase unit sp).catalog.kindOf? sp.unitAbove = some .stratigraphicUnit := by
  rw [splitBase_kindOf? hf, if_neg hf.above_ne_under, if_pos rfl]

theorem splitBase_kindOf?_under :
    (s.splitBase unit sp).catalog.kindOf? sp.unitUnder = some .stratigraphicUnit := by
  rw [splitBase_kindOf? hf, if_pos rfl]

theorem LinksOK.splitUnit (h : s.LinksOK) (hs : s.splitUnit unit sp = .ok s') : s'.LinksOK := by
  obtain ⟨c, t6, t7, t8, t9, t10, t11, hc, h6, h7, h8, h9, h10, h10', h11, h11', rfl⟩ :=
    splitUnit_eq_ok hs
  have hunit := Catalog.kindOf?_of_getOfKind hc
  have kh := splitBase_kindOf?_horizon hf
  have ka := splitBase_kindOf?_above hf
  have ku := splitBase_kindOf?_under hf
  -- the renames keep every kind, and the links keep the catalog
  have r6 := setUnitName_relabels h6
  have r7 := setUnitName_relabels h7
  have l7 : t7.LinksOK ∧ t7.catalog.kindOf? = (s.splitBase unit sp).catalog.kindOf? :=
    ⟨((h.splitBase hf).relabel r6).relabel r7, by rw [r7.kindOf?, r6.kindOf?]⟩
  have l8 := l7.1.link ((Catalog.joins_congr l7.2).2 (.inl ⟨kh, ka⟩)) h8
  have k8 : t8.catalog.kindOf? = (s.splitBase unit sp).catalog.kindOf? := by rw [(link_frame h8).1, l7.2]
  have l9 := l8.link ((Catalog.joins_congr k8).2 (.inr ⟨ku, kh⟩)) h9
  have k9 : t9.catalog.kindOf? = (s.splitBase unit sp).catalog.kindOf? := by rw [(link_frame h9).1, k8]
  -- the old neighbours are horizons, linked to the new units
  have l10 : t10.LinksOK ∧ t10.catalog.kindOf? = (s.splitBase unit sp).catalog.kindOf? := by
    cases ha : s.aboveOf.get? unit with
    | none => rw [h10' ha]; exact ⟨l9, k9⟩
    | some a =>
      have hl := h10 a ha
      have kA := splitBase_kindOf?_neighbour hf hunit (.inl (h.joins unit a ha))
      exact ⟨l9.link ((Catalog.joins_congr k9).2 (.inr ⟨ka, kA⟩)) hl,
        by rw [(link_frame hl).1, k9]⟩
  have l11 : t11.LinksOK := by
    cases hu : s.underOf.get? unit with
    | none => rw [h11' hu]; exact l10.1
    | some u =>
      have hl := h11 u hu
      have kU := splitBase_kindOf?_neighbour hf hunit
        (.inr (h.joins u unit ((h.inverse u unit).2 hu)))
      exact l10.1.link ((Catalog.joins_congr l10.2).2 (.inl ⟨kU, ku⟩)) hl
  exact l11.congr rfl rfl fun _ _ _ => ⟨rfl, rfl⟩

end Split

theorem StateOK.splitUnit (hs : s.splitUnit unit sp = .ok s') : s'.StateOK := by
  obtain ⟨c, t6, t7, t8, t9, t10, t11, -, h6, h7, h8, h9, h10, h10', h11, h11', rfl⟩ :=
    splitUnit_eq_ok hs
  have s7 : t7.StateOK :=
    ((stateOK_touch _).relabel (setUnitName_relabels h6)).relabel (setUnitName_relabels h7)
  have s9 := (s7.link h8).link h9
  have s10 : t10.StateOK := by
    cases ha : s.aboveOf.get? unit with
    | none => rw [h10' ha]; exact s9
    | some a => exact s9.link (h10 a ha)
  have s11 : t11.StateOK := by
    cases hu : s.underOf.get? unit with
    | none => rw [h11' hu]; exact s10
    | some u => exact s10.link (h11 u hu)
  exact s11.congr rfl rfl rfl Iff.rfl (column_congr rfl rfl rfl) rfl

/-- A split keeps the erosions and baselaps between registered nodes when
the unit split neither erodes nor laps onto itself. -/
theorem RelationsOK.splitUnit (h : s.RelationsOK) (hclean : s.selfRelated unit = false)
    (hs : s.splitUnit unit sp = .ok s') : s'.RelationsOK := by
  obtain ⟨c, t6, t7, t8, t9, t10, t11, -, h6, h7, h8, h9, h10, h10', h11, h11', rfl⟩ :=
    splitUnit_eq_ok hs
  simp only [selfRelated, Bool.or_eq_false_iff] at hclean
  -- the nodes of the split's base: the old ones but the unit, and the new ones
  have hold : ∀ x, x ≠ unit → s.catalog.contains x = true →
      (s.splitBase unit sp).catalog.contains x = true := by
    intro x hx hcx
    simp [splitBase, contains_addNode, Catalog.contains_without, hx, hcx]
  have hnew : (s.splitBase unit sp).catalog.contains sp.unitAbove = true ∧
      (s.splitBase unit sp).catalog.contains sp.unitUnder = true := by
    simp [splitBase, contains_addNode]
  have r5 : (s.splitBase unit sp).RelationsOK := by
    have hreg : ∀ x y, (s.Registered x y ∧ x ≠ unit ∧ y ≠ unit) →
        (s.splitBase unit sp).Registered x y :=
      fun x y ⟨⟨hx, hy⟩, hxu, hyu⟩ => ⟨hold x hxu hx, hold y hyu hy⟩
    exact ⟨(h.erosions.removeNode unit).mono hreg, (h.baselaps.removeNode unit).mono hreg⟩
  -- renames and links keep the nodes
  have e6 := setUnitName_relabels h6
  have e7 := setUnitName_relabels h7
  have r7 : t7.RelationsOK ∧ t7.catalog.contains = (s.splitBase unit sp).catalog.contains :=
    ⟨(r5.relabel e6).relabel e7, by rw [e7.contains, e6.contains]⟩
  have r9 : t9.RelationsOK ∧
      t9.catalog.contains = (s.splitBase unit sp).catalog.contains :=
    ⟨(r7.1.link h8).link h9, by rw [(link_frame h9).1, (link_frame h8).1, r7.2]⟩
  have r10 : t10.RelationsOK ∧
      t10.catalog.contains = (s.splitBase unit sp).catalog.contains := by
    cases ha : s.aboveOf.get? unit with
    | none => rw [h10' ha]; exact r9
    | some a => exact ⟨r9.1.link (h10 a ha), by rw [(link_frame (h10 a ha)).1, r9.2]⟩
  have r11 : t11.RelationsOK ∧
      t11.catalog.contains = (s.splitBase unit sp).catalog.contains := by
    cases hu : s.underOf.get? unit with
    | none => rw [h11' hu]; exact r10
    | some u => exact ⟨r10.1.link (h11 u hu), by rw [(link_frame (h11 u hu)).1, r10.2]⟩
  -- the erosions and baselaps handed over are between old nodes other than the unit
  refine ⟨r11.1.erosions.foldl_addEdge (fun e => (e, sp.unitAbove)) _ fun e he => ?_,
    r11.1.baselaps.foldl_addEdge (fun b => (sp.unitUnder, b)) _ fun b hb => ?_⟩
  · obtain ⟨⟨he, -⟩, hedge⟩ := h.erosions.and_hasEdge.of_mem_parentsOf he
    have hne : e ≠ unit := by
      rintro rfl
      rw [hclean.1] at hedge
      cases hedge
    exact ⟨by rw [r11.2]; exact hold e hne he, by rw [r11.2]; exact hnew.1⟩
  · obtain ⟨⟨-, hb⟩, hedge⟩ := h.baselaps.and_hasEdge.of_mem_childrenOf hb
    have hne : b ≠ unit := by
      rintro rfl
      rw [hclean.2] at hedge
      cases hedge
    exact ⟨by rw [r11.2]; exact hnew.2, by rw [r11.2]; exact hold b hne hb⟩

/-! ## The kinds of the nodes -/

/-- Every node of the stack is a horizon or a stratigraphic unit. -/
def NodeKinds (s : HorizonStack) : Prop :=
  ∀ c ∈ s.catalog.components, c.kind = .horizon ∨ c.kind = .stratigraphicUnit

theorem nodeKinds_empty (dim : Nat) : (empty dim).NodeKinds := by
  intro c hc
  cases hc

theorem NodeKinds.of_catalog (h : s.NodeKinds) (hc : s'.catalog = s.catalog) : s'.NodeKinds := by
  rw [NodeKinds, hc]
  exact h

theorem NodeKinds.addNode (h : s.NodeKinds) {k : ComponentKind}
    (hk : k = .horizon ∨ k = .stratigraphicUnit) : (s.addNode k x).NodeKinds := by
  intro c hc
  rcases List.mem_append.1 hc with hc | hc
  · exact h c hc
  · rw [List.mem_singleton.1 hc]
    exact hk

theorem NodeKinds.relabel (h : s.NodeKinds) (hr : Relabels s s') : s'.NodeKinds := by
  obtain ⟨x, f, -, hkind, rfl⟩ := hr
  intro c hc
  obtain ⟨c0, hc0, rfl⟩ := List.mem_map.1 hc
  split
  · rw [hkind]
    exact h c0 hc0
  · exact h c0 hc0

theorem NodeKinds.without (h : s.NodeKinds) (hc : s'.catalog = s.catalog.without x) :
    s'.NodeKinds := by
  intro c hc'
  rw [hc] at hc'
  exact h c (List.mem_filter.1 hc').1

theorem NodeKinds.removeNode (h : s.NodeKinds) {n : Uuid} {k : ComponentKind}
    (hr : s.removeNode n k = .ok s') : s'.NodeKinds := by
  obtain ⟨-, rfl⟩ := removeNode_eq_ok hr
  exact h.without rfl

theorem NodeKinds.splitUnit (h : s.NodeKinds) {unit : Uuid} {sp : UnitSplit}
    (hs : s.splitUnit unit sp = .ok s') : s'.NodeKinds := by
  obtain ⟨c, t6, t7, t8, t9, t10, t11, -, h6, h7, h8, h9, h10, h10', h11, h11', rfl⟩ :=
    splitUnit_eq_ok hs
  have k5 : (s.splitBase unit sp).NodeKinds :=
    (((h.without (x := unit) rfl : NodeKinds { s.unlinkNode unit with
      catalog := s.catalog.without unit }).addNode (.inl rfl)).addNode (.inr rfl)).addNode (.inr rfl)
  have k9 : t9.NodeKinds :=
    ((((k5.relabel (setUnitName_relabels h6)).relabel (setUnitName_relabels h7)).of_catalog
      (link_frame h8).1).of_catalog (link_frame h9).1)
  have k10 : t10.NodeKinds := by
    cases ha : s.aboveOf.get? unit with
    | none => rw [h10' ha]; exact k9
    | some a => exact k9.of_catalog (link_frame (h10 a ha)).1
  have k11 : t11.NodeKinds := by
    cases hu : s.underOf.get? unit with
    | none => rw [h11' hu]; exact k10
    | some u => exact k10.of_catalog (link_frame (h11 u hu)).1
  exact k11.of_catalog rfl

end HorizonStack

end Subsurface
