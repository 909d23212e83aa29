import Subsurface.Proofs.Stack.Names
/-!
Every stack the builder reaches is well formed.

A stack is reached from a new stack or from lists of names by the builder's
edits, each of which may fail and then leaves the stack as it was
(`Reachable`). Every such stack has well-formed links and a state that
agrees with its content, and its erosions and baselaps join registered
nodes as long as no split handed over an erosion of a unit by itself or a
baselap of a unit onto itself (`reachable_wellFormed`). Such a split does
leave a relation with the removed unit (`split_self_eroded_unit_dangles`).
-/

open Relation (TransGen)

namespace Subsurface

namespace HorizonStack

/-- The stack after a call that may fail: a failed call leaves it as it was. -/
def after (s : HorizonStack) : Except Error HorizonStack → HorizonStack
  | .ok s' => s'
  | .error _ => s

/-- Whether splitting `unit` goes through and hands over an erosion of the
unit by itself or a baselap of the unit onto itself. -/
def splitsSelfRelated (s : HorizonStack) (unit : Uuid) (sp : UnitSplit) : Bool :=
  s.selfRelated unit && (s.splitUnit unit sp).toBool

/-- One call of the builder, failed calls included. The flag is `false` for
a split that hands over a relation of a unit with itself. New nodes get
identifiers no node has, and a split draws three different ones that no
other node has. -/
inductive Step : HorizonStack → Bool → HorizonStack → Prop
  | addHorizon {s : HorizonStack} (id : Uuid) (hfresh : s.catalog.contains id = false) :
      Step s true (s.addNode .horizon id)
  | addUnit {s : HorizonStack} (id : Uuid) (hfresh : s.catalog.contains id = false) :
      Step s true (s.addNode .stratigraphicUnit id)
  | addHorizonWithId {s : HorizonStack} (id : Uuid) :
      Step s true (s.after (s.addNodeWithId .horizon id))
  | addUnitWithId {s : HorizonStack} (id : Uuid) :
      Step s true (s.after (s.addNodeWithId .stratigraphicUnit id))
  | setHorizonName {s : HorizonStack} (id : Uuid) (name : String) :
      Step s true (s.after (s.setHorizonName id name))
  | setHorizonType {s : HorizonStack} (id : Uuid) (ty : HorizonType) :
      Step s true (s.after (s.setHorizonType id ty))
  | setUnitName {s : HorizonStack} (id : Uuid) (name : String) :
      Step s true (s.after (s.setUnitName id name))
  | addHorizonUnder {s : HorizonStack} (horizon unit : Uuid) :
      Step s true (s.after (s.addHorizonUnder horizon unit))
  | addHorizonAbove {s : HorizonStack} (horizon unit : Uuid) :
      Step s true (s.after (s.addHorizonAbove horizon unit))
  | addErosion {s : HorizonStack} (erosion eroded : Uuid) :
      Step s true (s.after (s.addErosion erosion eroded))
  | addBaselap {s : HorizonStack} (baselapTop baselap : Uuid) :
      Step s true (s.after (s.addBaselap baselapTop baselap))
  | removeHorizon {s : HorizonStack} (id : Uuid) :
      Step s true (s.after (s.removeNode id .horizon))
  | removeUnit {s : HorizonStack} (id : Uuid) :
      Step s true (s.after (s.removeNode id .stratigraphicUnit))
  | splitUnit {s : HorizonStack} (unit : Uuid) (sp : UnitSplit) (hf : sp.Fresh s.catalog unit) :
      Step s (!s.splitsSelfRelated unit sp) (s.after (s.splitUnit unit sp))
  | computeTopAndBottom {s : HorizonStack} : Step s true (s.after s.computeTopAndBottom)

/-- The stacks the builder reaches from a new stack or from lists of names,
the name-list constructors drawing their identifiers without repeats. The
flag is `false` once a split has handed over a relation of a unit with
itself. -/
inductive Reachable : Bool → HorizonStack → Prop
  | empty (dim : Nat) : Reachable true (empty dim)
  | ofNamesFromTop {s : HorizonStack} {dim : Nat} {hs us : List String} {fresh : Nat → Uuid}
      (hinj : Function.Injective fresh) (h : ofNamesFromTop dim hs us fresh = .ok s) :
      Reachable true s
  | ofNamesFromBottom {s : HorizonStack} {dim : Nat} {hs us : List String} {fresh : Nat → Uuid}
      (hinj : Function.Injective fresh) (h : ofNamesFromBottom dim hs us fresh = .ok s) :
      Reachable true s
  | step {b b' : Bool} {s s' : HorizonStack} (hr : Reachable b s) (hs : Step s b' s') :
      Reachable (b && b') s'
  | copy {b b' : Bool} {t s : HorizonStack} (ht : Reachable b t) (hs : Reachable b' s) :
      Reachable (b && b') (t.after (t.copyInto s))

variable {b b' : Bool} {s s' t : HorizonStack} {x y : Uuid}

/-- What every reachable stack satisfies: well-formed links, a state that
agrees with the content, only horizons and units and, when `clean`, erosions
and baselaps between registered nodes. -/
structure WellFormed (clean : Bool) (s : HorizonStack) : Prop where
  links : s.LinksOK
  state : s.StateOK
  kinds : s.NodeKinds
  relations : clean = true → s.RelationsOK

/-! ## One call -/

theorem WellFormed.after (h : WellFormed b s) {r : Except Error HorizonStack}
    (hok : ∀ s', r = .ok s' → WellFormed b s') : WellFormed b (s.after r) := by
  cases r with
  | error e => exact h
  | ok s' => exact hok s' rfl

theorem WellFormed.weaken (h : WellFormed b' s) (hb : b = true → b' = true) : WellFormed b s :=
  ⟨h.links, h.state, h.kinds, fun hc => h.relations (hb hc)⟩

theorem wellFormed_empty (dim : Nat) : WellFormed true (empty dim) :=
  ⟨linksOK_empty dim, stateOK_empty dim, nodeKinds_empty dim, fun _ => relationsOK_empty dim⟩

theorem WellFormed.addNode (h : WellFormed b s) {k : ComponentKind}
    (hk : k = .horizon ∨ k = .stratigraphicUnit) (hfresh : s.catalog.contains x = false) :
    WellFormed b (s.addNode k x) :=
  ⟨h.links.addNode hfresh, stateOK_touch _, h.kinds.addNode hk, fun hb => (h.relations hb).addNode⟩

theorem WellFormed.addNodeWithId (h : WellFormed b s) {k : ComponentKind}
    (hk : k = .horizon ∨ k = .stratigraphicUnit) (hs : s.addNodeWithId k x = .ok s') :
    WellFormed b s' := by
  obtain ⟨hfresh, rfl⟩ := addNodeWithId_eq_ok hs
  exact h.addNode hk hfresh

theorem WellFormed.relabel (h : WellFormed b s) (hr : Relabels s s') : WellFormed b s' :=
  ⟨h.links.relabel hr, h.state.relabel hr, h.kinds.relabel hr,
    fun hb => (h.relations hb).relabel hr⟩

theorem WellFormed.link (h : WellFormed b s) {a u : Uuid} (hj : s.catalog.Joins u a)
    (hl : s.link a u = .ok s') : WellFormed b s' :=
  ⟨h.links.link hj hl, h.state.link hl, h.kinds.of_catalog (link_frame hl).1,
    fun hb => (h.relations hb).link hl⟩

theorem WellFormed.relations_only (h : WellFormed b s) (ha : s'.aboveOf = s.aboveOf)
    (hu : s'.underOf = s.underOf) (hc : s'.catalog = s.catalog) (hst : s'.state = s.state)
    (htop : s'.top = s.top) (hbot : s'.bottom = s.bottom) (hr : b = true → s'.RelationsOK) :
    WellFormed b s' :=
  ⟨h.links.congr ha hu fun _ _ _ => by rw [hc]; exact ⟨rfl, rfl⟩,
    h.state.congr hst htop hbot (by rw [hc]) (column_congr (by rw [hc]) ha hu) (by rw [hc]),
    h.kinds.of_catalog hc, hr⟩

theorem WellFormed.removeNode (h : WellFormed b s) {n : Uuid} {k : ComponentKind}
    (hr : s.removeNode n k = .ok s') : WellFormed b s' := by
  refine ⟨h.links.removeNode hr, ?_, h.kinds.removeNode hr, fun hb => (h.relations hb).removeNode hr⟩
  obtain ⟨-, rfl⟩ := removeNode_eq_ok hr
  exact stateOK_touch _

theorem WellFormed.splitUnit (h : WellFormed b s) {unit : Uuid} {sp : UnitSplit}
    (hf : sp.Fresh s.catalog unit) (hs : s.splitUnit unit sp = .ok s') :
    WellFormed (b && !s.splitsSelfRelated unit sp) s' := by
  refine ⟨h.links.splitUnit hf hs, StateOK.splitUnit hs, h.kinds.splitUnit hs, fun hb => ?_⟩
  -- a split that goes through hands over no relation of the unit with itself
  simp only [splitsSelfRelated, hs, Except.toBool, Bool.and_true, Bool.and_eq_true,
    Bool.not_eq_eq_eq_not, Bool.not_true] at hb
  exact (h.relations hb.1).splitUnit hb.2 hs

theorem WellFormed.computeTopAndBottom (h : WellFormed b s) (hs : s.computeTopAndBottom = .ok s') :
    WellFormed b s' := by
  have hst := stateOK_computeTopAndBottom hs
  obtain ⟨col, top, bot, -, -, -, rfl⟩ := computeTopAndBottom_eq_ok hs
  exact ⟨h.links.congr rfl rfl fun _ _ _ => ⟨rfl, rfl⟩, hst, h.kinds.of_catalog rfl,
    fun hb => (h.relations hb).grow rfl rfl fun _ hx => hx⟩

theorem WellFormed.copyInto (hsrc : WellFormed b' s) (hc : t.copyInto s = .ok s') :
    WellFormed b' s' := by
  unfold HorizonStack.copyInto at hc
  split at hc
  · cases hc
  · cases hc
    exact ⟨hsrc.links.congr rfl rfl fun _ _ _ => ⟨rfl, rfl⟩,
      hsrc.state.congr rfl rfl rfl Iff.rfl (column_congr rfl rfl rfl) rfl,
      hsrc.kinds.of_catalog rfl, fun hb => (hsrc.relations hb).grow rfl rfl fun _ hx => hx⟩

theorem wellFormed_ofNamesFromTop {dim : Nat} {hs us : List String} {fresh : Nat → Uuid}
    (hinj : Function.Injective fresh) (h : ofNamesFromTop dim hs us fresh = .ok s) :
    WellFormed true s :=
  let ⟨hl, hst, hr, hk⟩ := ofNamesFromTop_eq_ok hinj h
  ⟨hl, hst, hk, fun _ => hr⟩

/-- Every call keeps the stack well formed, and only a split that hands over
a relation of a unit with itself gives up the relations. -/
theorem WellFormed.step (h : WellFormed b s) (hs : Step s b' s') : WellFormed (b && b') s' := by
  cases hs with
  | addHorizon id hfresh => rw [Bool.and_true]; exact h.addNode (.inl rfl) hfresh
  | addUnit id hfresh => rw [Bool.and_true]; exact h.addNode (.inr rfl) hfresh
  | addHorizonWithId id =>
    rw [Bool.and_true]
    exact h.after fun _ hs => h.addNodeWithId (.inl rfl) hs
  | addUnitWithId id =>
    rw [Bool.and_true]
    exact h.after fun _ hs => h.addNodeWithId (.inr rfl) hs
  | setHorizonName id name =>
    rw [Bool.and_true]
    exact h.after fun _ hs => h.relabel (setHorizonName_relabels hs)
  | setHorizonType id ty =>
    rw [Bool.and_true]
    exact h.after fun _ hs => h.relabel (setHorizonType_relabels hs)
  | setUnitName id name =>
    rw [Bool.and_true]
    exact h.after fun _ hs => h.relabel (setUnitName_relabels hs)
  | addHorizonUnder horizon unit =>
    rw [Bool.and_true]
    refine h.after fun s' hs => ?_
    obtain ⟨hj, hl⟩ := addHorizonUnder_eq_ok hs
    exact h.link hj hl
  | addHorizonAbove horizon unit =>
    rw [Bool.and_true]
    refine h.after fun s' hs => ?_
    obtain ⟨hj, hl⟩ := addHorizonAbove_eq_ok hs
    exact h.link hj hl
  | addErosion erosion eroded =>
    rw [Bool.and_true]
    refine h.after fun s' hs => ?_
    have hr := fun hb => (h.relations hb).addErosion hs
    obtain ⟨-, -, rfl⟩ := addErosion_eq_ok hs
    exact h.relations_only rfl rfl rfl rfl rfl rfl hr
  | addBaselap baselapTop baselap =>
    rw [Bool.and_true]
    refine h.after fun s' hs => ?_
    have hr := fun hb => (h.relations hb).addBaselap hs
    obtain ⟨-, -, rfl⟩ := addBaselap_eq_ok hs
    exact h.relations_only rfl rfl rfl rfl rfl rfl hr
  | removeHorizon id | removeUnit id =>
    rw [Bool.and_true]
    exact h.after fun _ hs => h.removeNode hs
  | splitUnit unit sp hf =>
    exact (h.weaken fun hb => (Bool.and_eq_true_iff.1 hb).1).after fun _ hs => h.splitUnit hf hs
  | computeTopAndBottom =>
    rw [Bool.and_true]
    exact h.after fun _ hs => h.computeTopAndBottom hs

/-! ## Every run -/

theorem Reachable.wellFormed (h : Reachable b s) : WellFormed b s := by
  induction h with
  | empty dim => exact wellFormed_empty dim
  | ofNamesFromTop hinj h => exact wellFormed_ofNamesFromTop hinj h
  | ofNamesFromBottom hinj h => exact wellFormed_ofNamesFromTop hinj h
  | step _ hs ih => exact ih.step hs
  | copy _ _ iht ihs =>
    exact (iht.weaken fun hb => (Bool.and_eq_true_iff.1 hb).1).after fun _ hc =>
      (ihs.copyInto hc).weaken fun hb => (Bool.and_eq_true_iff.1 hb).2

/-- **Every stack the builder reaches is well formed.** `aboveOf` and
`underOf` are inverse one-to-one maps between registered nodes, each link
joins a horizon and a stratigraphic unit, and following links upwards never
comes back; unless a split handed over a relation of a unit with itself,
every erosion and baselap joins registered nodes; and the stack is empty
exactly without nodes and built exactly with top and bottom known, which are
then the last and the first horizons of its column. -/
theorem reachable_wellFormed {b : Bool} {s : HorizonStack} (h : Reachable b s) :
    (∀ x y, s.aboveOf.get? x = some y ↔ s.underOf.get? y = some x) ∧
    (∀ x x' y, s.aboveOf.get? x = some y → s.aboveOf.get? x' = some y → x = x') ∧
    (∀ x y y', s.underOf.get? y = some x → s.underOf.get? y' = some x → y = y') ∧
    (∀ x y, s.aboveOf.get? x = some y → s.contains x = true ∧ s.contains y = true) ∧
    (∀ x, ¬TransGen s.aboveOf.Edge x x) ∧
    (∀ x y, s.aboveOf.get? x = some y → s.catalog.Joins x y) ∧
    (b = true → ∀ x y, s.erosions.hasEdge x y = true ∨ s.baselaps.hasEdge x y = true →
      s.contains x = true ∧ s.contains y = true) ∧
    (s.state = .empty ↔ s.catalog.components = []) ∧
    (s.state = .built ↔ s.top.isSome ∧ s.bottom.isSome) ∧
    (s.state = .built → ∃ col, s.column = .ok col ∧
      s.bottom = col.find? s.isHorizon ∧ s.top = col.reverse.find? s.isHorizon) := by
  obtain ⟨hl, hst, -, hr⟩ := h.wellFormed
  refine ⟨hl.inverse, fun _ _ _ => hl.aboveOf_injective, fun _ _ _ => hl.underOf_injective,
    fun _ _ => hl.registered, hl.acyclic, hl.joins, fun hb x y hxy => ?_, hst.empty_iff,
    hst.built_iff, hst.column⟩
  rcases hxy with hxy | hxy
  · exact (hr hb).erosions.of_hasEdge hxy
  · exact (hr hb).baselaps.of_hasEdge hxy

/-- A column of two units over a base horizon, the upper horizon eroding the
lower unit. -/
def erodedPair : HorizonStack :=
  let s := (empty 2).addNode .horizon (Uuid.ofNat 0)
  let s := s.addNode .stratigraphicUnit (Uuid.ofNat 1)
  let s := s.addNode .horizon (Uuid.ofNat 2)
  let s := s.addNode .stratigraphicUnit (Uuid.ofNat 3)
  let s := s.after (s.addHorizonUnder (Uuid.ofNat 0) (Uuid.ofNat 1))
  let s := s.after (s.addHorizonAbove (Uuid.ofNat 2) (Uuid.ofNat 1))
  let s := s.after (s.addHorizonUnder (Uuid.ofNat 2) (Uuid.ofNat 3))
  s.after (s.addErosion (Uuid.ofNat 2) (Uuid.ofNat 1))

/-- That column once its lower unit is split by a new horizon and the ends
of the column are found. -/
def erodedColumn : HorizonStack :=
  let s := erodedPair.after
    (erodedPair.splitUnit (Uuid.ofNat 1) ⟨Uuid.ofNat 4, Uuid.ofNat 5, Uuid.ofNat 6⟩)
  s.after s.computeTopAndBottom

theorem erodedPair_reachable : Reachable true erodedPair := by
  have h0 := (Reachable.empty 2).step (.addHorizon (Uuid.ofNat 0) (by decide))
  have h1 := h0.step (.addUnit (Uuid.ofNat 1) (by decide))
  have h2 := h1.step (.addHorizon (Uuid.ofNat 2) (by decide))
  have h3 := h2.step (.addUnit (Uuid.ofNat 3) (by decide))
  have h4 := h3.step (.addHorizonUnder (Uuid.ofNat 0) (Uuid.ofNat 1))
  have h5 := h4.step (.addHorizonAbove (Uuid.ofNat 2) (Uuid.ofNat 1))
  have h6 := h5.step (.addHorizonUnder (Uuid.ofNat 2) (Uuid.ofNat 3))
  exact h6.step (.addErosion (Uuid.ofNat 2) (Uuid.ofNat 1))

theorem erodedColumn_reachable : Reachable true erodedColumn := by
  have h := erodedPair_reachable.step (.splitUnit (Uuid.ofNat 1)
    ⟨Uuid.ofNat 4, Uuid.ofNat 5, Uuid.ofNat 6⟩
    ⟨by decide, by decide, by decide, by decide, by decide, by decide⟩)
  exact h.step .computeTopAndBottom

theorem erodedColumn_wellFormed :
    (erodedColumn.column = .ok [Uuid.ofNat 0, Uuid.ofNat 6, Uuid.ofNat 4, Uuid.ofNat 5,
        Uuid.ofNat 2, Uuid.ofNat 3] ∧
      erodedColumn.isErodedBy (Uuid.ofNat 5) (Uuid.ofNat 2) = true ∧
      erodedColumn.state = .built) ∧
    (∀ x y, erodedColumn.aboveOf.get? x = some y ↔ erodedColumn.underOf.get? y = some x) ∧
    (∀ x x' y, erodedColumn.aboveOf.get? x = some y → erodedColumn.aboveOf.get? x' = some y →
      x = x') ∧
    (∀ x y y', erodedColumn.underOf.get? y = some x → erodedColumn.underOf.get? y' = some x →
      y = y') ∧
    (∀ x y, erodedColumn.aboveOf.get? x = some y →
      erodedColumn.contains x = true ∧ erodedColumn.contains y = true) ∧
    (∀ x, ¬TransGen erodedColumn.aboveOf.Edge x x) ∧
    (∀ x y, erodedColumn.aboveOf.get? x = some y → erodedColumn.catalog.Joins x y) ∧
    (true = true → ∀ x y,
      erodedColumn.erosions.hasEdge x y = true ∨ erodedColumn.baselaps.hasEdge x y = true →
        erodedColumn.contains x = true ∧ erodedColumn.contains y = true) ∧
    (erodedColumn.state = .empty ↔ erodedColumn.catalog.components = []) ∧
    (erodedColumn.state = .built ↔ erodedColumn.top.isSome ∧ erodedColumn.bottom.isSome) ∧
    (erodedColumn.state = .built → ∃ col, erodedColumn.column = .ok col ∧
      erodedColumn.bottom = col.find? erodedColumn.isHorizon ∧
      erodedColumn.top = col.reverse.find? erodedColumn.isHorizon) :=
  ⟨⟨by decide +kernel, by decide +kernel, by decide +kernel⟩,
    reachable_wellFormed erodedColumn_reachable⟩

/-- The stack of a unit that erodes itself, once split. -/
def selfErodedSplit : HorizonStack :=
  let s := (empty 2).addNode .stratigraphicUnit (Uuid.ofNat 0)
  let s := s.after (s.addErosion (Uuid.ofNat 0) (Uuid.ofNat 0))
  s.after (s.splitUnit (Uuid.ofNat 0) ⟨Uuid.ofNat 1, Uuid.ofNat 2, Uuid.ofNat 3⟩)

/-- Splitting a unit that erodes itself hands the erosion over to the new
upper unit with the removed unit as its erosion surface: an erosion between
a node that is no longer there and one that is. -/
theorem split_self_eroded_unit_dangles :
    Reachable false selfErodedSplit ∧
      selfErodedSplit.isErodedBy (Uuid.ofNat 2) (Uuid.ofNat 0) = true ∧
      selfErodedSplit.contains (Uuid.ofNat 0) = false := by
  refine ⟨?_, by decide, by decide⟩
  have h1 := (Reachable.empty 2).step (.addUnit (Uuid.ofNat 0) (by decide))
  have h2 := h1.step (.addErosion (Uuid.ofNat 0) (Uuid.ofNat 0))
  exact h2.step (.splitUnit (Uuid.ofNat 0) ⟨Uuid.ofNat 1, Uuid.ofNat 2, Uuid.ofNat 3⟩
    ⟨by decide, by decide, by decide, by decide, by decide, by decide⟩)

end HorizonStack

end Subsurface
