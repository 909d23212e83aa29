import Subsurface.Proofs.Stratigraphy.Mirror
import Subsurface.Proofs.Model.Invariant
/-!
The builders fail only at their checks.

Every edit of the stack builder and of the model builder is meant to check
its inputs before it changes anything, so that a failed edit leaves the
object as it was. Most edits have no step that may fail after their first
change. Three kinds do, and they are written as edits in place, store after
store (`InPlace`): a removal drops the relations of the component before it
unregisters it, adding a collection with a type registers it before it sets
the type, and a split replaces the unit by three nodes before it makes four
links. Step by step, a removal or a typed addition cannot fail after its
lookup (`removeNode_runOn`, `removeCollection_runOn`, `removeItem_runOn`,
`addWithType_runOn`). The links of a split cannot fail either on
well-formed links: the new nodes are unlinked, the neighbours of the unit
lost their link to it, and a link that would close a cycle would have
closed one through the unit (`LinksOK.splitUnit_eq_error`). So a failure
of any of them leaves the object as it was (`builder_fails_only_at_checks`).
-/

open Relation (TransGen ReflTransGen)

namespace Subsurface

theorem Catalog.ne_of_contains {c : Catalog} {v x : Uuid} (hv : c.contains v = true)
    (hx : c.contains x = false) : v ≠ x := by
  rintro rfl
  rw [hv] at hx
  cases hx

namespace NodeMap

variable {m : NodeMap} {x y : Uuid}

/-- A set of nodes that links lead out of only into itself holds every node
above one of its nodes. -/
theorem transGen_closed {P : Uuid → Prop} (hP : ∀ v w, P v → m.get? v = some w → P w)
    (h : TransGen m.Edge x y) (hx : P x) : P y := by
  induction h with
  | single hxy => exact hP _ _ hx hxy
  | tail _ hyz ih => exact hP _ _ ih hyz

end NodeMap

namespace HorizonStack

variable {s : HorizonStack} {a u x y unit : Uuid}

/-- A node is not above another when a set of nodes that links lead out of
only into itself holds the lower one and not the higher one. -/
theorem isAbove_eq_false_of_closed (P : Uuid → Prop)
    (hP : ∀ v w, P v → s.aboveOf.get? v = some w → P w) (hx : P x) (hy : ¬P y) :
    s.isAbove y x = false := by
  cases he : s.isAbove y x with
  | false => rfl
  | true => exact absurd (NodeMap.transGen_closed hP (transGen_of_isAbove he) hx) hy

theorem link_eq_withLink (hne : a ≠ u) (hfar : s.isAbove u a = false)
    (ha : s.aboveOf.get? u = none) (hu : s.underOf.get? a = none) :
    s.link a u = .ok (s.withLink a u) := by
  unfold link
  simp [hne, hfar, ha, hu, withLink]

/-! ## Unlinking the unit to split -/

section Unlinked

variable (h : s.LinksOK)
include h

/-- After unlinking `unit`, links join nodes other than `unit` that the stack
registers. -/
theorem LinksOK.unlinkNode_edge_old {v w : Uuid}
    (hvw : (s.unlinkNode unit).aboveOf.get? v = some w) :
    (s.catalog.without unit).contains v = true ∧ (s.catalog.without unit).contains w = true := by
  obtain ⟨hs, hv, hw⟩ := h.unlinkNode_free unit v w hvw
  obtain ⟨hcv, hcw⟩ := h.registered hs
  simp only [Catalog.contains_without, bne_iff_ne, ne_eq, Bool.and_eq_true]
  exact ⟨⟨hv, hcv⟩, hw, hcw⟩

/-- An identifier the stack lacks, but for `unit`, is linked to nothing once
`unit` is unlinked. -/
theorem LinksOK.unlinkNode_free_of_fresh (hx : (s.catalog.without unit).contains x = false) :
    (s.unlinkNode unit).aboveOf.get? x = none ∧ (s.unlinkNode unit).underOf.get? x = none ∧
      ∀ v, (s.unlinkNode unit).aboveOf.get? v ≠ some x := by
  have hfrom : ∀ w, (s.unlinkNode unit).aboveOf.get? x ≠ some w := fun w hw => by
    rw [(h.unlinkNode_edge_old hw).1] at hx
    cases hx
  have hinto : ∀ v, (s.unlinkNode unit).aboveOf.get? v ≠ some x := fun v hv => by
    rw [(h.unlinkNode_edge_old hv).2] at hx
    cases hx
  refine ⟨Option.eq_none_iff_forall_ne_some.2 hfrom, ?_, hinto⟩
  refine Option.eq_none_iff_forall_ne_some.2 fun v hv => hinto v ?_
  exact ((h.unlinkNode unit).inverse v x).2 hv

theorem LinksOK.above_old (ha : s.aboveOf.get? unit = some a) :
    (s.catalog.without unit).contains a = true := by
  have hne : a ≠ unit := by
    rintro rfl
    exact h.acyclic a (.single ha)
  simp only [Catalog.contains_without, bne_iff_ne, ne_eq, Bool.and_eq_true]
  exact ⟨hne, (h.registered ha).2⟩

theorem LinksOK.under_old (hu : s.underOf.get? unit = some u) :
    (s.catalog.without unit).contains u = true := by
  have hu' : s.aboveOf.get? u = some unit := (h.inverse u unit).2 hu
  have hne : u ≠ unit := by
    rintro rfl
    exact h.acyclic u (.single hu')
  simp only [Catalog.contains_without, bne_iff_ne, ne_eq, Bool.and_eq_true]
  exact ⟨hne, (h.registered hu').1⟩

theorem LinksOK.unlinkNode_underOf_above (ha : s.aboveOf.get? unit = some a) :
    (s.unlinkNode unit).underOf.get? a = none := by
  rw [h.unlinkNode_underOf, if_pos (.inr ((h.inverse unit a).1 ha))]

theorem LinksOK.unlinkNode_aboveOf_under (hu : s.underOf.get? unit = some u) :
    (s.unlinkNode unit).aboveOf.get? u = none := by
  rw [h.unlinkNode_aboveOf, if_pos (.inr ((h.inverse u unit).2 hu))]

/-- Every node at or above the node above `unit` is registered and is not
`unit`, since `unit` lies under it. -/
theorem LinksOK.above_chain_old (ha : s.aboveOf.get? unit = some a) {v : Uuid}
    (hv : ReflTransGen s.aboveOf.Edge a v) : (s.catalog.without unit).contains v = true := by
  rcases Relation.reflTransGen_iff_eq_or_transGen.1 hv with rfl | hav
  · exact h.above_old ha
  · obtain ⟨w, hw⟩ := NodeMap.edge_of_follow (NodeMap.follow_of_transGen hav).choose_spec
    have hne : v ≠ unit := by
      rintro rfl
      exact h.acyclic v (TransGen.head ha hav)
    simp only [Catalog.contains_without, bne_iff_ne, ne_eq, Bool.and_eq_true]
    exact ⟨hne, (h.registered hw).2⟩

end Unlinked

theorem setUnitName_ne_error {n : String} {e : Error}
    (hk : s.catalog.kindOf? x = some .stratigraphicUnit) : s.setUnitName x n ≠ .error e := by
  unfold setUnitName
  rw [except_bind_of_eq_ok (Catalog.setName_of_kindOf? hk)]
  nofun

/-! ## The links of a split

A split unlinks the unit, registers the three new nodes and renames the
units, then links the new unit above onto the new horizon, the new horizon
onto the new unit under, the node above the old unit onto the new unit
above, and the new unit under onto the node under the old unit. Each link
is checked here on the links the previous ones leave. -/

section Split

variable {sp : UnitSplit} {t : HorizonStack} (h : s.LinksOK) (hf : sp.Fresh s.catalog unit)
include h hf

theorem LinksOK.split_link_above (hA : t.aboveOf = (s.unlinkNode unit).aboveOf)
    (hB : t.underOf = (s.unlinkNode unit).underOf) :
    t.link sp.unitAbove sp.horizon = .ok (t.withLink sp.unitAbove sp.horizon) := by
  obtain ⟨hA1, hB1, -⟩ := h.unlinkNode_free_of_fresh hf.above
  obtain ⟨hA2, -, -⟩ := h.unlinkNode_free_of_fresh hf.horizon
  refine link_eq_withLink hf.horizon_ne_above.symm ?_ (by rw [hA, hA2]) (by rw [hB, hB1])
  -- nothing is above the new unit yet
  refine isAbove_eq_false_of_closed (· = sp.unitAbove) (fun v w hv hvw => ?_) rfl
    hf.horizon_ne_above
  rw [hv, hA, hA1] at hvw
  cases hvw

theorem LinksOK.split_link_under
    (hA : t.aboveOf = (s.unlinkNode unit).aboveOf.insert sp.horizon sp.unitAbove)
    (hB : t.underOf = (s.unlinkNode unit).underOf.insert sp.unitAbove sp.horizon) :
    t.link sp.horizon sp.unitUnder = .ok (t.withLink sp.horizon sp.unitUnder) := by
  obtain ⟨hA1, -, hinto⟩ := h.unlinkNode_free_of_fresh hf.under
  obtain ⟨-, hB2, -⟩ := h.unlinkNode_free_of_fresh hf.horizon
  refine link_eq_withLink hf.horizon_ne_under ?_ ?_ ?_
  · -- no link leads into the new unit under
    refine isAbove_eq_false_of_closed (· ≠ sp.unitUnder) (fun v w _ hvw => ?_)
      hf.horizon_ne_under (not_not.2 rfl)
    rw [hA, NodeMap.get?_insert] at hvw
    split at hvw
    · cases hvw
      exact hf.above_ne_under
    · rintro rfl
      exact hinto v hvw
  · rw [hA, NodeMap.get?_insert, if_neg hf.horizon_ne_under.symm, hA1]
  · rw [hB, NodeMap.get?_insert, if_neg hf.horizon_ne_above, hB2]

theorem LinksOK.split_link_old_above (ha : s.aboveOf.get? unit = some a)
    (hA : t.aboveOf =
      ((s.unlinkNode unit).aboveOf.insert sp.horizon sp.unitAbove).insert sp.unitUnder sp.horizon)
    (hB : t.underOf =
      ((s.unlinkNode unit).underOf.insert sp.unitAbove sp.horizon).insert sp.horizon sp.unitUnder) :
    t.link a sp.unitAbove = .ok (t.withLink a sp.unitAbove) := by
  have hao := h.above_old ha
  refine link_eq_withLink (Catalog.ne_of_contains hao hf.above) ?_ ?_ ?_
  · -- links lead from old nodes to old nodes only, and the new unit above is new
    refine isAbove_eq_false_of_closed (fun v => (s.catalog.without unit).contains v = true)
      (fun v w hv hvw => ?_) hao (Bool.eq_false_iff.1 hf.above)
    rw [hA, NodeMap.get?_insert, if_neg (Catalog.ne_of_contains hv hf.under), NodeMap.get?_insert,
      if_neg (Catalog.ne_of_contains hv hf.horizon)] at hvw
    exact (h.unlinkNode_edge_old hvw).2
  · rw [hA, NodeMap.get?_insert, if_neg hf.above_ne_under, NodeMap.get?_insert,
      if_neg hf.horizon_ne_above.symm, (h.unlinkNode_free_of_fresh hf.above).1]
  · rw [hB, NodeMap.get?_insert, if_neg (Catalog.ne_of_contains hao hf.horizon),
      NodeMap.get?_insert, if_neg (Catalog.ne_of_contains hao hf.above),
      h.unlinkNode_underOf_above ha]

theorem LinksOK.split_link_old_under (hu : s.underOf.get? unit = some u)
    (hA : ∀ v, v ≠ sp.unitAbove → t.aboveOf.get? v =
      (((s.unlinkNode unit).aboveOf.insert sp.horizon sp.unitAbove).insert sp.unitUnder
        sp.horizon).get? v)
    (hA' : t.aboveOf.get? sp.unitAbove = s.aboveOf.get? unit)
    (hB : t.underOf.get? sp.unitUnder = none) :
    t.link sp.unitUnder u = .ok (t.withLink sp.unitUnder u) := by
  have huo := h.under_old hu
  have hne : ∀ {x}, (s.catalog.without unit).contains x = false → u ≠ x :=
    Catalog.ne_of_contains huo
  refine link_eq_withLink (hne hf.under).symm ?_ ?_ hB
  · -- the nodes at or above the new unit under are the new ones and those at or
    -- above the node above the old unit; the node under it is none of them, or
    -- it would have been above itself through the old unit
    refine isAbove_eq_false_of_closed (fun v => v = sp.unitUnder ∨ v = sp.horizon ∨
        v = sp.unitAbove ∨ ∃ a, s.aboveOf.get? unit = some a ∧ ReflTransGen s.aboveOf.Edge a v)
      (fun v w hv hvw => ?_) (.inl rfl) ?_
    · rcases hv with rfl | rfl | rfl | ⟨a, ha, hav⟩
      · rw [hA _ hf.above_ne_under.symm, NodeMap.get?_insert, if_pos rfl] at hvw
        cases hvw
        exact .inr (.inl rfl)
      · rw [hA _ hf.horizon_ne_above, NodeMap.get?_insert, if_neg hf.horizon_ne_under,
          NodeMap.get?_insert, if_pos rfl] at hvw
        cases hvw
        exact .inr (.inr (.inl rfl))
      · rw [hA'] at hvw
        exact .inr (.inr (.inr ⟨w, hvw, .refl⟩))
      · have hvo := h.above_chain_old ha hav
        rw [hA _ (Catalog.ne_of_contains hvo hf.above), NodeMap.get?_insert,
          if_neg (Catalog.ne_of_contains hvo hf.under), NodeMap.get?_insert,
          if_neg (Catalog.ne_of_contains hvo hf.horizon)] at hvw
        exact .inr (.inr (.inr ⟨a, ha, hav.tail (h.unlinkNode_free unit v w hvw).1⟩))
    · rintro (hv | hv | hv | ⟨a, ha, hau⟩)
      · exact hne hf.under hv
      · exact hne hf.horizon hv
      · exact hne hf.above hv
      · exact h.acyclic u (TransGen.head ((h.inverse u unit).2 hu) (TransGen.head' ha hau))
  · rw [hA _ (hne hf.above), NodeMap.get?_insert, if_neg (hne hf.under), NodeMap.get?_insert,
      if_neg (hne hf.horizon), h.unlinkNode_aboveOf_under hu]

/-- On well-formed links, a split of a unit into fresh nodes fails only when
`unit` is not a unit of the stack: its four links never fail. -/
theorem LinksOK.splitUnit_eq_error {e : Error} :
    s.splitUnit unit sp = .error e ↔ s.unit unit = .error e := by
  refine ⟨fun he => ?_, fun hc => by rw [splitUnit_eq, hc]; rfl⟩
  rw [splitUnit_eq] at he
  obtain he | ⟨c, hc, he⟩ := except_bind_eq_error.1 he
  · exact he
  exfalso
  -- the unit is there: removing it and renaming the new units go through
  obtain he | ⟨⟨z, cat⟩, hr, he⟩ := except_bind_eq_error.1 he
  · rw [unlinkNode_catalog, Catalog.remove_of_getOfKind hc] at he
    cases he
  obtain ⟨-, rfl⟩ := Catalog.remove_eq_ok hr
  dsimp only at he
  obtain he | ⟨t6, h6, he⟩ := except_bind_eq_error.1 he
  · exact setUnitName_ne_error (splitBase_kindOf?_above hf) he
  have r6 := setUnitName_relabels h6
  obtain he | ⟨t7, h7, he⟩ := except_bind_eq_error.1 he
  · exact setUnitName_ne_error (by rw [r6.kindOf?]; exact splitBase_kindOf?_under hf) he
  have r7 := setUnitName_relabels h7
  have hA7 : t7.aboveOf = (s.unlinkNode unit).aboveOf := by rw [r7.frame.1, r6.frame.1]; rfl
  have hB7 : t7.underOf = (s.unlinkNode unit).underOf := by rw [r7.frame.2.1, r6.frame.2.1]; rfl
  -- the links among the new nodes
  rw [except_bind_of_eq_ok (h.split_link_above hf hA7 hB7),
    except_bind_of_eq_ok (h.split_link_under hf (by rw [withLink_aboveOf, hA7])
      (by rw [withLink_underOf, hB7]))] at he
  generalize ht9 : (t7.withLink sp.unitAbove sp.horizon).withLink sp.horizon sp.unitUnder = t9 at he
  have hA9 : t9.aboveOf = ((s.unlinkNode unit).aboveOf.insert sp.horizon sp.unitAbove).insert
      sp.unitUnder sp.horizon := by
    rw [← ht9, withLink_aboveOf, withLink_aboveOf, hA7]
  have hB9 : t9.underOf = ((s.unlinkNode unit).underOf.insert sp.unitAbove sp.horizon).insert
      sp.horizon sp.unitUnder := by
    rw [← ht9, withLink_underOf, withLink_underOf, hB7]
  have hB9u : t9.underOf.get? sp.unitUnder = none := by
    rw [hB9, NodeMap.get?_insert, if_neg hf.horizon_ne_under.symm, NodeMap.get?_insert,
      if_neg hf.above_ne_under.symm, (h.unlinkNode_free_of_fresh hf.under).2.1]
  -- the links to the old neighbours, when the unit had them
  rcases ha : s.aboveOf.get? unit with _ | a <;> rcases hu : s.underOf.get? unit with _ | u <;>
    simp only [ha, hu, pure_bind] at he
  case none.none => cases he
  case none.some =>
    have hA9' : t9.aboveOf.get? sp.unitAbove = s.aboveOf.get? unit := by
      rw [hA9, NodeMap.get?_insert, if_neg hf.above_ne_under, NodeMap.get?_insert,
        if_neg hf.horizon_ne_above.symm, (h.unlinkNode_free_of_fresh hf.above).1, ha]
    rw [except_bind_of_eq_ok
      (h.split_link_old_under hf hu (fun v _ => by rw [hA9]) hA9' hB9u)] at he
    cases he
  case some.none =>
    rw [except_bind_of_eq_ok (h.split_link_old_above hf ha hA9 hB9)] at he
    cases he
  case some.some =>
    have hA10 : ∀ v, v ≠ sp.unitAbove → (t9.withLink a sp.unitAbove).aboveOf.get? v =
        (((s.unlinkNode unit).aboveOf.insert sp.horizon sp.unitAbove).insert sp.unitUnder
          sp.horizon).get? v := fun v hv => by
      rw [withLink_aboveOf, NodeMap.get?_insert, if_neg hv, hA9]
    have hA10' : (t9.withLink a sp.unitAbove).aboveOf.get? sp.unitAbove = s.aboveOf.get? unit := by
      rw [withLink_aboveOf, NodeMap.get?_insert, if_pos rfl, ha]
    have hB10 : (t9.withLink a sp.unitAbove).underOf.get? sp.unitUnder = none := by
      rw [withLink_underOf, NodeMap.get?_insert,
        if_neg (Catalog.ne_of_contains (h.above_old ha) hf.under).symm, hB9u]
    rw [except_bind_of_eq_ok (h.split_link_old_above hf ha hA9 hB9),
      except_bind_of_eq_ok (h.split_link_old_under hf hu hA10 hA10' hB10)] at he
    cases he

end Split

/-- On well-formed links, the builder's split of a unit into fresh nodes
fails only at its first step, when `unit` is not a unit of the stack, and
then leaves the stack as it was. -/
theorem LinksOK.splitUnit_runOn_error (h : s.LinksOK) {sp : UnitSplit} (hf : sp.Fresh s.catalog unit)
    {t : HorizonStack} {e : Error} (he : (Builder.splitUnit unit sp).runOn s = (.error e, t)) :
    t = s ∧ s.unit unit = .error e := by
  unfold Builder.splitUnit at he
  refine InPlace.runOn_eq_error_of_commit (r := fun t : HorizonStack => t.unit unit)
    (fun _ hc => (h.splitUnit_eq_error hf).1 ?_) he
  exact hc

namespace Builder

/-- The builder's removal of a node, step by step: when the node is there it
is unlinked and unregistered, and otherwise nothing is written. -/
theorem removeNode_runOn (s : HorizonStack) (id : Uuid) (k : ComponentKind) :
    (removeNode id k).runOn s = match s.catalog.getOfKind id k with
      | .ok _ => (.ok (), touch { s.unlinkNode id with catalog := s.catalog.without id })
      | .error e => (.error e, s) := by
  unfold removeNode
  rw [InPlace.runOn_bind, InPlace.runOn_get]
  dsimp only
  rw [InPlace.runOn_lift_bind]
  cases hg : s.catalog.getOfKind id k with
  | error e => rfl
  | ok x =>
    -- unlinking leaves the catalog, where the node is still found
    simp only [InPlace.runOn_bind, InPlace.runOn_modify, InPlace.runOn_get, InPlace.runOn_lift,
      unlinkNode_catalog, Catalog.remove_of_getOfKind hg]

end Builder

end HorizonStack

namespace Model

namespace Builder

variable {m : Model} {id : Uuid}

/-- The builder's removal of a collection, step by step: when the collection
is there and the lock allows it, its memberships are dropped and it is
unregistered; otherwise nothing is written. -/
theorem removeCollection_runOn (m : Model) (locked : Bool) (id : Uuid) (k : ComponentKind) :
    (removeCollection locked id k).runOn m =
      match m.catalog.getOfKind id k >>= fun _ => checkUnlocked locked id k with
      | .ok _ => (.ok (), { m with membership := (m.membership.removeNode id).2
                                   catalog := m.catalog.without id })
      | .error e => (.error e, m) := by
  unfold removeCollection
  rw [InPlace.runOn_bind, InPlace.runOn_get]
  dsimp only
  rw [InPlace.runOn_lift_bind]
  cases hg : m.catalog.getOfKind id k with
  | error e => rfl
  | ok x =>
    rw [InPlace.runOn_lift_bind]
    cases hl : checkUnlocked locked id k with
    | error e => rfl
    | ok u =>
      -- dropping the memberships leaves the catalog, where the collection is still found
      simp only [InPlace.runOn_bind, InPlace.runOn_modify, InPlace.runOn_get, InPlace.runOn_lift,
        Catalog.remove_of_getOfKind hg]
      rfl

/-- The builder's removal of an item, step by step: when the item is there
its relations and mesh are dropped and it is unregistered; otherwise nothing
is written. -/
theorem removeItem_runOn (m : Model) (id : Uuid) (k : ComponentKind) :
    (removeItem id k).runOn m = match m.catalog.getOfKind id k with
      | .ok _ => (.ok (), { m with
          membership := (m.membership.removeNode id).2
          boundaries := (m.boundaries.removeNode id).2
          internals := (m.internals.removeNode id).2
          meshes := m.meshes.erase id
          catalog := m.catalog.without id })
      | .error e => (.error e, m) := by
  unfold removeItem
  rw [InPlace.runOn_bind, InPlace.runOn_get]
  dsimp only
  rw [InPlace.runOn_lift_bind]
  cases hg : m.catalog.getOfKind id k with
  | error e => rfl
  | ok x =>
    -- the relations and the mesh are written first; the catalog, where the item
    -- is still found, last
    simp only [InPlace.runOn_bind, InPlace.runOn_modify, InPlace.runOn_get, InPlace.runOn_lift,
      Catalog.remove_of_getOfKind hg]

/-- Adding a collection with a type under a fresh identifier, step by step:
the collection is registered, and then takes the type, which is of its kind. -/
theorem addWithType_runOn (hfresh : m.catalog.contains id = false) (t : ComponentType) :
    (addWithType id t).runOn m =
      (.ok (), { m.addCollection t.kind id with
        catalog := (m.addCollection t.kind id).catalog.update id (·.retype t) }) := by
  have hk : (m.addCollection t.kind id).catalog.kindOf? id = some t.kind := by
    rw [addCollection, Catalog.kindOf?_register hfresh]
    exact if_pos rfl
  unfold addWithType
  rw [InPlace.runOn_bind, InPlace.runOn_modify]
  dsimp only
  rw [InPlace.runOn_apply, Catalog.setType_of_kindOf? hk]
  rfl

end Builder

end Model

/-! ## Failing only at the checks -/

/-- **The builders fail only at their checks, before they change anything.**
On a stack the builder reaches, removing a node fails only when no node of
that kind has the identifier, and splitting a unit into fresh nodes only
when the unit is missing; on any model, removing a collection fails only at
its lookup and at the lock, and removing an item only at its lookup; adding
a collection with a type under a fresh identifier never fails. Each failure
leaves the stack or the model as it was, though these edits write store
after store. -/
theorem builder_fails_only_at_checks {b : Bool} {s : HorizonStack}
    (hs : HorizonStack.Reachable b s) (m : Model) (e : Error) :
    (∀ id k t, (HorizonStack.Builder.removeNode id k).runOn s = (.error e, t) →
      t = s ∧ s.catalog.getOfKind id k = .error e) ∧
    (∀ unit sp t, sp.Fresh s.catalog unit →
      (HorizonStack.Builder.splitUnit unit sp).runOn s = (.error e, t) →
        t = s ∧ s.unit unit = .error e) ∧
    (∀ locked id k m', (Model.Builder.removeCollection locked id k).runOn m = (.error e, m') →
      m' = m ∧ (m.catalog.getOfKind id k >>= fun _ => Model.checkUnlocked locked id k) = .error e) ∧
    (∀ id k m', (Model.Builder.removeItem id k).runOn m = (.error e, m') →
      m' = m ∧ m.catalog.getOfKind id k = .error e) ∧
    (∀ id t m', m.catalog.contains id = false →
      (Model.Builder.addWithType id t).runOn m ≠ (.error e, m')) := by
  refine ⟨fun id k t he => ?_, fun unit sp t hf he => ?_, fun locked id k m' he => ?_,
    fun id k m' he => ?_, fun id t m' hfresh he => ?_⟩
  · rw [HorizonStack.Builder.removeNode_runOn] at he
    cases hg : s.catalog.getOfKind id k with
    | ok x => rw [hg] at he; cases he
    | error e' =>
      rw [hg] at he
      obtain ⟨he', rfl⟩ := Prod.mk.inj he
      obtain rfl := Except.error.inj he'
      exact ⟨rfl, rfl⟩
  · -- only the split needs the links of a reachable stack to be well formed
    exact hs.wellFormed.links.splitUnit_runOn_error hf he
  · rw [Model.Builder.removeCollection_runOn] at he
    cases hg : (m.catalog.getOfKind id k >>= fun _ => Model.checkUnlocked locked id k) with
    | ok x => rw [hg] at he; cases he
    | error e' =>
      rw [hg] at he
      obtain ⟨he', rfl⟩ := Prod.mk.inj he
      obtain rfl := Except.error.inj he'
      exact ⟨rfl, rfl⟩
  · rw [Model.Builder.removeItem_runOn] at he
    cases hg : m.catalog.getOfKind id k with
    | ok x => rw [hg] at he; cases he
    | error e' =>
      rw [hg] at he
      obtain ⟨he', rfl⟩ := Prod.mk.inj he
      obtain rfl := Except.error.inj he'
      exact ⟨rfl, rfl⟩
  · rw [Model.Builder.addWithType_runOn hfresh] at he
    cases he

/-- The lower unit of `erodedPair` splits into fresh nodes, and splitting
its base horizon as if it were a unit fails and changes nothing. -/
theorem erodedPair_fails_only_at_checks :
    let sp : HorizonStack.UnitSplit := ⟨Uuid.ofNat 4, Uuid.ofNat 5, Uuid.ofNat 6⟩
    let e : Error := .component (.wrongKind (Uuid.ofNat 0) .stratigraphicUnit .horizon)
    ((HorizonStack.Builder.splitUnit (Uuid.ofNat 1) sp).runOn HorizonStack.erodedPair).1 = .ok () ∧
    (HorizonStack.Builder.splitUnit (Uuid.ofNat 0) sp).runOn HorizonStack.erodedPair =
      (.error e, HorizonStack.erodedPair) ∧
    ((Model.Builder.removeItem (Uuid.ofNat 2) .line).runOn Model.layeredSection).1 = .ok () ∧
    HorizonStack.Reachable true HorizonStack.erodedPair ∧
    (∀ id k t, (HorizonStack.Builder.removeNode id k).runOn HorizonStack.erodedPair = (.error e, t) →
      t = HorizonStack.erodedPair ∧ HorizonStack.erodedPair.catalog.getOfKind id k = .error e) ∧
    (∀ unit sp t, sp.Fresh HorizonStack.erodedPair.catalog unit →
      (HorizonStack.Builder.splitUnit unit sp).runOn HorizonStack.erodedPair = (.error e, t) →
        t = HorizonStack.erodedPair ∧ HorizonStack.erodedPair.unit unit = .error e) ∧
    (∀ locked id k m', (Model.Builder.removeCollection locked id k).runOn Model.layeredSection =
        (.error e, m') →
      m' = Model.layeredSection ∧ (Model.layeredSection.catalog.getOfKind id k >>= fun _ =>
        Model.checkUnlocked locked id k) = .error e) ∧
    (∀ id k m', (Model.Builder.removeItem id k).runOn Model.layeredSection = (.error e, m') →
      m' = Model.layeredSection ∧ Model.layeredSection.catalog.getOfKind id k = .error e) ∧
    (∀ id t m', Model.layeredSection.catalog.contains id = false →
      (Model.Builder.addWithType id t).runOn Model.layeredSection ≠ (.error e, m')) :=
  ⟨by decide +kernel, rfl, by decide +kernel, HorizonStack.erodedPair_reachable,
    builder_fails_only_at_checks HorizonStack.erodedPair_reachable Model.layeredSection _⟩

end Subsurface
