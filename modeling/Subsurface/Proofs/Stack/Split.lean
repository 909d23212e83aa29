import Subsurface.Proofs.Stack.Order
import Subsurface.Proofs.Stack.Atomic
import Subsurface.Proofs.Archive.Keys
/-!
Splitting a unit, link by link.

A split replaces a unit `u` of the stack by three new nodes: from the bottom
up, a unit named after `u` with `_under`, a new horizon, and a unit named
after `u` with `_above`. Its four links never fail on well-formed links
(`LinksOK.splitUnit_eq_error`), so a split of a unit always goes through, and
what it leaves is said store by store. The catalog loses `u` and gains the
three nodes (`splitUnit_get?`). The new nodes are linked to one another and to
the former neighbours of `u`, which lose their links to `u`, and every other
link stays (`LinksOK.splitUnit_links`), so a
column `c₁ ++ [u] ++ c₂` becomes `c₁ ++ [under, horizon, above] ++ c₂`
(`LinksOK.splitUnit_column`). The erosion surfaces that truncated `u` now
truncate the unit above, the bases `u` lapped onto are lapped onto by the unit
under, and every other relation of `u` is dropped (`Keyed.splitUnit_isErodedBy`,
`Keyed.splitUnit_isBaselapOf`). `reachable_splitUnit` gathers all of it for
every stack the builder reaches.
-/

namespace Subsurface

namespace Relation

variable {r : Relation} {L : List (Uuid × Uuid)} {x y n : Uuid}

theorem Abstracts.hasEdge_removeNode_iff (h : r.Abstracts L) :
    (r.removeNode n).2.hasEdge x y = true ↔ r.hasEdge x y = true ∧ x ≠ n ∧ y ≠ n := by
  rw [(h.removeNode n).2.hasEdge_eq, h.hasEdge_eq, decide_eq_true_eq, decide_eq_true_eq,
    List.mem_filter]
  simp

theorem Abstracts.hasEdge_addEdge_iff (h : r.Abstracts L) (p c : Uuid) :
    (r.addEdge p c).2.hasEdge x y = true ↔ r.hasEdge x y = true ∨ (x = p ∧ y = c) := by
  rw [(h.addEdge p c).2.hasEdge_eq, h.hasEdge_eq, decide_eq_true_eq, decide_eq_true_eq]
  split
  · next hpc =>
    refine ⟨.inl, ?_⟩
    rintro (hxy | ⟨rfl, rfl⟩)
    · exact hxy
    · exact hpc
  · simp

theorem Abstracts.hasEdge_foldl_addEdge (pair : Uuid → Uuid × Uuid) :
    ∀ (xs : List Uuid) {r : Relation} {L : List (Uuid × Uuid)}, r.Abstracts L →
      ((xs.foldl (fun r z => (r.addEdge (pair z).1 (pair z).2).2) r).hasEdge x y = true ↔
        r.hasEdge x y = true ∨ ∃ z ∈ xs, pair z = (x, y))
  | [], r, L, _ => by simp
  | z :: xs, r, L, h => by
    rw [List.foldl_cons, Abstracts.hasEdge_foldl_addEdge pair xs (h.addEdge _ _).2,
      h.hasEdge_addEdge_iff]
    constructor
    · rintro ((hxy | ⟨rfl, rfl⟩) | ⟨w, hw, hwxy⟩)
      · exact .inl hxy
      · exact .inr ⟨z, List.mem_cons_self, rfl⟩
      · exact .inr ⟨w, List.mem_cons_of_mem z hw, hwxy⟩
    · rintro (hxy | ⟨w, hw, hwxy⟩)
      · exact .inl (.inl hxy)
      · rcases List.mem_cons.1 hw with rfl | hw
        · exact .inl (.inr (Prod.mk.inj hwxy.symm))
        · exact .inr ⟨w, hw, hwxy⟩

theorem Abstracts.mem_parentsOf_iff (h : r.Abstracts L) :
    x ∈ r.parentsOf y ↔ r.hasEdge x y = true := by
  rw [h.parentsOf_eq, ← targets_swap, mem_targets, h.hasEdge_eq, decide_eq_true_eq]
  simp

theorem Abstracts.mem_childrenOf_iff (h : r.Abstracts L) :
    y ∈ r.childrenOf x ↔ r.hasEdge x y = true := by
  rw [h.childrenOf_eq, mem_targets, h.hasEdge_eq, decide_eq_true_eq]

end Relation

theorem Catalog.contains_without_iff {c : Catalog} {id y : Uuid} :
    (c.without id).contains y = true ↔ y ≠ id ∧ c.contains y = true := by
  rw [Catalog.contains_without, Bool.and_eq_true, bne_iff_ne]

namespace HorizonStack

variable {b : Bool} {s s' : HorizonStack} {u x y : Uuid} {sp : UnitSplit}

/-! ## The catalog -/

/-- The catalog after a split: the three new nodes, the new units named after
the unit split, in place of it. -/
theorem splitUnit_get? {c : Component} (hf : sp.Fresh s.catalog u) (hc : s.unit u = .ok c)
    (hs : s.splitUnit u sp = .ok s') (x : Uuid) :
    s'.catalog.get? x =
      if x = sp.unitUnder then some ⟨sp.unitUnder, .stratigraphicUnit, c.name ++ "_under", none⟩
      else if x = sp.unitAbove then some ⟨sp.unitAbove, .stratigraphicUnit, c.name ++ "_above", none⟩
      else if x = sp.horizon then some ⟨sp.horizon, .horizon, defaultName, none⟩
      else (s.catalog.without u).get? x := by
  obtain ⟨c', hc', hcat⟩ := splitUnit_catalog hs
  rw [hc] at hc'
  cases hc'
  rw [hcat, Catalog.get?_update (Component.id_rename · _),
    Catalog.get?_update (Component.id_rename · _)]
  show ((((((s.catalog.without u).register _).register _).register _).get? x).map _).map _ = _
  rw [Catalog.get?_register hf.under_after, Catalog.get?_register hf.above_after,
    Catalog.get?_register hf.horizon]
  have hne := hf.above_ne_under.symm
  by_cases hu : x = sp.unitUnder
  · simp [hu, hne, Component.new, Component.rename]
  by_cases ha : x = sp.unitAbove
  · simp [ha, hf.above_ne_under, Component.new, Component.rename]
  by_cases hh : x = sp.horizon
  · simp [hh, hf.horizon_ne_above, hf.horizon_ne_under, Component.new]
  simp only [Component.new, hu, ha, hh, if_false]
  cases hg : (s.catalog.without u).get? x with
  | none => rfl
  | some z =>
    have hz := (Catalog.get?_eq_some hg).2
    simp [hz, hu, ha]

theorem splitUnit_contains (hf : sp.Fresh s.catalog u) (hs : s.splitUnit u sp = .ok s') :
    s'.contains x = true ↔ x = sp.unitUnder ∨ x = sp.horizon ∨ x = sp.unitAbove ∨
      (s.catalog.without u).contains x = true := by
  obtain ⟨c, -, -, -, -, -, -, hc, -⟩ := splitUnit_eq_ok hs
  unfold HorizonStack.contains
  rw [Catalog.contains_eq_isSome, splitUnit_get? hf hc hs, Catalog.contains_eq_isSome]
  by_cases hu : x = sp.unitUnder
  · simp [hu]
  by_cases ha : x = sp.unitAbove
  · simp [ha, hf.above_ne_under]
  by_cases hh : x = sp.horizon
  · simp [hh, hf.horizon_ne_under, hf.horizon_ne_above]
  simp [hu, ha, hh]

theorem LinksOK.not_linked_to_unit (h : s.LinksOK) (hx : (s.catalog.without u).contains x = false) :
    s.aboveOf.get? x ≠ some u ∧ s.underOf.get? x ≠ some u := by
  have hreg : ∀ v, s.contains v = true → v ≠ u → (s.catalog.without u).contains v = true :=
    fun _ hv hvu => Catalog.contains_without_iff.2 ⟨hvu, hv⟩
  refine ⟨fun hxu => ?_, fun hxu => ?_⟩
  · have hne : x ≠ u := by
      rintro rfl
      exact h.acyclic x (.single hxu)
    rw [hreg x (h.registered hxu).1 hne] at hx
    cases hx
  · have hux : s.aboveOf.get? u = some x := (h.inverse u x).2 hxu
    have hne : x ≠ u := by
      rintro rfl
      exact h.acyclic x (.single hux)
    rw [hreg x (h.registered hux).2 hne] at hx
    cases hx

theorem IsColumn.contains_without_iff {c₁ c₂ : List Uuid} (hc : s.IsColumn (c₁ ++ u :: c₂))
    (x : Uuid) : (s.catalog.without u).contains x = true ↔ x ∈ c₁ ∨ x ∈ c₂ := by
  have hnd := List.nodup_middle.1 hc.nodup
  rw [List.nodup_cons, List.mem_append, not_or] at hnd
  obtain ⟨⟨hu₁, hu₂⟩, -⟩ := hnd
  rw [Catalog.contains_without_iff]
  have hx := hc.mem_iff x
  constructor
  · rintro ⟨hxu, hx'⟩
    simpa [hxu] using hx.2 hx'
  · rintro (hx' | hx')
    · exact ⟨fun hxu => hu₁ (hxu ▸ hx'), hx.1 (by simp [hx'])⟩
    · exact ⟨fun hxu => hu₂ (hxu ▸ hx'), hx.1 (by simp [hx'])⟩

/-! ## The links

A split unlinks the unit, renames the two new units, links the unit above on
the horizon and the horizon on the unit under, and then, where the unit had
them, its former upper neighbour on the unit above and the unit under on its
former lower neighbour. Each link goes through (`Atomic`), so the links are
found one after the other. -/

section Links

variable {t7 t8 t9 t10 t11 : HorizonStack} (h : s.LinksOK) (hf : sp.Fresh s.catalog u)
include h hf

theorem LinksOK.split_inner (hA7 : t7.aboveOf = (s.unlinkNode u).aboveOf)
    (hB7 : t7.underOf = (s.unlinkNode u).underOf) (h8 : t7.link sp.unitAbove sp.horizon = .ok t8)
    (h9 : t8.link sp.horizon sp.unitUnder = .ok t9) :
    t9.aboveOf =
      ((s.unlinkNode u).aboveOf.insert sp.horizon sp.unitAbove).insert sp.unitUnder sp.horizon ∧
    t9.underOf =
      ((s.unlinkNode u).underOf.insert sp.unitAbove sp.horizon).insert sp.horizon sp.unitUnder := by
  rw [h.split_link_above hf hA7 hB7] at h8
  cases h8
  rw [h.split_link_under hf (by rw [withLink_aboveOf, hA7]) (by rw [withLink_underOf, hB7])] at h9
  cases h9
  simp [hA7, hB7]

theorem LinksOK.split_outer_above
    (hA9 : t9.aboveOf =
      ((s.unlinkNode u).aboveOf.insert sp.horizon sp.unitAbove).insert sp.unitUnder sp.horizon)
    (hB9 : t9.underOf =
      ((s.unlinkNode u).underOf.insert sp.unitAbove sp.horizon).insert sp.horizon sp.unitUnder)
    (h10 : ∀ a, s.aboveOf.get? u = some a → t9.link a sp.unitAbove = .ok t10)
    (h10' : s.aboveOf.get? u = none → t10 = t9) :
    (∀ x, t10.aboveOf.get? x = if x = sp.unitAbove then s.aboveOf.get? u else t9.aboveOf.get? x) ∧
    (∀ y, t10.underOf.get? y =
      if s.aboveOf.get? u = some y then some sp.unitAbove else t9.underOf.get? y) := by
  cases ha : s.aboveOf.get? u with
  | none =>
    rw [h10' ha]
    refine ⟨fun x => ?_, fun y => by simp⟩
    by_cases hx : x = sp.unitAbove
    · -- the new unit above is free above until then
      rw [if_pos hx, hx, hA9, NodeMap.get?_insert, if_neg hf.above_ne_under, NodeMap.get?_insert,
        if_neg hf.horizon_ne_above.symm, (h.unlinkNode_free_of_fresh hf.above).1]
    · rw [if_neg hx]
  | some a =>
    have hl := h10 a ha
    rw [h.split_link_old_above hf ha hA9 hB9] at hl
    cases hl
    refine ⟨fun x => ?_, fun y => ?_⟩
    · rw [withLink_aboveOf, NodeMap.get?_insert]
    · rw [withLink_underOf, NodeMap.get?_insert]
      by_cases hy : y = a
      · simp [hy]
      · simp [hy, Ne.symm hy]

theorem LinksOK.split_outer_under
    (hA9 : t9.aboveOf =
      ((s.unlinkNode u).aboveOf.insert sp.horizon sp.unitAbove).insert sp.unitUnder sp.horizon)
    (hB9 : t9.underOf =
      ((s.unlinkNode u).underOf.insert sp.unitAbove sp.horizon).insert sp.horizon sp.unitUnder)
    (hA10 : ∀ x, t10.aboveOf.get? x =
      if x = sp.unitAbove then s.aboveOf.get? u else t9.aboveOf.get? x)
    (hB10 : ∀ y, t10.underOf.get? y =
      if s.aboveOf.get? u = some y then some sp.unitAbove else t9.underOf.get? y)
    (h11 : ∀ b, s.underOf.get? u = some b → t10.link sp.unitUnder b = .ok t11)
    (h11' : s.underOf.get? u = none → t11 = t10) :
    (∀ x, t11.aboveOf.get? x =
      if s.underOf.get? u = some x then some sp.unitUnder else t10.aboveOf.get? x) ∧
    (∀ y, t11.underOf.get? y = if y = sp.unitUnder then s.underOf.get? u else t10.underOf.get? y) := by
  -- the new unit under is free below until then
  have hfree : t10.underOf.get? sp.unitUnder = none := by
    have hnot : s.aboveOf.get? u ≠ some sp.unitUnder := fun ha =>
      Catalog.ne_of_contains (h.above_old ha) hf.under rfl
    rw [hB10, if_neg hnot, hB9, NodeMap.get?_insert, if_neg hf.horizon_ne_under.symm,
      NodeMap.get?_insert, if_neg hf.above_ne_under.symm, (h.unlinkNode_free_of_fresh hf.under).2.1]
  cases hb : s.underOf.get? u with
  | none =>
    rw [h11' hb]
    refine ⟨fun x => by simp, fun y => ?_⟩
    by_cases hy : y = sp.unitUnder
    · rw [if_pos hy, hy, hfree]
    · rw [if_neg hy]
  | some b =>
    have hA : ∀ v, v ≠ sp.unitAbove → t10.aboveOf.get? v =
        (((s.unlinkNode u).aboveOf.insert sp.horizon sp.unitAbove).insert sp.unitUnder
          sp.horizon).get? v := fun v hv => by rw [hA10, if_neg hv, hA9]
    have hl := h11 b hb
    rw [h.split_link_old_under hf hb hA (by rw [hA10, if_pos rfl]) hfree] at hl
    cases hl
    refine ⟨fun x => ?_, fun y => ?_⟩
    · rw [withLink_aboveOf, NodeMap.get?_insert]
      by_cases hx : x = b
      · simp [hx]
      · simp [hx, Ne.symm hx]
    · rw [withLink_underOf, NodeMap.get?_insert]

/-- **The links after a split.** The unit under lies on the horizon, the
horizon on the unit above, the unit above on what lay on the unit, and what
the unit lay on now lies on the unit under; the unit is linked to nothing and
every other link stays. -/
theorem LinksOK.splitUnit_links (hs : s.splitUnit u sp = .ok s') :
    (∀ x, s'.aboveOf.get? x =
      if x = sp.unitUnder then some sp.horizon
      else if x = sp.horizon then some sp.unitAbove
      else if x = sp.unitAbove then s.aboveOf.get? u
      else if x = u then none
      else if s.aboveOf.get? x = some u then some sp.unitUnder
      else s.aboveOf.get? x) ∧
    (∀ y, s'.underOf.get? y =
      if y = sp.unitAbove then some sp.horizon
      else if y = sp.horizon then some sp.unitUnder
      else if y = sp.unitUnder then s.underOf.get? u
      else if y = u then none
      else if s.underOf.get? y = some u then some sp.unitAbove
      else s.underOf.get? y) := by
  obtain ⟨c, t6, t7, t8, t9, t10, t11, -, h6, h7, h8, h9, h10, h10', h11, h11', rfl⟩ :=
    splitUnit_eq_ok hs
  have r6 := setUnitName_relabels h6
  have r7 := setUnitName_relabels h7
  have hA7 : t7.aboveOf = (s.unlinkNode u).aboveOf := by rw [r7.frame.1, r6.frame.1]; rfl
  have hB7 : t7.underOf = (s.unlinkNode u).underOf := by rw [r7.frame.2.1, r6.frame.2.1]; rfl
  obtain ⟨hA9, hB9⟩ := h.split_inner hf hA7 hB7 h8 h9
  obtain ⟨hA10, hB10⟩ := h.split_outer_above hf hA9 hB9 h10 h10'
  obtain ⟨hA11, hB11⟩ := h.split_outer_under hf hA9 hB9 hA10 hB10 h11 h11'
  have nh := h.not_linked_to_unit hf.horizon
  have na := h.not_linked_to_unit hf.above
  have nu := h.not_linked_to_unit hf.under
  have hne := hf.above_ne_under.symm
  have hne' := hf.horizon_ne_under.symm
  have hne'' := hf.horizon_ne_above.symm
  have huu : s.aboveOf.get? u ≠ some u := fun hu => h.acyclic u (.single hu)
  have huu' : s.underOf.get? u ≠ some u := fun hu => h.acyclic u (.single ((h.inverse u u).2 hu))
  refine ⟨fun x => ?_, fun y => ?_⟩
  · show t11.aboveOf.get? x = _
    rw [hA11, hA10, hA9, NodeMap.get?_insert, NodeMap.get?_insert, h.unlinkNode_aboveOf]
    simp only [← h.inverse x u]
    by_cases hx1 : x = sp.unitUnder
    · subst hx1; simp [nu.1, hne]
    by_cases hx2 : x = sp.horizon
    · subst hx2; simp [nh.1, hne''.symm, hx1]
    by_cases hx3 : x = sp.unitAbove
    · subst hx3; simp [na.1, hx1, hx2]
    by_cases hx4 : x = u
    · subst hx4; simp [huu, hx1, hx2, hx3]
    by_cases hx5 : s.aboveOf.get? x = some u <;> simp [hx1, hx2, hx3, hx4, hx5]
  · show t11.underOf.get? y = _
    rw [hB11, hB10, hB9, NodeMap.get?_insert, NodeMap.get?_insert, h.unlinkNode_underOf]
    simp only [h.inverse u y]
    by_cases hy1 : y = sp.unitAbove
    · subst hy1; simp [na.2, hne.symm, hne'']
    by_cases hy2 : y = sp.horizon
    · subst hy2; simp [nh.2, hne'.symm, hy1]
    by_cases hy3 : y = sp.unitUnder
    · subst hy3; simp [hy1, hy2]
    by_cases hy4 : y = u
    · subst hy4; simp [huu', hy1, hy2, hy3]
    by_cases hy5 : s.underOf.get? y = some u <;> simp [hy1, hy2, hy3, hy4, hy5]

theorem LinksOK.splitUnit_aboveOf_frame (hs : s.splitUnit u sp = .ok s')
    (hx : (s.catalog.without u).contains x = true) (hxa : s.aboveOf.get? x ≠ some u) :
    s'.aboveOf.get? x = s.aboveOf.get? x := by
  rw [(h.splitUnit_links hf hs).1 x, if_neg (Catalog.ne_of_contains hx hf.under),
    if_neg (Catalog.ne_of_contains hx hf.horizon), if_neg (Catalog.ne_of_contains hx hf.above),
    if_neg (Catalog.contains_without_iff.1 hx).1, if_neg hxa]

theorem LinksOK.splitUnit_underOf_frame (hs : s.splitUnit u sp = .ok s')
    (hy : (s.catalog.without u).contains y = true) (hyu : s.underOf.get? y ≠ some u) :
    s'.underOf.get? y = s.underOf.get? y := by
  rw [(h.splitUnit_links hf hs).2 y, if_neg (Catalog.ne_of_contains hy hf.above),
    if_neg (Catalog.ne_of_contains hy hf.horizon), if_neg (Catalog.ne_of_contains hy hf.under),
    if_neg (Catalog.contains_without_iff.1 hy).1, if_neg hyu]

theorem LinksOK.isColumn_splitUnit (hs : s.splitUnit u sp = .ok s') {c₁ c₂ : List Uuid}
    (hc : s.IsColumn (c₁ ++ u :: c₂)) :
    s'.IsColumn (c₁ ++ sp.unitUnder :: sp.horizon :: sp.unitAbove :: c₂) := by
  obtain ⟨hA, hB⟩ := h.splitUnit_links hf hs
  have hnd := List.nodup_middle.1 hc.nodup
  rw [List.nodup_cons, List.mem_append, not_or] at hnd
  obtain ⟨⟨hu₁, hu₂⟩, hnd⟩ := hnd
  -- the other nodes of the column are the old nodes but the unit
  have hold := hc.contains_without_iff
  have hnu : ∀ x, x ∈ c₁ ∨ x ∈ c₂ → x ≠ u := fun x hx hxu => by
    subst hxu
    rcases hx with hx | hx
    · exact hu₁ hx
    · exact hu₂ hx
  have hnew : ∀ x, x ∈ c₁ ∨ x ∈ c₂ →
      x ≠ sp.unitUnder ∧ x ≠ sp.horizon ∧ x ≠ sp.unitAbove := fun x hx =>
    ⟨Catalog.ne_of_contains ((hold x).2 hx) hf.under,
      Catalog.ne_of_contains ((hold x).2 hx) hf.horizon,
      Catalog.ne_of_contains ((hold x).2 hx) hf.above⟩
  -- a link between two old nodes stays
  have hkeep : ∀ l : List Uuid, (∀ x ∈ l, x ∈ c₁ ∨ x ∈ c₂) →
      l.IsChain s.aboveOf.Edge → l.IsChain s'.aboveOf.Edge := fun l hl hch =>
    hch.imp_of_mem_imp fun a b ha hb (hab : s.aboveOf.get? a = some b) => by
      show s'.aboveOf.get? a = some b
      rw [h.splitUnit_aboveOf_frame hf hs ((hold a).2 (hl a ha)) (by
        rw [hab]; exact fun hbu => hnu b (hl b hb) (Option.some.inj hbu)), hab]
  have hch := hc.chain
  rw [List.isChain_append, List.isChain_cons] at hch
  obtain ⟨hch₁, ⟨hup, hch₂⟩, hdown⟩ := hch
  refine ⟨by simp, ?_, fun x => ?_, ?_, ?_, ?_⟩
  · -- no identifier twice
    simp only [List.nodup_middle, List.nodup_cons, List.mem_cons, List.mem_append, not_or]
    exact ⟨⟨fun hx => (hnew _ (.inl hx)).1 rfl, hf.horizon_ne_under.symm, hf.above_ne_under.symm,
        fun hx => (hnew _ (.inr hx)).1 rfl⟩,
      ⟨fun hx => (hnew _ (.inl hx)).2.1 rfl, hf.horizon_ne_above,
        fun hx => (hnew _ (.inr hx)).2.1 rfl⟩,
      ⟨fun hx => (hnew _ (.inl hx)).2.2 rfl, fun hx => (hnew _ (.inr hx)).2.2 rfl⟩, hnd⟩
  · rw [splitUnit_contains hf hs, hold]
    simp only [List.mem_append, List.mem_cons]
    tauto
  · rw [List.isChain_append, List.isChain_cons_cons, List.isChain_cons_cons, List.isChain_cons]
    refine ⟨hkeep c₁ (fun x hx => .inl hx) hch₁, ⟨?_, ?_, fun y hy => ?_,
      hkeep c₂ (fun x hx => .inr hx) hch₂⟩, fun x hx y hy => ?_⟩
    · show s'.aboveOf.get? sp.unitUnder = some sp.horizon
      rw [hA, if_pos rfl]
    · show s'.aboveOf.get? sp.horizon = some sp.unitAbove
      rw [hA, if_neg hf.horizon_ne_under, if_pos rfl]
    · show s'.aboveOf.get? sp.unitAbove = some y
      rw [hA, if_neg hf.above_ne_under, if_neg hf.horizon_ne_above.symm, if_pos rfl]
      exact hup y hy
    · -- the node under the unit now lies under the unit under
      cases hy
      have hx₁ := List.mem_of_getLast? hx
      have hxu : s.aboveOf.get? x = some u := hdown x hx u rfl
      obtain ⟨n₁, n₂, n₃⟩ := hnew x (.inl hx₁)
      show s'.aboveOf.get? x = some sp.unitUnder
      rw [hA, if_neg n₁, if_neg n₂, if_neg n₃, if_neg (hnu x (.inl hx₁)), if_pos hxu]
  · -- the bottom
    intro x hx
    cases c₁ with
    | nil =>
      cases hx
      rw [hB, if_neg hf.above_ne_under.symm, if_neg hf.horizon_ne_under.symm, if_pos rfl]
      exact hc.bottom u rfl
    | cons b c₁ =>
      simp only [List.cons_append, List.head?_cons, Option.mem_def, Option.some.injEq] at hx
      subst hx
      have hb := hc.bottom b rfl
      rw [h.splitUnit_underOf_frame hf hs ((hold b).2 (.inl (by simp))) (by rw [hb]; nofun), hb]
  · -- the top
    intro x hx
    rcases List.eq_nil_or_concat c₂ with rfl | ⟨L, b, rfl⟩
    · have hx' : x = sp.unitAbove := by simpa using hx.symm
      subst hx'
      rw [hA, if_neg hf.above_ne_under, if_neg hf.horizon_ne_above.symm, if_pos rfl]
      exact hc.top u (by simp)
    · have hl : c₁ ++ sp.unitUnder :: sp.horizon :: sp.unitAbove :: (L ++ [b]) =
          (c₁ ++ sp.unitUnder :: sp.horizon :: sp.unitAbove :: L) ++ [b] := by simp
      rw [List.concat_eq_append, hl, List.getLast?_concat, Option.mem_def, Option.some.injEq] at hx
      subst hx
      have hb := hc.top b (by
        rw [Option.mem_def, List.concat_eq_append, ← List.cons_append, ← List.append_assoc,
          List.getLast?_concat])
      rw [h.splitUnit_aboveOf_frame hf hs ((hold b).2 (.inr (by simp))) (by rw [hb]; nofun), hb]

end Links

/-- **The column after a split.** The unit under, the horizon and the unit
above take the place of the unit in the column, from the bottom up. -/
theorem LinksOK.splitUnit_column (h : s.LinksOK) (hd : s.catalog.Distinct)
    (hf : sp.Fresh s.catalog u) (hs : s.splitUnit u sp = .ok s') {c₁ c₂ : List Uuid}
    (hcol : s.column = .ok (c₁ ++ u :: c₂)) :
    s'.column = .ok (c₁ ++ sp.unitUnder :: sp.horizon :: sp.unitAbove :: c₂) :=
  (h.splitUnit hf hs).column_of_isColumn (distinct_splitUnit hd hf hs)
    (h.isColumn_splitUnit hf hs (h.isColumn_of_column hd hcol))

/-! ## The relations -/

theorem splitUnit_relations (hs : s.splitUnit u sp = .ok s') :
    s'.erosions = (s.erosions.parentsOf u).foldl (fun r e => (r.addEdge e sp.unitAbove).2)
      (s.erosions.removeNode u).2 ∧
    s'.baselaps = (s.baselaps.childrenOf u).foldl (fun r b => (r.addEdge sp.unitUnder b).2)
      (s.baselaps.removeNode u).2 := by
  obtain ⟨c, t6, t7, t8, t9, t10, t11, -, h6, h7, h8, h9, h10, h10', h11, h11', rfl⟩ :=
    splitUnit_eq_ok hs
  -- the renames and the links leave the relations the unlinking left
  have r7 := (setUnitName_relabels h7).frame
  have r6 := (setUnitName_relabels h6).frame
  have l10 : t10.erosions = t9.erosions ∧ t10.baselaps = t9.baselaps := by
    cases ha : s.aboveOf.get? u with
    | none => rw [h10' ha]; exact ⟨rfl, rfl⟩
    | some a => exact (link_frame (h10 a ha)).2
  have l11 : t11.erosions = t10.erosions ∧ t11.baselaps = t10.baselaps := by
    cases hb : s.underOf.get? u with
    | none => rw [h11' hb]; exact ⟨rfl, rfl⟩
    | some b => exact (link_frame (h11 b hb)).2
  refine ⟨?_, ?_⟩
  · show List.foldl _ t11.erosions _ = _
    rw [l11.1, l10.1, (link_frame h9).2.1, (link_frame h8).2.1, r7.2.2.1, r6.2.2.1]
    rfl
  · show List.foldl _ t11.baselaps _ = _
    rw [l11.2, l10.2, (link_frame h9).2.2, (link_frame h8).2.2, r7.2.2.2, r6.2.2.2]
    rfl

/-- **The erosions after a split.** A node is eroded by a surface when it was
and neither is the unit, or when it is the unit above and the surface eroded
the unit. -/
theorem Keyed.splitUnit_isErodedBy (hk : s.Keyed) (hs : s.splitUnit u sp = .ok s')
    (eroded erosion : Uuid) :
    s'.isErodedBy eroded erosion = true ↔
      (s.isErodedBy eroded erosion = true ∧ eroded ≠ u ∧ erosion ≠ u) ∨
        (eroded = sp.unitAbove ∧ s.isErodedBy u erosion = true) := by
  obtain ⟨L, hL, -⟩ := hk.erosions
  unfold isErodedBy
  rw [(splitUnit_relations hs).1,
    Relation.Abstracts.hasEdge_foldl_addEdge (fun e => (e, sp.unitAbove)) _ (hL.removeNode u).2,
    hL.hasEdge_removeNode_iff]
  simp only [hL.mem_parentsOf_iff, Prod.mk.injEq]
  constructor
  · rintro (⟨he, hne, hne'⟩ | ⟨z, hz, rfl, rfl⟩)
    · exact .inl ⟨he, hne', hne⟩
    · exact .inr ⟨rfl, hz⟩
  · rintro (⟨he, hne, hne'⟩ | ⟨rfl, he⟩)
    · exact .inl ⟨he, hne', hne⟩
    · exact .inr ⟨erosion, he, rfl, rfl⟩

/-- **The baselaps after a split.** A node laps onto a base when it did and
neither is the unit, or when it is the unit under and the unit lapped onto the
base. -/
theorem Keyed.splitUnit_isBaselapOf (hk : s.Keyed) (hs : s.splitUnit u sp = .ok s')
    (base top : Uuid) :
    s'.isBaselapOf base top = true ↔
      (s.isBaselapOf base top = true ∧ base ≠ u ∧ top ≠ u) ∨
        (top = sp.unitUnder ∧ s.isBaselapOf base u = true) := by
  obtain ⟨L, hL, -⟩ := hk.baselaps
  unfold isBaselapOf
  rw [(splitUnit_relations hs).2,
    Relation.Abstracts.hasEdge_foldl_addEdge (fun b => (sp.unitUnder, b)) _ (hL.removeNode u).2,
    hL.hasEdge_removeNode_iff]
  simp only [hL.mem_childrenOf_iff, Prod.mk.injEq]
  constructor
  · rintro (⟨hb, hne, hne'⟩ | ⟨z, hz, rfl, rfl⟩)
    · exact .inl ⟨hb, hne', hne⟩
    · exact .inr ⟨rfl, hz⟩
  · rintro (⟨hb, hne, hne'⟩ | ⟨rfl, hb⟩)
    · exact .inl ⟨hb, hne', hne⟩
    · exact .inr ⟨base, hb, rfl, rfl⟩

/-! ## Every stack the builder reaches -/

theorem UnitSplit.fresh_of_not_contains {c : Catalog}
    (hnew : ∀ x ∈ [sp.horizon, sp.unitAbove, sp.unitUnder], c.contains x = false)
    (hnd : [sp.horizon, sp.unitAbove, sp.unitUnder].Nodup) : sp.Fresh c u := by
  simp only [List.nodup_cons, List.mem_cons, not_or, List.not_mem_nil,
    not_false_eq_true, List.nodup_nil, and_true] at hnd
  have hw : ∀ x ∈ [sp.horizon, sp.unitAbove, sp.unitUnder], (c.without u).contains x = false :=
    fun x hx => by rw [Catalog.contains_without, hnew x hx, Bool.and_false]
  exact ⟨hnd.1.1, hnd.1.2, hnd.2, hw _ (by simp), hw _ (by simp), hw _ (by simp)⟩

/-- What a split of the unit `u`, the component `c`, into the nodes of `sp`
leaves in `s'`: the unit is gone and the three nodes stand in its place, in
the catalog, in the links, in the column and in the relations. -/
structure SplitsUnit (s : HorizonStack) (u : Uuid) (c : Component) (sp : UnitSplit)
    (s' : HorizonStack) : Prop where
  unit_gone : s'.contains u = false
  get? : ∀ x, s'.catalog.get? x =
    if x = sp.unitUnder then some ⟨sp.unitUnder, .stratigraphicUnit, c.name ++ "_under", none⟩
    else if x = sp.unitAbove then some ⟨sp.unitAbove, .stratigraphicUnit, c.name ++ "_above", none⟩
    else if x = sp.horizon then some ⟨sp.horizon, .horizon, defaultName, none⟩
    else (s.catalog.without u).get? x
  aboveOf : ∀ x, s'.aboveOf.get? x =
    if x = sp.unitUnder then some sp.horizon
    else if x = sp.horizon then some sp.unitAbove
    else if x = sp.unitAbove then s.aboveOf.get? u
    else if x = u then none
    else if s.aboveOf.get? x = some u then some sp.unitUnder
    else s.aboveOf.get? x
  underOf : ∀ y, s'.underOf.get? y =
    if y = sp.unitAbove then some sp.horizon
    else if y = sp.horizon then some sp.unitUnder
    else if y = sp.unitUnder then s.underOf.get? u
    else if y = u then none
    else if s.underOf.get? y = some u then some sp.unitAbove
    else s.underOf.get? y
  column : ∀ c₁ c₂, s.column = .ok (c₁ ++ u :: c₂) →
    s'.column = .ok (c₁ ++ sp.unitUnder :: sp.horizon :: sp.unitAbove :: c₂)
  isErodedBy : ∀ eroded erosion, s'.isErodedBy eroded erosion = true ↔
    (s.isErodedBy eroded erosion = true ∧ eroded ≠ u ∧ erosion ≠ u) ∨
      (eroded = sp.unitAbove ∧ s.isErodedBy u erosion = true)
  isBaselapOf : ∀ base top, s'.isBaselapOf base top = true ↔
    (s.isBaselapOf base top = true ∧ base ≠ u ∧ top ≠ u) ∨
      (top = sp.unitUnder ∧ s.isBaselapOf base u = true)

/-- **Splitting a unit.** On every stack the builder reaches, splitting a unit
into three different nodes that no node has goes through, and leaves the unit
replaced by them: the unit under, named after the unit with `_under`, lies on
the horizon, which lies on the unit above, named with `_above`; the unit above
lies on what lay on the unit and the unit under on what the unit lay on; every
other link stays, so in the column the three nodes take the unit's place. The
erosions of the unit pass to the unit above and its baselaps to the unit
under, its other relations are dropped and all others stay. -/
theorem reachable_splitUnit {b : Bool} {s : HorizonStack} {u : Uuid} {c : Component}
    {sp : UnitSplit} (h : Reachable b s) (hc : s.unit u = .ok c)
    (hnew : ∀ x ∈ [sp.horizon, sp.unitAbove, sp.unitUnder], s.contains x = false)
    (hnd : [sp.horizon, sp.unitAbove, sp.unitUnder].Nodup) :
    ∃ s', s.splitUnit u sp = .ok s' ∧ s.SplitsUnit u c sp s' := by
  have hl := h.wellFormed.links
  have hf : sp.Fresh s.catalog u := UnitSplit.fresh_of_not_contains hnew hnd
  -- the four links never fail, so the split goes through
  cases hs : s.splitUnit u sp with
  | error e =>
    rw [(hl.splitUnit_eq_error hf).1 hs] at hc
    cases hc
  | ok s' =>
    refine ⟨s', rfl, ⟨?_, splitUnit_get? hf hc hs, (hl.splitUnit_links hf hs).1,
      (hl.splitUnit_links hf hs).2, fun _ _ => hl.splitUnit_column h.distinct hf hs,
      h.keyed.splitUnit_isErodedBy hs, h.keyed.splitUnit_isBaselapOf hs⟩⟩
    -- the unit is none of the new nodes, which no node had
    have hu : s.contains u = true := by
      unfold HorizonStack.contains
      rw [Catalog.contains_eq_isSome, (Catalog.getOfKind_eq_ok.1 hc).1]
      rfl
    have hne : ∀ x ∈ [sp.horizon, sp.unitAbove, sp.unitUnder], u ≠ x :=
      fun x hx => Catalog.ne_of_contains hu (hnew x hx)
    rw [Bool.eq_false_iff]
    intro hus
    rcases (splitUnit_contains hf hs).1 hus with hx | hx | hx | hx
    · exact hne _ (by simp) hx
    · exact hne _ (by simp) hx
    · exact hne _ (by simp) hx
    · exact (Catalog.contains_without_iff.1 hx).1 rfl

/-- The split of the unit of `horizonUnderUnit`. -/
theorem split_unit_over_horizon :
    Reachable true horizonUnderUnit ∧
    horizonUnderUnit.unit (Uuid.ofNat 1) = .ok (Component.new (Uuid.ofNat 1) .stratigraphicUnit) ∧
    (∀ x ∈ [Uuid.ofNat 2, Uuid.ofNat 3, Uuid.ofNat 4], horizonUnderUnit.contains x = false) ∧
    [Uuid.ofNat 2, Uuid.ofNat 3, Uuid.ofNat 4].Nodup ∧
    ∃ s', horizonUnderUnit.splitUnit (Uuid.ofNat 1) ⟨Uuid.ofNat 2, Uuid.ofNat 3, Uuid.ofNat 4⟩ =
        .ok s' ∧
      horizonUnderUnit.SplitsUnit (Uuid.ofNat 1) (Component.new (Uuid.ofNat 1) .stratigraphicUnit)
        ⟨Uuid.ofNat 2, Uuid.ofNat 3, Uuid.ofNat 4⟩ s' := by
  have hc : horizonUnderUnit.unit (Uuid.ofNat 1) =
      .ok (Component.new (Uuid.ofNat 1) .stratigraphicUnit) := by decide
  have hnew : ∀ x ∈ [Uuid.ofNat 2, Uuid.ofNat 3, Uuid.ofNat 4],
      horizonUnderUnit.contains x = false := by decide
  have hnd : [Uuid.ofNat 2, Uuid.ofNat 3, Uuid.ofNat 4].Nodup := by decide
  exact ⟨reachable_horizonUnderUnit, hc, hnew, hnd,
    reachable_splitUnit reachable_horizonUnderUnit hc hnew hnd⟩

end HorizonStack

end Subsurface
