import Subsurface.Proofs.Stack.FromNames
/-!
A column built one call at a time.

A caller can build the column of a list of horizons and a list of units,
both listed from the bottom up, without `ofNamesFromBottom`: name the
horizons first, then name each unit and place it over the horizon under it
(`addHorizonUnder`) and under the horizon over it (`addHorizonAbove`).
`buildUpward` is that build. Each unit placed extends the linked part of the
column at its top (`ChainLinks.link_top`), so once every unit is placed the
nodes form the column of the names (`buildUpward_namedColumn`): the same
names as the stack `ofNamesFromBottom` builds, position by position, with the
same links between them and the same ends (`ofNames_builds_column`).
-/

namespace Subsurface

section Alternate

variable {α : Type}

theorem getElem?_alternate_even : ∀ (xs ys : List α) (i : Nat), i < xs.length → i ≤ ys.length →
    (alternate xs ys)[2 * i]? = xs[i]?
  | [], _, _, hx, _ => absurd hx (Nat.not_lt_zero _)
  | x :: xs, [], i, _, hy => by
    obtain rfl : i = 0 := Nat.le_zero.1 hy
    simp
  | x :: xs, y :: ys, 0, _, _ => by simp
  | x :: xs, y :: ys, i + 1, hx, hy => by
    rw [alternate_cons_cons, show 2 * (i + 1) = 2 * i + 2 by omega]
    simpa using getElem?_alternate_even xs ys i (by simpa using hx) (by simpa using hy)

theorem getElem?_alternate_odd : ∀ (xs ys : List α) (i : Nat), i < xs.length → i < ys.length →
    (alternate xs ys)[2 * i + 1]? = ys[i]?
  | [], _, _, hx, _ => absurd hx (Nat.not_lt_zero _)
  | _ :: _, [], _, _, hy => absurd hy (Nat.not_lt_zero _)
  | x :: xs, y :: ys, 0, _, _ => by simp
  | x :: xs, y :: ys, i + 1, hx, hy => by
    rw [alternate_cons_cons, show 2 * (i + 1) + 1 = 2 * i + 1 + 2 by omega]
    simpa using getElem?_alternate_odd xs ys i (by simpa using hx) (by simpa using hy)

theorem alternate_perm : ∀ (xs ys : List α), (alternate xs ys).Perm (xs ++ ys)
  | [], ys => by simp
  | x :: xs, [] => by simp
  | x :: xs, y :: ys => by
    rw [alternate_cons_cons, List.cons_append]
    exact ((alternate_perm xs ys).cons y |>.trans List.perm_middle.symm).cons x

end Alternate

namespace HorizonStack

variable {s t : HorizonStack}

/-! ## The build -/

/-- The units outside the horizons at each end of a column of these lists:
one with one unit more than horizons, none otherwise. -/
def endUnits (hs us : List String) : Nat := if us.length = hs.length + 1 then 1 else 0

/-- Names unit `j` of `us` and places it over the horizon under it and under
the horizon over it, those it has. -/
def placeUnit (hs us : List String) (fresh : Nat → Uuid) (s : HorizonStack) (j : Nat) :
    Except Error HorizonStack :=
  nameStep fresh s ((.stratigraphicUnit, us.getD j ""), hs.length + j) >>= fun s =>
  (if endUnits hs us ≤ j then s.addHorizonUnder (fresh (j - endUnits hs us)) (fresh (hs.length + j))
    else pure s) >>= fun s =>
  if j + 1 - endUnits hs us < hs.length then
    s.addHorizonAbove (fresh (j + 1 - endUnits hs us)) (fresh (hs.length + j))
  else pure s

/-- The stack of horizons and units listed from the bottom up, built one call
at a time: the named horizons, then each named unit placed between them.
Horizons take the first identifiers drawn, units the next ones. -/
def buildUpward (dim : Nat) (hs us : List String) (fresh : Nat → Uuid) :
    Except Error HorizonStack := do
  let s ← (hs.map (.horizon, ·)).zipIdx.foldlM (nameStep fresh) (empty dim)
  let s ← (List.range us.length).foldlM (placeUnit hs us fresh) s
  s.computeTopAndBottom

/-- The identifiers of the nodes `buildUpward` makes, from the bottom of the
column up. -/
def upwardIds (hs us : List String) (fresh : Nat → Uuid) : List Uuid :=
  if us.length = hs.length + 1 then
    alternate ((List.range us.length).map fun j => fresh (hs.length + j))
      ((List.range hs.length).map fresh)
  else
    alternate ((List.range hs.length).map fresh)
      ((List.range us.length).map fun j => fresh (hs.length + j))

/-- The node `buildUpward` makes at position `i` from the top of the column. -/
def upwardNode (hs us : List String) (fresh : Nat → Uuid) (i : Nat) : Uuid :=
  (upwardIds hs us fresh).reverse.getD i (fresh 0)

/-! ## Links along a chain -/

/-- The links of `s` are those of the chain `col`, listed from the bottom up:
each node lies on the one before it, and no other node is linked. -/
structure ChainLinks (s : HorizonStack) (col : List Uuid) : Prop where
  chain : col.IsChain s.aboveOf.Edge
  above_none : ∀ x ∉ col.dropLast, s.aboveOf.get? x = none
  under_none : ∀ x ∉ col.tail, s.underOf.get? x = none

theorem chainLinks_of_unlinked {col : List Uuid} (ha : ∀ x, s.aboveOf.get? x = none)
    (hu : ∀ x, s.underOf.get? x = none) (hc : col.length ≤ 1) : s.ChainLinks col := by
  refine ⟨?_, fun x _ => ha x, fun x _ => hu x⟩
  rcases col with _ | ⟨a, _ | ⟨b, rest⟩⟩
  · exact .nil
  · exact .singleton a
  · simp at hc

theorem ChainLinks.congr {col : List Uuid} (h : s.ChainLinks col) (ha : t.aboveOf = s.aboveOf)
    (hu : t.underOf = s.underOf) : t.ChainLinks col := by
  obtain ⟨hc, hna, hnu⟩ := h
  rw [← ha] at hc hna
  rw [← hu] at hnu
  exact ⟨hc, hna, hnu⟩

/-- Linking a node free of links above the top of the chain extends the
chain by that node. -/
theorem ChainLinks.link_top {col : List Uuid} {x y : Uuid} (hl : s.LinksOK) (h : s.ChainLinks col)
    (hnd : col.Nodup) (hy : col.getLast? = some y) (hx : x ∉ col) (hj : s.catalog.Joins y x) :
    s.link x y = .ok (s.withLink x y) ∧ (s.withLink x y).LinksOK ∧
      (s.withLink x y).ChainLinks (col ++ [x]) := by
  obtain ⟨pre, rfl⟩ := List.getLast?_eq_some_iff.1 hy
  have hne : x ≠ y := fun he => hx (he ▸ List.mem_concat_self)
  have hypre : y ∉ pre := fun hm =>
    (List.nodup_append.1 hnd).2.2 y hm y (List.mem_singleton_self y) rfl
  have hya : s.aboveOf.get? y = none := h.above_none y (by rwa [List.dropLast_concat])
  have hxa : s.aboveOf.get? x = none :=
    h.above_none x fun hm => hx ((List.dropLast_sublist _).subset hm)
  have hxu : s.underOf.get? x = none := h.under_none x fun hm => hx (List.mem_of_mem_tail hm)
  -- nothing lies above `x`, so no climb from it meets `y`
  have hfar : s.isAbove y x = false := by
    refine isAbove_eq_false_of_closed (· = x) (fun v w hv hvw => ?_) rfl (Ne.symm hne)
    subst hv
    rw [hxa] at hvw
    cases hvw
  refine ⟨link_eq_withLink hne hfar hya hxu, hl.withLink hj hne hfar hya hxu, ⟨?_, ?_, ?_⟩⟩
  · refine List.IsChain.append (h.chain.imp fun a b hab => ?_) (.singleton x) ?_
    · have hay : a ≠ y := fun he => by rw [he, NodeMap.Edge, hya] at hab; cases hab
      rw [NodeMap.Edge, withLink_aboveOf, NodeMap.get?_insert, if_neg hay]
      exact hab
    · intro a ha b hb
      rw [List.getLast?_concat, Option.mem_some_iff] at ha
      rw [List.head?_cons, Option.mem_some_iff] at hb
      rw [← ha, ← hb, NodeMap.Edge, withLink_aboveOf, NodeMap.get?_insert, if_pos rfl]
  · intro z hz
    rw [List.dropLast_concat] at hz
    have hzy : z ≠ y := fun he => hz (he ▸ List.mem_concat_self)
    rw [withLink_aboveOf, NodeMap.get?_insert, if_neg hzy]
    exact h.above_none z
      (by rw [List.dropLast_concat]; exact fun hm => hz (List.mem_append_left _ hm))
  · intro z hz
    rw [List.tail_append_of_ne_nil (by simp)] at hz
    have hzx : z ≠ x := fun he => hz (he ▸ List.mem_concat_self)
    rw [withLink_underOf, NodeMap.get?_insert, if_neg hzx]
    exact h.under_none z fun hm => hz (List.mem_append_left _ hm)

theorem ChainLinks.isColumn {col : List Uuid} (h : s.ChainLinks col) (hne : col ≠ [])
    (hnd : col.Nodup) (hmem : ∀ x, x ∈ col ↔ s.contains x = true) : s.IsColumn col := by
  refine ⟨hne, hnd, hmem, h.chain, fun x hx => h.under_none x ?_, fun x hx => h.above_none x ?_⟩
  · obtain ⟨rest, rfl⟩ : ∃ rest, col = x :: rest := by
      rcases col with _ | ⟨a, rest⟩
      · cases hx
      · exact ⟨rest, by cases hx; rfl⟩
    exact (List.nodup_cons.1 hnd).1
  · obtain ⟨pre, rfl⟩ := List.getLast?_eq_some_iff.1 hx
    rw [List.dropLast_concat]
    exact fun hm => (List.nodup_append.1 hnd).2.2 x hm x (List.mem_singleton_self x) rfl

theorem checkPair_of_kinds {x y : Uuid} (hx : s.catalog.kindOf? x = some .horizon)
    (hy : s.catalog.kindOf? y = some .stratigraphicUnit) : s.checkPair x y = .ok () := by
  obtain ⟨a, ha⟩ := Catalog.getOfKind_of_kindOf? hx
  obtain ⟨b, hb⟩ := Catalog.getOfKind_of_kindOf? hy
  unfold checkPair horizon unit
  rw [ha, hb]
  rfl

/-- Placing a unit over the horizon on top of the chain extends the chain by
the unit. -/
theorem ChainLinks.addHorizonUnder_top {col : List Uuid} {h u : Uuid} (hl : s.LinksOK)
    (hc : s.ChainLinks col) (hnd : col.Nodup) (hlast : col.getLast? = some h) (hu : u ∉ col)
    (hkh : s.catalog.kindOf? h = some .horizon)
    (hku : s.catalog.kindOf? u = some .stratigraphicUnit) :
    s.addHorizonUnder h u = .ok (s.withLink u h) ∧ (s.withLink u h).LinksOK ∧
      (s.withLink u h).ChainLinks (col ++ [u]) := by
  obtain ⟨hlink, hrest⟩ := hc.link_top hl hnd hlast hu (.inl ⟨hkh, hku⟩)
  refine ⟨?_, hrest⟩
  unfold addHorizonUnder
  rw [checkPair_of_kinds hkh hku]
  exact hlink

/-- Placing a horizon over the unit on top of the chain extends the chain by
the horizon. -/
theorem ChainLinks.addHorizonAbove_top {col : List Uuid} {h u : Uuid} (hl : s.LinksOK)
    (hc : s.ChainLinks col) (hnd : col.Nodup) (hlast : col.getLast? = some u) (hh : h ∉ col)
    (hkh : s.catalog.kindOf? h = some .horizon)
    (hku : s.catalog.kindOf? u = some .stratigraphicUnit) :
    s.addHorizonAbove h u = .ok (s.withLink h u) ∧ (s.withLink h u).LinksOK ∧
      (s.withLink h u).ChainLinks (col ++ [h]) := by
  obtain ⟨hlink, hrest⟩ := hc.link_top hl hnd hlast hh (.inr ⟨hku, hkh⟩)
  refine ⟨?_, hrest⟩
  unfold addHorizonAbove
  rw [checkPair_of_kinds hkh hku]
  exact hlink

/-! ## Positions in the column -/

section Positions

variable {hs us : List String} {fresh : Nat → Uuid}

theorem endUnits_le_one (hs us : List String) : endUnits hs us ≤ 1 := by
  unfold endUnits
  split <;> omega

theorem length_upwardIds : (upwardIds hs us fresh).length = hs.length + us.length := by
  unfold upwardIds
  split
  · simp only [length_alternate, List.length_map, List.length_range]
    omega
  · simp only [length_alternate, List.length_map, List.length_range]

theorem upwardIds_perm :
    (upwardIds hs us fresh).Perm ((List.range (hs.length + us.length)).map fresh) := by
  have hsplit : (List.range (hs.length + us.length)).map fresh =
      (List.range hs.length).map fresh ++ (List.range us.length).map fun j => fresh (hs.length + j) := by
    rw [List.range_add, List.map_append, List.map_map]
    rfl
  rw [hsplit]
  unfold upwardIds
  split
  · exact (alternate_perm _ _).trans List.perm_append_comm
  · exact alternate_perm _ _

/-- Horizon `i` lies at position `2 i`, above the unit under the column when
there is one. -/
theorem upwardIds_horizon (fresh : Nat → Uuid) (h : Alternates hs us) {i : Nat}
    (hi : i < hs.length) :
    (upwardIds hs us fresh)[2 * i + endUnits hs us]? = some (fresh i) ∧
      (topDownNames hs us)[2 * i + endUnits hs us]? = some (.horizon, hs[i]) := by
  unfold upwardIds topDownNames endUnits
  by_cases hc : us.length = hs.length + 1
  · simp only [if_pos hc]
    rw [getElem?_alternate_odd _ _ _ (by simp; omega) (by simpa using hi),
      getElem?_alternate_odd _ _ _ (by simp; omega) (by simpa using hi)]
    simp [hi]
  · have hlen : us.length + 1 = hs.length := h.2.resolve_right hc
    simp only [if_neg hc, Nat.add_zero]
    rw [getElem?_alternate_even _ _ _ (by simpa using hi) (by simp; omega),
      getElem?_alternate_even _ _ _ (by simpa using hi) (by simp; omega)]
    simp [hi]

/-- Unit `j` lies at position `2 j + 1`, or at `2 j` when a unit lies under
the column. -/
theorem upwardIds_unit (fresh : Nat → Uuid) (h : Alternates hs us) {j : Nat}
    (hj : j < us.length) :
    (upwardIds hs us fresh)[2 * j + 1 - endUnits hs us]? = some (fresh (hs.length + j)) ∧
      (topDownNames hs us)[2 * j + 1 - endUnits hs us]? = some (.stratigraphicUnit, us[j]) := by
  unfold upwardIds topDownNames endUnits
  by_cases hc : us.length = hs.length + 1
  · simp only [if_pos hc, show 2 * j + 1 - 1 = 2 * j by omega]
    rw [getElem?_alternate_even _ _ _ (by simpa using hj) (by simp; omega),
      getElem?_alternate_even _ _ _ (by simpa using hj) (by simp; omega)]
    simp [hj]
  · have hlen : us.length + 1 = hs.length := h.2.resolve_right hc
    simp only [if_neg hc, Nat.sub_zero]
    rw [getElem?_alternate_odd _ _ _ (by simp; omega) (by simpa using hj),
      getElem?_alternate_odd _ _ _ (by simp; omega) (by simpa using hj)]
    simp [hj]

theorem endUnits_cases (h : Alternates hs us) :
    (endUnits hs us = 1 ∧ us.length = hs.length + 1) ∨
      (endUnits hs us = 0 ∧ us.length + 1 = hs.length) := by
  unfold endUnits
  by_cases hc : us.length = hs.length + 1
  · exact .inl ⟨if_pos hc, hc⟩
  · exact .inr ⟨if_neg hc, h.2.resolve_right hc⟩

/-- The node `upwardNode` names at position `p` from the top lies at position
`n - 1 - p` from the bottom. -/
theorem upwardNode_eq (fresh : Nat → Uuid) {p : Nat} (hp : p < hs.length + us.length) :
    (upwardIds hs us fresh)[hs.length + us.length - 1 - p]? = some (upwardNode hs us fresh p) := by
  unfold upwardNode
  rw [List.getD_eq_getElem?_getD, List.getElem?_reverse (by rw [length_upwardIds]; exact hp),
    length_upwardIds]
  obtain ⟨x, hx⟩ : ∃ x, (upwardIds hs us fresh)[hs.length + us.length - 1 - p]? = some x :=
    Option.isSome_iff_exists.1 (by simp [length_upwardIds]; omega)
  rw [hx]
  rfl

theorem position_cases (h : Alternates hs us) {q : Nat} (hq : q < hs.length + us.length) :
    (∃ i, i < hs.length ∧ q = 2 * i + endUnits hs us) ∨
      ∃ j, j < us.length ∧ q = 2 * j + 1 - endUnits hs us := by
  unfold endUnits
  obtain ⟨k, hk | hk⟩ := Nat.even_or_odd' q <;> by_cases hc : us.length = hs.length + 1
  · exact .inr ⟨k, by omega, by simp [hc]; omega⟩
  · have := h.2.resolve_right hc
    exact .inl ⟨k, by omega, by simp [hc]; omega⟩
  · exact .inl ⟨k, by omega, by simp [hc]; omega⟩
  · have := h.2.resolve_right hc
    exact .inr ⟨k, by omega, by simp [hc]; omega⟩

end Positions

/-! ## Placing the units -/

/-- The stack once the horizons and the first `j` units are placed: the
nodes made so far, named, and linked as the lowest positions of the column. -/
structure Placed (hs us : List String) (fresh : Nat → Uuid) (j : Nat) (s : HorizonStack) :
    Prop where
  links : s.LinksOK
  chain : s.ChainLinks ((upwardIds hs us fresh).take (2 * j + 1 - endUnits hs us))
  ids : s.catalog.components.map (·.id) = (List.range (hs.length + j)).map fresh
  horizon : ∀ i (hi : i < hs.length),
    s.catalog.get? (fresh i) = some ⟨fresh i, .horizon, hs[i], none⟩
  unit : ∀ k (hk : k < us.length), k < j → s.catalog.get? (fresh (hs.length + k)) =
    some ⟨fresh (hs.length + k), .stratigraphicUnit, us[k], none⟩

section Placing

variable {hs us : List String} {fresh : Nat → Uuid}
  (hfresh : ((List.range (hs.length + us.length)).map fresh).Nodup) (halt : Alternates hs us)
include hfresh halt

/-- Placing one more unit: it is named, linked over the horizon on top of the
placed part and under the next horizon, which extends that part by two
positions, one at the top of a column that ends with a unit. -/
theorem Placed.placeUnit {j : Nat} (h : Placed hs us fresh j s) (hj : j < us.length) :
    ∃ s', placeUnit hs us fresh s j = .ok s' ∧ Placed hs us fresh (j + 1) s' := by
  have hinj : ∀ a < hs.length + us.length, ∀ b < hs.length + us.length,
      fresh a = fresh b → a = b := fun a ha b hb he =>
    (List.nodup_map_iff_inj_on List.nodup_range).1 hfresh a (List.mem_range.2 ha) b
      (List.mem_range.2 hb) he
  have hnd : (upwardIds hs us fresh).Nodup := upwardIds_perm.nodup_iff.2 hfresh
  have hlen : (upwardIds hs us fresh).length = hs.length + us.length := length_upwardIds
  have hlow := endUnits_le_one hs us
  obtain ⟨hpos, -⟩ := upwardIds_unit fresh halt hj
  -- the unit is new, and lies at the position just above the placed part
  have hout : ∀ {m : Nat} {x : Uuid}, (upwardIds hs us fresh)[m]? = some x →
      x ∉ (upwardIds hs us fresh).take m := fun hx hm => by
    obtain ⟨hm', hxm⟩ := List.getElem?_eq_some_iff.1 hx
    obtain ⟨p, hp, hpx⟩ := List.getElem_of_mem hm
    rw [List.getElem_take] at hpx
    have := (List.Nodup.getElem_inj_iff hnd).1 (hpx.trans hxm.symm)
    simp at hp
    omega
  have hfree : s.catalog.contains (fresh (hs.length + j)) = false := by
    rw [Bool.eq_false_iff]
    intro hc
    obtain ⟨c, hc, hcx⟩ := List.any_eq_true.1 hc
    have hmem : fresh (hs.length + j) ∈ s.catalog.components.map (·.id) :=
      List.mem_map.2 ⟨c, hc, by simpa using hcx⟩
    rw [h.ids] at hmem
    obtain ⟨a, ha, he⟩ := List.mem_map.1 hmem
    have := hinj a (by simp at ha; omega) _ (by omega) he
    simp at ha
    omega
  -- naming the unit keeps the links
  have hname := @nameStep_eq_ok s fresh ((.stratigraphicUnit, us.getD j ""), hs.length + j) hfree
    (.inr rfl)
  have hget := nameNode_get? (s := s) (k := .stratigraphicUnit) (n := us.getD j "") hfree
  generalize hs₁ : ({ s.addNode .stratigraphicUnit (fresh (hs.length + j)) with
    catalog := (s.addNode .stratigraphicUnit (fresh (hs.length + j))).catalog.update
      (fresh (hs.length + j)) (·.rename (us.getD j "")) } : HorizonStack) = s₁ at hname
  have hcat₁ : s₁.catalog = (s.addNode .stratigraphicUnit (fresh (hs.length + j))).catalog.update
      (fresh (hs.length + j)) (·.rename (us.getD j "")) := by rw [← hs₁]
  rw [← hcat₁] at hget
  have hl₁ : s₁.LinksOK := by
    rw [← hs₁]
    exact (h.links.addNode hfree).update (fun _ => rfl) (fun _ => rfl)
  have hc₁ : s₁.ChainLinks ((upwardIds hs us fresh).take (2 * j + 1 - endUnits hs us)) :=
    h.chain.congr (by rw [← hs₁]; rfl) (by rw [← hs₁]; rfl)
  have hku : s₁.catalog.kindOf? (fresh (hs.length + j)) = some .stratigraphicUnit := by
    simp [Catalog.kindOf?, hget]
  have hkh : ∀ i < hs.length, s₁.catalog.kindOf? (fresh i) = some .horizon := fun i hi => by
    have hne : fresh i ≠ fresh (hs.length + j) := fun he => by
      have := hinj i (by omega) _ (by omega) he
      omega
    simp [Catalog.kindOf?, hget, hne, h.horizon i hi]
  have hends := endUnits_cases halt
  -- the link down to the horizon under the unit, when there is one
  obtain ⟨s₂, hs₂, hl₂, hc₂, hcat₂⟩ : ∃ s₂, (if endUnits hs us ≤ j then
      s₁.addHorizonUnder (fresh (j - endUnits hs us)) (fresh (hs.length + j)) else pure s₁) =
        .ok s₂ ∧ s₂.LinksOK ∧
      s₂.ChainLinks ((upwardIds hs us fresh).take (2 * j + 1 - endUnits hs us + 1)) ∧
      s₂.catalog = s₁.catalog := by
    split
    · next hle =>
      obtain ⟨hposLow, -⟩ := upwardIds_horizon fresh halt (i := j - endUnits hs us)
        (by omega)
      have hlast : ((upwardIds hs us fresh).take (2 * j + 1 - endUnits hs us)).getLast? =
          some (fresh (j - endUnits hs us)) := by
        rw [List.getLast?_take, if_neg (by omega), show 2 * j + 1 - endUnits hs us - 1 =
          2 * (j - endUnits hs us) + endUnits hs us by omega, hposLow]
        rfl
      obtain ⟨h1, h2, h3⟩ := hc₁.addHorizonUnder_top hl₁ (hnd.sublist (List.take_sublist _ _))
        hlast (hout hpos) (hkh _ (by omega)) hku
      refine ⟨_, h1, h2, ?_, rfl⟩
      rw [List.take_add_one, hpos]
      exact h3
    · next hlt =>
      have hm : 2 * j + 1 - endUnits hs us = 0 := by omega
      rw [hm] at hc₁
      exact ⟨s₁, rfl, hl₁, chainLinks_of_unlinked (fun x => hc₁.above_none x (by simp))
        (fun x => hc₁.under_none x (by simp)) (by simp [hm]), rfl⟩
  -- the link up to the horizon over the unit, when there is one
  obtain ⟨s₃, hs₃, hl₃, hc₃, hcat₃⟩ : ∃ s₃, (if j + 1 - endUnits hs us < hs.length then
      s₂.addHorizonAbove (fresh (j + 1 - endUnits hs us)) (fresh (hs.length + j)) else pure s₂) =
        .ok s₃ ∧ s₃.LinksOK ∧
      s₃.ChainLinks ((upwardIds hs us fresh).take (2 * j + 1 - endUnits hs us + 2)) ∧
      s₃.catalog = s₁.catalog := by
    split
    · next hlt =>
      obtain ⟨hposUp, -⟩ := upwardIds_horizon fresh halt hlt
      rw [show 2 * (j + 1 - endUnits hs us) + endUnits hs us = 2 * j + 1 - endUnits hs us + 1 by
        omega] at hposUp
      have hlast : ((upwardIds hs us fresh).take (2 * j + 1 - endUnits hs us + 1)).getLast? =
          some (fresh (hs.length + j)) := by
        rw [List.getLast?_take, if_neg (by omega), Nat.add_sub_cancel, hpos]
        rfl
      obtain ⟨h1, h2, h3⟩ := hc₂.addHorizonAbove_top hl₂ (hnd.sublist (List.take_sublist _ _))
        hlast (hout hposUp) (hcat₂ ▸ hkh _ hlt) (hcat₂ ▸ hku)
      refine ⟨_, h1, h2, ?_, hcat₂⟩
      rw [List.take_add_one, hposUp]
      exact h3
    · next hge =>
      -- a column that ends with a unit, this one on top
      have htake : ∀ n, 2 * j + 1 - endUnits hs us + 1 ≤ n →
          (upwardIds hs us fresh).take n = upwardIds hs us fresh := fun n hn =>
        List.take_of_length_le (by omega)
      refine ⟨s₂, rfl, hl₂, ?_, hcat₂⟩
      rw [htake _ (by omega)]
      rw [htake _ le_rfl] at hc₂
      exact hc₂
  refine ⟨s₃, ?_, ⟨hl₃, ?_, ?_, fun i hi => ?_, fun k hk hkj => ?_⟩⟩
  · unfold HorizonStack.placeUnit
    rw [except_bind_of_eq_ok hname, except_bind_of_eq_ok hs₂]
    exact hs₃
  · rw [show 2 * (j + 1) + 1 - endUnits hs us = 2 * j + 1 - endUnits hs us + 2 by omega]
    exact hc₃
  · rw [hcat₃, hcat₁, Catalog.ids_update (Component.id_rename · _)]
    show (s.catalog.register _).components.map _ = _
    rw [Nat.add_succ, List.range_succ, List.map_append, ← h.ids]
    simp [Catalog.register, Component.new]
  · have hne : fresh i ≠ fresh (hs.length + j) := fun he => by
      have := hinj i (by omega) _ (by omega) he
      omega
    rw [hcat₃, hget, if_neg hne]
    exact h.horizon i hi
  · rw [hcat₃, hget]
    by_cases hkj' : k = j
    · subst hkj'
      rw [if_pos rfl, List.getD_eq_getElem?_getD, List.getElem?_eq_getElem hk, Option.getD_some]
    · have hne : fresh (hs.length + k) ≠ fresh (hs.length + j) := fun he => by
        have := hinj _ (by omega) _ (by omega) he
        omega
      rw [if_neg hne]
      exact h.unit k hk (by omega)

theorem foldlM_placeUnit {s₀ : HorizonStack} (h₀ : Placed hs us fresh 0 s₀) :
    ∀ j ≤ us.length, ∃ s, (List.range j).foldlM (placeUnit hs us fresh) s₀ = .ok s ∧
      Placed hs us fresh j s := by
  intro j
  induction j with
  | zero => exact fun _ => ⟨s₀, rfl, h₀⟩
  | succ j ih =>
    intro hj
    obtain ⟨s, hs, hp⟩ := ih (by omega)
    obtain ⟨s', hs', hp'⟩ := hp.placeUnit hfresh halt (by omega)
    refine ⟨s', ?_, hp'⟩
    rw [List.range_succ, List.foldlM_append, except_bind_of_eq_ok hs]
    simpa using hs'

omit halt in
theorem placed_horizons (dim : Nat) :
    ∃ s, (hs.map (ComponentKind.horizon, ·)).zipIdx.foldlM (nameStep fresh) (empty dim) = .ok s ∧
      Placed hs us fresh 0 s := by
  have hids : (hs.map (ComponentKind.horizon, ·)).zipIdx.map (fun e => fresh e.2) =
      (List.range hs.length).map fresh := by
    rw [show (fun e : (ComponentKind × String) × Nat => fresh e.2) = fresh ∘ Prod.snd from rfl,
      ← List.map_map, List.zipIdx_map_snd, List.range_eq_range', List.length_map]
  have hnd : ((List.range hs.length).map fresh).Nodup := by
    rw [List.range_add, List.map_append] at hfresh
    exact hfresh.sublist (List.sublist_append_left _ _)
  have hmem : ∀ e ∈ (hs.map (ComponentKind.horizon, ·)).zipIdx, (hs.map (ComponentKind.horizon, ·))[e.2]? = some e.1 :=
    fun e he => List.mem_zipIdx_iff_getElem?.1 he
  obtain ⟨s, h1, hnew, -, ha, hu⟩ := @foldlM_nameStep fresh _ (empty dim)
    (hids ▸ hnd) (fun _ _ => by simp [empty, Catalog.empty, Catalog.contains]) fun e he => by
      obtain ⟨_, hk⟩ := List.getElem?_eq_some_iff.1 (hmem e he)
      left
      rw [← hk, List.getElem_map]
  refine ⟨s, h1, ⟨linksOK_of_nil (by rw [ha]; rfl) (by rw [hu]; rfl),
    chainLinks_of_unlinked (fun x => by rw [ha]; rfl) (fun x => by rw [hu]; rfl) (by simp),
    ?_, fun i hi => ?_, fun k _ hk => absurd hk (Nat.not_lt_zero k)⟩⟩
  · rw [ids_foldlM_register (fun _ _ _ ht => nameNode_relabels ht) h1, hids]
    rfl
  · exact hnew (((.horizon, hs[i]), i) : (ComponentKind × String) × Nat)
      (List.mem_zipIdx_iff_getElem?.2 (by simp [hi]))

/-- **The column built one call at a time.** Naming the horizons listed from
the bottom up, then naming each unit and placing it between the horizons
around it, builds the column of the names: from the top down, the `i`-th name
on the node `upwardNode hs us fresh i`, each lying on the next, with the
highest horizon on top and the lowest at the bottom. -/
theorem buildUpward_namedColumn (dim : Nat) :
    ∃ t, buildUpward dim hs us fresh = .ok t ∧
      t.NamedColumn (topDownNames hs us).reverse (upwardNode hs us fresh) ∧
      t.top = some (upwardNode hs us fresh (if us.length = hs.length + 1 then 1 else 0)) ∧
      t.bottom = some (upwardNode hs us fresh
        (hs.length + us.length - 1 - if us.length = hs.length + 1 then 1 else 0)) := by
  obtain ⟨s₀, h₀, hp₀⟩ := placed_horizons hfresh dim
  obtain ⟨s, h₁, hp⟩ := foldlM_placeUnit hfresh halt hp₀ us.length le_rfl
  have hlen : (upwardIds hs us fresh).length = hs.length + us.length := length_upwardIds
  have hends := endUnits_cases halt
  -- every unit placed: the chain is the whole column
  have hchain : s.ChainLinks (upwardIds hs us fresh) := by
    have hp' := hp.chain
    rwa [List.take_of_length_le (l := upwardIds hs us fresh) (by omega)] at hp'
  have hmem : ∀ x, x ∈ upwardIds hs us fresh ↔ s.contains x = true := by
    intro x
    rw [upwardIds_perm.mem_iff, ← hp.ids]
    show _ ↔ s.catalog.components.any (·.id == x) = true
    simp [List.any_eq_true]
  have hnd : (upwardIds hs us fresh).Nodup := upwardIds_perm.nodup_iff.2 hfresh
  have hd : s.catalog.Distinct := by
    show (s.catalog.components.map (·.id)).Nodup
    rw [hp.ids]
    exact hfresh
  have hcol := hchain.isColumn (by
    intro hnil
    rw [← List.length_eq_zero_iff, hlen] at hnil
    exact halt.1 (List.length_eq_zero_iff.1 (by omega))) hnd hmem
  -- read from the top down
  have hrange : ((List.range (topDownNames hs us).reverse.length).map
      (upwardNode hs us fresh)).reverse = upwardIds hs us fresh := by
    refine List.reverse_eq_iff.2 (List.ext_getElem (by simp [hlen]) fun p hp hp' => ?_)
    simp only [List.length_map, List.length_range, List.length_reverse,
      length_topDownNames] at hp
    have hq := upwardNode_eq fresh hp
    rw [List.getElem_map, List.getElem_range, List.getElem_reverse]
    exact (Option.some.inj ((List.getElem?_eq_getElem (by omega)).symm.trans
      (by rwa [hlen]))).symm
  have hget : ∀ p (hp : p < (topDownNames hs us).reverse.length),
      s.catalog.get? (upwardNode hs us fresh p) = some ⟨upwardNode hs us fresh p,
        (topDownNames hs us).reverse[p].1, (topDownNames hs us).reverse[p].2, none⟩ := by
    intro p hp'
    obtain ⟨e, he⟩ : ∃ e, (topDownNames hs us).reverse[p]? = some e :=
      ⟨_, List.getElem?_eq_getElem hp'⟩
    rw [(List.getElem?_eq_some_iff.1 he).2]
    simp only [List.length_reverse, length_topDownNames] at hp'
    rw [List.getElem?_reverse (l := topDownNames hs us) (by rw [length_topDownNames]; exact hp'),
      length_topDownNames] at he
    have hq := upwardNode_eq fresh hp'
    rcases position_cases halt (q := hs.length + us.length - 1 - p) (by omega) with
      ⟨i, hi, hqi⟩ | ⟨j, hj, hqj⟩
    · obtain ⟨hid, hname⟩ := upwardIds_horizon fresh halt hi
      rw [← hqi] at hid hname
      rw [hid] at hq
      rw [hname] at he
      cases he
      rw [← Option.some.inj hq]
      exact hp.horizon i hi
    · obtain ⟨hid, hname⟩ := upwardIds_unit fresh halt hj
      rw [← hqj] at hid hname
      rw [hid] at hq
      rw [hname] at he
      cases he
      rw [← Option.some.inj hq]
      exact hp.unit j hj (by omega)
  have hlink : ∀ p, p + 1 < (topDownNames hs us).reverse.length →
      s.aboveOf.get? (upwardNode hs us fresh (p + 1)) = some (upwardNode hs us fresh p) := by
    intro p hp
    simp only [List.length_reverse, length_topDownNames] at hp
    have hlo := upwardNode_eq fresh (p := p + 1) hp
    have hhi : (upwardIds hs us fresh)[hs.length + us.length - 1 - p]? =
        some (upwardNode hs us fresh p) := upwardNode_eq fresh (by omega)
    rw [show hs.length + us.length - 1 - p = hs.length + us.length - 1 - (p + 1) + 1 by omega] at hhi
    obtain ⟨_, hlo'⟩ := List.getElem?_eq_some_iff.1 hlo
    obtain ⟨hb, hhi'⟩ := List.getElem?_eq_some_iff.1 hhi
    have hedge := List.isChain_iff_getElem.1 hchain.chain _ hb
    rw [hlo', hhi'] at hedge
    exact hedge
  -- the ends: the lists read from the top down are the reversed ones
  have hrev := alternates_reverse.2 halt
  obtain ⟨htop, hunit⟩ := topDownNames_top hrev
  obtain ⟨hbot, hunit'⟩ := topDownNames_bottom hrev
  rw [topDownNames_reverse halt, List.length_reverse, List.length_reverse,
    List.head?_reverse, List.getLast?_eq_some_getLast halt.1, Option.map_some] at htop
  rw [topDownNames_reverse halt, List.length_reverse, List.length_reverse,
    List.getLast?_reverse, List.head?_eq_some_head halt.1, Option.map_some] at hbot
  rw [topDownNames_reverse halt, List.length_reverse, List.length_reverse] at hunit hunit'
  obtain ⟨t, h₂, hnamed, htop', hbot'⟩ := hp.links.computeTopAndBottom_namedColumn hd
    (by rw [hrange]; exact hcol) hget hlink htop hunit hbot hunit'
  refine ⟨t, ?_, hnamed, htop', ?_⟩
  · unfold buildUpward
    rw [except_bind_of_eq_ok h₀, except_bind_of_eq_ok h₁]
    exact h₂
  · simpa using hbot'

end Placing

/-- **Stacks from lists of names.** With some horizons and one unit fewer or
one more, the horizons and units listed from the top down are taken in turn,
the first horizon listed being the highest horizon laid out and the last the
lowest. `ofNamesFromTop` builds the column of those names, the `i`-th name's
node `fresh i` lying on the next, with the first horizon listed on top and
the last at the bottom; `ofNamesFromBottom` builds the same column from lists
read from the bottom up. Naming the horizons of those lists, then naming each
unit and placing it with `addHorizonUnder` and `addHorizonAbove`, builds the
same column again: the same names at the same positions, each lying on the
next, so `above` and `under` answer alike name for name, and the same top and
bottom. Any other counts are refused, with the numbers of horizons and
units. -/
theorem ofNames_builds_column {dim : Nat} {hs us : List String} {fresh : Nat → Uuid}
    (hfresh : ((List.range (hs.length + us.length)).map fresh).Nodup) :
    (Alternates hs us →
      (topDownNames hs us)[if us.length = hs.length + 1 then 1 else 0]? =
        hs.head?.map (.horizon, ·) ∧
      (topDownNames hs us).reverse[if us.length = hs.length + 1 then 1 else 0]? =
        hs.getLast?.map (.horizon, ·) ∧
      (∃ s, ofNamesFromTop dim hs us fresh = .ok s ∧ s.NamedColumn (topDownNames hs us) fresh ∧
        s.top = some (fresh (if us.length = hs.length + 1 then 1 else 0)) ∧
        s.bottom = some (fresh
          (hs.length + us.length - 1 - if us.length = hs.length + 1 then 1 else 0))) ∧
      (∃ s, ofNamesFromBottom dim hs us fresh = .ok s ∧
        s.NamedColumn (topDownNames hs us).reverse fresh ∧
        s.top = some (fresh (if us.length = hs.length + 1 then 1 else 0)) ∧
        s.bottom = some (fresh
          (hs.length + us.length - 1 - if us.length = hs.length + 1 then 1 else 0))) ∧
      (∃ t, buildUpward dim hs us fresh = .ok t ∧
        t.NamedColumn (topDownNames hs us).reverse (upwardNode hs us fresh) ∧
        t.top = some (upwardNode hs us fresh (if us.length = hs.length + 1 then 1 else 0)) ∧
        t.bottom = some (upwardNode hs us fresh
          (hs.length + us.length - 1 - if us.length = hs.length + 1 then 1 else 0)))) ∧
    (¬Alternates hs us →
      ofNamesFromTop dim hs us fresh = .error (.stack (.invalidNames
        s!"{hs.length} horizons cannot alternate with {us.length} units")) ∧
      ofNamesFromBottom dim hs us fresh = .error (.stack (.invalidNames
        s!"{hs.length} horizons cannot alternate with {us.length} units"))) := by
  refine ⟨fun h => ⟨(topDownNames_top h).1, (topDownNames_bottom h).1,
    ofNamesFromTop_namedColumn dim hfresh h, ?_, buildUpward_namedColumn hfresh h dim⟩,
    fun h => ⟨?_, ?_⟩⟩
  · -- from the bottom up: the same lists reversed, read from the top down
    have hrev := ofNamesFromTop_namedColumn dim
      (by simpa [Nat.add_comm] using hfresh) (alternates_reverse.2 h)
    rw [topDownNames_reverse h] at hrev
    unfold ofNamesFromBottom
    simpa using hrev
  · unfold ofNamesFromTop
    rw [outerUnits?_eq_none h]
    rfl
  · unfold ofNamesFromBottom ofNamesFromTop
    rw [outerUnits?_eq_none (mt alternates_reverse.1 h), List.length_reverse, List.length_reverse]
    rfl

/-- Two horizons with a unit between them, named from the top down. -/
theorem top_middle_base_column :
    ((List.range (["top", "base"].length + ["middle"].length)).map Uuid.ofNat).Nodup ∧
    (Alternates ["top", "base"] ["middle"] →
      (topDownNames ["top", "base"] ["middle"])[if ["middle"].length = ["top", "base"].length + 1
        then 1 else 0]? = ["top", "base"].head?.map (.horizon, ·) ∧
      (topDownNames ["top", "base"] ["middle"]).reverse[if ["middle"].length =
        ["top", "base"].length + 1 then 1 else 0]? = ["top", "base"].getLast?.map (.horizon, ·) ∧
      (∃ s, ofNamesFromTop 2 ["top", "base"] ["middle"] Uuid.ofNat = .ok s ∧
        s.NamedColumn (topDownNames ["top", "base"] ["middle"]) Uuid.ofNat ∧
        s.top = some (Uuid.ofNat
          (if ["middle"].length = ["top", "base"].length + 1 then 1 else 0)) ∧
        s.bottom = some (Uuid.ofNat (["top", "base"].length + ["middle"].length - 1 -
          if ["middle"].length = ["top", "base"].length + 1 then 1 else 0))) ∧
      (∃ s, ofNamesFromBottom 2 ["top", "base"] ["middle"] Uuid.ofNat = .ok s ∧
        s.NamedColumn (topDownNames ["top", "base"] ["middle"]).reverse Uuid.ofNat ∧
        s.top = some (Uuid.ofNat
          (if ["middle"].length = ["top", "base"].length + 1 then 1 else 0)) ∧
        s.bottom = some (Uuid.ofNat (["top", "base"].length + ["middle"].length - 1 -
          if ["middle"].length = ["top", "base"].length + 1 then 1 else 0))) ∧
      (∃ t, buildUpward 2 ["top", "base"] ["middle"] Uuid.ofNat = .ok t ∧
        t.NamedColumn (topDownNames ["top", "base"] ["middle"]).reverse
          (upwardNode ["top", "base"] ["middle"] Uuid.ofNat) ∧
        t.top = some (upwardNode ["top", "base"] ["middle"] Uuid.ofNat
          (if ["middle"].length = ["top", "base"].length + 1 then 1 else 0)) ∧
        t.bottom = some (upwardNode ["top", "base"] ["middle"] Uuid.ofNat
          (["top", "base"].length + ["middle"].length - 1 -
            if ["middle"].length = ["top", "base"].length + 1 then 1 else 0)))) ∧
    (¬Alternates ["top", "base"] ["middle"] →
      ofNamesFromTop 2 ["top", "base"] ["middle"] Uuid.ofNat = .error (.stack (.invalidNames
        s!"{2} horizons cannot alternate with {1} units")) ∧
      ofNamesFromBottom 2 ["top", "base"] ["middle"] Uuid.ofNat = .error (.stack (.invalidNames
        s!"{2} horizons cannot alternate with {1} units"))) := by
  have hfresh : ((List.range (["top", "base"].length + ["middle"].length)).map Uuid.ofNat).Nodup := by
    decide
  exact ⟨hfresh, ofNames_builds_column hfresh⟩

end HorizonStack

end Subsurface
