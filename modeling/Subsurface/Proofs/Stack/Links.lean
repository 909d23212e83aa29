import Subsurface.Stack.Edit
import Subsurface.Proofs.Catalog
import Subsurface.Proofs.Relation
import Mathlib.Logic.Relation
/-!
The links of a horizon stack.

`aboveOf` and `underOf` are two views of one set of links, each the inverse
of the other. The links form chains and never a cycle, and each joins a
horizon and a stratigraphic unit (`LinksOK`). Linking keeps this because
`link` refuses a pair whose lower node already lies above the upper one: the
climb `isAbove` makes is cut after as many links as there are nodes, and on
links without a cycle every chain through registered nodes is shorter than
that (`lt_size_of_follow`), so the cut never hides a node above. Unlinking a
node keeps it because both views lose the same pairs.
-/

open Relation (TransGen ReflTransGen)

namespace Subsurface

namespace NodeMap

variable {m : NodeMap} {k k' v x y z : Uuid}

theorem get?_insert : (m.insert k v).get? k' = if k' = k then some v else m.get? k' := by
  unfold insert get?
  rw [List.lookup_append, lookup_filter_ne]
  by_cases hk : k' = k
  · simp [hk]
  · simp [hk]

theorem get?_erase : (m.erase k).2.get? k' = if k' = k then none else m.get? k' :=
  lookup_filter_ne m k k'

theorem erase_fst : (m.erase k).1 = m.get? k := rfl

/-- The map without the entry of `o`, when there is one. -/
def eraseSome (m : NodeMap) : Option Uuid → NodeMap
  | some k => (m.erase k).2
  | none => m

theorem get?_eraseSome (o : Option Uuid) :
    (m.eraseSome o).get? k' = if o = some k' then none else m.get? k' := by
  cases o with
  | none => simp [eraseSome]
  | some k => simp [eraseSome, get?_erase, eq_comm]

/-- `m` maps `x` to `y`: one link, read in the direction of `m`. -/
def Edge (m : NodeMap) (x y : Uuid) : Prop := m.get? x = some y

/-- The node reached from `x` by following `n` links of `m`. -/
def follow (m : NodeMap) : Nat → Uuid → Option Uuid
  | 0, x => some x
  | n + 1, x => (m.get? x).bind (m.follow n)

@[simp] theorem follow_zero : m.follow 0 x = some x := rfl

theorem follow_succ (n : Nat) : m.follow (n + 1) x = (m.get? x).bind (m.follow n) := rfl

theorem follow_one : m.follow 1 x = m.get? x := by
  rw [follow_succ]
  cases m.get? x <;> rfl

theorem follow_add (a b : Nat) : m.follow (a + b) x = (m.follow a x).bind (m.follow b) := by
  induction a generalizing x with
  | zero => simp
  | succ a ih =>
    rw [Nat.succ_add, follow_succ, follow_succ, Option.bind_assoc]
    congr 1
    funext y
    exact ih

theorem transGen_of_follow : ∀ {n x}, m.follow (n + 1) x = some y → TransGen m.Edge x y
  | 0, x, h => .single (by rwa [follow_one] at h)
  | n + 1, x, h => by
    rw [follow_succ] at h
    cases hx : m.get? x with
    | none => rw [hx] at h; cases h
    | some z =>
      rw [hx, Option.bind_some] at h
      exact TransGen.head hx (transGen_of_follow h)

theorem follow_of_transGen (h : TransGen m.Edge x y) : ∃ n, m.follow (n + 1) x = some y := by
  induction h with
  | single hxy => exact ⟨0, by rw [follow_one]; exact hxy⟩
  | tail _ hyz ih =>
    obtain ⟨n, hn⟩ := ih
    exact ⟨n + 1, by rw [follow_add (n + 1) 1, hn, Option.bind_some, follow_one]; exact hyz⟩

theorem edge_of_follow (h : m.follow (n + 1) x = some y) : ∃ w, m.Edge w y := by
  rw [follow_add n 1] at h
  cases hw : m.follow n x with
  | none => rw [hw] at h; cases h
  | some w =>
    rw [hw, Option.bind_some, follow_one] at h
    exact ⟨w, h⟩

theorem follow_inj (hacyc : ∀ x, ¬TransGen m.Edge x x) {i j : Nat}
    (hi : m.follow (i + 1) x = some z) (hj : m.follow (j + 1) x = some z) : i = j := by
  -- the longer chain goes on from `z` back to `z`
  have loop : ∀ {i j}, i < j → m.follow (i + 1) x = some z → m.follow (j + 1) x = some z →
      False := by
    intro i j hij hi hj
    obtain ⟨d, rfl⟩ : ∃ d, j = i + 1 + d := ⟨j - (i + 1), by omega⟩
    rw [show i + 1 + d + 1 = (i + 1) + (d + 1) by omega, follow_add, hi, Option.bind_some] at hj
    exact hacyc z (transGen_of_follow hj)
  rcases Nat.lt_trichotomy i j with hij | hij | hij
  · exact (loop hij hi hj).elim
  · exact hij
  · exact (loop hij hj hi).elim

/-- On links without a cycle between the nodes of `ids`, a chain is shorter
than `ids`. -/
theorem lt_length_of_follow (hacyc : ∀ x, ¬TransGen m.Edge x x) {ids : List Uuid}
    (hval : ∀ x y, m.Edge x y → y ∈ ids) {n : Nat} (h : m.follow (n + 1) x = some y) :
    n < ids.length := by
  have hsome : ∀ i ≤ n, ∃ w, m.follow (i + 1) x = some w := by
    intro i hi
    have hsplit := follow_add (m := m) (x := x) (i + 1) (n - i)
    rw [show i + 1 + (n - i) = n + 1 by omega, h] at hsplit
    cases hw : m.follow (i + 1) x with
    | none => rw [hw] at hsplit; cases hsplit
    | some w => exact ⟨w, rfl⟩
  -- the nodes met after 1, 2, ..., n + 1 links are distinct nodes of `ids`
  let met := (List.range (n + 1)).map fun i => (m.follow (i + 1) x).getD x
  have hnodup : met.Nodup := by
    refine List.nodup_range.map_on fun i hi j hj hij => ?_
    obtain ⟨wi, hwi⟩ := hsome i (Nat.lt_succ_iff.1 (List.mem_range.1 hi))
    obtain ⟨wj, hwj⟩ := hsome j (Nat.lt_succ_iff.1 (List.mem_range.1 hj))
    simp only [hwi, hwj, Option.getD_some] at hij
    subst hij
    exact follow_inj hacyc hwi hwj
  have hsub : met ⊆ ids := by
    intro w hw
    obtain ⟨i, hi, rfl⟩ := List.mem_map.1 hw
    obtain ⟨wi, hwi⟩ := hsome i (Nat.lt_succ_iff.1 (List.mem_range.1 hi))
    obtain ⟨u, hu⟩ := edge_of_follow hwi
    rw [hwi, Option.getD_some]
    exact hval u wi hu
  have hlen := hnodup.length_le_of_subset hsub
  simp only [met, List.length_map, List.length_range] at hlen
  omega

end NodeMap

/-- A path in `r` plus the pair `(a, b)` either stays in `r` or passes the
new pair: it reaches `a` in `r` and leaves `b` in `r`. -/
theorem transGen_or_through {r : Uuid → Uuid → Prop} {a b x y : Uuid}
    (h : TransGen (fun u v => r u v ∨ (u = a ∧ v = b)) x y) :
    TransGen r x y ∨ (ReflTransGen r x a ∧ ReflTransGen r b y) := by
  induction h with
  | single hxy =>
    rcases hxy with hxy | ⟨rfl, rfl⟩
    · exact .inl (.single hxy)
    · exact .inr ⟨.refl, .refl⟩
  | tail _ hyz ih =>
    rcases hyz with hyz | ⟨rfl, rfl⟩
    · rcases ih with ih | ⟨hxa, hby⟩
      · exact .inl (ih.tail hyz)
      · exact .inr ⟨hxa, hby.tail hyz⟩
    · rcases ih with ih | ⟨hxa, _⟩
      · exact .inr ⟨ih.to_reflTransGen, .refl⟩
      · exact .inr ⟨hxa, .refl⟩

namespace Catalog

variable {c : Catalog} {x y : Uuid}

/-- `x` and `y` are a horizon and a stratigraphic unit, in either order. -/
def Joins (c : Catalog) (x y : Uuid) : Prop :=
  (c.kindOf? x = some .horizon ∧ c.kindOf? y = some .stratigraphicUnit) ∨
    (c.kindOf? x = some .stratigraphicUnit ∧ c.kindOf? y = some .horizon)

theorem joins_congr {d : Catalog} (h : c.kindOf? = d.kindOf?) : c.Joins x y ↔ d.Joins x y := by
  unfold Joins
  rw [h]

theorem joins_of_kinds {kx ky : ComponentKind} (hx : c.kindOf? x = some kx)
    (hy : c.kindOf? y = some ky) (hkx : kx = .horizon ∨ kx = .stratigraphicUnit)
    (hky : ky = .horizon ∨ ky = .stratigraphicUnit) (hne : kx ≠ ky) : c.Joins x y := by
  rcases hkx with rfl | rfl <;> rcases hky with rfl | rfl
  · exact absurd rfl hne
  · exact .inl ⟨hx, hy⟩
  · exact .inr ⟨hx, hy⟩
  · exact absurd rfl hne

theorem Joins.contains (h : c.Joins x y) : c.contains x = true ∧ c.contains y = true := by
  rcases h with ⟨hx, hy⟩ | ⟨hx, hy⟩
  · exact ⟨contains_of_kindOf? hx, contains_of_kindOf? hy⟩
  · exact ⟨contains_of_kindOf? hx, contains_of_kindOf? hy⟩

theorem Joins.ne (h : c.Joins x y) : x ≠ y := by
  rintro rfl
  rcases h with ⟨hx, hy⟩ | ⟨hx, hy⟩ <;> rw [hx] at hy <;> cases hy

end Catalog

namespace HorizonStack

variable {s s' : HorizonStack} {a u x y : Uuid}

/-! ## Marking a stack as changed -/

@[simp] theorem touch_catalog : (touch s).catalog = s.catalog := rfl
@[simp] theorem touch_aboveOf : (touch s).aboveOf = s.aboveOf := rfl
@[simp] theorem touch_underOf : (touch s).underOf = s.underOf := rfl
@[simp] theorem touch_erosions : (touch s).erosions = s.erosions := rfl
@[simp] theorem touch_baselaps : (touch s).baselaps = s.baselaps := rfl
@[simp] theorem touch_top : (touch s).top = none := rfl
@[simp] theorem touch_bottom : (touch s).bottom = none := rfl

theorem touch_state : (touch s).state = if s.catalog.isEmpty then .empty else .building := rfl

/-! ## Climbing -/

theorem reaches_iff (t : Uuid) :
    ∀ n x, s.reaches t n x = true ↔ ∃ k < n, s.aboveOf.follow (k + 1) x = some t
  | 0, x => by simp [reaches]
  | n + 1, x => by
    cases hx : s.aboveOf.get? x with
    | none => simp [reaches, NodeMap.follow_succ, hx]
    | some y =>
      simp only [reaches, hx, Bool.or_eq_true, beq_iff_eq, reaches_iff t n y]
      constructor
      · rintro (rfl | ⟨k, hk, hf⟩)
        · exact ⟨0, by omega, by rw [NodeMap.follow_one]; exact hx⟩
        · exact ⟨k + 1, by omega, by rw [NodeMap.follow_succ, hx, Option.bind_some]; exact hf⟩
      · rintro ⟨k, hk, hf⟩
        rw [NodeMap.follow_succ, hx, Option.bind_some] at hf
        cases k with
        | zero => exact .inl (by simpa using hf)
        | succ k => exact .inr ⟨k, by omega, hf⟩

theorem transGen_of_isAbove (h : s.isAbove y x = true) : TransGen s.aboveOf.Edge x y := by
  obtain ⟨k, -, hk⟩ := (reaches_iff y _ x).1 h
  exact NodeMap.transGen_of_follow hk

/-! ## The invariant of the links -/

/-- The links of a stack: `underOf` is the inverse of `aboveOf`, each link
joins a horizon and a stratigraphic unit, and following links upwards never
comes back to where it started. -/
structure LinksOK (s : HorizonStack) : Prop where
  inverse : ∀ x y, s.aboveOf.get? x = some y ↔ s.underOf.get? y = some x
  joins : ∀ x y, s.aboveOf.get? x = some y → s.catalog.Joins x y
  acyclic : ∀ x, ¬TransGen s.aboveOf.Edge x x

theorem linksOK_of_nil (ha : s.aboveOf = []) (hu : s.underOf = []) : s.LinksOK where
  inverse x y := by simp [ha, hu, NodeMap.get?]
  joins x y hxy := by simp [ha, NodeMap.get?] at hxy
  acyclic x hx := by
    obtain ⟨w, hw⟩ := NodeMap.edge_of_follow (NodeMap.follow_of_transGen hx).choose_spec
    simp [NodeMap.Edge, ha, NodeMap.get?] at hw

theorem linksOK_empty (dim : Nat) : (empty dim).LinksOK := linksOK_of_nil rfl rfl

theorem LinksOK.congr (h : s.LinksOK) (ha : s'.aboveOf = s.aboveOf) (hu : s'.underOf = s.underOf)
    (hk : ∀ x y, s.aboveOf.get? x = some y →
      s'.catalog.kindOf? x = s.catalog.kindOf? x ∧ s'.catalog.kindOf? y = s.catalog.kindOf? y) :
    s'.LinksOK where
  inverse := by rw [ha, hu]; exact h.inverse
  joins x y hxy := by
    rw [ha] at hxy
    have := h.joins x y hxy
    obtain ⟨hx, hy⟩ := hk x y hxy
    unfold Catalog.Joins at this ⊢
    rwa [hx, hy]
  acyclic := by rw [ha]; exact h.acyclic

theorem LinksOK.touch (h : s.LinksOK) : (touch s).LinksOK :=
  h.congr rfl rfl fun _ _ _ => ⟨rfl, rfl⟩

/-- Links stay well formed under a change of the catalog that keeps the kind
of every registered node. -/
theorem LinksOK.of_kinds (h : s.LinksOK) (ha : s'.aboveOf = s.aboveOf) (hu : s'.underOf = s.underOf)
    (hk : ∀ x, s.catalog.contains x = true → s'.catalog.kindOf? x = s.catalog.kindOf? x) :
    s'.LinksOK :=
  h.congr ha hu fun x y hxy =>
    ⟨hk x (h.joins x y hxy).contains.1, hk y (h.joins x y hxy).contains.2⟩

theorem LinksOK.addNode (h : s.LinksOK) {k : ComponentKind} (hfresh : s.catalog.contains x = false) :
    (s.addNode k x).LinksOK := by
  refine h.of_kinds rfl rfl fun y hy => ?_
  have hne : y ≠ x := by
    rintro rfl
    rw [hfresh] at hy
    cases hy
  show (s.catalog.register (Component.new x k)).kindOf? y = _
  rw [Catalog.kindOf?_register hfresh, if_neg (show y ≠ (Component.new x k).id from hne)]

theorem LinksOK.update (h : s.LinksOK) {f : Component → Component} (hid : ∀ z, (f z).id = z.id)
    (hkind : ∀ z, (f z).kind = z.kind) : { s with catalog := s.catalog.update x f }.LinksOK :=
  h.of_kinds rfl rfl fun y _ => by rw [Catalog.kindOf?_update hid hkind]

theorem LinksOK.aboveOf_injective (h : s.LinksOK) {x x' y : Uuid} (hx : s.aboveOf.get? x = some y)
    (hx' : s.aboveOf.get? x' = some y) : x = x' := by
  rw [h.inverse] at hx hx'
  rw [hx] at hx'
  exact Option.some.inj hx'

theorem LinksOK.underOf_injective (h : s.LinksOK) {x y y' : Uuid} (hy : s.underOf.get? y = some x)
    (hy' : s.underOf.get? y' = some x) : y = y' := by
  rw [← h.inverse] at hy hy'
  rw [hy] at hy'
  exact Option.some.inj hy'

theorem LinksOK.registered (h : s.LinksOK) (hxy : s.aboveOf.get? x = some y) :
    s.contains x = true ∧ s.contains y = true :=
  (h.joins x y hxy).contains

theorem LinksOK.mem_ids (h : s.LinksOK) (hxy : s.aboveOf.Edge x y) :
    y ∈ s.catalog.components.map (·.id) :=
  Catalog.mem_ids_of_contains (h.joins x y hxy).contains.2

/-- On well-formed links, the climb of `isAbove` is long enough to find
every node above. -/
theorem LinksOK.isAbove_of_transGen (h : s.LinksOK) (hxy : TransGen s.aboveOf.Edge x y) :
    s.isAbove y x = true := by
  obtain ⟨n, hn⟩ := NodeMap.follow_of_transGen hxy
  have hlt := NodeMap.lt_length_of_follow h.acyclic (fun _ _ he => h.mem_ids he) hn
  rw [isAbove, reaches_iff]
  refine ⟨n, ?_, hn⟩
  simpa [Catalog.size] using hlt

theorem LinksOK.isAbove_iff (h : s.LinksOK) : s.isAbove y x = true ↔ TransGen s.aboveOf.Edge x y :=
  ⟨transGen_of_isAbove, h.isAbove_of_transGen⟩

/-! ## Linking -/

/-- The stack with `a` linked directly above `u`. -/
def withLink (s : HorizonStack) (a u : Uuid) : HorizonStack :=
  HorizonStack.touch { s with aboveOf := s.aboveOf.insert u a, underOf := s.underOf.insert a u }

@[simp] theorem withLink_catalog : (s.withLink a u).catalog = s.catalog := rfl
@[simp] theorem withLink_aboveOf : (s.withLink a u).aboveOf = s.aboveOf.insert u a := rfl
@[simp] theorem withLink_underOf : (s.withLink a u).underOf = s.underOf.insert a u := rfl
@[simp] theorem withLink_erosions : (s.withLink a u).erosions = s.erosions := rfl
@[simp] theorem withLink_baselaps : (s.withLink a u).baselaps = s.baselaps := rfl

/-- A link that succeeds either finds the pair linked already and changes
nothing, or adds it: the pair closes no cycle and neither node is linked on
that side yet. -/
theorem link_eq_ok (hl : s.link a u = .ok s') :
    (s.aboveOf.get? u = some a ∧ s' = s) ∨
      (a ≠ u ∧ s.isAbove u a = false ∧ s.aboveOf.get? u = none ∧ s.underOf.get? a = none ∧
        s' = s.withLink a u) := by
  unfold link at hl
  cases hc : (a == u || s.isAbove u a) with
  | true => simp [hc] at hl
  | false =>
    simp only [hc, Bool.false_eq_true, if_false] at hl
    simp only [Bool.or_eq_false_iff, beq_eq_false_iff_ne, ne_eq] at hc
    cases ha : s.aboveOf.get? u with
    | some e =>
      simp only [ha] at hl
      by_cases he : e = a
      · subst he
        simp only [beq_self_eq_true, if_true, except_pure_eq_ok] at hl
        exact .inl ⟨rfl, hl.symm⟩
      · simp [he] at hl
    | none =>
      cases hu : s.underOf.get? a with
      | some e => simp [ha, hu] at hl
      | none =>
        simp only [ha, hu, except_pure_eq_ok] at hl
        exact .inr ⟨hc.1, hc.2, rfl, rfl, hl.symm⟩

/-- A link added where neither node is linked on that side, and which closes
no cycle, keeps the links well formed. -/
theorem LinksOK.withLink (h : s.LinksOK) (hj : s.catalog.Joins u a) (hne : a ≠ u)
    (hfar : s.isAbove u a = false) (ha : s.aboveOf.get? u = none)
    (hu : s.underOf.get? a = none) : (s.withLink a u).LinksOK where
  inverse x y := by
    simp only [withLink_aboveOf, withLink_underOf, NodeMap.get?_insert]
    by_cases hx : x = u <;> by_cases hy : y = a
    · simp [hx, hy]
    · have : s.underOf.get? y ≠ some u := fun hyu => by
        rw [← h.inverse, ha] at hyu; cases hyu
      simp [hx, hy, Ne.symm hy, this]
    · have : s.aboveOf.get? x ≠ some a := fun hxa => by
        rw [h.inverse, hu] at hxa; cases hxa
      simp [hx, hy, Ne.symm hx, this]
    · simp [hx, hy, h.inverse]
  joins x y hxy := by
    rw [withLink_aboveOf, NodeMap.get?_insert] at hxy
    rw [withLink_catalog]
    by_cases hx : x = u
    · rw [if_pos hx, Option.some.injEq] at hxy
      subst hx hxy
      exact hj
    · rw [if_neg hx] at hxy
      exact h.joins x y hxy
  acyclic x hx := by
    have hsub : TransGen (fun v w => s.aboveOf.Edge v w ∨ (v = u ∧ w = a)) x x := by
      refine TransGen.mono (fun v w hvw => ?_) x x hx
      unfold NodeMap.Edge at hvw ⊢
      rw [withLink_aboveOf, NodeMap.get?_insert] at hvw
      by_cases hv : v = u
      · rw [if_pos hv, Option.some.injEq] at hvw
        exact .inr ⟨hv, hvw.symm⟩
      · rw [if_neg hv] at hvw
        exact .inl hvw
    -- a new cycle passes the new link, so `u` already lay above `a`
    rcases transGen_or_through hsub with hold | ⟨hxu, hax⟩
    · exact h.acyclic x hold
    · rcases Relation.reflTransGen_iff_eq_or_transGen.1 (hax.trans hxu) with rfl | hau
      · exact hne rfl
      · rw [h.isAbove_of_transGen hau] at hfar
        cases hfar

theorem link_frame (hl : s.link a u = .ok s') :
    s'.catalog = s.catalog ∧ s'.erosions = s.erosions ∧ s'.baselaps = s.baselaps := by
  rcases link_eq_ok hl with ⟨-, rfl⟩ | ⟨-, -, -, -, rfl⟩ <;> exact ⟨rfl, rfl, rfl⟩

theorem LinksOK.link (h : s.LinksOK) (hj : s.catalog.Joins u a) (hl : s.link a u = .ok s') :
    s'.LinksOK := by
  rcases link_eq_ok hl with ⟨-, rfl⟩ | ⟨hne, hfar, ha, hu, rfl⟩
  · exact h
  · exact h.withLink hj hne hfar ha hu

theorem checkPair_eq_ok {r : Unit} (h : s.checkPair x y = .ok r) :
    s.catalog.kindOf? x = some .horizon ∧ s.catalog.kindOf? y = some .stratigraphicUnit := by
  obtain ⟨hx, hhx, h⟩ := except_bind_eq_ok.1 h
  obtain ⟨hy, hhy, -⟩ := except_bind_eq_ok.1 h
  exact ⟨Catalog.kindOf?_of_getOfKind hhx, Catalog.kindOf?_of_getOfKind hhy⟩

theorem addHorizonUnder_eq_ok (h : s.addHorizonUnder x y = .ok s') :
    s.catalog.Joins x y ∧ s.link y x = .ok s' := by
  obtain ⟨r, hc, hl⟩ := except_bind_eq_ok.1 h
  exact ⟨.inl (checkPair_eq_ok hc), hl⟩

theorem addHorizonAbove_eq_ok (h : s.addHorizonAbove x y = .ok s') :
    s.catalog.Joins y x ∧ s.link x y = .ok s' := by
  obtain ⟨r, hc, hl⟩ := except_bind_eq_ok.1 h
  obtain ⟨hx, hy⟩ := checkPair_eq_ok hc
  exact ⟨.inr ⟨hy, hx⟩, hl⟩

/-! ## Unlinking -/

/-- `unlinkNode` drops the entry of the node in each view, and the entry that
pointed back at it from its neighbour. -/
theorem unlinkNode_eq (n : Uuid) : s.unlinkNode n =
    let underOf := s.underOf.eraseSome (s.aboveOf.get? n)
    { s with aboveOf := (s.aboveOf.erase n).2.eraseSome (underOf.get? n),
             underOf := (underOf.erase n).2,
             erosions := (s.erosions.removeNode n).2,
             baselaps := (s.baselaps.removeNode n).2 } := rfl

@[simp] theorem unlinkNode_catalog (n : Uuid) : (s.unlinkNode n).catalog = s.catalog := rfl
@[simp] theorem unlinkNode_erosions (n : Uuid) :
    (s.unlinkNode n).erosions = (s.erosions.removeNode n).2 := rfl
@[simp] theorem unlinkNode_baselaps (n : Uuid) :
    (s.unlinkNode n).baselaps = (s.baselaps.removeNode n).2 := rfl

section Unlink

variable (h : s.LinksOK) (n : Uuid)
include h

/-- The node under `n` is read before the link above `n` is dropped, which
on links without a cycle does not change it. -/
theorem LinksOK.underOf_eraseSome :
    (s.underOf.eraseSome (s.aboveOf.get? n)).get? n = s.underOf.get? n := by
  have hn : s.aboveOf.get? n ≠ some n := fun hn => h.acyclic n (.single hn)
  rw [NodeMap.get?_eraseSome, if_neg hn]

theorem LinksOK.unlinkNode_aboveOf (x : Uuid) : (s.unlinkNode n).aboveOf.get? x =
    if x = n ∨ s.aboveOf.get? x = some n then none else s.aboveOf.get? x := by
  rw [unlinkNode_eq]
  dsimp only
  rw [NodeMap.get?_eraseSome, h.underOf_eraseSome, NodeMap.get?_erase]
  simp only [← h.inverse x n]
  by_cases hx : x = n <;> by_cases hxn : s.aboveOf.get? x = some n <;> simp [hx, hxn]

theorem LinksOK.unlinkNode_underOf (y : Uuid) : (s.unlinkNode n).underOf.get? y =
    if y = n ∨ s.underOf.get? y = some n then none else s.underOf.get? y := by
  rw [unlinkNode_eq]
  dsimp only
  rw [NodeMap.get?_erase, NodeMap.get?_eraseSome]
  simp only [h.inverse n y]
  by_cases hy : y = n <;> by_cases hyn : s.underOf.get? y = some n <;> simp [hy, hyn]

theorem LinksOK.unlinkNode_free (x y : Uuid) (hxy : (s.unlinkNode n).aboveOf.get? x = some y) :
    s.aboveOf.get? x = some y ∧ x ≠ n ∧ y ≠ n := by
  rw [h.unlinkNode_aboveOf] at hxy
  by_cases hx : x = n ∨ s.aboveOf.get? x = some n
  · rw [if_pos hx] at hxy; cases hxy
  · rw [if_neg hx] at hxy
    refine ⟨hxy, fun e => hx (.inl e), fun e => hx (.inr (e ▸ hxy))⟩

theorem LinksOK.unlinkNode : (s.unlinkNode n).LinksOK where
  inverse x y := by
    rw [h.unlinkNode_aboveOf, h.unlinkNode_underOf]
    by_cases hxy : s.aboveOf.get? x = some y
    · -- the pair is one link: it goes exactly when it touches `n`
      have hyx := (h.inverse x y).1 hxy
      have hiff : (x = n ∨ s.aboveOf.get? x = some n) ↔ (y = n ∨ s.underOf.get? y = some n) := by
        rw [hxy, hyx, Option.some.injEq, Option.some.injEq]
        exact Or.comm
      by_cases hx : x = n ∨ s.aboveOf.get? x = some n
      · simp [hx, hiff.1 hx]
      · rw [if_neg hx, if_neg (mt hiff.2 hx)]
        exact h.inverse x y
    · have hyx : s.underOf.get? y ≠ some x := fun e => hxy ((h.inverse x y).2 e)
      split <;> split <;> simp [hxy, hyx]
  joins x y hxy := h.joins x y (h.unlinkNode_free n x y hxy).1
  acyclic x hx :=
    h.acyclic x (TransGen.mono (fun _ _ he => (h.unlinkNode_free n _ _ he).1) x x hx)

end Unlink

/-- Run as a whole, the builder's removal of a node checks it, then unlinks
and unregisters it. -/
theorem removeNode_eq (s : HorizonStack) (id : Uuid) (kind : ComponentKind) :
    s.removeNode id kind = (do
      let _ ← s.catalog.getOfKind id kind
      let s := s.unlinkNode id
      let (_, catalog) ← s.catalog.remove id kind
      pure (touch { s with catalog := catalog })) := by
  unfold removeNode Builder.removeNode
  simp only [InPlace.commit_get_bind, InPlace.commit_lift_bind, InPlace.commit_modify_bind,
    InPlace.commit_modify]
  rfl

theorem removeNode_eq_ok {k : ComponentKind} (hr : s.removeNode n k = .ok s') :
    s.catalog.kindOf? n = some k ∧
      s' = HorizonStack.touch { s.unlinkNode n with catalog := s.catalog.without n } := by
  rw [removeNode_eq] at hr
  obtain ⟨x, hx, hr⟩ := except_bind_eq_ok.1 hr
  obtain ⟨⟨z, c⟩, hc, hr⟩ := except_bind_eq_ok.1 hr
  obtain ⟨-, rfl⟩ := Catalog.remove_eq_ok hc
  exact ⟨Catalog.kindOf?_of_getOfKind hx, (except_pure_eq_ok.1 hr).symm⟩

theorem LinksOK.removeNode (h : s.LinksOK) {k : ComponentKind} (hr : s.removeNode n k = .ok s') :
    s'.LinksOK := by
  obtain ⟨-, rfl⟩ := removeNode_eq_ok hr
  refine (h.unlinkNode n).congr rfl rfl fun x y hxy => ?_
  obtain ⟨-, hx, hy⟩ := h.unlinkNode_free n x y hxy
  simp [Catalog.kindOf?_without, hx, hy]

end HorizonStack

end Subsurface
