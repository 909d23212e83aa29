import Subsurface.Proofs.Stack.Distinct
/-!
The order of a horizon stack and its column.

Following the links upwards climbs the column. `isAbove` climbs at most as
many links as there are nodes, which on well-formed links never stops short
(`LinksOK.isAbove_iff`), so it is the strict order "lies somewhere higher":
irreflexive and transitive.

Well-formed links make disjoint chains, each starting at a node with nothing
under it. Walking down from any node ends at such a bottom, since the links
close no cycle and the nodes are finitely many (`LinksOK.exists_bottom_below`),
so with a single bottom every node lies on the chain climbed from it. That
chain is the column (`IsColumn`): every node once, each directly under the
next, from the bottom up to a node with nothing above it. `column` returns it
exactly when there is a single bottom (`column_eq_ok_iff`, `column_isOk_iff`)
and otherwise fails for that reason: its two other errors, a climb that loops
and a chain that misses nodes, never happen (`column_eq_error`).
-/

open Relation (TransGen ReflTransGen)

namespace Subsurface

namespace NodeMap

variable {m : NodeMap} {x y : Uuid}

/-- The chain climbed from `x` until the map has no entry, when some number of
steps from `x` leads nowhere: each node is led to by the one before it, and the
chain holds exactly the nodes reached from `x`. -/
theorem exists_chain : ∀ (n : Nat) (x : Uuid), m.follow n x = none →
    ∃ rest, (x :: rest).IsChain m.Edge ∧
      m.get? ((x :: rest).getLast (List.cons_ne_nil x rest)) = none ∧
      ∀ y, ReflTransGen m.Edge x y ↔ y ∈ x :: rest
  | 0, x, h => by simp at h
  | n + 1, x, h => by
    cases hx : m.get? x with
    | none =>
      refine ⟨[], List.isChain_singleton x, hx, fun y => ⟨fun hy => ?_, fun hy => ?_⟩⟩
      · rcases hy.cases_head with rfl | ⟨z, hxz, -⟩
        · exact List.mem_singleton_self x
        · rw [Edge, hx] at hxz
          cases hxz
      · rw [List.mem_singleton.1 hy]
    | some z =>
      rw [follow_succ, hx, Option.bind_some] at h
      obtain ⟨rest, hchain, hlast, hmem⟩ := exists_chain n z h
      refine ⟨z :: rest, List.isChain_cons_cons.2 ⟨hx, hchain⟩, by rwa [List.getLast_cons_cons],
        fun y => ⟨fun hy => ?_, fun hy => ?_⟩⟩
      · rcases hy.cases_head with rfl | ⟨w, hxw, hwy⟩
        · exact List.mem_cons_self
        · rw [Edge, hx, Option.some.injEq] at hxw
          subst hxw
          exact List.mem_cons_of_mem x ((hmem y).1 hwy)
      · rcases List.mem_cons.1 hy with rfl | hy
        · exact .refl
        · exact .head hx ((hmem y).2 hy)

/-- On links without a cycle into the nodes of `ids`, every walk stops within
as many steps as there are nodes. -/
theorem follow_length_succ (hacyc : ∀ x, ¬TransGen m.Edge x x) {ids : List Uuid}
    (hval : ∀ x y, m.Edge x y → y ∈ ids) (x : Uuid) : m.follow (ids.length + 1) x = none := by
  cases h : m.follow (ids.length + 1) x with
  | none => rfl
  | some y => exact absurd (lt_length_of_follow hacyc hval h) (lt_irrefl _)

theorem nodup_of_isChain (hacyc : ∀ x, ¬TransGen m.Edge x x) {l : List Uuid}
    (h : l.IsChain m.Edge) : l.Nodup := by
  have hp : l.Pairwise (TransGen m.Edge) :=
    List.isChain_iff_pairwise.1 (h.imp fun _ _ => TransGen.single)
  refine hp.imp fun {a b} hab => ?_
  rintro rfl
  exact hacyc a hab

theorem exists_edge_of_mem_tail : ∀ {a : Uuid} {l : List Uuid}, (a :: l).IsChain m.Edge →
    y ∈ l → ∃ w, m.Edge w y
  | a, b :: l, hc, hy => by
    obtain ⟨hab, hc⟩ := List.isChain_cons_cons.1 hc
    rcases List.mem_cons.1 hy with rfl | hy
    · exact ⟨a, hab⟩
    · exact exists_edge_of_mem_tail hc hy

end NodeMap

namespace Catalog

theorem mem_allIds {c : Catalog} {y : Uuid} : y ∈ c.all.map (·.id) ↔ c.contains y = true := by
  constructor
  · intro hy
    obtain ⟨x, hx, rfl⟩ := List.mem_map.1 hy
    exact contains_of_mem (mem_all_iff.1 hx)
  · intro hy
    obtain ⟨x, hx⟩ := get?_of_contains hy
    obtain ⟨hmem, rfl⟩ := get?_eq_some hx
    exact List.mem_map_of_mem (mem_all_iff.2 hmem)

theorem length_allIds (c : Catalog) : (c.all.map (·.id)).length = c.size := by
  rw [List.length_map, (perm_all c).length_eq, size]

end Catalog

namespace HorizonStack

variable {b : Bool} {s : HorizonStack} {col rest : List Uuid} {x y z : Uuid}

/-! ## Climbing -/

/-- On well-formed links `above` answers the link upwards, failing exactly for
an unknown node or one with nothing above it. -/
theorem LinksOK.above_eq_ok (h : s.LinksOK) : s.above x = .ok y ↔ s.aboveOf.get? x = some y := by
  unfold above
  constructor
  · intro hxy
    obtain ⟨c, -, hxy⟩ := except_bind_eq_ok.1 hxy
    split at hxy
    · next z hz => rw [hz, except_pure_eq_ok.1 hxy]
    · cases hxy
  · intro hxy
    obtain ⟨c, hc⟩ := Catalog.get?_of_contains (h.registered hxy).1
    have hget : s.catalog.get x = .ok c := by simp [Catalog.get, hc]
    rw [except_bind_eq_ok]
    exact ⟨c, hget, by simp [hxy]⟩

/-- `isAbove` holds exactly when the higher node is reached by asking `above`
one or more times. -/
theorem LinksOK.isAbove_iff_above (h : s.LinksOK) :
    s.isAbove y x = true ↔ TransGen (fun v w => s.above v = .ok w) x y := by
  have hedge : (fun v w => s.above v = .ok w) = s.aboveOf.Edge := by
    funext v w
    exact propext h.above_eq_ok
  rw [hedge, h.isAbove_iff]

theorem LinksOK.isAbove_irrefl (h : s.LinksOK) (x : Uuid) : s.isAbove x x = false :=
  Bool.eq_false_iff.2 fun hx => h.acyclic x (h.isAbove_iff.1 hx)

theorem LinksOK.isAbove_trans (h : s.LinksOK) (hxy : s.isAbove y x = true)
    (hyz : s.isAbove z y = true) : s.isAbove z x = true :=
  h.isAbove_iff.2 ((h.isAbove_iff.1 hxy).trans (h.isAbove_iff.1 hyz))

/-! ## Walking down -/

theorem LinksOK.reflTransGen_of_under (h : s.LinksOK) (hyx : ReflTransGen s.underOf.Edge y x) :
    ReflTransGen s.aboveOf.Edge x y := by
  induction hyx with
  | refl => exact .refl
  | tail _ hvw ih => exact ih.head ((h.inverse _ _).2 hvw)

theorem LinksOK.transGen_of_under (h : s.LinksOK) (hyx : TransGen s.underOf.Edge y x) :
    TransGen s.aboveOf.Edge x y := by
  induction hyx with
  | single hvw => exact .single ((h.inverse _ _).2 hvw)
  | tail _ hvw ih => exact ih.head ((h.inverse _ _).2 hvw)

theorem LinksOK.under_acyclic (h : s.LinksOK) (x : Uuid) : ¬TransGen s.underOf.Edge x x :=
  fun hx => h.acyclic x (h.transGen_of_under hx)

theorem LinksOK.contains_of_reflTransGen (h : s.LinksOK) (hx : s.contains x = true)
    (hxy : ReflTransGen s.aboveOf.Edge x y) : s.contains y = true := by
  rcases hxy.cases_tail with rfl | ⟨w, -, hwy⟩
  · exact hx
  · exact (h.registered hwy).2

/-- `x` is a node with nothing under it, where a chain of links starts. -/
def IsBottom (s : HorizonStack) (x : Uuid) : Prop := s.contains x = true ∧ s.underOf.get? x = none

/-- Walking down from a node ends at a bottom: the links close no cycle and the
nodes are finitely many. -/
theorem LinksOK.exists_bottom_below (h : s.LinksOK) (hx : s.contains x = true) :
    ∃ z, s.IsBottom z ∧ ReflTransGen s.aboveOf.Edge z x := by
  have hval : ∀ v w, s.underOf.Edge v w → w ∈ s.catalog.components.map (·.id) :=
    fun v w hvw => Catalog.mem_ids_of_contains (h.registered ((h.inverse w v).2 hvw)).1
  obtain ⟨rest, -, hlast, hmem⟩ :=
    NodeMap.exists_chain _ x (NodeMap.follow_length_succ h.under_acyclic hval x)
  have hxz := (hmem _).2 (List.getLast_mem (List.cons_ne_nil x rest))
  have hzx := h.reflTransGen_of_under hxz
  refine ⟨_, ⟨?_, hlast⟩, hzx⟩
  -- the end of the walk down is `x` or lies under a node, so it is registered
  rcases hxz.cases_tail with hz | ⟨w, -, hwz⟩
  · rw [hz]
    exact hx
  · exact (h.registered ((h.inverse _ w).2 hwz)).1

/-! ## The column -/

/-- `col` is the column of the stack: every node once, each directly under the
next, from a node with nothing under it up to a node with nothing above it. -/
structure IsColumn (s : HorizonStack) (col : List Uuid) : Prop where
  ne_nil : col ≠ []
  nodup : col.Nodup
  mem_iff : ∀ x, x ∈ col ↔ s.contains x = true
  chain : col.IsChain s.aboveOf.Edge
  bottom : ∀ x ∈ col.head?, s.underOf.get? x = none
  top : ∀ x ∈ col.getLast?, s.aboveOf.get? x = none

theorem LinksOK.isBottom_iff (h : s.LinksOK) (hc : s.IsColumn (x :: rest)) :
    s.IsBottom y ↔ y = x := by
  constructor
  · rintro ⟨hy, hnone⟩
    rcases List.mem_cons.1 ((hc.mem_iff y).2 hy) with rfl | hy
    · rfl
    · -- a node further up the column lies on the one before it
      obtain ⟨w, hwy⟩ := NodeMap.exists_edge_of_mem_tail hc.chain hy
      rw [NodeMap.Edge, h.inverse, hnone] at hwy
      cases hwy
  · rintro rfl
    exact ⟨(hc.mem_iff y).1 List.mem_cons_self, hc.bottom y rfl⟩

/-- With a single bottom, the chain climbed from it is the column: a node of
the stack walks down to a bottom, which is this one. -/
theorem LinksOK.isColumn_of_bottom (h : s.LinksOK) (hb : s.IsBottom x)
    (huniq : ∀ z, s.IsBottom z → z = x) : ∃ rest, s.IsColumn (x :: rest) := by
  have hval : ∀ v w, s.aboveOf.Edge v w → w ∈ s.catalog.components.map (·.id) :=
    fun _ _ => h.mem_ids
  obtain ⟨rest, hchain, hlast, hmem⟩ :=
    NodeMap.exists_chain _ x (NodeMap.follow_length_succ h.acyclic hval x)
  refine ⟨rest, ⟨List.cons_ne_nil x rest, NodeMap.nodup_of_isChain h.acyclic hchain,
    fun y => ⟨fun hy => h.contains_of_reflTransGen hb.1 ((hmem y).2 hy), fun hy => ?_⟩, hchain,
    fun y hy => ?_, fun y hy => ?_⟩⟩
  · obtain ⟨z, hz, hzy⟩ := h.exists_bottom_below hy
    rw [huniq z hz] at hzy
    exact (hmem y).1 hzy
  · rw [List.head?_cons, Option.mem_some_iff] at hy
    rw [← hy]
    exact hb.2
  · rw [List.getLast?_eq_some_getLast (List.cons_ne_nil x rest), Option.mem_some_iff] at hy
    rw [← hy]
    exact hlast

/-- The climb from the first node of a chain of links that ends where nothing
is above returns the chain, when the chain stays within the limit and the fuel. -/
theorem climb_of_isChain {limit : Nat} (rest : List Uuid) : ∀ {fuel : Nat} {acc : List Uuid}
    {cur : Uuid}, (cur :: rest).IsChain s.aboveOf.Edge →
    s.aboveOf.get? ((cur :: rest).getLast (List.cons_ne_nil cur rest)) = none →
    acc.length + rest.length ≤ limit + 1 → rest.length < fuel →
    s.climb limit fuel acc cur = .ok (acc ++ rest) := by
  induction rest with
  | nil =>
    intro fuel acc cur _ hlast _ hfuel
    obtain ⟨fuel, rfl⟩ := Nat.exists_eq_add_one_of_ne_zero (Nat.pos_iff_ne_zero.1 hfuel)
    simp only [List.getLast_singleton] at hlast
    simp [climb, hlast]
  | cons next rest ih =>
    intro fuel acc cur hc hlast hlen hfuel
    obtain ⟨fuel, rfl⟩ := Nat.exists_eq_add_one_of_ne_zero (Nat.pos_iff_ne_zero.1
      (Nat.lt_of_le_of_lt (Nat.zero_le _) hfuel))
    obtain ⟨hedge, hc⟩ := List.isChain_cons_cons.1 hc
    rw [List.getLast_cons_cons] at hlast
    have hrest : s.climb limit fuel (acc ++ [next]) next = .ok (acc ++ [next] ++ rest) :=
      ih hc hlast (by simp at hlen ⊢; omega) (by simp at hfuel; omega)
    have hle : ¬acc.length > limit := by simp at hlen; omega
    have hnext : s.aboveOf.get? cur = some next := hedge
    simp only [climb, hnext, hle, if_false, hrest, List.append_assoc, List.singleton_append]

/-- The nodes with nothing under them, in listing order: where `column` looks
for the bottom. -/
def bottoms (s : HorizonStack) : List Uuid :=
  (s.catalog.all.map (·.id)).filter fun id => (s.underOf.get? id).isNone

theorem mem_bottoms : x ∈ s.bottoms ↔ s.IsBottom x := by
  simp only [bottoms, List.mem_filter, Catalog.mem_allIds, Option.isNone_iff_eq_none]
  rfl

theorem bottoms_eq_singleton (hd : s.catalog.Distinct) :
    s.bottoms = [x] ↔ s.IsBottom x ∧ ∀ z, s.IsBottom z → z = x := by
  constructor
  · intro hb
    refine ⟨mem_bottoms.1 (by rw [hb]; exact List.mem_singleton_self x), fun z hz => ?_⟩
    have hz' := mem_bottoms.2 hz
    rw [hb] at hz'
    exact List.mem_singleton.1 hz'
  · rintro ⟨hx, huniq⟩
    have hnodup : s.bottoms.Nodup := hd.all.sublist List.filter_sublist
    refine List.perm_singleton.1
      ((List.perm_ext_iff_of_nodup hnodup (List.nodup_singleton x)).2 fun z => ?_)
    rw [mem_bottoms, List.mem_singleton]
    exact ⟨huniq z, fun hz => hz ▸ hx⟩

theorem column_of_bottoms_ne (h : ∀ x, s.bottoms ≠ [x]) : s.column =
    .error (.stack (.notLinear s!"expected a single bottom node among {s.catalog.size} nodes")) := by
  unfold column
  dsimp only
  split
  · next x hx => exact absurd hx (h x)
  · rw [Catalog.length_allIds]
    rfl

theorem LinksOK.column_of_isColumn (h : s.LinksOK) (hd : s.catalog.Distinct)
    (hc : s.IsColumn col) : s.column = .ok col := by
  obtain ⟨x, rest, rfl⟩ := List.exists_cons_of_ne_nil hc.ne_nil
  have hb : s.bottoms = [x] :=
    (bottoms_eq_singleton hd).2 ⟨(h.isBottom_iff hc).2 rfl, fun z => (h.isBottom_iff hc).1⟩
  -- the column lists the identifiers of the catalog, each once
  have hlen : (s.catalog.all.map (·.id)).length = rest.length + 1 := by
    have hperm := (List.perm_ext_iff_of_nodup hd.all hc.nodup).2 fun y => by
      rw [Catalog.mem_allIds, hc.mem_iff]
      rfl
    simpa using hperm.length_eq
  have hclimb : s.climb (s.catalog.all.map (·.id)).length ((s.catalog.all.map (·.id)).length + 2)
      [x] x = .ok ([x] ++ rest) :=
    climb_of_isChain rest hc.chain (hc.top _ (List.getLast?_eq_some_getLast _))
      (by simp [hlen]; omega) (by omega)
  unfold column
  dsimp only
  rw [show (s.catalog.all.map (·.id)).filter (fun id => (s.underOf.get? id).isNone) = [x] from hb]
  dsimp only
  rw [hclimb]
  exact if_neg (by simp [hlen])

theorem LinksOK.isColumn_of_column (h : s.LinksOK) (hd : s.catalog.Distinct)
    (hcol : s.column = .ok col) : s.IsColumn col := by
  by_cases hb : ∃ x, s.bottoms = [x]
  · obtain ⟨x, hx⟩ := hb
    obtain ⟨hxb, huniq⟩ := (bottoms_eq_singleton hd).1 hx
    obtain ⟨rest, hc⟩ := h.isColumn_of_bottom hxb huniq
    rw [h.column_of_isColumn hd hc] at hcol
    cases hcol
    exact hc
  · rw [column_of_bottoms_ne (not_exists.1 hb)] at hcol
    cases hcol

/-- `column` returns exactly the column. -/
theorem LinksOK.column_eq_ok_iff (h : s.LinksOK) (hd : s.catalog.Distinct) :
    s.column = .ok col ↔ s.IsColumn col :=
  ⟨h.isColumn_of_column hd, h.column_of_isColumn hd⟩

/-- `column` succeeds exactly when a single node has nothing under it. -/
theorem LinksOK.column_isOk_iff (h : s.LinksOK) (hd : s.catalog.Distinct) :
    (∃ col, s.column = .ok col) ↔ ∃! x, s.IsBottom x := by
  constructor
  · rintro ⟨col, hcol⟩
    have hc := h.isColumn_of_column hd hcol
    obtain ⟨x, rest, rfl⟩ := List.exists_cons_of_ne_nil hc.ne_nil
    exact ⟨x, (h.isBottom_iff hc).2 rfl, fun z => (h.isBottom_iff hc).1⟩
  · rintro ⟨x, hx, huniq⟩
    obtain ⟨rest, hc⟩ := h.isColumn_of_bottom hx huniq
    exact ⟨x :: rest, h.column_of_isColumn hd hc⟩

/-- `column` fails only for want of a single bottom: a climb that loops and a
chain that misses nodes never happen. -/
theorem LinksOK.column_eq_error (h : s.LinksOK) (hd : s.catalog.Distinct) {e : Error}
    (he : s.column = .error e) :
    e = .stack (.notLinear s!"expected a single bottom node among {s.catalog.size} nodes") := by
  by_cases hb : ∃ x, s.bottoms = [x]
  · obtain ⟨x, hx⟩ := hb
    obtain ⟨col, hcol⟩ := (h.column_isOk_iff hd).2 ⟨x, (bottoms_eq_singleton hd).1 hx⟩
    rw [hcol] at he
    cases he
  · rw [column_of_bottoms_ne (not_exists.1 hb)] at he
    cases he
    rfl

theorem LinksOK.above_of_isColumn (h : s.LinksOK) (hc : s.IsColumn col) (i : Nat)
    (hi : i + 1 < col.length) : s.above col[i] = .ok col[i + 1] :=
  h.above_eq_ok.2 (List.isChain_iff_getElem.1 hc.chain i hi)

/-! ## Every stack the builder reaches -/

/-- **The order and the column of every stack the builder reaches.** A node
lies above another (`isAbove`) exactly when asking `above` one or more times
from the lower node reaches it, so `isAbove` is irreflexive and transitive.
`column` succeeds exactly when a single node has nothing under it, and then
returns the column: every node once, from that node up, the `above` of each
being the next and the last having nothing above it. Otherwise `column`
fails for want of a single bottom. -/
theorem reachable_order_and_column {b : Bool} {s : HorizonStack} (h : Reachable b s) :
    (∀ x y, s.isAbove y x = true ↔ TransGen (fun v w => s.above v = .ok w) x y) ∧
    (∀ x, s.isAbove x x = false) ∧
    (∀ x y z, s.isAbove y x = true → s.isAbove z y = true → s.isAbove z x = true) ∧
    ((∃ col, s.column = .ok col) ↔ ∃! x, s.IsBottom x) ∧
    (∀ col, s.column = .ok col ↔ s.IsColumn col) ∧
    (∀ col, s.column = .ok col → ∀ i (hi : i + 1 < col.length), s.above col[i] = .ok col[i + 1]) ∧
    (∀ e, s.column = .error e →
      e = .stack (.notLinear s!"expected a single bottom node among {s.catalog.size} nodes")) := by
  have hl := h.wellFormed.links
  have hd := h.distinct
  exact ⟨fun _ _ => hl.isAbove_iff_above, hl.isAbove_irrefl, fun _ _ _ => hl.isAbove_trans,
    hl.column_isOk_iff hd, fun _ => hl.column_eq_ok_iff hd,
    fun _ hcol => hl.above_of_isColumn (hl.isColumn_of_column hd hcol),
    fun _ => hl.column_eq_error hd⟩

/-- A horizon placed under a unit. -/
def horizonUnderUnit : HorizonStack :=
  let s := ((empty 2).addNode .horizon (Uuid.ofNat 0)).addNode .stratigraphicUnit (Uuid.ofNat 1)
  s.after (s.addHorizonUnder (Uuid.ofNat 0) (Uuid.ofNat 1))

theorem reachable_horizonUnderUnit : Reachable true horizonUnderUnit := by
  have h1 := (Reachable.empty 2).step (.addHorizon (Uuid.ofNat 0) (by decide))
  have h2 := h1.step (.addUnit (Uuid.ofNat 1) (by decide))
  exact h2.step (.addHorizonUnder (Uuid.ofNat 0) (Uuid.ofNat 1))

theorem horizon_under_unit_order_and_column :
    Reachable true horizonUnderUnit ∧
    (∀ x y, horizonUnderUnit.isAbove y x = true ↔
      TransGen (fun v w => horizonUnderUnit.above v = .ok w) x y) ∧
    (∀ x, horizonUnderUnit.isAbove x x = false) ∧
    (∀ x y z, horizonUnderUnit.isAbove y x = true → horizonUnderUnit.isAbove z y = true →
      horizonUnderUnit.isAbove z x = true) ∧
    ((∃ col, horizonUnderUnit.column = .ok col) ↔ ∃! x, horizonUnderUnit.IsBottom x) ∧
    (∀ col, horizonUnderUnit.column = .ok col ↔ horizonUnderUnit.IsColumn col) ∧
    (∀ col, horizonUnderUnit.column = .ok col → ∀ i (hi : i + 1 < col.length),
      horizonUnderUnit.above col[i] = .ok col[i + 1]) ∧
    (∀ e, horizonUnderUnit.column = .error e → e = .stack (.notLinear
      s!"expected a single bottom node among {horizonUnderUnit.catalog.size} nodes")) :=
  ⟨reachable_horizonUnderUnit, reachable_order_and_column reachable_horizonUnderUnit⟩

end HorizonStack

end Subsurface
