import Subsurface.Proofs.Stack.FromNames
import Subsurface.Proofs.Catalog.Reachable
import Subsurface.Stratigraphy.Basic
/-!
Isovalue queries along a graded column.

Doubles are compared by their place on the number line (`Binary64.rank`), a
NaN comparing with nothing. The stack's direction is read from one unit; the
queries then place a value on a side of each horizon, and a unit holds the
values on the upper side of the horizon under it and the lower side of the
one above it.

When the stack is a column whose horizons all have isovalues, growing
strictly upwards or shrinking strictly (`Graded`), every number lies on the
upper side of a lower part of the column's horizons and on the lower side of
the rest (`liesAbove_antitone`). A unit then holds the values from the
smaller isovalue around it, included, to the larger, excluded, a side with
no horizon being unbounded (`HoldsValue`); no two units hold one value, and
when the column starts and ends with a unit, some unit holds every number
(`containingUnit_partitions`).
-/

open Relation (TransGen)

namespace Subsurface

namespace Binary64

variable {a b c : Binary64}

@[simp] theorem lt_eq_true_iff :
    a.lt b = true ↔ a.isNaN = false ∧ b.isNaN = false ∧ a.rank < b.rank := by
  simp [lt, and_assoc]

@[simp] theorem le_eq_true_iff :
    a.le b = true ↔ a.isNaN = false ∧ b.isNaN = false ∧ a.rank ≤ b.rank := by
  simp [le, and_assoc]

@[simp] theorem lt_eq_false_iff :
    a.lt b = false ↔ a.isNaN = true ∨ b.isNaN = true ∨ b.rank ≤ a.rank := by
  cases ha : a.isNaN <;> cases hb : b.isNaN <;> simp [lt, ha, hb]

@[simp] theorem le_eq_false_iff :
    a.le b = false ↔ a.isNaN = true ∨ b.isNaN = true ∨ b.rank < a.rank := by
  cases ha : a.isNaN <;> cases hb : b.isNaN <;> simp [le, ha, hb]

theorem not_le (ha : a.isNaN = false) (hb : b.isNaN = false) : (!a.le b) = b.lt a := by
  simp only [le, lt, ha, hb, Bool.not_false, Bool.true_and]
  rw [← decide_not]
  exact decide_eq_decide.2 Int.not_le

theorem lt_asymm (h : a.lt b = true) : b.lt a = false := by
  rw [lt_eq_true_iff] at h
  simp only [lt, h.1, h.2.1, Bool.not_false, Bool.true_and, decide_eq_false_iff_not]
  omega

theorem le_of_lt_of_le (hab : a.lt b = true) (hbc : b.le c = true) : a.le c = true := by
  simp only [lt_eq_true_iff, le_eq_true_iff] at *
  exact ⟨hab.1, hbc.2.1, by omega⟩

theorem lt_trans (hab : a.lt b = true) (hbc : b.lt c = true) : a.lt c = true := by
  simp only [lt_eq_true_iff] at *
  exact ⟨hab.1, hbc.2.1, by omega⟩

/-- `v` lies from `lo`, included, to `hi`, excluded; a missing bound leaves
its side unbounded. -/
def InSpan (lo hi : Option Binary64) (v : Binary64) : Prop :=
  (∀ x ∈ lo, x.le v = true) ∧ ∀ x ∈ hi, v.lt x = true

instance (lo hi : Option Binary64) (v : Binary64) : Decidable (InSpan lo hi v) :=
  inferInstanceAs (Decidable (_ ∧ _))

end Binary64

namespace HorizonStack

variable {s : HorizonStack} {col : List Uuid}

/-! ## Neighbours along the column -/

theorem LinksOK.above_toOption (h : s.LinksOK) (x : Uuid) :
    (s.above x).toOption = s.aboveOf.get? x := by
  cases hx : s.aboveOf.get? x with
  | some y => rw [h.above_eq_ok.2 hx]; rfl
  | none =>
    cases ha : s.above x with
    | error e => rfl
    | ok y => rw [h.above_eq_ok.1 ha] at hx; cases hx

theorem LinksOK.under_toOption (h : s.LinksOK) (x : Uuid) :
    (s.under x).toOption = s.underOf.get? x := by
  cases hx : s.underOf.get? x with
  | some y => rw [h.under_eq_ok.2 hx]; rfl
  | none =>
    cases hu : s.under x with
    | error e => rfl
    | ok y => rw [h.under_eq_ok.1 hu] at hx; cases hx

theorem IsColumn.aboveOf_get? (hc : s.IsColumn col) (k : Nat) (hk : k < col.length) :
    s.aboveOf.get? col[k] = col[k + 1]? := by
  by_cases hk' : k + 1 < col.length
  · rw [List.getElem?_eq_getElem hk']
    exact List.isChain_iff_getElem.1 hc.chain k hk'
  · rw [List.getElem?_eq_none (by omega)]
    refine hc.top _ ?_
    rw [List.getLast?_eq_getElem?, show col.length - 1 = k by omega, List.getElem?_eq_getElem hk]
    rfl

theorem LinksOK.underOf_get?_succ (h : s.LinksOK) (hc : s.IsColumn col) (k : Nat)
    (hk : k + 1 < col.length) : s.underOf.get? col[k + 1] = col[k]? := by
  rw [List.getElem?_eq_getElem (by omega)]
  exact (h.inverse _ _).1 (List.isChain_iff_getElem.1 hc.chain k hk)

theorem IsColumn.underOf_get?_zero (hc : s.IsColumn col) (h0 : 0 < col.length) :
    s.underOf.get? col[0] = none := by
  refine hc.bottom _ ?_
  rw [List.head?_eq_getElem?, List.getElem?_eq_getElem h0]
  rfl

theorem LinksOK.joins_getElem (h : s.LinksOK) (hc : s.IsColumn col) (k : Nat)
    (hk : k < col.length) (hk1 : k + 1 < col.length) : s.catalog.Joins col[k] col[k + 1] :=
  h.joins _ _ (List.isChain_iff_getElem.1 hc.chain k hk1)

theorem LinksOK.above_getElem (h : s.LinksOK) (hc : s.IsColumn col) {k : Nat}
    (hk : k < col.length) {y : Uuid} : s.above col[k] = .ok y ↔ col[k + 1]? = some y := by
  rw [h.above_eq_ok, hc.aboveOf_get? k hk]

theorem LinksOK.transGen_above_getElem (h : s.LinksOK) (hc : s.IsColumn col) {i : Nat}
    (hi : i < col.length) {y : Uuid} :
    TransGen (fun v w => s.above v = .ok w) col[i] y ↔
      ∃ j, ∃ hj : j < col.length, i < j ∧ col[j] = y := by
  constructor
  · intro hy
    induction hy with
    | single hy =>
      obtain ⟨hj, rfl⟩ := List.getElem?_eq_some_iff.1 ((h.above_getElem hc hi).1 hy)
      exact ⟨i + 1, hj, by omega, rfl⟩
    | tail _ hbc ih =>
      obtain ⟨j, hj, hij, rfl⟩ := ih
      obtain ⟨hj', rfl⟩ := List.getElem?_eq_some_iff.1 ((h.above_getElem hc hj).1 hbc)
      exact ⟨j + 1, hj', by omega, rfl⟩
  · rintro ⟨j, hj, hij, rfl⟩
    induction j with
    | zero => omega
    | succ j ih =>
      have hstep : s.above col[j] = .ok col[j + 1] :=
        (h.above_getElem hc (by omega)).2 (List.getElem?_eq_getElem hj)
      by_cases hij' : i = j
      · subst hij'
        exact .single hstep
      · exact .tail (ih (by omega) (by omega)) hstep

theorem LinksOK.isAbove_getElem_iff (h : s.LinksOK) (hc : s.IsColumn col) {i j : Nat}
    (hi : i < col.length) (hj : j < col.length) : s.isAbove col[j] col[i] = true ↔ i < j := by
  rw [h.isAbove_iff_above, h.transGen_above_getElem hc hi]
  constructor
  · rintro ⟨j', hj', hij', heq⟩
    rw [hc.nodup.getElem_inj_iff] at heq
    omega
  · intro hij
    exact ⟨j, hj, hij, rfl⟩

/-- A node with nodes under and above it stands inside the column, neither
first nor last. -/
theorem LinksOK.inner_of_around (h : s.LinksOK) (hc : s.IsColumn col) {u a b : Uuid}
    (hu : s.contains u = true) (hb : s.under u = .ok b) (ha : s.above u = .ok a) :
    ∃ k, ∃ hk : k < col.length, 0 < k ∧ k + 1 < col.length ∧ col[k] = u := by
  obtain ⟨k, hk, rfl⟩ := List.getElem_of_mem ((hc.mem_iff u).2 hu)
  have hk1 : k + 1 < col.length := (List.getElem?_eq_some_iff.1 ((h.above_getElem hc hk).1 ha)).1
  refine ⟨k, hk, Nat.pos_of_ne_zero fun hk0 => ?_, hk1, rfl⟩
  subst hk0
  rw [h.under_eq_ok, hc.underOf_get?_zero hk] at hb
  cases hb

end HorizonStack

namespace Catalog

variable {c : Catalog} {x y : Uuid}

theorem Joins.horizon_right (h : c.Joins x y) (hx : c.kindOf? x = some .stratigraphicUnit) :
    c.kindOf? y = some .horizon := by
  rcases h with ⟨hx', -⟩ | ⟨-, hy⟩
  · rw [hx] at hx'
    cases hx'
  · exact hy

theorem Joins.horizon_left (h : c.Joins x y) (hy : c.kindOf? y = some .stratigraphicUnit) :
    c.kindOf? x = some .horizon := by
  rcases h with ⟨hx, -⟩ | ⟨-, hy'⟩
  · exact hx
  · rw [hy] at hy'
    cases hy'

theorem Joins.unit_right (h : c.Joins x y) (hx : c.kindOf? x = some .horizon) :
    c.kindOf? y = some .stratigraphicUnit := by
  rcases h with ⟨-, hy⟩ | ⟨hx', -⟩
  · exact hy
  · rw [hx] at hx'
    cases hx'

end Catalog

namespace StratigraphicModel

variable {s : StratigraphicModel} {up : Bool} {v x : Binary64} {col : List Uuid} {u y : Uuid}

/-! ## What a unit holds -/

/-- The isovalue of the horizon under the unit `u`. -/
def baseIsovalue (s : StratigraphicModel) (u : Uuid) : Option Binary64 :=
  (s.stack.under u).toOption.bind s.isovalues.encoded?

/-- The isovalue of the horizon above the unit `u`. -/
def topIsovalue (s : StratigraphicModel) (u : Uuid) : Option Binary64 :=
  (s.stack.above u).toOption.bind s.isovalues.encoded?

/-- The bounds of the values the unit `u` holds, the lower first: the
isovalues under and above it when isovalues grow upwards (`up`), the other
way round when they shrink. -/
def valueBounds (s : StratigraphicModel) (up : Bool) (u : Uuid) :
    Option Binary64 × Option Binary64 :=
  if up then (s.baseIsovalue u, s.topIsovalue u) else (s.topIsovalue u, s.baseIsovalue u)

/-- The unit `u` holds `v`: from the smaller isovalue around it, included, to
the larger, excluded, a side with no horizon being unbounded. -/
def HoldsValue (s : StratigraphicModel) (up : Bool) (u : Uuid) (v : Binary64) : Prop :=
  Binary64.InSpan (s.valueBounds up u).1 (s.valueBounds up u).2 v

instance (s : StratigraphicModel) (up : Bool) (u : Uuid) (v : Binary64) :
    Decidable (s.HoldsValue up u v) :=
  inferInstanceAs (Decidable (Binary64.InSpan _ _ v))

/-- Whether `containingUnit` takes the unit `u` to hold `v`, in the direction
`inc`. -/
def placesIn (s : StratigraphicModel) (inc : Bool) (v : Binary64) (u : Uuid) : Bool :=
  let placed (h : Uuid) : Option Bool := (s.isovalues.encoded? h).map (liesAbove inc v)
  holds ((s.stack.under u).toOption.bind placed) ((s.stack.above u).toOption.bind placed)

theorem containingUnit_eq (s : StratigraphicModel) (v : Binary64) :
    s.containingUnit v =
      s.increasing.bind fun inc => (s.stack.units.map (·.id)).find? (s.placesIn inc v) :=
  rfl

theorem placesIn_eq (s : StratigraphicModel) (inc : Bool) (v : Binary64) (u : Uuid) :
    s.placesIn inc v u =
      holds ((s.baseIsovalue u).map (liesAbove inc v)) ((s.topIsovalue u).map (liesAbove inc v)) := by
  simp only [placesIn, baseIsovalue, topIsovalue, Option.map_bind, Function.comp_def]

/-- A unit holds a value when the value lies above the horizon under it and
not above the one above it, at least one of them being known. -/
theorem holds_eq_true_iff {b t : Option Bool} :
    holds b t = true ↔ (b.isSome ∨ t.isSome) ∧ (∀ x ∈ b, x = true) ∧ ∀ x ∈ t, x = false := by
  cases b <;> cases t <;> simp [holds]

/-- Between numbers, a value lies above a level when it is at least the level
and isovalues grow upwards, and when it is below the level otherwise. -/
theorem liesAbove_eq (hv : v.isNaN = false) (hx : x.isNaN = false) :
    liesAbove up v x = if up then x.le v else v.lt x := by
  cases up
  · simp only [liesAbove, Bool.false_beq, Bool.false_eq_true, ite_false]
    exact Binary64.not_le hx hv
  · simp [liesAbove]

theorem holds_map_liesAbove (hv : v.isNaN = false) {base top : Option Binary64}
    (hbase : ∀ x ∈ base, x.isNaN = false) (htop : ∀ x ∈ top, x.isNaN = false)
    (hone : base.isSome ∨ top.isSome) :
    holds (base.map (liesAbove up v)) (top.map (liesAbove up v)) = true ↔
      Binary64.InSpan (if up then base else top) (if up then top else base) v := by
  rw [holds_eq_true_iff]
  cases base with
  | none =>
    cases top with
    | none => simp at hone
    | some t =>
      have ht := htop t rfl
      cases up <;> simp [Binary64.InSpan, liesAbove_eq hv ht, hv, ht]
  | some b =>
    have hb := hbase b rfl
    cases top with
    | none => cases up <;> simp [Binary64.InSpan, liesAbove_eq hv hb]
    | some t =>
      have ht := htop t rfl
      cases up <;> simp [Binary64.InSpan, liesAbove_eq hv hb, liesAbove_eq hv ht, hv, hb, ht,
        and_comm]

/-! ## Graded columns -/

/-- The isovalues of the stack's horizons: every horizon has one, and of two
horizons the one further up has the larger when `up`, the smaller when not. -/
structure Graded (s : StratigraphicModel) (up : Bool) : Prop where
  isovalue : ∀ h, s.stack.catalog.kindOf? h = some .horizon →
    ∃ x, s.isovalues.encoded? h = some x
  ordered : ∀ h h' x x', s.stack.catalog.kindOf? h = some .horizon →
    s.stack.catalog.kindOf? h' = some .horizon → s.stack.isAbove h' h = true →
    s.isovalues.encoded? h = some x → s.isovalues.encoded? h' = some x' →
    (if up then x.lt x' else x'.lt x) = true

/-- Where the queries are studied: the stack is the column `col`, on
well-formed links between distinct identifiers, with a unit between two
horizons, and its isovalues are graded. -/
structure GradedColumn (s : StratigraphicModel) (up : Bool) (col : List Uuid) : Prop where
  links : s.stack.LinksOK
  distinct : s.stack.catalog.Distinct
  column : s.stack.IsColumn col
  graded : s.Graded up
  bounded : ∃ k, ∃ hk : k < col.length, 0 < k ∧ k + 1 < col.length ∧
    s.stack.catalog.kindOf? col[k] = some .stratigraphicUnit

theorem isNaN_of_ordered {x' : Binary64} (h : (if up then x.lt x' else x'.lt x) = true) :
    x.isNaN = false ∧ x'.isNaN = false := by
  cases up <;> simp_all

namespace GradedColumn

variable (hg : s.GradedColumn up col)
include hg

theorem exists_getElem (hy : s.stack.contains y = true) :
    ∃ k, ∃ hk : k < col.length, col[k] = y :=
  List.getElem_of_mem ((hg.column.mem_iff y).2 hy)

theorem kind_getElem {k : Nat} (hk : k < col.length) :
    s.stack.catalog.kindOf? col[k] = some .horizon ∨
      s.stack.catalog.kindOf? col[k] = some .stratigraphicUnit := by
  obtain ⟨m, -, -, hm1, -⟩ := hg.bounded
  by_cases hk' : k + 1 < col.length
  · rcases hg.links.joins_getElem hg.column k hk hk' with ⟨hx, -⟩ | ⟨hx, -⟩
    · exact .inl hx
    · exact .inr hx
  · -- the last node is joined to the one before it
    obtain ⟨j, rfl⟩ : ∃ j, k = j + 1 := ⟨k - 1, by omega⟩
    rcases hg.links.joins_getElem hg.column j (by omega) hk with ⟨-, hy⟩ | ⟨-, hy⟩
    · exact .inr hy
    · exact .inl hy

theorem unit_of_mem (hy : y ∈ col) (hn : s.stack.catalog.kindOf? y ≠ some .horizon) :
    s.stack.catalog.kindOf? y = some .stratigraphicUnit := by
  obtain ⟨i, hi, rfl⟩ := List.getElem_of_mem hy
  exact (hg.kind_getElem hi).resolve_left hn

/-- Of two horizons of the column, the one further up has the larger
isovalue when `up`, the smaller when not. -/
theorem ordered_getElem {x' : Binary64} {i j : Nat} (hij : i < j) (hj : j < col.length)
    (hi : s.stack.catalog.kindOf? col[i] = some .horizon)
    (hj' : s.stack.catalog.kindOf? col[j] = some .horizon)
    (hx : s.isovalues.encoded? col[i] = some x) (hx' : s.isovalues.encoded? col[j] = some x') :
    (if up then x.lt x' else x'.lt x) = true :=
  hg.graded.ordered _ _ x x' hi hj' ((hg.links.isAbove_getElem_iff hg.column (by omega) hj).2 hij)
    hx hx'

/-- Every isovalue of a horizon is a number: it is ordered against the
isovalue of another horizon, and the column has two. -/
theorem isNaN_eq_false (hy : s.stack.catalog.kindOf? y = some .horizon)
    (hx : s.isovalues.encoded? y = some x) : x.isNaN = false := by
  obtain ⟨i, hi, rfl⟩ := hg.exists_getElem (Catalog.contains_of_kindOf? hy)
  obtain ⟨k, hk, hk0, hk1, hu⟩ := hg.bounded
  obtain ⟨m, rfl⟩ : ∃ m, k = m + 1 := ⟨k - 1, by omega⟩
  -- the horizons around the bounded unit stand at `m` and `m + 2`
  have hm := (hg.links.joins_getElem hg.column m (by omega) hk).horizon_left hu
  have hm2 := (hg.links.joins_getElem hg.column (m + 1) hk hk1).horizon_right hu
  obtain ⟨j, hj, hij, hhj⟩ : ∃ j, ∃ hj : j < col.length, i ≠ j ∧
      s.stack.catalog.kindOf? col[j] = some .horizon := by
    by_cases him : i = m
    · exact ⟨m + 2, hk1, by omega, hm2⟩
    · exact ⟨m, by omega, him, hm⟩
  obtain ⟨x', hx'⟩ := hg.graded.isovalue _ hhj
  rcases Nat.lt_or_gt_of_ne hij with hlt | hlt
  · exact (isNaN_of_ordered (hg.ordered_getElem hlt hj hy hhj hx hx')).1
  · exact (isNaN_of_ordered (hg.ordered_getElem hlt hi hhj hy hx' hx)).2

/-- Along the column, a number lies above a lower horizon whenever it lies
above a higher one. -/
theorem liesAbove_antitone (hv : v.isNaN = false) {x' : Binary64} {i j : Nat} (hij : i ≤ j)
    (hj : j < col.length) (hi : s.stack.catalog.kindOf? col[i] = some .horizon)
    (hj' : s.stack.catalog.kindOf? col[j] = some .horizon)
    (hx : s.isovalues.encoded? col[i] = some x) (hx' : s.isovalues.encoded? col[j] = some x')
    (habove : liesAbove up v x' = true) : liesAbove up v x = true := by
  rcases Nat.lt_or_eq_of_le hij with hlt | rfl
  · have hord := hg.ordered_getElem hlt hj hi hj' hx hx'
    rw [liesAbove_eq hv (hg.isNaN_eq_false hi hx)]
    rw [liesAbove_eq hv (hg.isNaN_eq_false hj' hx')] at habove
    cases up
    · exact Binary64.lt_trans habove hord
    · exact Binary64.le_of_lt_of_le hord habove
  · rw [hx] at hx'
    cases hx'
    exact habove

/-! ### Around a unit -/

theorem baseIsovalue_eq (u : Uuid) :
    s.baseIsovalue u = (s.stack.underOf.get? u).bind s.isovalues.encoded? := by
  rw [baseIsovalue, hg.links.under_toOption]

theorem topIsovalue_eq (u : Uuid) :
    s.topIsovalue u = (s.stack.aboveOf.get? u).bind s.isovalues.encoded? := by
  rw [topIsovalue, hg.links.above_toOption]

theorem baseIsovalue_succ {k : Nat} (hk : k + 1 < col.length) :
    s.baseIsovalue col[k + 1] = col[k]?.bind s.isovalues.encoded? := by
  rw [hg.baseIsovalue_eq, hg.links.underOf_get?_succ hg.column k hk]

theorem baseIsovalue_zero (h0 : 0 < col.length) : s.baseIsovalue col[0] = none := by
  rw [hg.baseIsovalue_eq, hg.column.underOf_get?_zero h0]
  rfl

theorem topIsovalue_getElem {k : Nat} (hk : k < col.length) :
    s.topIsovalue col[k] = col[k + 1]?.bind s.isovalues.encoded? := by
  rw [hg.topIsovalue_eq, hg.column.aboveOf_get? k hk]

theorem isNaN_of_baseIsovalue (hu : s.stack.catalog.kindOf? u = some .stratigraphicUnit)
    (hx : s.baseIsovalue u = some x) : x.isNaN = false := by
  rw [hg.baseIsovalue_eq, Option.bind_eq_some_iff] at hx
  obtain ⟨b, hb, hx⟩ := hx
  have hj := hg.links.joins b u ((hg.links.inverse b u).2 hb)
  exact hg.isNaN_eq_false (hj.horizon_left hu) hx

theorem isNaN_of_topIsovalue (hu : s.stack.catalog.kindOf? u = some .stratigraphicUnit)
    (hx : s.topIsovalue u = some x) : x.isNaN = false := by
  rw [hg.topIsovalue_eq, Option.bind_eq_some_iff] at hx
  obtain ⟨a, ha, hx⟩ := hx
  exact hg.isNaN_eq_false ((hg.links.joins u a ha).horizon_right hu) hx

/-- A unit has a horizon with an isovalue on at least one side: the column
has more than one node. -/
theorem isovalue_around (hu : s.stack.catalog.kindOf? u = some .stratigraphicUnit) :
    (s.baseIsovalue u).isSome ∨ (s.topIsovalue u).isSome := by
  obtain ⟨k, hk, rfl⟩ := hg.exists_getElem (Catalog.contains_of_kindOf? hu)
  obtain ⟨m, -, -, hm1, -⟩ := hg.bounded
  cases k with
  | zero =>
    refine .inr ?_
    have h1 := (hg.links.joins_getElem hg.column 0 hk (by omega)).horizon_right hu
    obtain ⟨x, hx⟩ := hg.graded.isovalue _ h1
    rw [hg.topIsovalue_getElem hk, List.getElem?_eq_getElem (by omega), Option.bind_some, hx]
    rfl
  | succ k =>
    refine .inl ?_
    have h1 := (hg.links.joins_getElem hg.column k (by omega) hk).horizon_left hu
    obtain ⟨x, hx⟩ := hg.graded.isovalue _ h1
    rw [hg.baseIsovalue_succ hk, List.getElem?_eq_getElem (by omega), Option.bind_some, hx]
    rfl

/-- **What a unit holds.** `containingUnit` takes a unit to hold a number
exactly when the number lies in the unit's interval of values. -/
theorem placesIn_iff (hv : v.isNaN = false)
    (hu : s.stack.catalog.kindOf? u = some .stratigraphicUnit) :
    s.placesIn up v u = true ↔ s.HoldsValue up u v := by
  rw [placesIn_eq, holds_map_liesAbove hv (fun _ hx => hg.isNaN_of_baseIsovalue hu hx)
    (fun _ hx => hg.isNaN_of_topIsovalue hu hx) (hg.isovalue_around hu)]
  cases up <;> rfl

/-! ### Along the column -/

/-- No two units hold one number: the lower unit holds it under the horizon
above it, the higher one above the horizon under it, and that horizon is no
lower. -/
theorem not_placesIn_of_lt (hv : v.isNaN = false) {k k' : Nat} (hkk : k < k')
    (hk' : k' < col.length) (hu : s.stack.catalog.kindOf? col[k] = some .stratigraphicUnit)
    (hu' : s.stack.catalog.kindOf? col[k'] = some .stratigraphicUnit)
    (h1 : s.placesIn up v col[k] = true) (h2 : s.placesIn up v col[k'] = true) : False := by
  have ht := (hg.links.joins_getElem hg.column k (by omega) (by omega)).horizon_right hu
  obtain ⟨xt, hxt⟩ := hg.graded.isovalue _ ht
  obtain ⟨j, rfl⟩ : ∃ j, k' = j + 1 := ⟨k' - 1, by omega⟩
  have hb := (hg.links.joins_getElem hg.column j (by omega) hk').horizon_left hu'
  obtain ⟨xb, hxb⟩ := hg.graded.isovalue _ hb
  -- the node above the lower unit is a horizon, so the higher unit is further up
  have hkj : k + 1 ≤ j := by
    by_contra hcon
    obtain rfl : j = k := by omega
    rw [ht] at hu'
    cases hu'
  rw [placesIn_eq, hg.topIsovalue_getElem (by omega), List.getElem?_eq_getElem (by omega),
    Option.bind_some, hxt, Option.map_some, holds_eq_true_iff] at h1
  rw [placesIn_eq, hg.baseIsovalue_succ hk', List.getElem?_eq_getElem (by omega),
    Option.bind_some, hxb, Option.map_some, holds_eq_true_iff] at h2
  have hunder : liesAbove up v xt = false := h1.2.2 _ rfl
  have habove := hg.liesAbove_antitone hv hkj (by omega) ht hb hxt hxb (h2.2.1 _ rfl)
  rw [hunder] at habove
  cases habove

theorem eq_of_placesIn (hv : v.isNaN = false) {u' : Uuid}
    (hu : s.stack.catalog.kindOf? u = some .stratigraphicUnit)
    (hu' : s.stack.catalog.kindOf? u' = some .stratigraphicUnit)
    (h1 : s.placesIn up v u = true) (h2 : s.placesIn up v u' = true) : u = u' := by
  obtain ⟨k, hk, rfl⟩ := hg.exists_getElem (Catalog.contains_of_kindOf? hu)
  obtain ⟨k', hk', rfl⟩ := hg.exists_getElem (Catalog.contains_of_kindOf? hu')
  rcases Nat.lt_trichotomy k k' with hlt | rfl | hgt
  · exact (hg.not_placesIn_of_lt hv hlt hk' hu hu' h1 h2).elim
  · rfl
  · exact (hg.not_placesIn_of_lt hv hgt hk hu' hu h2 h1).elim

/-- Climbing a column that ends with a unit, from a unit whose base horizon
the number lies above: some unit from there up holds the number, the one
under the first horizon the number does not lie above, or else the top
unit. -/
theorem exists_placesIn_from (hv : v.isNaN = false)
    (hlast : ∀ z ∈ col.getLast?, s.stack.catalog.kindOf? z = some .stratigraphicUnit)
    (k : Nat) (hk : k < col.length) (hu : s.stack.catalog.kindOf? col[k] = some .stratigraphicUnit)
    (hbase : ∀ x ∈ s.baseIsovalue col[k], liesAbove up v x = true) :
    ∃ u, s.stack.catalog.kindOf? u = some .stratigraphicUnit ∧ s.placesIn up v u = true := by
  have hbase' : ∀ b ∈ (s.baseIsovalue col[k]).map (liesAbove up v), b = true :=
    Option.forall_mem_map.2 hbase
  by_cases htop : k + 1 < col.length
  · have ht := (hg.links.joins_getElem hg.column k hk htop).horizon_right hu
    obtain ⟨x, hx⟩ := hg.graded.isovalue _ ht
    have htopiso : s.topIsovalue col[k] = some x := by
      rw [hg.topIsovalue_getElem hk, List.getElem?_eq_getElem htop, Option.bind_some, hx]
    cases hla : liesAbove up v x with
    | false =>
      -- the number lies under the horizon above: this unit holds it
      refine ⟨col[k], hu, ?_⟩
      rw [placesIn_eq, holds_eq_true_iff, htopiso, Option.map_some, hla]
      exact ⟨.inr rfl, hbase', fun b hb => Option.mem_some_iff.1 hb ▸ rfl⟩
    | true =>
      -- it lies above that horizon too, which is not the top: go on from the next unit
      have hk2 : k + 2 < col.length := by
        by_contra hcon
        have hl := hlast col[k + 1] (by
          rw [List.getLast?_eq_getElem?, show col.length - 1 = k + 1 by omega,
            List.getElem?_eq_getElem htop]
          rfl)
        rw [ht] at hl
        cases hl
      have hu2 := (hg.links.joins_getElem hg.column (k + 1) htop hk2).unit_right ht
      refine exists_placesIn_from hv hlast (k + 2) hk2 hu2 fun x' hx' => ?_
      rw [hg.baseIsovalue_succ hk2, List.getElem?_eq_getElem htop, Option.bind_some, hx,
        Option.mem_some_iff] at hx'
      rw [← hx']
      exact hla
  · -- the top unit holds every number above the horizon under it
    refine ⟨col[k], hu, ?_⟩
    have htopiso : s.topIsovalue col[k] = none := by
      rw [hg.topIsovalue_getElem hk, List.getElem?_eq_none (by omega)]
      rfl
    have hround := hg.isovalue_around hu
    rw [htopiso] at hround
    rw [placesIn_eq, holds_eq_true_iff, htopiso]
    refine ⟨?_, hbase', fun b hb => ?_⟩
    · simpa using hround
    · cases hb
termination_by col.length - k

/-- **Every number has a unit** when the column starts and ends with a unit. -/
theorem exists_placesIn (hv : v.isNaN = false)
    (hfirst : ∀ z ∈ col.head?, s.stack.catalog.kindOf? z = some .stratigraphicUnit)
    (hlast : ∀ z ∈ col.getLast?, s.stack.catalog.kindOf? z = some .stratigraphicUnit) :
    ∃ u, s.stack.catalog.kindOf? u = some .stratigraphicUnit ∧ s.placesIn up v u = true := by
  have h0 : 0 < col.length := List.length_pos_of_ne_nil hg.column.ne_nil
  refine hg.exists_placesIn_from hv hlast 0 h0 (hfirst _ ?_) ?_
  · rw [List.head?_eq_getElem?, List.getElem?_eq_getElem h0]
    rfl
  · rw [hg.baseIsovalue_zero h0]
    intro x hx
    cases hx

/-! ### The direction -/

/-- Around any unit between two horizons the isovalue grows upwards exactly
when `up`. -/
theorem lt_around {a b : Uuid} (hu : s.stack.catalog.kindOf? u = some .stratigraphicUnit)
    (hb : s.stack.under u = .ok b) (ha : s.stack.above u = .ok a) :
    ∃ xa xb, s.isovalues.encoded? a = some xa ∧ s.isovalues.encoded? b = some xb ∧
      xb.lt xa = up := by
  have hba : s.stack.aboveOf.get? b = some u := (hg.links.inverse b u).2 (hg.links.under_eq_ok.1 hb)
  have hha := (hg.links.joins u a (hg.links.above_eq_ok.1 ha)).horizon_right hu
  have hhb := (hg.links.joins b u hba).horizon_left hu
  obtain ⟨xa, hxa⟩ := hg.graded.isovalue a hha
  obtain ⟨xb, hxb⟩ := hg.graded.isovalue b hhb
  -- two links lead up from `b` to `a`
  have habove : s.stack.isAbove a b = true :=
    hg.links.isAbove_iff_above.2 (.tail (.single (hg.links.above_eq_ok.2 hba)) ha)
  have hord := hg.graded.ordered b a xb xa hhb hha habove hxb hxa
  refine ⟨xa, xb, hxa, hxb, ?_⟩
  cases up
  · exact Binary64.lt_asymm hord
  · exact hord

theorem increasing_eq : s.increasing = some up := by
  obtain ⟨k, hk, hk0, hk1, hu⟩ := hg.bounded
  obtain ⟨j, rfl⟩ : ∃ j, k = j + 1 := ⟨k - 1, by omega⟩
  -- the bounded unit is one the search may stop at
  have hsome : (s.stack.units.find? fun c =>
      (s.stack.above c.id).toBool && (s.stack.under c.id).toBool).isSome := by
    obtain ⟨c, hc, hck⟩ := Catalog.get_of_kindOf? hu
    obtain ⟨hmem, hid⟩ := Catalog.get?_eq_some (Catalog.get?_of_get hc)
    have hab : s.stack.above col[j + 1] = .ok col[j + 2] :=
      (hg.links.above_getElem hg.column hk).2 (List.getElem?_eq_getElem hk1)
    have hun : s.stack.under col[j + 1] = .ok col[j] := by
      rw [hg.links.under_eq_ok, hg.links.underOf_get?_succ hg.column j hk,
        List.getElem?_eq_getElem (by omega)]
    rw [List.find?_isSome]
    refine ⟨c, List.mem_filter.2 ⟨hmem, by simp [hck]⟩, ?_⟩
    rw [hid, hab, hun]
    rfl
  obtain ⟨c, hc⟩ := Option.isSome_iff_exists.1 hsome
  have hcu : s.stack.catalog.kindOf? c.id = some .stratigraphicUnit := by
    obtain ⟨hmem, hck⟩ := List.mem_filter.1 (List.mem_of_find?_eq_some hc)
    rw [Catalog.kindOf?, hg.distinct.get?_of_mem hmem, Option.map_some, eq_of_beq hck]
  have hcp := List.find?_some hc
  cases ha : s.stack.above c.id with
  | error e => simp [ha, Except.toBool] at hcp
  | ok a =>
    cases hb : s.stack.under c.id with
    | error e => simp [ha, hb, Except.toBool] at hcp
    | ok b =>
      obtain ⟨xa, xb, hxa, hxb, hlt⟩ := hg.lt_around hcu hb ha
      simp [increasing, hc, ha, hb, Except.toOption, hxa, hxb, hlt]

/-! ### The queries -/

theorem mem_unitIds_iff :
    u ∈ s.stack.units.map (·.id) ↔ s.stack.catalog.kindOf? u = some .stratigraphicUnit := by
  show u ∈ s.stack.catalog.ids .stratigraphicUnit ↔ _
  rw [hg.distinct.mem_ids_iff]
  constructor
  · rintro ⟨x, hx, hk⟩
    rw [Catalog.kindOf?_of_get hx, hk]
  · exact Catalog.get_of_kindOf?

theorem containingUnit_eq_find :
    s.containingUnit v = (s.stack.units.map (·.id)).find? (s.placesIn up v) := by
  rw [containingUnit_eq, hg.increasing_eq]
  rfl

theorem containingUnit_eq_some_iff (hv : v.isNaN = false) :
    s.containingUnit v = some u ↔
      s.stack.catalog.kindOf? u = some .stratigraphicUnit ∧ s.HoldsValue up u v := by
  rw [hg.containingUnit_eq_find]
  constructor
  · intro hf
    have hu := hg.mem_unitIds_iff.1 (List.mem_of_find?_eq_some hf)
    exact ⟨hu, (hg.placesIn_iff hv hu).1 (List.find?_some hf)⟩
  · rintro ⟨hu, hholds⟩
    have hsome : ((s.stack.units.map (·.id)).find? (s.placesIn up v)).isSome :=
      List.find?_isSome.2 ⟨u, hg.mem_unitIds_iff.2 hu, (hg.placesIn_iff hv hu).2 hholds⟩
    obtain ⟨u', hf⟩ := Option.isSome_iff_exists.1 hsome
    have hu' := hg.mem_unitIds_iff.1 (List.mem_of_find?_eq_some hf)
    rw [hf, hg.eq_of_placesIn hv hu' hu (List.find?_some hf) ((hg.placesIn_iff hv hu).2 hholds)]

theorem containingUnit_eq_none_iff (hv : v.isNaN = false) :
    s.containingUnit v = none ↔
      ∀ u, s.stack.catalog.kindOf? u = some .stratigraphicUnit → ¬s.HoldsValue up u v := by
  rw [hg.containingUnit_eq_find, List.find?_eq_none]
  constructor
  · intro hnone u hu hholds
    exact hnone u (hg.mem_unitIds_iff.2 hu) ((hg.placesIn_iff hv hu).2 hholds)
  · intro hnone u hmem hp
    have hu := hg.mem_unitIds_iff.1 hmem
    exact hnone u hu ((hg.placesIn_iff hv hu).1 hp)

/-- `containingUnit` finds no unit only on a column starting or ending with a
horizon. -/
theorem outer_horizon_of_containingUnit_eq_none (hv : v.isNaN = false)
    (hnone : s.containingUnit v = none) :
    col.head?.bind s.stack.catalog.kindOf? = some .horizon ∨
      col.getLast?.bind s.stack.catalog.kindOf? = some .horizon := by
  by_contra hcon
  obtain ⟨hh, hl⟩ := not_or.1 hcon
  -- both ends are units, so some unit holds the number
  obtain ⟨u, hu, hp⟩ := hg.exists_placesIn hv
    (fun z hz => hg.unit_of_mem (List.mem_of_mem_head? hz) fun hk =>
      hh (by rw [Option.mem_def.1 hz]; exact hk))
    (fun z hz => hg.unit_of_mem (List.mem_of_mem_getLast? hz) fun hk =>
      hl (by rw [Option.mem_def.1 hz]; exact hk))
  exact (hg.containingUnit_eq_none_iff hv).1 hnone u hu ((hg.placesIn_iff hv hu).1 hp)

/-- Whether a number lies above a horizon: at least its isovalue when `up`,
below it otherwise. -/
theorem isAboveHorizon_eq (hv : v.isNaN = false) {h : Uuid}
    (hh : s.stack.catalog.kindOf? h = some .horizon) :
    ∃ x, s.isovalues.encoded? h = some x ∧
      s.isAboveHorizon v h = .ok (if up then x.le v else v.lt x) := by
  obtain ⟨x, hx⟩ := hg.graded.isovalue h hh
  refine ⟨x, hx, ?_⟩
  simp only [isAboveHorizon, hg.increasing_eq, hx, liesAbove_eq hv (hg.isNaN_eq_false hh hx)]
  rfl

end GradedColumn

/-! ## The queries on a graded column -/

/-- **The isovalue queries on a graded column.** Take a stratigraphic model
whose stack has well-formed links between distinct identifiers, as every
stack the builders reach has, and is a single column `col` with a unit
between two horizons, and whose horizons have isovalues growing strictly
upwards (`up`) or shrinking strictly. The stack reads the direction `up`.
For every number `v`, `containingUnit` answers a unit exactly when the unit
holds `v`, from the smaller isovalue around it, included, to the larger,
excluded, a side with no horizon being unbounded; no two units hold `v`; no
unit is found exactly when none holds `v`, which happens only on a column
starting or ending with a horizon. A number lies above a horizon exactly
when it is at least the horizon's isovalue, when `up`, or below it, when
not. -/
theorem containingUnit_partitions {s : StratigraphicModel} {col : List Uuid} {up : Bool}
    {v : Binary64} (hl : s.stack.LinksOK) (hd : s.stack.catalog.Distinct)
    (hcol : s.stack.column = .ok col)
    (hb : ∃ u a b, s.stack.catalog.kindOf? u = some .stratigraphicUnit ∧
      s.stack.under u = .ok b ∧ s.stack.above u = .ok a)
    (hgr : s.Graded up) (hv : v.isNaN = false) :
    s.increasing = some up ∧
    (∀ u, s.containingUnit v = some u ↔
      s.stack.catalog.kindOf? u = some .stratigraphicUnit ∧ s.HoldsValue up u v) ∧
    (∀ u u', s.stack.catalog.kindOf? u = some .stratigraphicUnit →
      s.stack.catalog.kindOf? u' = some .stratigraphicUnit →
      s.HoldsValue up u v → s.HoldsValue up u' v → u = u') ∧
    (s.containingUnit v = none ↔
      ∀ u, s.stack.catalog.kindOf? u = some .stratigraphicUnit → ¬s.HoldsValue up u v) ∧
    (s.containingUnit v = none → col.head?.bind s.stack.catalog.kindOf? = some .horizon ∨
      col.getLast?.bind s.stack.catalog.kindOf? = some .horizon) ∧
    ∀ h, s.stack.catalog.kindOf? h = some .horizon → ∃ x, s.isovalues.encoded? h = some x ∧
      s.isAboveHorizon v h = .ok (if up then x.le v else v.lt x) := by
  have hc := hl.isColumn_of_column hd hcol
  obtain ⟨u, a, b, hu, hub, hua⟩ := hb
  obtain ⟨k, hk, hk0, hk1, rfl⟩ := hl.inner_of_around hc (Catalog.contains_of_kindOf? hu) hub hua
  have hg : s.GradedColumn up col := ⟨hl, hd, hc, hgr, k, hk, hk0, hk1, hu⟩
  refine ⟨hg.increasing_eq, fun _ => hg.containingUnit_eq_some_iff hv, ?_,
    hg.containingUnit_eq_none_iff hv, hg.outer_horizon_of_containingUnit_eq_none hv,
    fun _ hh => hg.isAboveHorizon_eq hv hh⟩
  intro u u' hu hu' h1 h2
  exact hg.eq_of_placesIn hv hu hu' ((hg.placesIn_iff hv hu).2 h1) ((hg.placesIn_iff hv hu').2 h2)

/-- Two horizons at isovalues 0 and 1, a unit between them and a unit above. -/
def twoLayers : StratigraphicModel :=
  let s₀ := ((((HorizonStack.empty 2).addNode .horizon (Uuid.ofNat 0)).addNode .horizon
    (Uuid.ofNat 2)).addNode .stratigraphicUnit (Uuid.ofNat 1)).addNode .stratigraphicUnit
    (Uuid.ofNat 3)
  let s₁ := s₀.after (s₀.addHorizonUnder (Uuid.ofNat 0) (Uuid.ofNat 1))
  let s₂ := s₁.after (s₁.addHorizonAbove (Uuid.ofNat 2) (Uuid.ofNat 1))
  let s₃ := s₂.after (s₂.addHorizonUnder (Uuid.ofNat 2) (Uuid.ofNat 3))
  -- the doubles 0 and 1
  ⟨Model.empty 2, s₃, [(Uuid.ofNat 0, ⟨0⟩), (Uuid.ofNat 2, ⟨0x3FF0000000000000⟩)], {}⟩

theorem reachable_twoLayers : HorizonStack.Reachable true twoLayers.stack := by
  have h1 := (HorizonStack.Reachable.empty 2).step (.addHorizon (Uuid.ofNat 0) (by decide))
  have h2 := h1.step (.addHorizon (Uuid.ofNat 2) (by decide))
  have h3 := h2.step (.addUnit (Uuid.ofNat 1) (by decide))
  have h4 := h3.step (.addUnit (Uuid.ofNat 3) (by decide))
  have h5 := h4.step (.addHorizonUnder (Uuid.ofNat 0) (Uuid.ofNat 1))
  have h6 := h5.step (.addHorizonAbove (Uuid.ofNat 2) (Uuid.ofNat 1))
  exact h6.step (.addHorizonUnder (Uuid.ofNat 2) (Uuid.ofNat 3))

theorem two_layers_partition :
    twoLayers.stack.LinksOK ∧ twoLayers.stack.catalog.Distinct ∧
    twoLayers.stack.column = .ok [Uuid.ofNat 0, Uuid.ofNat 1, Uuid.ofNat 2, Uuid.ofNat 3] ∧
    (∃ u a b, twoLayers.stack.catalog.kindOf? u = some .stratigraphicUnit ∧
      twoLayers.stack.under u = .ok b ∧ twoLayers.stack.above u = .ok a) ∧
    twoLayers.Graded true ∧ (⟨0x3FE0000000000000⟩ : Binary64).isNaN = false ∧
    twoLayers.increasing = some true ∧
    (∀ u, twoLayers.containingUnit ⟨0x3FE0000000000000⟩ = some u ↔
      twoLayers.stack.catalog.kindOf? u = some .stratigraphicUnit ∧
        twoLayers.HoldsValue true u ⟨0x3FE0000000000000⟩) ∧
    (∀ u u', twoLayers.stack.catalog.kindOf? u = some .stratigraphicUnit →
      twoLayers.stack.catalog.kindOf? u' = some .stratigraphicUnit →
      twoLayers.HoldsValue true u ⟨0x3FE0000000000000⟩ →
      twoLayers.HoldsValue true u' ⟨0x3FE0000000000000⟩ → u = u') ∧
    (twoLayers.containingUnit ⟨0x3FE0000000000000⟩ = none ↔
      ∀ u, twoLayers.stack.catalog.kindOf? u = some .stratigraphicUnit →
        ¬twoLayers.HoldsValue true u ⟨0x3FE0000000000000⟩) ∧
    (twoLayers.containingUnit ⟨0x3FE0000000000000⟩ = none →
      [Uuid.ofNat 0, Uuid.ofNat 1, Uuid.ofNat 2, Uuid.ofNat 3].head?.bind
        twoLayers.stack.catalog.kindOf? = some .horizon ∨
      [Uuid.ofNat 0, Uuid.ofNat 1, Uuid.ofNat 2, Uuid.ofNat 3].getLast?.bind
        twoLayers.stack.catalog.kindOf? = some .horizon) ∧
    ∀ h, twoLayers.stack.catalog.kindOf? h = some .horizon →
      ∃ x, twoLayers.isovalues.encoded? h = some x ∧
        twoLayers.isAboveHorizon ⟨0x3FE0000000000000⟩ h =
          .ok (if true then x.le ⟨0x3FE0000000000000⟩ else Binary64.lt ⟨0x3FE0000000000000⟩ x) := by
  have hr := reachable_twoLayers
  have hl := hr.wellFormed.links
  have hd := hr.distinct
  have hcol : twoLayers.stack.column =
      .ok [Uuid.ofNat 0, Uuid.ofNat 1, Uuid.ofNat 2, Uuid.ofNat 3] := rfl
  have hb : ∃ u a b, twoLayers.stack.catalog.kindOf? u = some .stratigraphicUnit ∧
      twoLayers.stack.under u = .ok b ∧ twoLayers.stack.above u = .ok a :=
    ⟨Uuid.ofNat 1, Uuid.ofNat 2, Uuid.ofNat 0, rfl, rfl, rfl⟩
  -- the horizons are the nodes 0 and 2 of the column
  have hhor : ∀ h, twoLayers.stack.catalog.kindOf? h = some .horizon →
      h = Uuid.ofNat 0 ∨ h = Uuid.ofNat 2 := by
    intro h hh
    have hm := ((hl.isColumn_of_column hd hcol).mem_iff h).2 (Catalog.contains_of_kindOf? hh)
    simp only [List.mem_cons, List.not_mem_nil, or_false] at hm
    rcases hm with rfl | rfl | rfl | rfl
    · exact .inl rfl
    · exact absurd hh (by decide)
    · exact .inr rfl
    · exact absurd hh (by decide)
  have hgr : twoLayers.Graded true := by
    refine ⟨fun h hh => ?_, fun h h' x x' hh hh' habove hx hx' => ?_⟩
    · rcases hhor h hh with rfl | rfl
      · exact ⟨_, rfl⟩
      · exact ⟨_, rfl⟩
    · rcases hhor h hh with rfl | rfl <;> rcases hhor h' hh' with rfl | rfl
      · exact absurd habove (by decide)
      · obtain rfl := Option.some_inj.1 hx.symm
        obtain rfl := Option.some_inj.1 hx'.symm
        decide
      · exact absurd habove (by decide)
      · exact absurd habove (by decide)
  have hv : (⟨0x3FE0000000000000⟩ : Binary64).isNaN = false := by decide
  exact ⟨hl, hd, hcol, hb, hgr, hv, containingUnit_partitions hl hd hcol hb hgr hv⟩

example : twoLayers.HoldsValue true (Uuid.ofNat 1) ⟨0x3FE0000000000000⟩ := by decide

/-- The top unit holds +∞, and +∞ lies above the horizon at 1: a side with
no horizon leaves a unit's interval unbounded, +∞ included, which an
interval open at +∞ would leave out. -/
theorem top_unit_holds_infinity :
    twoLayers.containingUnit ⟨0x7FF0000000000000⟩ = some (Uuid.ofNat 3) ∧
    twoLayers.isAboveHorizon ⟨0x7FF0000000000000⟩ (Uuid.ofNat 2) = .ok true ∧
    (⟨0x7FF0000000000000⟩ : Binary64).lt ⟨0x7FF0000000000000⟩ = false :=
  ⟨by decide, rfl, by decide⟩

end StratigraphicModel

end Subsurface
