import Subsurface.Proofs.Stack.Links
/-!
The state of a horizon stack agrees with its content.

A stack is empty exactly when it has no node, and built exactly when its top
and bottom horizons are known; a built stack's column succeeds and its top
and bottom are the last and the first horizons of that column (`StateOK`).
Every change to the nodes or the links goes through `touch`, which makes
the stack empty or being built and forgets top and bottom, so only
`computeTopAndBottom` builds a stack. Renaming, retyping and editing the
erosions and baselaps do not touch the stack; they keep it built because the
column reads only the identifiers, their order and the links
(`column_congr`), and the choice of top and bottom only the kinds.
-/

namespace Subsurface

namespace HorizonStack

variable {s s' t : HorizonStack} {col : List Uuid}

/-- Whether `id` is a horizon of the stack: the test by which the column's
top and bottom horizons are chosen. -/
def isHorizon (s : HorizonStack) (id : Uuid) : Bool := (s.horizon id).toBool

theorem isHorizon_eq (id : Uuid) : s.isHorizon id = (s.catalog.kindOf? id == some .horizon) :=
  Catalog.getOfKind_toBool

/-! ## What the column reads -/

theorem climb_congr (h : t.aboveOf = s.aboveOf) : t.climb = s.climb := by
  funext limit fuel
  induction fuel with
  | zero => rfl
  | succ fuel ih =>
    funext acc cur
    unfold climb
    rw [h, ih]

/-- The column reads the identifiers in listing order and the links. -/
theorem column_congr (hall : t.catalog.all.map (·.id) = s.catalog.all.map (·.id))
    (ha : t.aboveOf = s.aboveOf) (hu : t.underOf = s.underOf) : t.column = s.column := by
  unfold column
  rw [hall, hu, climb_congr ha]

theorem all_eq_nil (h : s.catalog.components = []) : s.catalog.all = [] := by
  simp [Catalog.all, Catalog.ofKind, h]

theorem components_ne_nil_of_column (h : s.column = .ok col) : s.catalog.components ≠ [] := by
  intro hnil
  unfold column at h
  rw [all_eq_nil hnil] at h
  simp at h

/-! ## The invariant of the state -/

/-- The state of a stack agrees with its content: empty exactly without
nodes, built exactly with top and bottom known, and then the column succeeds
with `bottom` its first horizon and `top` its last. -/
structure StateOK (s : HorizonStack) : Prop where
  empty_iff : s.state = .empty ↔ s.catalog.components = []
  built_iff : s.state = .built ↔ s.top.isSome ∧ s.bottom.isSome
  column : s.state = .built → ∃ col, s.column = .ok col ∧
    s.bottom = col.find? s.isHorizon ∧ s.top = col.reverse.find? s.isHorizon

theorem stateOK_empty (dim : Nat) : (empty dim).StateOK where
  empty_iff := by simp [empty, Catalog.empty]
  built_iff := by simp [empty]
  column h := by simp [empty] at h

theorem stateOK_touch (s : HorizonStack) : (touch s).StateOK where
  empty_iff := by
    rw [touch_state, touch_catalog, Catalog.isEmpty_eq]
    by_cases h : s.catalog.components = [] <;> simp [h]
  built_iff := by
    rw [touch_state]
    split <;> simp
  column h := by
    rw [touch_state] at h
    split at h <;> cases h

/-- The state is kept by a change that keeps the state, top and bottom,
whether there is a node, the column and the kinds. -/
theorem StateOK.congr (h : s.StateOK) (hstate : t.state = s.state) (htop : t.top = s.top)
    (hbot : t.bottom = s.bottom) (hnil : t.catalog.components = [] ↔ s.catalog.components = [])
    (hcol : t.column = s.column) (hkind : t.catalog.kindOf? = s.catalog.kindOf?) : t.StateOK where
  empty_iff := by rw [hstate, hnil]; exact h.empty_iff
  built_iff := by rw [hstate, htop, hbot]; exact h.built_iff
  column hb := by
    rw [hstate] at hb
    obtain ⟨col, hc, hb, ht⟩ := h.column hb
    have hh : t.isHorizon = s.isHorizon := by
      funext id
      rw [isHorizon_eq, isHorizon_eq, hkind]
    exact ⟨col, hcol ▸ hc, by rw [hbot, hh]; exact hb, by rw [htop, hh]; exact ht⟩

theorem StateOK.update (h : s.StateOK) {f : Component → Component} {x : Uuid}
    (hid : ∀ z, (f z).id = z.id) (hkind : ∀ z, (f z).kind = z.kind) :
    { s with catalog := s.catalog.update x f }.StateOK := by
  refine h.congr rfl rfl rfl ?_ ?_ (Catalog.kindOf?_update hid hkind)
  · simp [Catalog.update]
  · exact column_congr (Catalog.all_ids_update hid hkind) rfl rfl

theorem StateOK.link (h : s.StateOK) {a u : Uuid} (hl : s.link a u = .ok s') : s'.StateOK := by
  rcases link_eq_ok hl with ⟨-, rfl⟩ | ⟨-, -, -, -, rfl⟩
  · exact h
  · exact stateOK_touch _

/-- What a successful `computeTopAndBottom` did: the column succeeded, has a
first and a last horizon, and the stack records them and is built. -/
theorem computeTopAndBottom_eq_ok (h : s.computeTopAndBottom = .ok s') :
    ∃ col top bot, s.column = .ok col ∧ col.find? s.isHorizon = some bot ∧
      col.reverse.find? s.isHorizon = some top ∧
      s' = { s with top := some top, bottom := some bot, state := .built } := by
  obtain ⟨col, hc, h⟩ := except_bind_eq_ok.1 h
  refine ⟨col, ?_⟩
  dsimp only at h
  split at h
  next bot top hb ht =>
    exact ⟨top, bot, hc, hb, ht, (except_pure_eq_ok.1 h).symm⟩
  next => simp at h

theorem stateOK_computeTopAndBottom (h : s.computeTopAndBottom = .ok s') : s'.StateOK := by
  obtain ⟨col, top, bot, hc, hb, ht, rfl⟩ := computeTopAndBottom_eq_ok h
  have hcol : ({ s with top := some top, bottom := some bot, state := .built } :
      HorizonStack).column = s.column := column_congr rfl rfl rfl
  exact {
    empty_iff := by simpa using components_ne_nil_of_column hc
    built_iff := by simp
    column := fun _ => ⟨col, hcol.trans hc, hb.symm, ht.symm⟩ }

end HorizonStack

end Subsurface
