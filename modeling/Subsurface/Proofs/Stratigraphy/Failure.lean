import Subsurface.Proofs.Stratigraphy.Mirror
/-!
What a failed stratigraphic edit leaves.

An edit of a stratigraphic model keeps the changes it made before a failure
(`Build.runOn`), so it leaves the model as it was when it fails only if
everything that may fail comes before its first change
(`Build.FailsCleanly`). Most edits are written that way: their checks read
the model, and what they change after their first change cannot fail. On the
models the stratigraphic builder reaches, where the stack is mirrored in the
model, renaming, retyping or removing a node cannot fail in the stack once
it went through in the model, and a split cannot fail in the model once it
went through in the stack (`failed_edits_keep_model`).

Two edits write twice. Setting a whole stratigraphic point writes the
location and then the implicit value, which fails when the implicit
attribute holds another number of values per vertex; taking the locations
from the axes writes the cells one after the other, and fails at a cell
whose location attribute has another dimension. A failure of either keeps
the writes made before it (`setCoordinates_error`, `locationFromAxes_error`).
-/

namespace Subsurface

namespace Build

open StratigraphicModel

variable {α β γ : Type} {s t s' : StratigraphicModel} {e : Error}

/-- `b` fails cleanly from `s`: when it fails, it leaves `s` as it was. -/
def FailsCleanly (b : Build α) (s : StratigraphicModel) : Prop :=
  ∀ e s', b.runOn s = (.error e, s') → s' = s

/-- `b` goes through from `s`. -/
def Succeeds (b : Build α) (s : StratigraphicModel) : Prop :=
  ∃ a s', b.runOn s = (.ok a, s')

/-! ## Composing edits -/

theorem Succeeds.failsCleanly {b : Build α} (h : Succeeds b s) : FailsCleanly b s := by
  obtain ⟨a, t, hb⟩ := h
  intro e s' he
  rw [hb] at he
  cases he

theorem succeeds_pure (a : α) (s : StratigraphicModel) : Succeeds (pure a : Build α) s :=
  ⟨a, s, rfl⟩

theorem succeeds_modify (g : StratigraphicModel → StratigraphicModel) (s : StratigraphicModel) :
    Succeeds (modify g : Build PUnit) s :=
  ⟨(), g s, rfl⟩

theorem succeeds_set (t s : StratigraphicModel) : Succeeds (set t : Build PUnit) s :=
  ⟨(), t, rfl⟩

/-- An edit that goes through, followed by one that goes through from where it
leaves, goes through. -/
theorem Succeeds.bind_of_eq {x : Build α} {f : α → Build β} {a : α} (hx : x.runOn s = (.ok a, t))
    (hf : Succeeds (f a) t) : Succeeds (x >>= f) s := by
  obtain ⟨b, t', hb⟩ := hf
  refine ⟨b, t', ?_⟩
  rw [runOn_bind, hx]
  exact hb

theorem failsCleanly_throw (e : Error) (s : StratigraphicModel) : FailsCleanly (throw e : Build α) s := by
  intro e' s' h
  rw [runOn_throw] at h
  exact (Prod.mk.inj h).2.symm

theorem runOn_onModel_of_ok {f : Model → Except Error Model} {m : Model} (hm : f s.model = .ok m) :
    (onModel f).runOn s = (.ok (), { s with model := m }) := by
  rw [runOn_onModel, hm]

theorem runOn_onStack_of_ok {f : HorizonStack → Except Error HorizonStack} {k : HorizonStack}
    (hk : f s.stack = .ok k) : (onStack f).runOn s = (.ok (), { s with stack := k }) := by
  rw [runOn_onStack, hk]

/-- A change of the model goes through or leaves the stratigraphic model as it
was. -/
theorem failsCleanly_onModel (f : Model → Except Error Model) (s : StratigraphicModel) :
    FailsCleanly (onModel f) s := by
  intro e s' h
  rw [runOn_onModel] at h
  split at h
  · cases h
  · exact (Prod.mk.inj h).2.symm

theorem failsCleanly_onStack (f : HorizonStack → Except Error HorizonStack) (s : StratigraphicModel) :
    FailsCleanly (onStack f) s := by
  intro e s' h
  rw [runOn_onStack] at h
  split at h
  · cases h
  · exact (Prod.mk.inj h).2.symm

theorem runOn_onModel_eq_ok {f : Model → Except Error Model} {a : Unit}
    (h : (onModel f).runOn s = (.ok a, t)) : ∃ m, f s.model = .ok m ∧ t = { s with model := m } := by
  rw [runOn_onModel] at h
  split at h
  · next m hm => exact ⟨m, hm, (Prod.mk.inj h).2.symm⟩
  · cases h

theorem runOn_onStack_eq_ok {f : HorizonStack → Except Error HorizonStack} {a : Unit}
    (h : (onStack f).runOn s = (.ok a, t)) : ∃ k, f s.stack = .ok k ∧ t = { s with stack := k } := by
  rw [runOn_onStack] at h
  split at h
  · next k hk => exact ⟨k, hk, (Prod.mk.inj h).2.symm⟩
  · cases h

theorem runOn_bind_of_ok {x : Build α} {f : α → Build β} {a : α} (hx : x.runOn s = (.ok a, t)) :
    (x >>= f).runOn s = (f a).runOn t := by
  rw [runOn_bind, hx]

theorem runOn_bind_of_error {x : Build α} {f : α → Build β} (hx : x.runOn s = (.error e, t)) :
    (x >>= f).runOn s = (.error e, t) := by
  rw [runOn_bind, hx]

/-- An edit that fails cleanly, followed by one that goes through from where
the first leaves, fails cleanly: its only failures are those of the first. -/
theorem FailsCleanly.bind_succeeds {x : Build α} {f : α → Build β} (hx : FailsCleanly x s)
    (hf : ∀ a t, x.runOn s = (.ok a, t) → Succeeds (f a) t) : FailsCleanly (x >>= f) s := by
  intro e s' h
  rcases hxs : x.runOn s with ⟨_ | a, t⟩
  · rw [runOn_bind_of_error hxs] at h
    exact (Prod.mk.inj h).2 ▸ hx _ _ hxs
  · obtain ⟨b, t', hb⟩ := hf a t hxs
    rw [runOn_bind_of_ok hxs, hb] at h
    cases h

theorem failsCleanly_get_bind {f : StratigraphicModel → Build β} (hf : FailsCleanly (f s) s) :
    FailsCleanly (get >>= f) s := by
  intro e s' h
  rw [runOn_bind_of_ok (runOn_get s)] at h
  exact hf e s' h

theorem failsCleanly_check_bind {r : Except Error α} {f : α → Build β}
    (hf : ∀ a, r = .ok a → FailsCleanly (f a) s) : FailsCleanly (check r >>= f) s := by
  intro e s' h
  cases hr : r with
  | error e' =>
    rw [runOn_bind_of_error (by rw [runOn_check, hr])] at h
    exact (Prod.mk.inj h).2.symm
  | ok a =>
    rw [runOn_bind_of_ok (by rw [runOn_check, hr])] at h
    exact hf a hr e s' h

theorem FailsCleanly.ite {c : Prop} [Decidable c] {x y : Build α} (hx : c → FailsCleanly x s)
    (hy : ¬c → FailsCleanly y s) : FailsCleanly (if c then x else y) s := by
  split
  · next hc => exact hx hc
  · next hc => exact hy hc

theorem failsCleanly_guard {c : Prop} [Decidable c] {j : PUnit → Build β}
    (hj : ¬c → FailsCleanly (j ()) s) : FailsCleanly (if c then throw e >>= j else j ()) s := by
  refine FailsCleanly.ite (fun _ => ?_) hj
  intro e' s' h
  rw [runOn_bind_of_error (runOn_throw e s)] at h
  exact (Prod.mk.inj h).2.symm

/-- When an edit whose two parts fail cleanly fails, it leaves the model as
it was, or as the first part left it when the second part failed. -/
theorem error_of_bind {x : Build α} {f : α → Build β} (hx : FailsCleanly x s)
    (hf : ∀ a t, FailsCleanly (f a) t) (h : (x >>= f).runOn s = (.error e, s')) :
    s' = s ∨ ∃ a, x.runOn s = (.ok a, s') ∧ (f a).runOn s' = (.error e, s') := by
  rcases hxs : x.runOn s with ⟨_ | a, t⟩
  · rw [runOn_bind_of_error hxs] at h
    exact .inl ((Prod.mk.inj h).2 ▸ hx _ _ hxs)
  · rw [runOn_bind_of_ok hxs] at h
    obtain rfl := hf a t e s' h
    exact .inr ⟨a, rfl, h⟩

/-- When a loop of edits that fail cleanly fails, it leaves the model as the
elements before the failing one left it: the loop stops at the first
failure, and that failure changes nothing. -/
theorem forM_error {l : List γ} {f : γ → Build PUnit} (hf : ∀ c t, FailsCleanly (f c) t)
    (h : (l.forM f).runOn s = (.error e, s')) :
    ∃ before c after, l = before ++ c :: after ∧ (before.forM f).runOn s = (.ok (), s') ∧
      (f c).runOn s' = (.error e, s') := by
  induction l generalizing s with
  | nil => cases h
  | cons c l ih =>
    have hcons : ∀ l : List γ, (c :: l).forM f = (f c >>= fun _ => l.forM f) := fun _ => rfl
    rw [hcons] at h
    rcases hcs : (f c).runOn s with ⟨_ | ⟨⟩, t⟩
    · -- the first element fails, and leaves the model as it was
      rw [runOn_bind_of_error hcs] at h
      cases h
      obtain rfl := hf c s _ _ hcs
      exact ⟨[], c, l, rfl, rfl, hcs⟩
    · rw [runOn_bind_of_ok hcs] at h
      obtain ⟨before, c', after, rfl, hb, hc'⟩ := ih h
      refine ⟨c :: before, c', after, rfl, ?_, hc'⟩
      rw [hcons, runOn_bind_of_ok hcs]
      exact hb

/-! ## Edits that check before they change -/

/-- An edit of the attributes of a cell checks the cell, then changes the
model once. -/
theorem failsCleanly_onCell (item : Uuid) (f : VertexAttributes → Except Error VertexAttributes)
    (s : StratigraphicModel) : FailsCleanly (onCell item f) s :=
  failsCleanly_get_bind (failsCleanly_check_bind fun _ _ => failsCleanly_onModel _ s)

theorem failsCleanly_setLocation (item : Uuid) (vertex : Nat) (location : List Float)
    (s : StratigraphicModel) : FailsCleanly (setLocation item vertex location) s := by
  refine failsCleanly_get_bind (failsCleanly_guard fun _ => ?_)
  exact failsCleanly_onCell _ _ s

theorem failsCleanly_setImplicit (item : Uuid) (vertex : Nat) (value : Float)
    (s : StratigraphicModel) : FailsCleanly (setImplicit item vertex value) s :=
  failsCleanly_onCell _ _ s

/-- Copying a scalar field into the implicit function changes the cell's
attributes at once, so a vertex the copy refuses leaves every vertex as it
was. -/
theorem failsCleanly_implicitFromField (item : Uuid) (field : String) (s : StratigraphicModel) :
    FailsCleanly (implicitFromField item field) s :=
  failsCleanly_onCell _ _ s

theorem failsCleanly_locationFromAxesAt (d axis : Nat) (c : Component) (s : StratigraphicModel) :
    FailsCleanly (locationFromAxesAt d axis c) s :=
  failsCleanly_get_bind (failsCleanly_check_bind fun _ _ => failsCleanly_onCell _ _ s)

theorem failsCleanly_rescale (factor : Float) (s : StratigraphicModel) :
    FailsCleanly (rescale factor) s :=
  failsCleanly_get_bind (failsCleanly_check_bind fun t _ => (succeeds_set t s).failsCleanly)

theorem failsCleanly_rescaleToBox (s : StratigraphicModel) : FailsCleanly rescaleToBox s := by
  unfold rescaleToBox
  refine failsCleanly_get_bind ?_
  split
  · refine failsCleanly_check_bind fun b _ => ?_
    split
    · refine failsCleanly_check_bind fun f _ => ?_
      exact (failsCleanly_rescale f s).bind_succeeds fun _ t _ => succeeds_pure f t
    · exact failsCleanly_throw _ s
  · exact failsCleanly_throw _ s

theorem failsCleanly_setIsovalue (h : Uuid) (value : Float) (s : StratigraphicModel) :
    FailsCleanly (setIsovalue h value) s :=
  failsCleanly_get_bind (failsCleanly_check_bind fun _ _ => (succeeds_modify _ s).failsCleanly)

/-- A copy checks that the stack is empty before it copies the model, so the
copy of the stack that follows cannot fail. -/
theorem failsCleanly_copy (src s : StratigraphicModel) : FailsCleanly (copy src) s := by
  unfold copy
  refine failsCleanly_get_bind (failsCleanly_guard ?_)
  intro hne
  simp only [Bool.or_eq_true, Bool.not_eq_true', not_or, Bool.not_eq_false] at hne
  refine (failsCleanly_onModel _ s).bind_succeeds fun _ t ht => ?_
  obtain ⟨m, -, rfl⟩ := runOn_onModel_eq_ok ht
  have hk : s.stack.copyInto src.stack = .ok { src.stack with dim := s.stack.dim } := by
    unfold HorizonStack.copyInto
    rw [if_neg (by simp [hne.1])]
  exact Succeeds.bind_of_eq (runOn_onStack_of_ok hk) (succeeds_modify _ _)

/-- Replacing the stack lists the nodes the model lacks before it changes
anything; registering them cannot fail when the new stack names each node
once. -/
theorem failsCleanly_setStack {k : HorizonStack} (hk : k.catalog.Distinct) (s : StratigraphicModel) :
    FailsCleanly (setStack k) s := by
  unfold setStack
  refine failsCleanly_get_bind (failsCleanly_check_bind fun l hl => ?_)
  obtain ⟨-, rfl⟩ := missingStackNodes_eq_ok.1 hl
  refine Succeeds.failsCleanly (Succeeds.bind_of_eq (runOn_modify _ s) ?_)
  refine Succeeds.bind_of_eq (runOn_registerNodes (hk.all.sublist (List.filter_sublist.map _))
    fun x hx => by simpa using (List.mem_filter.1 hx).2) (succeeds_modify _ _)

/-! ## Edits of a mirrored stack -/

section Mirrored

variable {named : Bool} {id : Uuid} (h : s.Mirrors named)
include h

/-- Adding a node under an identifier the model lacks goes through: the
stack's nodes are in the model, so the stack lacks it too. -/
theorem succeeds_addNode {k : ComponentKind} (hfresh : s.model.catalog.contains id = false) :
    Succeeds (do onModel fun m => pure (m.addCollection k id)
                 onStack (·.addNodeWithId k id) : Build Unit) s := by
  have hsf : s.stack.catalog.contains id = false := by
    cases hc : s.stack.catalog.contains id with
    | false => rfl
    | true =>
      rw [h.nodes.contains hc] at hfresh
      cases hfresh
  have hk : s.stack.addNodeWithId k id =
      .ok (HorizonStack.touch { s.stack with catalog := s.stack.catalog.register (Component.new id k) }) := by
    simp [HorizonStack.addNodeWithId, Catalog.createWithId, Catalog.insert, Component.new, hsf]
  exact Succeeds.bind_of_eq (runOn_onModel_of_ok rfl) ⟨(), _, runOn_onStack_of_ok hk⟩

/-- An edit of a node in the model, then in the stack when the stack holds
it: once the edit went through in the model, the stack holds the node, if at
all, with the kind the model gave it. -/
theorem failsCleanly_nodeEdit {k : ComponentKind}
    {g : Model → Except Error Model} {g' : HorizonStack → Except Error HorizonStack}
    (hg : ∀ m, g s.model = .ok m → s.model.catalog.kindOf? id = some k)
    (hg' : ∀ t : HorizonStack, t.catalog.kindOf? id = some k → ∃ t', g' t = .ok t') :
    FailsCleanly (do onModel g
                     if (← get).stack.contains id then onStack g' : Build Unit) s := by
  refine (failsCleanly_onModel g s).bind_succeeds fun _ t ht => ?_
  obtain ⟨m, hm, rfl⟩ := runOn_onModel_eq_ok ht
  refine Succeeds.bind_of_eq (runOn_get _) ?_
  split
  · next hc =>
    obtain ⟨t', ht'⟩ := hg' _ (by rw [← h.nodes.kindOf? hc]; exact hg m hm)
    exact ⟨(), _, runOn_onStack_of_ok ht'⟩
  · exact succeeds_pure _ _

theorem failsCleanly_setHorizonName (name : String) : FailsCleanly (setHorizonName id name) s :=
  failsCleanly_nodeEdit (k := .horizon) h (fun _ hm => (Model.setName_eq_ok hm).1)
    fun _ hk => ⟨_, by rw [HorizonStack.setHorizonName, Catalog.setName_of_kindOf? hk]; rfl⟩

theorem failsCleanly_setHorizonType (ty : HorizonType) : FailsCleanly (setHorizonType id ty) s :=
  failsCleanly_nodeEdit (k := .horizon) h (fun _ hm => (Model.setHorizonType_eq_ok hm).1)
    fun _ hk => ⟨_, by rw [HorizonStack.setHorizonType, Catalog.setType_of_kindOf? hk]; rfl⟩

theorem failsCleanly_setUnitName (name : String) : FailsCleanly (setUnitName id name) s :=
  failsCleanly_nodeEdit (k := .stratigraphicUnit) h (fun _ hm => (Model.setName_eq_ok hm).1)
    fun _ hk => ⟨_, by rw [HorizonStack.setUnitName, Catalog.setName_of_kindOf? hk]; rfl⟩

theorem failsCleanly_removeUnit : FailsCleanly (removeUnit id) s :=
  failsCleanly_nodeEdit (k := .stratigraphicUnit) h (fun _ hm => (Model.removeCollection_eq_ok hm).1)
    fun _ hk => ⟨_, HorizonStack.removeNode_of_kindOf? hk⟩

/-- Removing a horizon is an edit of a node followed by dropping its
isovalue, which cannot fail. -/
theorem failsCleanly_removeHorizon : FailsCleanly (removeHorizon id) s := by
  unfold removeHorizon
  refine (failsCleanly_onModel _ s).bind_succeeds fun _ t ht => ?_
  obtain ⟨m, hm, rfl⟩ := runOn_onModel_eq_ok ht
  have hk := (Model.removeCollection_eq_ok hm).1
  refine Succeeds.bind_of_eq (runOn_get _) ?_
  split
  · next hc =>
    refine Succeeds.bind_of_eq (runOn_onStack_of_ok (HorizonStack.removeNode_of_kindOf? ?_))
      (succeeds_modify _ _)
    rw [← h.nodes.kindOf? hc, hk]
  · exact succeeds_modify _ _

/-- Once the stack is split, the model drops the unit and registers the new
nodes, which cannot fail: the model holds every old node with its kind and
none of the new ones. -/
theorem failsCleanly_splitTail {unit : Uuid} {sp : HorizonStack.UnitSplit}
    (hf : sp.Fresh s.stack.catalog unit)
    (hfm : ∀ y ∈ [sp.horizon, sp.unitAbove, sp.unitUnder], s.model.catalog.contains y = false)
    {inModel : Bool} (hin : inModel = s.model.catalog.contains unit) :
    FailsCleanly (splitTail unit sp inModel) s := by
  unfold splitTail
  refine (failsCleanly_onStack _ s).bind_succeeds fun _ t' ht => ?_
  obtain ⟨t, hs, rfl⟩ := runOn_onStack_eq_ok ht
  have hmu := h.splitUnit_kindOf? hs
  rw [Catalog.contains_of_kindOf? hmu] at hin
  subst hin
  have hd : t.catalog.Distinct := HorizonStack.distinct_splitUnit h.distinct hf hs
  refine Succeeds.bind_of_eq (runOn_get _) ?_
  refine Succeeds.bind_of_eq (by rw [runOn_check, h.missingStackNodes_splitUnit hf hfm hs]) ?_
  rw [if_pos rfl]
  refine Succeeds.bind_of_eq (runOn_onModel_of_ok (Model.removeCollection_of_kindOf? hmu)) ?_
  refine ⟨(), _, runOn_registerNodes (hd.all.sublist (List.filter_sublist.map _)) fun x hx => ?_⟩
  -- the registered nodes are those the model lacked
  have hx : s.model.catalog.contains x.id = false := by simpa using (List.mem_filter.1 hx).2
  show (s.model.catalog.without unit).contains x.id = false
  rw [Catalog.contains_without, hx, Bool.and_false]

theorem failsCleanly_splitUnit {unit : Uuid} {sp : HorizonStack.UnitSplit}
    (hf : sp.Fresh s.stack.catalog unit)
    (hfm : ∀ y ∈ [sp.horizon, sp.unitAbove, sp.unitUnder], s.model.catalog.contains y = false) :
    FailsCleanly (splitUnit unit sp) s := by
  rw [splitUnit_eq]
  refine failsCleanly_get_bind ?_
  dsimp only
  split
  · exact failsCleanly_get_bind (failsCleanly_check_bind fun _ _ => failsCleanly_splitTail h hf hfm rfl)
  · exact failsCleanly_splitTail h hf hfm rfl

end Mirrored

/-! ## The two edits that write twice -/

/-- Setting a whole stratigraphic point fails at the location, changing
nothing, or at the implicit value, keeping the location it wrote. -/
theorem setCoordinates_error {item : Uuid} {vertex : Nat} {p : Point}
    (h : (setCoordinates item vertex p).runOn s = (.error e, s')) :
    s' = s ∨ (setLocation item vertex (p.toList.take (s.dim - 1))).runOn s = (.ok (), s') ∧
      (setImplicit item vertex (p.coord (s.dim - 1))).runOn s' = (.error e, s') := by
  unfold setCoordinates at h
  rw [runOn_bind_of_ok (runOn_get s)] at h
  rcases error_of_bind (failsCleanly_setLocation _ _ _ s)
    (fun _ t => failsCleanly_setImplicit _ _ _ t) h with hs | ⟨⟨⟩, hl, hi⟩
  · exact .inl hs
  · exact .inr ⟨hl, hi⟩

/-- Taking the locations from the axes fails at the axis, changing nothing,
or at a cell, keeping the locations it wrote to the cells before that one. -/
theorem locationFromAxes_error {axis : Nat} (h : (locationFromAxes axis).runOn s = (.error e, s')) :
    (s.model.dim ≤ axis ∧ s' = s) ∨
      ∃ before c after, s.model.components (Model.cellKind s.model.dim) = before ++ c :: after ∧
        (before.forM (locationFromAxesAt s.model.dim axis)).runOn s = (.ok (), s') ∧
        (locationFromAxesAt s.model.dim axis c).runOn s' = (.error e, s') := by
  unfold locationFromAxes at h
  rw [runOn_bind_of_ok (runOn_get s)] at h
  dsimp only at h
  split at h
  · next hax =>
    rw [runOn_bind_of_error (runOn_throw _ s)] at h
    exact .inl ⟨hax, (Prod.mk.inj h).2.symm⟩
  · exact .inr (forM_error (fun c t => failsCleanly_locationFromAxesAt _ _ c t) h)

end Build

namespace StratigraphicModel

open Build

variable {s : StratigraphicModel}

/-- What failed stratigraphic edits leave of the model `s`. Every edit but
two leaves `s` as it was when it fails, identifiers being drawn as the
builder draws them: a new node and the nodes of a split under identifiers
the model lacks, and a new stack naming each of its nodes once. Setting a
whole stratigraphic point may fail after writing the location, and taking
the locations from the axes after writing the cells before the failing
one. -/
structure FailuresKept (s : StratigraphicModel) : Prop where
  addHorizon : ∀ id, s.model.catalog.contains id = false → FailsCleanly (Build.addHorizon id) s
  addUnit : ∀ id, s.model.catalog.contains id = false → FailsCleanly (Build.addUnit id) s
  setHorizonName : ∀ id name, FailsCleanly (Build.setHorizonName id name) s
  setHorizonType : ∀ id ty, FailsCleanly (Build.setHorizonType id ty) s
  setUnitName : ∀ id name, FailsCleanly (Build.setUnitName id name) s
  removeHorizon : ∀ id, FailsCleanly (Build.removeHorizon id) s
  removeUnit : ∀ id, FailsCleanly (Build.removeUnit id) s
  addHorizonUnder : ∀ horizon unit, FailsCleanly (Build.addHorizonUnder horizon unit) s
  addHorizonAbove : ∀ horizon unit, FailsCleanly (Build.addHorizonAbove horizon unit) s
  splitUnit : ∀ unit (sp : HorizonStack.UnitSplit), sp.Fresh s.stack.catalog unit →
    (∀ y ∈ [sp.horizon, sp.unitAbove, sp.unitUnder], s.model.catalog.contains y = false) →
    FailsCleanly (Build.splitUnit unit sp) s
  setStack : ∀ k : HorizonStack, k.catalog.Distinct → FailsCleanly (Build.setStack k) s
  setLocation : ∀ item vertex location, FailsCleanly (Build.setLocation item vertex location) s
  setImplicit : ∀ item vertex value, FailsCleanly (Build.setImplicit item vertex value) s
  implicitFromField : ∀ item field, FailsCleanly (Build.implicitFromField item field) s
  rescaleToBox : FailsCleanly Build.rescaleToBox s
  setIsovalue : ∀ h value, FailsCleanly (Build.setIsovalue h value) s
  copy : ∀ src, FailsCleanly (Build.copy src) s
  setCoordinates : ∀ item vertex p e s',
    (Build.setCoordinates item vertex p).runOn s = (.error e, s') →
      s' = s ∨ (Build.setLocation item vertex (p.toList.take (s.dim - 1))).runOn s = (.ok (), s') ∧
        (Build.setImplicit item vertex (p.coord (s.dim - 1))).runOn s' = (.error e, s')
  locationFromAxes : ∀ axis e s', (Build.locationFromAxes axis).runOn s = (.error e, s') →
    (s.model.dim ≤ axis ∧ s' = s) ∨
      ∃ before c after, s.model.components (Model.cellKind s.model.dim) = before ++ c :: after ∧
        (before.forM (locationFromAxesAt s.model.dim axis)).runOn s = (.ok (), s') ∧
        (locationFromAxesAt s.model.dim axis c).runOn s' = (.error e, s')

/-- **A failed stratigraphic edit leaves the model as it was**, on every
model the stratigraphic builder reaches, save the two edits that write
twice: their failures keep what they wrote before. The edits of nodes rely
on the stack being mirrored in the model; the others check before they
change anything on any model. -/
theorem failed_edits_keep_model {named : Bool} (h : s.Edited named) : s.FailuresKept where
  addHorizon _ hfresh := (succeeds_addNode h.mirrors hfresh).failsCleanly
  addUnit _ hfresh := (succeeds_addNode h.mirrors hfresh).failsCleanly
  setHorizonName _ name := failsCleanly_setHorizonName h.mirrors name
  setHorizonType _ ty := failsCleanly_setHorizonType h.mirrors ty
  setUnitName _ name := failsCleanly_setUnitName h.mirrors name
  removeHorizon _ := failsCleanly_removeHorizon h.mirrors
  removeUnit _ := failsCleanly_removeUnit h.mirrors
  addHorizonUnder _ _ := failsCleanly_onStack _ s
  addHorizonAbove _ _ := failsCleanly_onStack _ s
  splitUnit _ _ hf hfm := failsCleanly_splitUnit h.mirrors hf hfm
  setStack _ hk := failsCleanly_setStack hk s
  setLocation item vertex location := failsCleanly_setLocation item vertex location s
  setImplicit item vertex value := failsCleanly_setImplicit item vertex value s
  implicitFromField item field := failsCleanly_implicitFromField item field s
  rescaleToBox := failsCleanly_rescaleToBox s
  setIsovalue hz value := failsCleanly_setIsovalue hz value s
  copy src := failsCleanly_copy src s
  setCoordinates _ _ _ _ _ he := setCoordinates_error he
  locationFromAxes _ _ _ he := locationFromAxes_error he

theorem layeredStrat_failures_kept :
    (layeredStrat.stack.catalog.components.map (·.id) = [Uuid.ofNat 5, Uuid.ofNat 6] ∧
      layeredStrat.model.meshes.length = 3) ∧
    layeredStrat.Edited true ∧ layeredStrat.FailuresKept :=
  ⟨by decide +kernel, layeredStrat_edited, failed_edits_keep_model layeredStrat_edited⟩

/-- A triangle whose implicit function holds two values per vertex, set at
its first vertex, and which has no location. -/
def pairImplicitTriangle : SimplexMesh :=
  ⟨.surface, #[#[0, 0], #[1, 0], #[0, 1]].map Point.encode, #[[0, 1, 2]],
    ⟨3, [(Stratigraphy.implicitKey, ⟨2, Array.replicate 6 .zero, #[true, false, false]⟩)]⟩⟩

/-- A cross-section holding that triangle as its one surface. -/
def pairImplicitSection : Model :=
  { Model.empty 2 with
    catalog := (Model.empty 2).catalog.register (Component.new (Uuid.ofNat 1) .surface)
    meshes := [(Uuid.ofNat 1, pairImplicitTriangle)] }

/-- Setting the stratigraphic point of a vertex whose implicit function
holds two values fails at the implicit value, after the location is
written: the failure leaves a location attribute the model did not have. -/
theorem failed_coordinates_keep_location :
    pairImplicitSection.Reachable ∧ (ofModel pairImplicitSection).Edited true ∧
      ∃ e s', (Build.setCoordinates (Uuid.ofNat 1) 0 #[5, 7]).runOn (ofModel pairImplicitSection) =
          (.error e, s') ∧
        (s'.model.meshes.get? (Uuid.ofNat 1)).map (·.attributes.has Stratigraphy.locationKey) = some true ∧
        (pairImplicitSection.meshes.get? (Uuid.ofNat 1)).map
          (·.attributes.has Stratigraphy.locationKey) = some false :=
  -- the builder adds the surface with its mesh under an identifier it is given
  have hadd : (Model.empty 2).addItem .surface (Uuid.ofNat 1) false pairImplicitTriangle =
      .ok pairImplicitSection := rfl
  have hkind : Model.itemKindOf pairImplicitTriangle.kind = .surface := rfl
  have hnew : false = true → (Model.empty 2).catalog.contains (Uuid.ofNat 1) = false := nofun
  ⟨(Model.Reachable.empty 2).step (.addItem hkind hnew hadd), .ofModel _, _, _, rfl, rfl, rfl⟩

end StratigraphicModel

end Subsurface
