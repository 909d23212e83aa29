import Subsurface.Stratigraphy.Edit
import Subsurface.Proofs.Model.Invariant
import Subsurface.Proofs.Stack.Reachable
/-!
What the edits of a stratigraphic model keep.

An edit runs from a stratigraphic model and leaves one, whether it succeeds
or fails part way (`Build.runOn`). `Build.Keeps P b` says that `b` leaves a
model satisfying `P` whenever it starts from one; it composes along binds,
branches and loops, so an edit keeps `P` when each change it makes to the
geological model or to the stack does.

The stores of a stratigraphic model agree (`StratigraphicModel.Inv`) when
those of its geological model agree and its stack is one the stack builder
could reach: in particular the stack holds only horizons and units, which
the model takes in as collections when a split or a new stack registers
them. Every edit keeps this agreement.
-/

namespace Subsurface

namespace Build

variable {α β : Type} {P : StratigraphicModel → Prop}

/-! ## Running an edit -/

theorem runOn_bind (x : Build α) (f : α → Build β) (s : StratigraphicModel) :
    (x >>= f).runOn s = match x.runOn s with
      | (.ok a, s') => (f a).runOn s'
      | (.error e, s') => (.error e, s') := by
  simp only [runOn, ExceptT.run_bind, StateT.run_bind]
  rcases (ExceptT.run x).run s with ⟨_ | a, s'⟩
  · rfl
  · rfl

@[simp] theorem runOn_pure (a : α) (s : StratigraphicModel) :
    (pure a : Build α).runOn s = (.ok a, s) := rfl

@[simp] theorem runOn_get (s : StratigraphicModel) :
    (get : Build StratigraphicModel).runOn s = (.ok s, s) := rfl

@[simp] theorem runOn_throw (e : Error) (s : StratigraphicModel) :
    (throw e : Build α).runOn s = (.error e, s) := rfl

@[simp] theorem runOn_modify (g : StratigraphicModel → StratigraphicModel) (s : StratigraphicModel) :
    (modify g : Build PUnit).runOn s = (.ok (), g s) := rfl

@[simp] theorem runOn_check (r : Except Error α) (s : StratigraphicModel) :
    (check r).runOn s = (r, s) := by
  cases r <;> rfl

theorem runOn_onModel (f : Model → Except Error Model) (s : StratigraphicModel) :
    (onModel f).runOn s = match f s.model with
      | .ok m => (.ok (), { s with model := m })
      | .error e => (.error e, s) := by
  unfold onModel
  rw [runOn_bind, runOn_get]
  dsimp only
  rw [runOn_bind, runOn_check]
  cases f s.model <;> rfl

theorem runOn_onStack (f : HorizonStack → Except Error HorizonStack) (s : StratigraphicModel) :
    (onStack f).runOn s = match f s.stack with
      | .ok k => (.ok (), { s with stack := k })
      | .error e => (.error e, s) := by
  unfold onStack
  rw [runOn_bind, runOn_get]
  dsimp only
  rw [runOn_bind, runOn_check]
  cases f s.stack <;> rfl

/-! ## Edits that keep a property -/

/-- `b` keeps `P`: run from a model satisfying `P`, it leaves one satisfying
`P`, whether it succeeds or fails. -/
def Keeps (P : StratigraphicModel → Prop) (b : Build α) : Prop := ∀ s, P s → P (b.runOn s).2

theorem keeps_pure (a : α) : Keeps P (pure a) := fun _ h => h

theorem keeps_throw (e : Error) : Keeps P (throw e : Build α) := fun _ h => h

theorem keeps_get : Keeps P get := fun _ h => h

theorem keeps_check (r : Except Error α) : Keeps P (check r) := by
  intro s h
  rw [runOn_check]
  exact h

theorem keeps_modify {g : StratigraphicModel → StratigraphicModel} (hg : ∀ s, P s → P (g s)) :
    Keeps P (modify g) :=
  fun s h => hg s h

theorem keeps_set {t : StratigraphicModel} (ht : P t) : Keeps P (set t : Build PUnit) :=
  fun _ _ => ht

theorem Keeps.bind {x : Build α} {f : α → Build β} (hx : Keeps P x) (hf : ∀ a, Keeps P (f a)) :
    Keeps P (x >>= f) := by
  intro s h
  have hxs := hx s h
  rw [runOn_bind]
  revert hxs
  rcases x.runOn s with ⟨_ | a, s'⟩
  · exact id
  · exact hf a s'

theorem Keeps.run {b : Build α} (hb : Keeps P b) {s : StratigraphicModel} (h : P s) :
    P (b.runOn s).2 :=
  hb s h

/-- A step that reads the model keeps `P` when it does from the model it
reads. -/
theorem keeps_get_bind {f : StratigraphicModel → Build α}
    (hf : ∀ s, P s → P ((f s).runOn s).2) : Keeps P (get >>= f) := by
  intro s h
  rw [runOn_bind, runOn_get]
  exact hf s h

/-- A step that goes on with what a check returns keeps `P` when every
continuation that may run does. -/
theorem keeps_check_bind {r : Except Error α} {f : α → Build β}
    (hf : ∀ a, r = .ok a → Keeps P (f a)) : Keeps P (check r >>= f) := by
  intro s h
  rw [runOn_bind, runOn_check]
  cases hr : r with
  | error e => exact h
  | ok a => exact hf a hr s h

theorem Keeps.ite {c : Prop} [Decidable c] {x y : Build α} (hx : Keeps P x) (hy : Keeps P y) :
    Keeps P (if c then x else y) := by
  split
  · exact hx
  · exact hy

theorem Keeps.ite_bind {c : Prop} [Decidable c] {x : Build Unit} {j : Unit → Build α}
    (hx : Keeps P x) (hj : ∀ u, Keeps P (j u)) : Keeps P (if c then x >>= j else j ()) :=
  (hx.bind hj).ite (hj ())

theorem keeps_forM {l : List α} {f : α → Build PUnit} (hf : ∀ a ∈ l, Keeps P (f a)) :
    Keeps P (l.forM f) := by
  induction l with
  | nil => exact keeps_pure _
  | cons a l ih =>
    show Keeps P (f a >>= fun _ => l.forM f)
    exact (hf a List.mem_cons_self).bind fun _ => ih fun b hb => hf b (List.mem_cons_of_mem a hb)

theorem keeps_onModel {f : Model → Except Error Model}
    (hf : ∀ s m, P s → f s.model = .ok m → P { s with model := m }) : Keeps P (onModel f) := by
  intro s h
  rw [runOn_onModel]
  cases hm : f s.model with
  | error e => exact h
  | ok m => exact hf s m h hm

theorem keeps_onStack {f : HorizonStack → Except Error HorizonStack}
    (hf : ∀ s k, P s → f s.stack = .ok k → P { s with stack := k }) : Keeps P (onStack f) := by
  intro s h
  rw [runOn_onStack]
  cases hk : f s.stack with
  | error e => exact h
  | ok k => exact hf s k h hk

/-! ## The agreement of the stores -/

theorem missingStackNodes_sub {m : Model} {k : HorizonStack} {l : List Component}
    (h : missingStackNodes m k = .ok l) : ∀ c ∈ l, c ∈ k.catalog.components := by
  refine foldlM_except_inv (P := fun acc => ∀ c ∈ acc, c ∈ k.catalog.components)
    (fun acc c t hc ht hacc => ?_) (fun _ h => by cases h) h
  split at ht
  · split at ht
    · cases ht
    · cases ht
      exact hacc
  · cases ht
    intro x hx
    rcases List.mem_append.1 hx with hx | hx
    · exact hacc x hx
    · rw [List.mem_singleton.1 hx]
      exact Catalog.mem_all hc

/-- A split once the unit is checked: the stack is split, and the nodes the
model lacks are registered in it in place of the unit. -/
def splitTail (unit : Uuid) (sp : HorizonStack.UnitSplit) (inModel : Bool) : Build Unit := do
  onStack (·.splitUnit unit sp)
  let s ← get
  let missing ← check (missingStackNodes s.model s.stack)
  if inModel then onModel (·.removeCollection false unit .stratigraphicUnit)
  registerNodes missing

theorem splitUnit_eq (unit : Uuid) (sp : HorizonStack.UnitSplit) : splitUnit unit sp = (do
    let inModel := (← get).model.hasComponent unit
    if inModel then
      let _ ← check ((← get).model.componentOfKind unit .stratigraphicUnit)
    splitTail unit sp inModel) := rfl

end Build

namespace StratigraphicModel

variable {s : StratigraphicModel}

/-- The stores of a stratigraphic model agree: those of its geological
model do, and its stack is well formed. -/
structure Inv (s : StratigraphicModel) : Prop where
  model : s.model.Inv
  stack : ∃ b, s.stack.WellFormed b

theorem Inv.kinds (h : s.Inv) : s.stack.NodeKinds :=
  let ⟨_, hw⟩ := h.stack
  hw.kinds

theorem inv_empty (dim : Nat) : (empty dim).Inv :=
  ⟨Model.inv_empty dim, true, HorizonStack.wellFormed_empty dim⟩

theorem inv_ofModel {m : Model} (h : m.Inv) : (ofModel m).Inv :=
  ⟨h, true, HorizonStack.wellFormed_empty m.dim⟩

end StratigraphicModel

namespace Build

open StratigraphicModel (Inv)

variable {s : StratigraphicModel} {id unit : Uuid} {sp : HorizonStack.UnitSplit}

theorem keeps_onModel_inv {f : Model → Except Error Model}
    (hf : ∀ m m', m.Inv → f m = .ok m' → m'.Inv) : Keeps Inv (onModel f) :=
  keeps_onModel fun s m h hm => ⟨hf s.model m h.model hm, h.stack⟩

/-- A change to the stack that is one call of the stack builder keeps the
agreement. -/
theorem keeps_onStack_step {f : HorizonStack → Except Error HorizonStack}
    (hf : ∀ k, ∃ b, HorizonStack.Step k b (k.after (f k))) : Keeps Inv (onStack f) :=
  keeps_onStack fun s k h hk => by
    obtain ⟨b, hw⟩ := h.stack
    obtain ⟨b', hs⟩ := hf s.stack
    rw [hk] at hs
    exact ⟨h.model, b && b', hw.step hs⟩

theorem keeps_modify_inv {g : StratigraphicModel → StratigraphicModel}
    (hm : ∀ s, (g s).model = s.model) (hk : ∀ s, (g s).stack = s.stack) : Keeps Inv (modify g) :=
  keeps_modify fun s h => ⟨by rw [hm]; exact h.model, by rw [hk]; exact h.stack⟩

/-- Registering nodes of the stack in the model: each one the model lacks is
a horizon or a unit, so a collection. -/
theorem keeps_registerNodes {l : List Component}
    (hl : ∀ c ∈ l, c.kind = .horizon ∨ c.kind = .stratigraphicUnit) :
    Keeps Inv (registerNodes l) := by
  unfold registerNodes
  refine keeps_forM fun c hc => keeps_onModel_inv fun m m' h hs => ?_
  obtain ⟨cat, hcat, hs⟩ := except_bind_eq_ok.1 hs
  obtain ⟨hfresh, rfl⟩ := Catalog.insert_eq_ok hcat
  obtain rfl := except_pure_eq_ok.1 hs
  refine h.register ?_ hfresh
  rcases hl c hc with hk | hk <;> rw [hk] <;> rfl

/-! ## Stack nodes -/

/-- Adding a node under an identifier the model lacks: the model registers
it as a collection and the stack as a node. -/
theorem inv_addNode (h : s.Inv) {k : ComponentKind} (hk : k = .horizon ∨ k = .stratigraphicUnit)
    (hfresh : s.model.catalog.contains id = false) :
    ((do onModel fun m => pure (m.addCollection k id)
         onStack (·.addNodeWithId k id) : Build Unit).runOn s).2.Inv := by
  rw [runOn_bind, runOn_onModel]
  have hm : Inv { s with model := s.model.addCollection k id } := by
    refine ⟨h.model.addCollection ?_ hfresh, h.stack⟩
    rcases hk with rfl | rfl <;> rfl
  refine keeps_onStack_step (fun t => ?_) _ hm
  rcases hk with rfl | rfl
  · exact ⟨true, .addHorizonWithId id⟩
  · exact ⟨true, .addUnitWithId id⟩

theorem inv_addHorizon (h : s.Inv) (hfresh : s.model.catalog.contains id = false) :
    ((addHorizon id).runOn s).2.Inv :=
  inv_addNode h (.inl rfl) hfresh

theorem inv_addUnit (h : s.Inv) (hfresh : s.model.catalog.contains id = false) :
    ((addUnit id).runOn s).2.Inv :=
  inv_addNode h (.inr rfl) hfresh

theorem keeps_setHorizonName (id : Uuid) (name : String) : Keeps Inv (setHorizonName id name) := by
  unfold setHorizonName
  refine (keeps_onModel_inv fun _ _ h hs => h.setName hs).bind fun _ => keeps_get.bind fun _ => ?_
  exact (keeps_onStack_step fun _ => ⟨true, .setHorizonName id name⟩).ite (keeps_pure _)

theorem keeps_setHorizonType (id : Uuid) (ty : HorizonType) : Keeps Inv (setHorizonType id ty) := by
  unfold setHorizonType
  refine (keeps_onModel_inv fun _ _ h hs => h.setHorizonType hs).bind fun _ =>
    keeps_get.bind fun _ => ?_
  exact (keeps_onStack_step fun _ => ⟨true, .setHorizonType id ty⟩).ite (keeps_pure _)

theorem keeps_setUnitName (id : Uuid) (name : String) : Keeps Inv (setUnitName id name) := by
  unfold setUnitName
  refine (keeps_onModel_inv fun _ _ h hs => h.setName hs).bind fun _ => keeps_get.bind fun _ => ?_
  exact (keeps_onStack_step fun _ => ⟨true, .setUnitName id name⟩).ite (keeps_pure _)

theorem keeps_removeHorizon (id : Uuid) : Keeps Inv (removeHorizon id) := by
  unfold removeHorizon
  refine (keeps_onModel_inv fun _ _ h hs => h.removeCollection rfl hs).bind fun _ =>
    keeps_get.bind fun _ => ?_
  exact Keeps.ite_bind (keeps_onStack_step fun _ => ⟨true, .removeHorizon id⟩) fun _ =>
    keeps_modify_inv (fun _ => rfl) fun _ => rfl

theorem keeps_removeUnit (id : Uuid) : Keeps Inv (removeUnit id) := by
  unfold removeUnit
  refine (keeps_onModel_inv fun _ _ h hs => h.removeCollection rfl hs).bind fun _ =>
    keeps_get.bind fun _ => ?_
  exact (keeps_onStack_step fun _ => ⟨true, .removeUnit id⟩).ite (keeps_pure _)

theorem keeps_addHorizonUnder (horizon unit : Uuid) : Keeps Inv (addHorizonUnder horizon unit) :=
  keeps_onStack_step fun _ => ⟨true, .addHorizonUnder horizon unit⟩

theorem keeps_addHorizonAbove (horizon unit : Uuid) : Keeps Inv (addHorizonAbove horizon unit) :=
  keeps_onStack_step fun _ => ⟨true, .addHorizonAbove horizon unit⟩

theorem inv_splitTail (h : s.Inv) (hf : sp.Fresh s.stack.catalog unit) (inModel : Bool) :
    ((splitTail unit sp inModel).runOn s).2.Inv := by
  unfold splitTail
  rw [runOn_bind, runOn_onStack]
  cases hs : s.stack.splitUnit unit sp with
  | error e => exact h
  | ok k =>
    obtain ⟨b, hw⟩ := h.stack
    have hstep := HorizonStack.Step.splitUnit unit sp hf
    rw [hs] at hstep
    have hk : Inv { s with stack := k } := ⟨h.model, _, hw.step hstep⟩
    dsimp only
    refine Keeps.run (keeps_get_bind fun t ht => keeps_check_bind (fun l hm => ?_) t ht) hk
    have hl : ∀ c ∈ l, c.kind = .horizon ∨ c.kind = .stratigraphicUnit := fun c hc =>
      ht.kinds c (missingStackNodes_sub hm c hc)
    exact Keeps.ite_bind (keeps_onModel_inv fun _ _ h hr => h.removeCollection rfl hr) fun _ =>
      keeps_registerNodes hl

theorem inv_splitUnit (h : s.Inv) (hf : sp.Fresh s.stack.catalog unit) :
    ((splitUnit unit sp).runOn s).2.Inv := by
  rw [splitUnit_eq, runOn_bind, runOn_get]
  dsimp only
  split
  · rw [runOn_bind, runOn_get]
    dsimp only
    rw [runOn_bind, runOn_check]
    cases s.model.componentOfKind unit .stratigraphicUnit with
    | error e => exact h
    | ok c => exact inv_splitTail h hf _
  · exact inv_splitTail h hf _

theorem keeps_setStack {k : HorizonStack} (hk : ∃ b, k.WellFormed b) : Keeps Inv (setStack k) := by
  unfold setStack
  refine keeps_get_bind fun s hs => keeps_check_bind (fun l hm => ?_) s hs
  have hl : ∀ c ∈ l, c.kind = .horizon ∨ c.kind = .stratigraphicUnit := fun c hc =>
    (let ⟨_, hw⟩ := hk; hw.kinds) c (missingStackNodes_sub hm c hc)
  exact (keeps_modify fun t ht => ⟨ht.model, hk⟩).bind fun _ => (keeps_registerNodes hl).bind
    fun _ => keeps_modify_inv (fun _ => rfl) fun _ => rfl

/-! ## Stratigraphic coordinates -/

/-- An edit of the attributes of a cell is an edit of the model's attributes,
so it keeps what every such edit keeps. -/
theorem keeps_onCell_of {P : StratigraphicModel → Prop}
    (hP : ∀ s m item (g : VertexAttributes → Except Error (Unit × VertexAttributes)), P s →
      s.model.editAttributes item g = .ok ((), m) → P { s with model := m })
    (item : Uuid) (f : VertexAttributes → Except Error VertexAttributes) :
    Keeps P (onCell item f) := by
  unfold onCell
  refine keeps_get.bind fun _ => (keeps_check _).bind fun _ => keeps_onModel fun s m h hs => ?_
  obtain ⟨⟨⟨⟩, m'⟩, he, hs⟩ := except_bind_eq_ok.1 hs
  dsimp only at hs
  obtain rfl := except_pure_eq_ok.1 hs
  exact hP s _ item _ h he

theorem keeps_onCell (item : Uuid) (f : VertexAttributes → Except Error VertexAttributes) :
    Keeps Inv (onCell item f) :=
  keeps_onCell_of (fun _ _ _ _ h he => ⟨h.model.editAttributes he, h.stack⟩) item f

/-! The edits of cell attributes change the model only through `onCell`, so
they keep whatever every `onCell` keeps. -/

section Cells

variable {P : StratigraphicModel → Prop} (hP : ∀ item f, Keeps P (onCell item f))
include hP

theorem keeps_setLocation_of (item : Uuid) (vertex : Nat) (location : List Float) :
    Keeps P (setLocation item vertex location) := by
  unfold setLocation
  exact keeps_get.bind fun _ => Keeps.ite_bind (keeps_throw _) fun _ => hP _ _

theorem keeps_setImplicit_of (item : Uuid) (vertex : Nat) (value : Float) :
    Keeps P (setImplicit item vertex value) :=
  hP _ _

theorem keeps_setCoordinates_of (item : Uuid) (vertex : Nat) (p : Point) :
    Keeps P (setCoordinates item vertex p) := by
  unfold setCoordinates
  exact keeps_get.bind fun _ => (keeps_setLocation_of hP _ _ _).bind fun _ =>
    keeps_setImplicit_of hP _ _ _

theorem keeps_implicitFromField_of (item : Uuid) (field : String) :
    Keeps P (implicitFromField item field) :=
  hP _ _

theorem keeps_locationFromAxes_of (axis : Nat) : Keeps P (locationFromAxes axis) := by
  unfold locationFromAxes
  exact keeps_get.bind fun _ => Keeps.ite_bind (keeps_throw _) fun _ => keeps_forM fun _ _ =>
    keeps_get.bind fun _ => (keeps_check _).bind fun _ => hP _ _

end Cells

theorem keeps_setLocation (item : Uuid) (vertex : Nat) (location : List Float) :
    Keeps Inv (setLocation item vertex location) :=
  keeps_setLocation_of keeps_onCell item vertex location

theorem keeps_setImplicit (item : Uuid) (vertex : Nat) (value : Float) :
    Keeps Inv (setImplicit item vertex value) :=
  keeps_setImplicit_of keeps_onCell item vertex value

theorem keeps_setCoordinates (item : Uuid) (vertex : Nat) (p : Point) :
    Keeps Inv (setCoordinates item vertex p) :=
  keeps_setCoordinates_of keeps_onCell item vertex p

theorem keeps_implicitFromField (item : Uuid) (field : String) :
    Keeps Inv (implicitFromField item field) :=
  keeps_implicitFromField_of keeps_onCell item field

theorem keeps_locationFromAxes (axis : Nat) : Keeps Inv (locationFromAxes axis) :=
  keeps_locationFromAxes_of keeps_onCell axis

theorem Inv.rescaled {t : StratigraphicModel} {factor : Float} (h : s.Inv)
    (hr : rescaled factor s = .ok t) : t.Inv := by
  unfold Build.rescaled at hr
  obtain ⟨meshes, hm, rfl⟩ := except_map_eq_ok.1 hr
  refine ⟨?_, h.stack⟩
  refine foldlM_except_inv (P := fun u : MeshTable => { s.model with meshes := u }.Inv)
    (fun u id u' _ hu hP => ?_) h.model hm
  split at hu
  · next x hx =>
    obtain ⟨a, -, rfl⟩ := except_map_eq_ok.1 hu
    exact hP.putMesh (hP.mesh_kind _ (MeshTable.mem_of_get? hx))
  · obtain rfl := except_pure_eq_ok.1 hu
    exact hP

theorem keeps_rescale_of {P : StratigraphicModel → Prop} {factor : Float}
    (hP : ∀ {s t : StratigraphicModel}, P s → rescaled factor s = .ok t → P t) :
    Keeps P (rescale factor) := by
  unfold rescale
  refine keeps_get_bind fun s hs => keeps_check_bind (fun t hr => ?_) s hs
  exact keeps_set (hP hs hr)

theorem keeps_rescale (factor : Float) : Keeps Inv (rescale factor) :=
  keeps_rescale_of Inv.rescaled

theorem keeps_rescaleToBox_of {P : StratigraphicModel → Prop}
    (hP : ∀ factor, Keeps P (rescale factor)) : Keeps P rescaleToBox := by
  unfold rescaleToBox
  refine keeps_get.bind fun s => ?_
  split
  · refine (keeps_check _).bind fun x => ?_
    split
    · exact (keeps_check _).bind fun f => (hP f).bind fun _ => keeps_pure _
    · exact keeps_throw _
  · exact keeps_throw _

theorem keeps_rescaleToBox : Keeps Inv rescaleToBox :=
  keeps_rescaleToBox_of keeps_rescale

theorem keeps_setIsovalue (h : Uuid) (value : Float) : Keeps Inv (setIsovalue h value) := by
  unfold setIsovalue
  exact keeps_get.bind fun _ => (keeps_check _).bind fun _ =>
    keeps_modify_inv (fun _ => rfl) fun _ => rfl

theorem keeps_setLocator (p : LocatorParams) : Keeps Inv (setLocator p) :=
  keeps_modify_inv (fun _ => rfl) fun _ => rfl

/-- Copying a model whose stores agree, of the same dimension, into an empty
one. -/
theorem keeps_copy {src : StratigraphicModel} (hsrc : src.Inv) :
    Keeps (fun s => s.Inv ∧ s.dim = src.dim) (copy src) := by
  unfold copy
  refine keeps_get.bind fun _ => Keeps.ite_bind (keeps_throw _) fun _ => ?_
  refine (keeps_onModel fun s m ⟨h, hd⟩ hm => ?_).bind fun _ =>
    (keeps_onStack fun s k ⟨h, hd⟩ hk => ?_).bind fun _ =>
    keeps_modify fun _ ⟨h, hd⟩ => ⟨⟨h.model, h.stack⟩, hd⟩
  · have hdim := Model.copyInto_eq_ok hm
    refine ⟨⟨hsrc.model.copyInto hd.symm hm, h.stack⟩, ?_⟩
    rw [hdim]
    exact hd
  · obtain ⟨b, hw⟩ := hsrc.stack
    exact ⟨⟨h.model, b, hw.copyInto hk⟩, hd⟩

end Build

end Subsurface
