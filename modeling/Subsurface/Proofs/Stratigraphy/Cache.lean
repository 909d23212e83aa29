import Mathlib.Logic.Relation
import Subsurface.Stratigraphy.Cache
import Subsurface.Archive.Stratigraphy
import Subsurface.Proofs.Stratigraphy.Reachable
/-!
Kept mappings are never stale.

A stratigraphic model keeps the mapping of each cell that a query built,
until its next edit (`Stratigraphic`). It is coherent when every mapping it
keeps is the one its content gives for the cell. Models made empty, from a
geological model, from a file, by a copy or by an edit keep no mapping, and a
query keeps only the mapping it has just built, so every model the library's
calls reach is coherent (`Reachable.coherent`).

From a coherent model, asking for a cell's mapping answers with the mapping
its content gives, whether kept or built now, and leaves the content as it
was. So every coordinate query answers as if no mapping were kept, whatever
was asked before it (`kept_mappings_answer_fresh`).
-/

open Relation (ReflTransGen)

namespace Subsurface

namespace Query

variable {α β : Type}

/-! ## Running a query -/

theorem runOn_bind (x : Query α) (f : α → Query β) (c : Stratigraphic) :
    (x >>= f).runOn c = match x.runOn c with
      | (.ok a, c') => (f a).runOn c'
      | (.error e, c') => (.error e, c') := by
  simp only [runOn, ExceptT.run_bind, StateT.run_bind]
  rcases (ExceptT.run x).run c with ⟨_ | a, c'⟩
  · rfl
  · rfl

@[simp] theorem runOn_pure (a : α) (c : Stratigraphic) : (pure a : Query α).runOn c = (.ok a, c) := rfl

@[simp] theorem runOn_get (c : Stratigraphic) : (get : Query Stratigraphic).runOn c = (.ok c, c) := rfl

@[simp] theorem runOn_throw (e : Error) (c : Stratigraphic) : (throw e : Query α).runOn c = (.error e, c) :=
  rfl

end Query

namespace Stratigraphic

open Query

variable {α : Type} {c c' : Stratigraphic} {item : Uuid} {mp : MeshMapping}

/-! ## Asking for a mapping -/

theorem runOn_meshMapping_kept (h : c.mappings.lookup item = some mp) :
    (meshMapping item).runOn c = (.ok mp, c) := by
  rw [meshMapping, runOn_bind, runOn_get]
  dsimp only
  rw [h]
  rfl

theorem runOn_meshMapping_built (h : c.mappings.lookup item = none) (hb : c.strat.mapping item = .ok mp) :
    (meshMapping item).runOn c = (.ok mp, { c with mappings := (item, mp) :: c.mappings }) := by
  rw [meshMapping, runOn_bind, runOn_get]
  dsimp only
  rw [h, hb]
  rfl

theorem runOn_meshMapping_error {e : Error} (h : c.mappings.lookup item = none)
    (hb : c.strat.mapping item = .error e) : (meshMapping item).runOn c = (.error e, c) := by
  rw [meshMapping, runOn_bind, runOn_get]
  dsimp only
  rw [h, hb]
  rfl

/-- A query through a mapping asks for the mapping, then answers from it
without changing the model again. -/
theorem runOn_viaMapping (f : MeshMapping → Except MappingError α) (item : Uuid) (c : Stratigraphic) :
    (viaMapping f item).runOn c =
      (((meshMapping item).runOn c).1.bind fun mp => (f mp).mapError Error.mapping,
        ((meshMapping item).runOn c).2) := by
  rw [viaMapping, runOn_bind]
  rcases (meshMapping item).runOn c with ⟨_ | mp, c'⟩
  · rfl
  · dsimp only
    show _ = ((f mp).mapError Error.mapping, c')
    cases f mp <;> rfl

/-! ## Coherent models -/

/-- Every mapping the model keeps is the one its content gives for the cell. -/
def Coherent (c : Stratigraphic) : Prop :=
  ∀ e ∈ c.mappings, c.strat.mapping e.1 = .ok e.2

theorem coherent_fresh (s : StratigraphicModel) : (fresh s).Coherent :=
  fun _ he => absurd he List.not_mem_nil

/-- **Asking a coherent model for a mapping** answers with the one its
content gives, kept or built now, and leaves the content as it was and the
model coherent. -/
theorem Coherent.meshMapping_fresh (h : c.Coherent) (item : Uuid) :
    ((meshMapping item).runOn c).1 = c.strat.mapping item ∧
      ((meshMapping item).runOn c).2.strat = c.strat ∧ ((meshMapping item).runOn c).2.Coherent := by
  cases hk : c.mappings.lookup item with
  | some mp =>
    -- the mapping found is an entry of the kept ones, which coherence vouches for
    have hmem : (item, mp) ∈ c.mappings := by
      obtain ⟨l₁, l₂, hl, -⟩ := List.lookup_eq_some_iff.1 hk
      rw [hl]
      simp
    rw [runOn_meshMapping_kept hk]
    exact ⟨(h _ hmem).symm, rfl, h⟩
  | none =>
    cases hb : c.strat.mapping item with
    | ok mp =>
      rw [runOn_meshMapping_built hk hb]
      refine ⟨rfl, rfl, fun e he => ?_⟩
      rcases List.mem_cons.1 he with rfl | he
      · exact hb
      · exact h e he
    | error e =>
      rw [runOn_meshMapping_error hk hb]
      exact ⟨rfl, rfl, h⟩

/-- A query through a mapping, asked of a coherent model, answers as from
the mapping its content gives. -/
theorem Coherent.viaMapping_fresh (h : c.Coherent) (f : MeshMapping → Except MappingError α)
    (item : Uuid) :
    ((viaMapping f item).runOn c).1 = (c.strat.mapping item).bind fun mp => (f mp).mapError Error.mapping := by
  rw [Stratigraphic.runOn_viaMapping, (h.meshMapping_fresh item).1]

/-- One query's effect on a model: it may keep the mapping of the cell it
read. Every query through a mapping has this effect (`runOn_viaMapping`). -/
def Asked (c c' : Stratigraphic) : Prop := ∃ item, c' = ((meshMapping item).runOn c).2

/-- Queries change only the kept mappings, and keep a coherent model
coherent. -/
theorem Coherent.asked (h : c.Coherent) (hq : ReflTransGen Asked c c') : c'.strat = c.strat ∧ c'.Coherent := by
  induction hq with
  | refl => exact ⟨rfl, h⟩
  | tail _ hstep ih =>
    obtain ⟨item, rfl⟩ := hstep
    obtain ⟨-, hs, hc⟩ := ih.2.meshMapping_fresh item
    exact ⟨hs.trans ih.1, hc⟩

/-! ## Every model the calls reach -/

/-- The models that the library's calls reach: made empty, from a geological
model or from a file, copied, edited (a copy into a model is an edit), and
asked for mappings. -/
inductive Reachable : Stratigraphic → Prop
  | empty (dim : Nat) : Reachable (fresh (StratigraphicModel.empty dim))
  | ofModel (m : Model) : Reachable (fresh (StratigraphicModel.ofModel m))
  | load {dim : Nat} {path : String} {bytes : List UInt8} {s : StratigraphicModel}
      (h : StratigraphicModel.load dim path bytes = .ok s) : Reachable (fresh s)
  | clone {c : Stratigraphic} (h : Reachable c) : Reachable c.clone
  | edit {c : Stratigraphic} {α : Type} (h : Reachable c) (b : Build α) : Reachable (c.edit b).2
  | ask {c : Stratigraphic} (h : Reachable c) (item : Uuid) : Reachable ((meshMapping item).runOn c).2

theorem Reachable.coherent (h : Reachable c) : c.Coherent := by
  induction h with
  | empty dim => exact coherent_fresh _
  | ofModel m => exact coherent_fresh _
  | load _ => exact coherent_fresh _
  | clone _ _ => exact coherent_fresh _
  | edit _ b _ => exact coherent_fresh _
  | ask _ item ih => exact (ih.meshMapping_fresh item).2.2

/-- **Kept mappings are never stale.** From every model the library's calls
reach, after any queries, a cell's mapping, kept or built now, is the one
built from the model's content and locator parameters; so the coordinates of
a point and its implicit value are answered as the model without kept
mappings answers them, and no answer depends on what was asked before. -/
theorem kept_mappings_answer_fresh (h : Reachable c) (hq : ReflTransGen Asked c c') (item : Uuid) :
    ((meshMapping item).runOn c').1 = c.strat.mapping item ∧
      ∀ p : Point,
        ((coordinatesFromPoint item p).runOn c').1 = c.strat.coordinatesFromPoint item p ∧
        ((geometricFromPoint item p).runOn c').1 = c.strat.geometricFromPoint item p ∧
        ((implicitValueAt item p).runOn c').1 = c.strat.implicitValueAt item p := by
  -- the queries asked before left the content as it was and the model coherent
  obtain ⟨hs, hc⟩ := h.coherent.asked hq
  rw [← hs]
  exact ⟨(hc.meshMapping_fresh item).1, fun p =>
    ⟨hc.viaMapping_fresh _ item, hc.viaMapping_fresh _ item, hc.viaMapping_fresh _ item⟩⟩

/-- The layered cross-section, fresh from its geological model, once asked
for the mapping of its triangle. -/
def askedOnce : Stratigraphic :=
  ((meshMapping (Uuid.ofNat 3)).runOn (fresh (StratigraphicModel.ofModel Model.layeredSection))).2

/-- Asked a second time, the layered cross-section answers with the mapping
the first query kept, which is the one built from its content. -/
theorem asked_again_answers_fresh :
    askedOnce.mappings.map (·.1) = [Uuid.ofNat 3] ∧
    Reachable (fresh (StratigraphicModel.ofModel Model.layeredSection)) ∧
    ReflTransGen Asked (fresh (StratigraphicModel.ofModel Model.layeredSection)) askedOnce ∧
    ((meshMapping (Uuid.ofNat 3)).runOn askedOnce).1 =
      (StratigraphicModel.ofModel Model.layeredSection).mapping (Uuid.ofNat 3) ∧
    ∀ p : Point,
      ((coordinatesFromPoint (Uuid.ofNat 3) p).runOn askedOnce).1 =
          (StratigraphicModel.ofModel Model.layeredSection).coordinatesFromPoint (Uuid.ofNat 3) p ∧
        ((geometricFromPoint (Uuid.ofNat 3) p).runOn askedOnce).1 =
          (StratigraphicModel.ofModel Model.layeredSection).geometricFromPoint (Uuid.ofNat 3) p ∧
        ((implicitValueAt (Uuid.ofNat 3) p).runOn askedOnce).1 =
          (StratigraphicModel.ofModel Model.layeredSection).implicitValueAt (Uuid.ofNat 3) p :=
  ⟨by decide +kernel, .ofModel _, .single ⟨_, rfl⟩,
    kept_mappings_answer_fresh (.ofModel _) (.single ⟨_, rfl⟩) (Uuid.ofNat 3)⟩

end Stratigraphic

end Subsurface
