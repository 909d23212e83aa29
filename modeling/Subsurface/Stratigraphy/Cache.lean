import Subsurface.Stratigraphy.Edit
/-!
Stratigraphic models that keep the mappings of their cells.

A cell's mapping is built on the first query that needs it and kept for the
queries after it. Opening an edit drops every kept mapping, and a copy or a
model read from a file starts with none. A query keeps the mapping it built
even when it then fails on the point it was asked about.
-/

namespace Subsurface

/-- A stratigraphic model with the mappings of cells that its queries built
since it was last edited. -/
structure Stratigraphic where
  strat : StratigraphicModel
  mappings : List (Uuid × MeshMapping) := []

/-- Queries of a stratigraphic model: they may fail, and they keep the
mappings they build. -/
abbrev Query := ExceptT Error (StateM Stratigraphic)

/-- Runs a query on a model: its result and the model after it. -/
def Query.runOn {α : Type} (q : Query α) (c : Stratigraphic) : Except Error α × Stratigraphic :=
  (q.run).run c

namespace Stratigraphic

/-- The model without kept mappings. -/
def fresh (s : StratigraphicModel) : Stratigraphic := { strat := s }

/-- A copy of the model; it keeps no mapping. -/
def clone (c : Stratigraphic) : Stratigraphic := fresh c.strat

/-- Runs an edit on a model. Opening the edit drops the kept mappings,
whether it then succeeds or fails. -/
def edit {α : Type} (b : Build α) (c : Stratigraphic) : Except Error α × Stratigraphic :=
  let (r, s) := b.runOn c.strat
  (r, fresh s)

/-- The mapping of the cell `item`: the kept one, or else one built now from
the model and its locator parameters, which is kept. -/
def meshMapping (item : Uuid) : Query MeshMapping := do
  let c ← get
  match c.mappings.lookup item with
  | some mp => pure mp
  | none =>
    match c.strat.mapping item with
    | .ok mp =>
      set { c with mappings := (item, mp) :: c.mappings }
      pure mp
    | .error e => throw e

/-- A query answered by `f` from the mapping of the cell `item`. -/
def viaMapping {α : Type} (f : MeshMapping → Except MappingError α) (item : Uuid) : Query α := do
  match f (← meshMapping item) with
  | .ok a => pure a
  | .error e => throw (.mapping e)

/-- The image in stratigraphic space of a point of the cell `item`. -/
def coordinatesFromPoint (item : Uuid) (p : Point) : Query Point :=
  viaMapping (fun mp => mp.forward p) item

/-- The point of the cell `item` whose image is a stratigraphic point. -/
def geometricFromPoint (item : Uuid) (p : Point) : Query Point :=
  viaMapping (fun mp => mp.inverse p) item

/-- The implicit value at a point of the cell `item`. -/
def implicitValueAt (item : Uuid) (p : Point) : Query Float :=
  viaMapping (fun mp => mp.implicitValue p) item

end Stratigraphic

end Subsurface
