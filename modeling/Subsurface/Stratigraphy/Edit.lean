import Subsurface.Stratigraphy.Basic
import Subsurface.Model.Edit
import Subsurface.Stack.Edit
/-!
Editing a stratigraphic model.

Horizons and stratigraphic units live both in the model and in the stack:
adding one registers it in both under one identifier, renaming or retyping
it does so in the model and, when the stack holds it, in the stack, and
removing it drops it from both along with its isovalue. Splitting a unit
happens in the stack, whose new nodes are then registered in the model in
place of the unit. Replacing the whole stack registers its nodes the model
lacks, refuses a node the model holds with another kind, and keeps only the
isovalues of the new stack's horizons.

Stratigraphic coordinates are vertex attributes of cell meshes: the
location, the implicit function, or both at once; the implicit function may
also be copied from a scalar attribute, and the location taken from the
geometric coordinates other than one axis. Rescaling multiplies every
implicit value and every isovalue by one factor, which may be chosen so that
stratigraphic space has the proportions of the model's box.

An edit is a sequence of changes: when one fails, those before it stay.
-/

namespace Subsurface

/-- Edits of a stratigraphic model; a failing edit keeps the changes made
before its failure. -/
abbrev Build := ExceptT Error (StateM StratigraphicModel)

namespace Build

open Stratigraphy

/-- A result of the library inside an edit. -/
def check {α : Type} (r : Except Error α) : Build α :=
  match r with
  | .ok a => pure a
  | .error e => throw e

/-- Replaces the model by the result of `f`, or fails with its error. -/
def onModel (f : Model → Except Error Model) : Build Unit := do
  let s ← get
  set { s with model := ← check (f s.model) }

/-- Replaces the stack by the result of `f`, or fails with its error. -/
def onStack (f : HorizonStack → Except Error HorizonStack) : Build Unit := do
  let s ← get
  set { s with stack := ← check (f s.stack) }

/-- Runs an edit on a model: its result and the model after it. -/
def runOn {α : Type} (b : Build α) (s : StratigraphicModel) : Except Error α × StratigraphicModel :=
  (b.run).run s

/-! ## Stack nodes -/

/-- Adds a horizon under the fresh identifier `id`. -/
def addHorizon (id : Uuid) : Build Unit := do
  onModel fun m => pure (m.addCollection .horizon id)
  onStack (·.addNodeWithId .horizon id)

/-- Adds a stratigraphic unit under the fresh identifier `id`. -/
def addUnit (id : Uuid) : Build Unit := do
  onModel fun m => pure (m.addCollection .stratigraphicUnit id)
  onStack (·.addNodeWithId .stratigraphicUnit id)

/-- Renames the horizon `id`. -/
def setHorizonName (id : Uuid) (name : String) : Build Unit := do
  onModel (·.setName false id .horizon name)
  if (← get).stack.contains id then onStack (·.setHorizonName id name)

/-- Sets the type of the horizon `id`. -/
def setHorizonType (id : Uuid) (t : HorizonType) : Build Unit := do
  onModel (·.setHorizonType false id t)
  if (← get).stack.contains id then onStack (·.setHorizonType id t)

/-- Renames the stratigraphic unit `id`. -/
def setUnitName (id : Uuid) (name : String) : Build Unit := do
  onModel (·.setName false id .stratigraphicUnit name)
  if (← get).stack.contains id then onStack (·.setUnitName id name)

/-- Removes the horizon `id` and its isovalue. -/
def removeHorizon (id : Uuid) : Build Unit := do
  onModel (·.removeCollection false id .horizon)
  if (← get).stack.contains id then onStack (·.removeNode id .horizon)
  modify fun s => { s with isovalues := s.isovalues.erase id }

/-- Removes the stratigraphic unit `id`. -/
def removeUnit (id : Uuid) : Build Unit := do
  onModel (·.removeCollection false id .stratigraphicUnit)
  if (← get).stack.contains id then onStack (·.removeNode id .stratigraphicUnit)

/-- Places `horizon` directly under `unit` in the stack. -/
def addHorizonUnder (horizon unit : Uuid) : Build Unit := onStack (·.addHorizonUnder horizon unit)

/-- Places `horizon` directly above `unit` in the stack. -/
def addHorizonAbove (horizon unit : Uuid) : Build Unit := onStack (·.addHorizonAbove horizon unit)

/-- The stack nodes the model lacks, in stack order; a node the model holds
with another kind fails. -/
def missingStackNodes (m : Model) (stack : HorizonStack) : Except Error (List Component) :=
  stack.catalog.all.foldlM (fun acc c =>
    match m.component c.id with
    | .ok existing =>
      if existing.kind ≠ c.kind then .error (.component (.wrongKind c.id c.kind existing.kind))
      else .ok acc
    | .error _ => .ok (acc ++ [c])) []

/-- Registers stack nodes in the model, one by one. -/
def registerNodes (nodes : List Component) : Build Unit :=
  nodes.forM fun c => onModel fun m => do pure { m with catalog := ← m.catalog.insert c }

/-- Splits `unit` by a new horizon, with the fresh identifiers of `split`,
and registers the new nodes in the model in place of the unit. -/
def splitUnit (unit : Uuid) (split : HorizonStack.UnitSplit) : Build Unit := do
  let inModel := (← get).model.hasComponent unit
  if inModel then
    let _ ← check ((← get).model.componentOfKind unit .stratigraphicUnit)
  onStack (·.splitUnit unit split)
  let s ← get
  let missing ← check (missingStackNodes s.model s.stack)
  if inModel then onModel (·.removeCollection false unit .stratigraphicUnit)
  registerNodes missing

/-- Replaces the stack, registering its nodes in the model and keeping the
isovalues of its horizons only. -/
def setStack (stack : HorizonStack) : Build Unit := do
  let missing ← check (missingStackNodes (← get).model stack)
  modify fun s => { s with stack := stack }
  registerNodes missing
  modify fun s => { s with isovalues := s.isovalues.filter fun (h, _) => s.stack.contains h }

/-! ## Stratigraphic coordinates -/

/-- Edits the vertex attributes of the cell `item`. -/
def onCell (item : Uuid) (f : VertexAttributes → Except Error VertexAttributes) : Build Unit := do
  let m := (← get).model
  let _ ← check (m.componentOfKind item (Model.cellKind m.dim))
  onModel fun m => do
    let ((), m) ← m.editAttributes item fun va => do pure ((), ← f va)
    pure m

/-- Sets the stratigraphic location of a vertex of the cell `item`; it must
have one value fewer than the dimension. -/
def setLocation (item : Uuid) (vertex : Nat) (location : List Float) : Build Unit := do
  let d := (← get).dim
  if location.length + 1 ≠ d then
    throw (.mapping (.attributeDimension locationKey (d - 1) location.length))
  onCell item (·.setValue locationKey vertex location)

/-- Sets the implicit value of a vertex of the cell `item`. -/
def setImplicit (item : Uuid) (vertex : Nat) (value : Float) : Build Unit :=
  onCell item (·.setValue implicitKey vertex [value])

/-- Sets the whole stratigraphic point of a vertex: the location, then the
implicit value. -/
def setCoordinates (item : Uuid) (vertex : Nat) (p : Point) : Build Unit := do
  let d := (← get).dim
  setLocation item vertex (p.toList.take (d - 1))
  setImplicit item vertex (p.coord (d - 1))

/-- Copies a scalar attribute of the cell `item` into its implicit function,
at every vertex where it is assigned. -/
def implicitFromField (item : Uuid) (field : String) : Build Unit :=
  onCell item fun va => do
    let some source := va.attribute? field | throw (.mapping (.missingAttribute item 0 field))
    if source.dimension ≠ 1 then throw (.mapping (.attributeDimension field 1 source.dimension))
    (List.range source.assigned.size).foldlM (fun va v =>
      match (source.encoded? v).bind List.head? with
      | some x => va.setEncoded implicitKey v [x]
      | none => pure va) va

/-- The encoded coordinates of a point other than the one along `axis`,
zero past the last one. -/
def withoutAxis (d axis : Nat) (p : Array Binary64) : List Binary64 :=
  ((List.range d).filter (· ≠ axis)).map (p.getD · .zero)

/-- Sets the location of every vertex of the cell `c`, in a model of
dimension `d`, to its geometric coordinates other than the one along `axis`. -/
def locationFromAxesAt (d axis : Nat) (c : Component) : Build Unit := do
  let mesh ← check ((← get).model.mesh c.id)
  onCell c.id fun va =>
    mesh.coordinates.toList.zipIdx.foldlM (fun va (p, v) =>
      va.setEncoded locationKey v (withoutAxis d axis p)) va

/-- Sets the location of every vertex of every cell to its geometric
coordinates other than the one along `axis`, cell by cell in creation order. -/
def locationFromAxes (axis : Nat) : Build Unit := do
  let m := (← get).model
  if axis ≥ m.dim then throw (.mapping (.invalidAxis axis m.dim))
  (m.components (Model.cellKind m.dim)).forM (locationFromAxesAt m.dim axis)

/-- Multiplies every implicit value of every cell, cell by cell in creation
order, and then every isovalue, by `factor`. A cell whose implicit values
are damaged fails. -/
def rescaled (factor : Float) (s : StratigraphicModel) : Except Error StratigraphicModel := do
  let cells := (s.model.components (Model.cellKind s.dim)).map (·.id)
  let meshes ← cells.foldlM (fun (t : MeshTable) id =>
    match t.get? id with
    | some x => do
      let attributes ← x.attributes.mapAssigned implicitKey (·.mul (.ofFloat factor))
      pure (t.put id { x with attributes := attributes })
    | none => pure t) s.model.meshes
  pure { s with model := { s.model with meshes := meshes }
                isovalues := s.isovalues.map fun (h, v) => (h, v.mul (.ofFloat factor)) }

/-- Multiplies every implicit value and isovalue by `factor`. -/
def rescale (factor : Float) : Build Unit := do set (← check (rescaled factor (← get)))

/-- Smallest extent a box may have along an axis. -/
def minExtent : Float := 1e-10

/-- The factor giving stratigraphic space the proportions of the model:
the ratio of the first to the last extent of stratigraphic space over the
same ratio for the model. Each of the four extents must be a number of at
least `minExtent`. -/
def scaleFactor (d : Nat) (geometric stratigraphic : Point) : Except Error Float := do
  let extents := [("model", 0, geometric.coord 0), ("model", d - 1, geometric.coord (d - 1)),
    ("stratigraphic location", 0, stratigraphic.coord 0),
    ("implicit function", d - 1, stratigraphic.coord (d - 1))]
  for (what, axis, extent) in extents do
    if extent.isNaN || extent < minExtent then
      throw (.mapping (.degenerate s!"{what} has no extent along axis {axis}"))
  pure (stratigraphic.coord 0 * geometric.coord (d - 1) /
    (geometric.coord 0 * stratigraphic.coord (d - 1)))

/-- Rescales the implicit values so that stratigraphic space has the
proportions of the model's box; the factor used. -/
def rescaleToBox : Build Float := do
  let s ← get
  let some g := s.model.boundingBox | throw (.mapping (.degenerate "model has no extent"))
  let some b ← check s.boundingBox | throw (.mapping (.degenerate "stratigraphic space has no extent"))
  let factor ← check (scaleFactor s.dim g.diagonal b.diagonal)
  rescale factor
  pure factor

/-- Sets the isovalue of the stack horizon `h`. -/
def setIsovalue (h : Uuid) (value : Float) : Build Unit := do
  let _ ← check ((← get).stack.horizon h)
  modify fun s => { s with isovalues := s.isovalues.insert h (.ofFloat value) }

/-- Sets the locator parameters of mappings. -/
def setLocator (p : LocatorParams) : Build Unit := modify fun s => { s with locator := p }

/-- Copies `source` into the model, whose stack and isovalues must be empty,
and whose model must have no component. -/
def copy (source : StratigraphicModel) : Build Unit := do
  let s ← get
  if !s.stack.catalog.isEmpty || !s.isovalues.isEmpty then throw (.component .notEmpty)
  onModel (·.copyInto source.model)
  onStack (·.copyInto source.stack)
  modify fun s => { s with isovalues := source.isovalues, locator := source.locator }

end Build

namespace StratigraphicModel

/-- The content of `source` copied into `target`. -/
def copyInto (target source : StratigraphicModel) : Except Error StratigraphicModel :=
  match Build.runOn (Build.copy source) target with
  | (.ok (), s) => .ok s
  | (.error e, _) => .error e

end StratigraphicModel

end Subsurface
