import Subsurface.Request.Model
import Subsurface.Archive.Stack
/-!
Requests on horizon stacks: edits, queries and the stack session.

A stack is written as its dump: state and counts, horizons and units, the
links of every node, the top and bottom horizons, the column and the horizon
names from the top (or the error that refuses them), and the erosion and
baselap pairs in node order. A session may start from name lists, listed from
the top or from the bottom of the column.
-/

namespace Subsurface.Request

/-! ## Answers -/

/-- An identifier or null. -/
def optIdJson (u : Option Uuid) : Named Json := do
  match u with
  | some id => idJson id
  | none => pure .null

/-- A result or the error that refuses it. -/
def resultOrError {α : Type} (f : α → Named Json) : Except Error α → Named Json
  | .ok a => f a
  | .error e => failureJson (.failed e)

/-- The pairs `[a, b]` of nodes, `a` then `b` in node order, for which
`related a b` holds. -/
def nodePairsJson (nodes : List Uuid) (related : Uuid → Uuid → Bool) : Named Json := do
  let pairs := nodes.flatMap fun a => (nodes.filter (related a)).map (a, ·)
  let items ← pairs.mapM fun (a, b) => do
    let x ← idJson a
    pure (Json.arr [x, ← idJson b])
  pure (.arr items)

/-- The dump of a stack. -/
def stackJson (s : HorizonStack) : Named Json := do
  let horizons ← componentsJson s.horizons
  let units ← componentsJson s.units
  let nodes := s.nodes
  let links ← nodes.mapM fun n => do
    let k ← idJson n
    let a ← optIdJson (s.aboveOf.get? n)
    pure (Json.arr [k, a, ← optIdJson (s.underOf.get? n)])
  let top ← optIdJson s.top
  let bottom ← optIdJson s.bottom
  let column ← resultOrError idsJson s.column
  let names ← resultOrError (fun ns => pure (.arr (ns.map .str))) s.horizonNamesFromTop
  let erosions ← nodePairsJson nodes fun a b => s.erosions.hasEdge a b
  let baselaps ← nodePairsJson nodes fun a b => s.baselaps.hasEdge a b
  pure (.obj [("state", .str s.state.name), ("nb_horizons", .nat s.nbHorizons),
    ("nb_stratigraphic_units", .nat s.nbUnits), ("horizons", horizons),
    ("stratigraphic_units", units), ("links", .arr links), ("top", top), ("bottom", bottom),
    ("column", column), ("horizon_names_from_top", names), ("erosions", erosions),
    ("baselaps", baselaps)])

/-! ## Building from names -/

/-- Builds a stack from an `init` description: name lists from the top of
the column when it has a `from_top_to_bottom` field, else from the bottom
when it has a `from_bottom_to_top` field; other fields are ignored. -/
def stackOfInit (dim : Nat) (init : Json) : Step (Except Error HorizonStack) := do
  let (fromTop, spec) ← match init.field? "from_top_to_bottom", init.field? "from_bottom_to_top" with
    | some spec, _ => pure (true, spec)
    | none, some spec => pure (false, spec)
    | none, none => throw (.unreadable "unknown stack init")
  let horizons ← Step.ofReading (do asListOf asString (← need spec "horizons"))
  let units ← Step.ofReading (do asListOf asString (← need spec "units"))
  let ids ← (List.range (horizons.length + units.length)).mapM fun _ => freshId
  let fresh (i : Nat) : Uuid := ids.getD i default
  pure (if fromTop then HorizonStack.ofNamesFromTop dim horizons units fresh
    else HorizonStack.ofNamesFromBottom dim horizons units fresh)

/-- The stack an optional `init` makes, and the answer to it: null, or the
error that left the stack empty. -/
def initStack (dim : Nat) (j : Json) : Step (Json × HorizonStack) := do
  match opt j "init" with
  | none => pure (.null, HorizonStack.empty dim)
  | some init =>
    match ← stackOfInit dim init with
    | .ok s => pure (.null, s)
    | .error e => pure (← failureJson (.failed e), HorizonStack.empty dim)

/-! ## Edits and queries -/

/-- An edit of the stack, or none for another step. -/
def stackEdit (s : HorizonStack) (st : Json) : String → Option (Step (Json × HorizonStack))
  | "add_horizon" => some do
    let id ← freshIdIn s.catalog
    pure (← idJson id, s.addNode .horizon id)
  | "add_stratigraphic_unit" => some do
    let id ← freshIdIn s.catalog
    pure (← idJson id, s.addNode .stratigraphicUnit id)
  | "add_horizon_with_id" => some do
    let id ← needId st "id"
    pure (← idJson id, ← Step.ofLibrary (s.addNodeWithId .horizon id))
  | "add_stratigraphic_unit_with_id" => some do
    let id ← needId st "id"
    pure (← idJson id, ← Step.ofLibrary (s.addNodeWithId .stratigraphicUnit id))
  | "set_horizon_name" => some do
    let id ← needId st "id"
    pure (.null, ← Step.ofLibrary (s.setHorizonName id (← stepString st "name")))
  | "set_horizon_type" => some do
    let id ← needId st "id"
    let t ← Step.ofReading (do asHorizonType (← need st "type"))
    pure (.null, ← Step.ofLibrary (s.setHorizonType id t))
  | "set_stratigraphic_unit_name" => some do
    let id ← needId st "id"
    pure (.null, ← Step.ofLibrary (s.setUnitName id (← stepString st "name")))
  | "add_horizon_under" => some do
    let h ← needId st "horizon"
    let u ← needId st "unit"
    pure (.null, ← Step.ofLibrary (s.addHorizonUnder h u))
  | "add_horizon_above" => some do
    let h ← needId st "horizon"
    let u ← needId st "unit"
    pure (.null, ← Step.ofLibrary (s.addHorizonAbove h u))
  | "add_erosion_relation" => some do
    let erosion ← needId st "erosion"
    let eroded ← needId st "eroded"
    pure (.null, ← Step.ofLibrary (s.addErosion erosion eroded))
  | "add_baselap_relation" => some do
    let top ← needId st "baselap_top"
    let baselap ← needId st "baselap"
    pure (.null, ← Step.ofLibrary (s.addBaselap top baselap))
  | "remove_horizon" => some do
    pure (.null, ← Step.ofLibrary (s.removeNode (← needId st "id") .horizon))
  | "remove_stratigraphic_unit" => some do
    pure (.null, ← Step.ofLibrary (s.removeNode (← needId st "id") .stratigraphicUnit))
  | "add_horizon_in_stratigraphic_unit" => some do
    let unit ← needId st "unit"
    let _ ← Step.ofLibrary (s.unit unit)
    let (h, a, u) ← splitIds s.catalog unit
    let split : HorizonStack.UnitSplit := ⟨h, a, u⟩
    let s ← Step.ofLibrary (s.splitUnit unit split)
    let h ← idJson split.horizon
    let a ← idJson split.unitAbove
    let u ← idJson split.unitUnder
    pure (.obj [("horizon", h), ("unit_above", a), ("unit_under", u)], s)
  | "compute_top_and_bottom_horizons" => some do
    pure (.null, ← Step.ofLibrary s.computeTopAndBottom)
  | _ => none

/-- A query on the stack, or none for another step. -/
def stackQuery (s : HorizonStack) (st : Json) : String → Option (Step Json)
  | "dump" => some (stackJson s)
  | "state" => some (pure (.str s.state.name))
  | "nb_horizons" => some (pure (.nat s.nbHorizons))
  | "nb_stratigraphic_units" => some (pure (.nat s.nbUnits))
  | "horizon" => some do componentJson (← Step.ofLibrary (s.horizon (← needId st "id")))
  | "stratigraphic_unit" => some do componentJson (← Step.ofLibrary (s.unit (← needId st "id")))
  | "horizons" => some (componentsJson s.horizons)
  | "stratigraphic_units" => some (componentsJson s.units)
  | "contains" => some do return .bool (s.contains (← needId st "id"))
  | "horizon_id_from_name" => some do optIdJson (s.horizonIdFromName (← stepString st "name"))
  | "stratigraphic_unit_id_from_name" => some do optIdJson (s.unitIdFromName (← stepString st "name"))
  | "above" => some do idJson (← Step.ofLibrary (s.above (← needId st "id")))
  | "under" => some do idJson (← Step.ofLibrary (s.under (← needId st "id")))
  | "is_above" => some do
    let a ← needId st "above"
    return .bool (s.isAbove a (← needId st "under"))
  | "top_horizon" => some (optIdJson s.top)
  | "bottom_horizon" => some (optIdJson s.bottom)
  | "is_eroded_by" => some do
    let eroded ← needId st "eroded"
    return .bool (s.isErodedBy eroded (← needId st "erosion"))
  | "is_baselap_of" => some do
    let baselap ← needId st "baselap"
    return .bool (s.isBaselapOf baselap (← needId st "baselap_top"))
  | "column" => some do idsJson (← Step.ofLibrary s.column)
  | "horizon_names_from_top" => some do
    return .arr ((← Step.ofLibrary s.horizonNamesFromTop).map .str)
  | "native_extension" => some (pure (.str (HorizonStack.nativeExtension s.dim)))
  | _ => none

/-! ## Sessions -/

/-- Stacks as session objects. -/
def stackKind (dim : Nat) : ObjectKind HorizonStack where
  name := "stack"
  empty := HorizonStack.empty dim
  copyInto := HorizonStack.copyInto
  nativeExtension := HorizonStack.nativeExtension dim
  save := HorizonStack.save
  load := HorizonStack.load dim
  ids := HorizonStack.nodes

/-- A stack built from `{init?, steps?}` as a separate session: the answers to
its init and steps, and the stack. -/
def buildStack (dim : Nat) (step : Session HorizonStack → Json → Step (Json × Session HorizonStack))
    (spec : Json) : Step (Json × List Json × HorizonStack) := do
  let (initAnswer, s) ← initStack dim spec
  sweep s.nodes
  let (answers, built) ← runSession step (Session.ids (stackKind dim)) ⟨s, none⟩ (← Step.ofReading (stackSteps spec))
  pure (initAnswer, answers, built.current)

/-- Builds a stack from the `{init?, steps?}` of the field `stack` with
`step` and copies it into `s`: the answers to its init and steps and whether
the copy took place. -/
def copyStackFrom (step : Session HorizonStack → Json → Step (Json × Session HorizonStack))
    (s : HorizonStack) (st : Json) : Step (Json × HorizonStack) := do
  let (initAnswer, answers, source) ← buildStack s.dim step (← stepObject st "stack")
  let (copied, s') ← match s.copyInto source with
    | .ok s' => pure (Json.bool true, s')
    | .error e => do pure (← failureJson (.failed e), s)
  pure (.obj [("source_init", initAnswer), ("source_steps", .arr answers), ("copied", copied)], s')

/-- One step of a stack session; `fuel` bounds the nesting of stacks built
inside steps. -/
def stackStep (fuel : Nat) (sess : Session HorizonStack) (st : Json) :
    Step (Json × Session HorizonStack) := do
  let op ← stepString st "op"
  let s := sess.current
  match fuel with
  | 0 => throw (.unreadable "steps nest too deeply")
  | fuel + 1 =>
  if op = "copy_from" then
    let (r, s') ← copyStackFrom (stackStep fuel) s st
    pure (r, { sess with current := s' })
  else
  match sessionStep (stackKind s.dim) sess st op with
  | some step => step
  | none =>
  match stackEdit s st op with
  | some step => do
    let (r, s') ← step
    pure (r, { sess with current := s' })
  | none =>
  match stackQuery s st op with
  | some step => do pure (← step, sess)
  | none => throw (.unreadable s!"unknown stack op {op}")

/-- Answers `stack`: the init, every step, then the dump of the current
stack. -/
def stackAnswer (j : Json) : Step Json := do
  let dim ← Step.ofReading (needDim j [2, 3])
  let steps ← Step.ofReading (stackSteps j)
  let (initAnswer, s) ← initStack dim j
  sweep s.nodes
  let (answers, sess) ← runSession (stackStep nestingLimit) (Session.ids (stackKind dim))
    ⟨s, none⟩ steps
  pure (.obj [("init", initAnswer), ("steps", .arr answers), ("final", ← stackJson sess.current)])

end Subsurface.Request
