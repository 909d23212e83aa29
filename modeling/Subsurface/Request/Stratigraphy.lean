import Subsurface.Request.Stack
import Subsurface.Archive.Stratigraphy
import Subsurface.Stratigraphy.Cache
/-!
Requests on stratigraphic models: edits, queries and the session.

A stratigraphic model is written as its dump: the model's dump, the stack's
dump, the isovalue of every stack horizon (null when unset), the stacking
direction the isovalues give (null when unknown), and the locator
parameters.

A step prefixed `model.` edits the model directly, with horizons and units
locked since they are stack nodes, or queries it; one prefixed `stack.`
edits or queries the stack alone. Other steps edit the stratigraphic model
as a whole or query it. Those edits keep the changes made before a failure,
so a failing step may still change the model. Every edit drops the mappings
the model kept; queries on points of a cell keep the cell's mapping.
-/

namespace Subsurface.Request

/-! ## Answers -/

/-- The dump of a stratigraphic model. -/
def stratJson (s : StratigraphicModel) : Named Json := do
  let model ← modelJson s.model
  let stack ← stackJson s.stack
  let isovalues ← s.stack.horizons.mapM fun h => do
    return Json.arr [← idJson h.id, optJson .float (s.isovalues.get? h.id)]
  pure (.obj [("model", model), ("stack", stack), ("isovalues", .arr isovalues),
    ("increasing", optJson .bool s.increasing), ("locator", locatorParamsJson s.locator)])

/-- The answer of an edit without result. -/
def noResult : Named Json := pure .null

/-! ## Edits and queries -/

/-- An edit of the stratigraphic model `s`, once the step is read, or none
for another step. New identifiers are drawn for the model's catalog, or, in
a split, for the stack's once the split unit is known to both. -/
def stratEdit (s : StratigraphicModel) (st : Json) : String → Option (Step (Build (Named Json)))
  | "add_horizon" => some do
    let id ← freshIdIn s.model.catalog
    pure (do Build.addHorizon id; pure (idJson id))
  | "add_stratigraphic_unit" => some do
    let id ← freshIdIn s.model.catalog
    pure (do Build.addUnit id; pure (idJson id))
  | "set_horizon_name" => some do
    let id ← needId st "id"
    let name ← stepString st "name"
    pure (do Build.setHorizonName id name; pure noResult)
  | "set_horizon_type" => some do
    let id ← needId st "id"
    let t ← Step.ofReading (do asHorizonType (← need st "type"))
    pure (do Build.setHorizonType id t; pure noResult)
  | "set_stratigraphic_unit_name" => some do
    let id ← needId st "id"
    let name ← stepString st "name"
    pure (do Build.setUnitName id name; pure noResult)
  | "remove_horizon" => some do
    let id ← needId st "id"
    pure (do Build.removeHorizon id; pure noResult)
  | "remove_stratigraphic_unit" => some do
    let id ← needId st "id"
    pure (do Build.removeUnit id; pure noResult)
  | "add_horizon_under" => some do
    let h ← needId st "horizon"
    let u ← needId st "unit"
    pure (do Build.addHorizonUnder h u; pure noResult)
  | "add_horizon_above" => some do
    let h ← needId st "horizon"
    let u ← needId st "unit"
    pure (do Build.addHorizonAbove h u; pure noResult)
  | "add_horizon_in_stratigraphic_unit" => some do
    let unit ← needId st "unit"
    let inModel := !s.model.hasComponent unit || (s.model.componentOfKind unit .stratigraphicUnit).toBool
    let (h, a, u) ← if inModel && (s.stack.unit unit).toBool then splitIds s.stack.catalog unit
      else pure (default, default, default)
    let split : HorizonStack.UnitSplit := ⟨h, a, u⟩
    pure (do
      Build.splitUnit unit split
      pure (do
        let h ← idJson split.horizon
        let a ← idJson split.unitAbove
        let u ← idJson split.unitUnder
        pure (.obj [("horizon", h), ("unit_above", a), ("unit_under", u)])))
  | "set_stratigraphic_coordinates" => some do
    let item ← needId st "item"
    let vertex ← stepNat st "vertex"
    let p ← stepPoint s.dim st "point"
    pure (do Build.setCoordinates item vertex p; pure noResult)
  | "set_stratigraphic_location" => some do
    let item ← needId st "item"
    let vertex ← stepNat st "vertex"
    let location ← Step.ofReading (do asListOf asFloat (← need st "location"))
    pure (do Build.setLocation item vertex location; pure noResult)
  | "set_implicit_value" => some do
    let item ← needId st "item"
    let vertex ← stepNat st "vertex"
    let value ← stepFloat st "value"
    pure (do Build.setImplicit item vertex value; pure noResult)
  | "implicit_values_from_scalar_field" => some do
    let item ← needId st "item"
    let field ← stepString st "field"
    pure (do Build.implicitFromField item field; pure noResult)
  | "stratigraphic_location_from_axes" => some do
    let axis ← stepNat st "axis"
    pure (do Build.locationFromAxes axis; pure noResult)
  | "rescale_implicit_values" => some do
    let factor ← stepFloat st "factor"
    pure (do Build.rescale factor; pure noResult)
  | "rescale_implicit_values_to_bbox_scale" => some do
    pure (do let f ← Build.rescaleToBox; pure (pure (.float f)))
  | "set_horizon_implicit_value" => some do
    let h ← needId st "horizon"
    let value ← stepFloat st "value"
    pure (do Build.setIsovalue h value; pure noResult)
  | "set_locator_params" => some do
    let params ← Step.ofReading (do asLocatorParams (← need st "params"))
    pure (do Build.setLocator params; pure noResult)
  | _ => none

/-- A query on the stratigraphic model, or none for another step. -/
def stratQuery (s : StratigraphicModel) (st : Json) : String → Option (Step Json)
  | "dump" => some (stratJson s)
  | "strat_coords_from_vertex_id" => some do
    let item ← needId st "item"
    let vertex ← stepNat st "vertex"
    return pointJson (← Step.ofLibrary (s.coordinatesFromVertex item vertex))
  | "strat_bounding_box" => some do return boxJson (← Step.ofLibrary s.boundingBox)
  | "implicit_value" => some do
    let item ← needId st "item"
    let vertex ← stepNat st "vertex"
    return .float (← Step.ofLibrary (s.implicitValue item vertex))
  | "horizon_implicit_value" => some do
    let h ← needId st "horizon"
    return optJson .float (← Step.ofLibrary (s.horizonIsovalue h))
  | "increasing_stack_isovalues" => some (pure (optJson .bool s.increasing))
  | "implicit_value_is_above_horizon" => some do
    let value ← stepFloat st "value"
    let h ← needId st "horizon"
    return .bool (← Step.ofLibrary (s.isAboveHorizon (Binary64.ofFloat value) h))
  | "containing_stratigraphic_unit" => some do
    let value ← stepFloat st "value"
    optIdJson (s.containingUnit (Binary64.ofFloat value))
  | "invalid_stratigraphic_elements" => some do elementPairsJson (← Step.ofLibrary s.invalidElements)
  | "stratigraphic_item_meshes" => some do
    let parent ← needId st "parent"
    let item ← needId st "item"
    return .arr ((← Step.ofLibrary (s.itemMeshes parent item)).map (meshJson false))
  | "locator_params" => some (pure (locatorParamsJson s.locator))
  | "native_extension" => some (pure (.str (StratigraphicModel.nativeExtension s.dim)))
  | _ => none

/-- A query answered from the mapping of a cell, which the model keeps, or
none for another step. The answer may still fail after the mapping is
built. -/
def stratMappingQuery (dim : Nat) (st : Json) : String → Option (Step (Query (Step Json)))
  | "strat_coords_from_point" => some do
    let item ← needId st "item"
    let p ← stepPoint dim st "point"
    return do return pure (pointJson (← Stratigraphic.coordinatesFromPoint item p))
  | "geom_coords_from_strat_point" => some do
    let item ← needId st "item"
    let p ← stepPoint dim st "point"
    return do return pure (pointJson (← Stratigraphic.geometricFromPoint item p))
  | "implicit_value_at" => some do
    let item ← needId st "item"
    let p ← stepPoint dim st "point"
    return do return pure (.float (← Stratigraphic.implicitValueAt item p))
  | "mapping" => some do
    let item ← needId st "item"
    return do
      let mp ← Stratigraphic.meshMapping item
      return do mappingAnswers mp (← Step.ofReading (needArray st "queries"))
  | _ => none

/-! ## Sessions -/

/-- Stratigraphic models as session objects; a model made by a copy or
read from a file keeps no mapping. -/
def stratKind (dim : Nat) : ObjectKind Stratigraphic where
  name := "strat"
  empty := .fresh (StratigraphicModel.empty dim)
  copyInto target source := Stratigraphic.fresh <$> target.strat.copyInto source.strat
  nativeExtension := StratigraphicModel.nativeExtension dim
  save c := c.strat.save
  load path bytes := Stratigraphic.fresh <$> StratigraphicModel.load dim path bytes
  ids c := c.strat.ids

/-- What a step does: answer with the session it leaves, run an edit on the
current model, or run a query that may keep a mapping. -/
inductive StratAction where
  | answer (r : Json) (sess : Session Stratigraphic)
  | edit (b : Build (Named Json))
  | query (q : Query (Step Json))

/-- The answer to a copy from a model built by steps. -/
def copiedJson (answers : List Json) (copied : Json) : Json :=
  .obj [("source_steps", .arr answers), ("copied", copied)]

/-- The step text after `pre`, when it starts with it. -/
def afterPrefix (pre op : String) : Option String :=
  if op.startsWith pre then some (String.ofList (op.toList.drop pre.length)) else none

/-- Reads one step of a stratigraphic session: `nested` runs the steps of a
stratigraphic model built inside it, `nestedModel` and `nestedStack` those of
models and stacks built inside it. -/
def stratPlan
    (nested : Session Stratigraphic → Json → Named (Except Failure Json × Session Stratigraphic))
    (nestedModel : Session Model → Json → Step (Json × Session Model))
    (nestedStack : Session HorizonStack → Json → Step (Json × Session HorizonStack))
    (sess : Session Stratigraphic) (st : Json) : Step StratAction := do
  let op ← stepString st "op"
  let s := sess.current.strat
  -- an edit through the model's or the stack's builder drops the kept mappings
  let keep (r : Json) (s' : StratigraphicModel) : StratAction := .answer r { sess with current := .fresh s' }
  let answered (r : Json) : StratAction := .answer r sess
  match afterPrefix "model." op with
  | some sub =>
    if sub = "copy_from" then
      let (r, m) ← copyModelFrom nestedModel s.model st
      return keep r { s with model := m }
    match modelEdit true s.model st sub with
    | some step => do
      let (r, m) ← step
      return keep r { s with model := m }
    | none =>
    match modelQuery s.model st sub with
    | some step => return answered (← step)
    | none => throw (.unreadable s!"unknown model op {sub}")
  | none =>
  match afterPrefix "stack." op with
  | some sub =>
    if sub = "copy_from" then
      let (r, k) ← copyStackFrom nestedStack s.stack st
      return keep r { s with stack := k }
    match stackEdit s.stack st sub with
    | some step => do
      let (r, k) ← step
      return keep r { s with stack := k }
    | none =>
    match stackQuery s.stack st sub with
    | some step => return answered (← step)
    | none => throw (.unreadable s!"unknown stack op {sub}")
  | none =>
  if op = "copy_from" then
    let src ← stepObject st "source"
    let (answers, built) ← runEdits nested (Session.ids (stratKind s.dim))
      ⟨.fresh (StratigraphicModel.empty s.dim), none⟩ (← Step.ofReading (needArray src "steps"))
    return .edit (tryCatch (do
        Build.copy built.current.strat
        pure (pure (copiedJson answers (.bool true))))
      fun e => pure (do return copiedJson answers (← failureJson (.failed e))))
  if op = "set_horizons_stack" then
    let (initAnswer, answers, stack) ← buildStack s.dim nestedStack (← stepObject st "stack")
    let setJson (set : Json) : Json :=
      .obj [("stack_init", initAnswer), ("stack_steps", .arr answers), ("set", set)]
    return .edit (tryCatch (do
        Build.setStack stack
        pure (pure (setJson (.bool true))))
      fun e => pure (do return setJson (← failureJson (.failed e))))
  match sessionStep (stratKind s.dim) sess st op with
  | some step => do
    let (r, sess') ← step
    return .answer r sess'
  | none =>
  match stratEdit s st op with
  | some plan => return .edit (← plan)
  | none =>
  match stratMappingQuery s.dim st op with
  | some plan => return .query (← plan)
  | none =>
  match stratQuery s st op with
  | some step => return answered (← step)
  | none => throw (.unreadable s!"unknown strat op {op}")

/-- One step of a stratigraphic session: its answer value or failure, and
the session after it. `fuel` bounds the nesting of objects built inside
steps. -/
def stratStep : Nat → Session Stratigraphic → Json →
    Named (Except Failure Json × Session Stratigraphic)
  | 0, sess, _ => pure (.error (.unreadable "steps nest too deeply"), sess)
  | fuel + 1, sess, st => do
    match ← (stratPlan (stratStep fuel) (modelStep fuel) (stackStep fuel) sess st).run with
    | .error f => pure (.error f, sess)
    | .ok (.answer r sess') => pure (.ok r, sess')
    | .ok (.edit b) =>
      match sess.current.edit b with
      | (.ok answer, c) => pure (.ok (← answer), { sess with current := c })
      | (.error e, c) => pure (.error (.failed e), { sess with current := c })
    | .ok (.query q) =>
      match q.runOn sess.current with
      | (.ok answer, c) =>
        match ← answer.run with
        | .ok r => pure (.ok r, { sess with current := c })
        | .error f => pure (.error f, { sess with current := c })
      | (.error e, c) => pure (.error (.failed e), { sess with current := c })

/-- Answers `strat`: the model steps of `from_model` when given, every step,
then the dump of the current stratigraphic model. -/
def stratAnswer (j : Json) : Step Json := do
  let dim ← Step.ofReading (needDim j [2, 3])
  let steps := stepsOf j
  let (init, s) ← match opt j "from_model" with
    | some spec => do
      let (answers, sess) ← runSession (modelStep nestingLimit) (Session.ids (modelKind dim))
        ⟨Model.empty dim, none⟩ (← Step.ofReading (needArray spec "steps"))
      pure (Json.obj [("model_steps", .arr answers)], StratigraphicModel.ofModel sess.current)
    | none => pure (.null, StratigraphicModel.empty dim)
  sweep s.ids
  let (answers, sess) ← runEdits (stratStep nestingLimit) (Session.ids (stratKind dim)) ⟨.fresh s, none⟩ steps
  pure (.obj [("init", init), ("steps", .arr answers), ("final", ← stratJson sess.current.strat)])

end Subsurface.Request
