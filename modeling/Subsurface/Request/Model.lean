import Subsurface.Request.Session
import Subsurface.Request.Mesh
import Subsurface.Model.Edit
import Subsurface.Archive.Model
import Subsurface.Request.Operations
/-!
Requests on geological models: edits, queries and the model session.

A model is written as its dump: components in labelling order, counts by
kind, the non-empty relation lists of every component, the item meshes of
lines, surfaces and blocks, the bounding box and the reference system.
Edits that make an item read its mesh first, so that a bad mesh is reported
before a bad kind.
-/

namespace Subsurface.Request

/-! ## Answers -/

/-- A coordinate reference system or null. -/
def optCrsJson : Option CrsInfo → Json := optJson crsJson

/-- Per-component lists `[[id, [ids]], ...]`, for the components whose list
is not empty. -/
def relationListsJson (components : List Uuid) (f : Uuid → List Uuid) : Named Json := do
  let entries ← (components.filter fun c => !(f c).isEmpty).mapM fun c => do
    let k ← idJson c
    pure (Json.arr [k, ← idsJson (f c)])
  pure (.arr entries)

/-- The dump of a model. -/
def modelJson (m : Model) : Named Json := do
  let all := m.catalog.all
  let ids := all.map (·.id)
  let components ← componentsJson all
  let counts : Json := .obj [("faults", .nat (m.nbComponents .fault)),
    ("horizons", .nat (m.nbComponents .horizon)),
    ("fault_blocks", .nat (m.nbComponents .faultBlock)),
    ("stratigraphic_units", .nat (m.nbComponents .stratigraphicUnit)),
    ("lines", .nat (m.nbComponents .line)), ("surfaces", .nat (m.nbComponents .surface)),
    ("blocks", .nat (m.nbComponents .block))]
  let itemsOf ← relationListsJson ids m.itemsOf
  let collectionsOf ← relationListsJson ids m.collectionsOf
  let boundaries ← relationListsJson ids m.boundariesOf
  let incidences ← relationListsJson ids m.incidences
  let internalItems ← relationListsJson ids m.internalItems
  let embeddings ← relationListsJson ids m.embeddings
  let items := m.catalog.ids .line ++ m.catalog.ids .surface ++ m.catalog.ids .block
  let meshes ← items.mapM fun id => do
    let k ← idJson id
    pure (Json.arr [k, optJson (meshJson true) (m.meshes.get? id)])
  pure (.obj [("components", components), ("counts", counts), ("is_empty", .bool m.isEmpty),
    ("items_of", itemsOf), ("collections_of", collectionsOf), ("boundaries", boundaries),
    ("incidences", incidences), ("internal_items", internalItems), ("embeddings", embeddings),
    ("meshes", .arr meshes), ("bounding_box", boxJson m.boundingBox), ("crs", optCrsJson m.crs)])

/-! ## Reading -/

/-- A step field as a kind. -/
def stepKind (s : Json) (key : String) : Step ComponentKind := Step.ofReading (needKind s key)

/-- A step field as text. -/
def stepString (s : Json) (key : String) : Step String := Step.ofReading (needString s key)

/-- A step field as a natural number. -/
def stepNat (s : Json) (key : String) : Step Nat := Step.ofReading (needNat s key)

/-- A step field as a float. -/
def stepFloat (s : Json) (key : String) : Step Float := Step.ofReading (needFloat s key)

/-- A step field as a point. -/
def stepPoint (dim : Nat) (s : Json) (key : String) : Step Point := Step.ofReading (needPoint dim s key)

/-- A step field as a mesh, of the given kind or the one it names. -/
def stepMesh (dim : Nat) (kind : Option MeshKind) (s : Json) : Step SimplexMesh :=
  Step.ofReading (do asMesh dim kind (← need s "mesh"))

/-- A step field as a coordinate reference system. -/
def stepCrs (s : Json) (key : String) : Step CrsInfo := Step.ofReading (do asCrs (← need s key))

/-- A step field as an object. -/
def stepObject (s : Json) (key : String) : Step Json := Step.ofReading (need s key)

/-! ## Edits -/

/-- Collection kinds, by the word their edit steps use. -/
def collectionWords : List (String × ComponentKind) :=
  [("fault", .fault), ("horizon", .horizon), ("fault_block", .faultBlock),
    ("stratigraphic_unit", .stratigraphicUnit)]

/-- Item kinds with their mesh kinds, by the word their edit steps use. -/
def itemWords : List (String × ComponentKind × MeshKind) :=
  [("line", .line, .curve), ("surface", .surface, .surface), ("block", .block, .solid)]

/-- Every kind, by the word its steps use. -/
def kindWords : List (String × ComponentKind) :=
  collectionWords ++ itemWords.map fun (w, k, _) => (w, k)

/-- The typed membership steps: item kind and collection kind. -/
def typedMemberships : List (String × ComponentKind × ComponentKind) :=
  [("add_line_in_fault", .line, .fault), ("add_line_in_horizon", .line, .horizon),
    ("add_surface_in_fault", .surface, .fault), ("add_surface_in_horizon", .surface, .horizon),
    ("add_surface_in_fault_block", .surface, .faultBlock),
    ("add_surface_in_stratigraphic_unit", .surface, .stratigraphicUnit),
    ("add_block_in_fault_block", .block, .faultBlock),
    ("add_block_in_stratigraphic_unit", .block, .stratigraphicUnit)]

/-- The kind a prefixed or suffixed step word names. -/
def wordKind? (op pre post : String) : Option ComponentKind :=
  (kindWords.find? fun (w, _) => op == pre ++ w ++ post).map (·.2)

/-- An edit of the model that is not a removal or a rename, or none for
another step. -/
def modelChange (m : Model) (s : Json) : String → Option (Step (Json × Model))
  | "add_fault_with_type" => some do
    let t ← Step.ofReading (do asFaultType (← need s "type"))
    let id ← freshIdIn m.catalog
    let m ← Step.ofLibrary (m.addWithType id (.fault t))
    pure (← idJson id, m)
  | "add_horizon_with_type" => some do
    let t ← Step.ofReading (do asHorizonType (← need s "type"))
    let id ← freshIdIn m.catalog
    let m ← Step.ofLibrary (m.addWithType id (.horizon t))
    pure (← idJson id, m)
  | "set_fault_type" => some do
    let id ← needId s "id"
    let t ← Step.ofReading (do asFaultType (← need s "type"))
    pure (.null, ← Step.ofLibrary (m.setFaultType id t))
  | "set_item_mesh" => some do
    let id ← needId s "id"
    let mesh ← stepMesh m.dim none s
    pure (.null, ← Step.ofLibrary (m.setItemMesh id mesh))
  | "attr_declare" => some do
    let id ← needId s "id"
    let name ← stepString s "name"
    let d ← stepNat s "dimension"
    let (_, m) ← Step.ofLibrary (m.editAttributes id fun va => do pure ((), ← va.declare name d))
    pure (.null, m)
  | "attr_set" => some do
    let id ← needId s "id"
    let name ← stepString s "name"
    let vertex ← stepNat s "vertex"
    let value ← Step.ofReading (do asListOf asFloat (← need s "value"))
    let (_, m) ← Step.ofLibrary (m.editAttributes id fun va => do
      pure ((), ← va.setValue name vertex value))
    pure (.null, m)
  | "attr_unset" => some do
    let id ← needId s "id"
    let name ← stepString s "name"
    let vertex ← stepNat s "vertex"
    let (_, m) ← Step.ofLibrary (m.editAttributes id fun va => pure ((), va.unsetValue name vertex))
    pure (.null, m)
  | "attr_remove" => some do
    let id ← needId s "id"
    let name ← stepString s "name"
    let (found, m) ← Step.ofLibrary (m.editAttributes id fun va => pure (va.remove name))
    pure (.bool found, m)
  | "add_item_in_collection" => some do
    let item ← needId s "item"
    let collection ← needId s "collection"
    pure (.null, ← Step.ofLibrary (m.addItemInCollection item collection))
  | "remove_item_from_collection" => some do
    let item ← needId s "item"
    let collection ← needId s "collection"
    let (found, m) := m.removeItemFromCollection item collection
    pure (.bool found, m)
  | "add_boundary" => some do
    let boundary ← needId s "boundary"
    let incident ← needId s "incident"
    pure (.null, ← Step.ofLibrary (m.addBoundary boundary incident))
  | "add_internal" => some do
    let internal ← needId s "internal"
    let embedding ← needId s "embedding"
    pure (.null, ← Step.ofLibrary (m.addInternal internal embedding))
  | "remove_boundary" => some do
    let boundary ← needId s "boundary"
    let incident ← needId s "incident"
    let (found, m) := m.removeBoundary boundary incident
    pure (.bool found, m)
  | "remove_internal" => some do
    let internal ← needId s "internal"
    let embedding ← needId s "embedding"
    let (found, m) := m.removeInternal internal embedding
    pure (.bool found, m)
  | "set_crs" => some do
    pure (.null, m.setCrs (← stepCrs s "crs"))
  | "convert_crs" => some do
    let source ← stepCrs s "from"
    let target ← stepCrs s "to"
    let offset ← stepPoint m.dim s "offset"
    let goal ← stepCrs s "target"
    pure (.null, ← Step.ofLibrary (m.convertCrs (shiftTransform source target offset) goal))
  | op =>
    match typedMemberships.find? (·.1 == op) with
    | some (_, itemKind, collectionKind) => some do
      let item ← needId s "item"
      let collection ← needId s "collection"
      pure (.null, ← Step.ofLibrary (m.addTyped item itemKind collection collectionKind))
    | none =>
      match collectionWords.find? fun (w, _) => op == "add_" ++ w with
      | some (_, k) => some do
        let id ← freshIdIn m.catalog
        pure (← idJson id, m.addCollection k id)
      | none =>
      match collectionWords.find? fun (w, _) => op == "add_" ++ w ++ "_with_id" with
      | some (_, k) => some do
        let id ← needId s "id"
        pure (← idJson id, ← Step.ofLibrary (m.addCollectionWithId k id))
      | none =>
      match itemWords.find? fun (w, _) => op == "add_" ++ w with
      | some (_, k, mk) => some do
        let mesh ← stepMesh m.dim (some mk) s
        unless Model.supportsItemKind m.dim k do
          throw (.failed (.component (.unsupportedKind k m.dim)))
        let id ← freshIdIn m.catalog
        let m ← Step.ofLibrary (m.addItem k id true mesh)
        pure (← idJson id, m)
      | none =>
      match itemWords.find? fun (w, _) => op == "add_" ++ w ++ "_with_id" with
      | some (_, k, mk) => some do
        let id ← needId s "id"
        let mesh ← stepMesh m.dim (some mk) s
        let m ← Step.ofLibrary (m.addItem k id false mesh)
        pure (← idJson id, m)
      | none => none

/-- A rename, retype or removal, refused for stack nodes when `locked`, or
none for another step. -/
def modelNodeEdit (locked : Bool) (m : Model) (s : Json) : String → Option (Step (Json × Model))
  | "set_name" => some do
    let id ← needId s "id"
    let k ← stepKind s "kind"
    let name ← stepString s "name"
    pure (.null, ← Step.ofLibrary (m.setName locked id k name))
  | "set_horizon_type" => some do
    let id ← needId s "id"
    let t ← Step.ofReading (do asHorizonType (← need s "type"))
    pure (.null, ← Step.ofLibrary (m.setHorizonType locked id t))
  | op =>
    match wordKind? op "set_" "_name" with
    | some k => some do
      let id ← needId s "id"
      let name ← stepString s "name"
      pure (.null, ← Step.ofLibrary (m.setName locked id k name))
    | none =>
      match wordKind? op "remove_" "" with
      | some k => some do
        let id ← needId s "id"
        pure (.null, ← Step.ofLibrary (m.removeComponent locked id k))
      | none => none

/-- An edit of the model, or none for another step. -/
def modelEdit (locked : Bool) (m : Model) (s : Json) (op : String) : Option (Step (Json × Model)) :=
  (modelNodeEdit locked m s op).orElse fun _ => modelChange m s op

/-! ## Queries -/

/-- A query on the model, or none for another step. -/
def modelQuery (m : Model) (s : Json) : String → Option (Step Json)
  | "dump" => some (modelJson m)
  | "is_empty" => some (pure (.bool m.isEmpty))
  | "component" => some do componentJson (← Step.ofLibrary (m.component (← needId s "id")))
  | "component_of_kind" => some do
    let id ← needId s "id"
    componentJson (← Step.ofLibrary (m.componentOfKind id (← stepKind s "kind")))
  | "has_component" => some do return .bool (m.hasComponent (← needId s "id"))
  | "components" => some do componentsJson (m.components (← stepKind s "kind"))
  | "nb_components" => some do return .nat (m.nbComponents (← stepKind s "kind"))
  | "component_id_from_name" => some do
    let k ← stepKind s "kind"
    match m.componentIdFromName k (← stepString s "name") with
    | some id => idJson id
    | none => pure .null
  | "items_of" => some do idsJson (m.itemsOf (← needId s "id"))
  | "collections_of" => some do idsJson (m.collectionsOf (← needId s "id"))
  | "boundaries" => some do idsJson (m.boundariesOf (← needId s "id"))
  | "incidences" => some do idsJson (m.incidences (← needId s "id"))
  | "internal_items" => some do idsJson (m.internalItems (← needId s "id"))
  | "embeddings" => some do idsJson (m.embeddings (← needId s "id"))
  | "nb_items" => some do return .nat (m.nbItems (← needId s "id"))
  | "nb_collections" => some do return .nat (m.nbCollections (← needId s "id"))
  | "is_item_in_collection" => some do
    let item ← needId s "item"
    return .bool (m.isItemInCollection item (← needId s "collection"))
  | "is_boundary" => some do
    let item ← needId s "item"
    return .bool (m.isBoundary item (← needId s "parent"))
  | "is_internal" => some do
    let item ← needId s "item"
    return .bool (m.isInternal item (← needId s "parent"))
  | "mesh" => some do return meshJson true (← Step.ofLibrary (m.mesh (← needId s "id")))
  | "bounding_box" => some (pure (boxJson m.boundingBox))
  | "crs" => some (pure (optCrsJson m.crs))
  | "cell_kind" => some (pure (.str (kindKey (Model.cellKind m.dim))))
  | "facet_kind" => some (pure (.str (kindKey (Model.facetKind m.dim))))
  | "native_extension" => some (pure (.str (Model.nativeExtension m.dim)))
  | "supports_item_kind" => some do return .bool (Model.supportsItemKind m.dim (← stepKind s "kind"))
  | op =>
    match collectionWords.find? (·.1 == op) with
    | some (_, k) => some do componentJson (← Step.ofLibrary (m.componentOfKind (← needId s "id") k))
    | none =>
    match collectionWords.find? fun (w, _) => op == w ++ "_items" with
    | some (_, k) => some do idsJson (← Step.ofLibrary (m.itemsOfKind (← needId s "id") k))
    | none =>
    match itemWords.find? fun (w, _) => op == w ++ "_mesh" with
    | some (_, k, _) => some do
      return meshJson false (← Step.ofLibrary (m.meshOfKind (← needId s "id") k))
    | none => modelOperation m s op

/-! ## Sessions -/

/-- Models as session objects. -/
def modelKind (dim : Nat) : ObjectKind Model where
  name := "model"
  empty := Model.empty dim
  copyInto := Model.copyInto
  nativeExtension := Model.nativeExtension dim
  save := Model.save
  load := Model.load dim
  ids := fun m => m.catalog.all.map (·.id)

/-- Builds a model from the `{steps}` of the field `model` with `step`, as a
separate session labelling its identifiers after every step, and copies
it into `m`: the answers to its steps and whether the copy took place. -/
def copyModelFrom (step : Session Model → Json → Step (Json × Session Model)) (m : Model) (s : Json) :
    Step (Json × Model) := do
  let src ← stepObject s "model"
  let (answers, built) ← runSession step (Session.ids (modelKind m.dim)) ⟨Model.empty m.dim, none⟩
    (← Step.ofReading (needArray src "steps"))
  match m.copyInto built.current with
  | .ok m' => pure (.obj [("source_steps", .arr answers), ("copied", .bool true)], m')
  | .error e => pure (.obj [("source_steps", .arr answers), ("copied", ← failureJson (.failed e))], m)

/-- How deep models built inside steps may nest. -/
def nestingLimit : Nat := 256

/-- One step of a model session; `fuel` bounds the nesting of models built
inside steps. -/
def modelStep (fuel : Nat) (sess : Session Model) (s : Json) : Step (Json × Session Model) := do
  let op ← stepString s "op"
  let m := sess.current
  match fuel with
  | 0 => throw (.unreadable "steps nest too deeply")
  | fuel + 1 =>
  if op = "copy_from" then
    let (r, m') ← copyModelFrom (modelStep fuel) m s
    pure (r, { sess with current := m' })
  else
  match sessionStep (modelKind m.dim) sess s op with
  | some step => step
  | none =>
  match modelEdit false m s op with
  | some step => do
    let (r, m') ← step
    pure (r, { sess with current := m' })
  | none =>
  match modelQuery m s op with
  | some step => do pure (← step, sess)
  | none => throw (.unreadable s!"unknown model op {op}")

/-- Answers `model`: every step, then the dump of the current model. -/
def modelAnswer (j : Json) : Step Json := do
  let dim ← Step.ofReading (needDim j [2, 3])
  let steps ← Step.ofReading (needArray j "steps")
  let (answers, sess) ← runSession (modelStep nestingLimit) (Session.ids (modelKind dim))
    ⟨Model.empty dim, none⟩ steps
  pure (.obj [("steps", .arr answers), ("final", ← modelJson sess.current)])

end Subsurface.Request
