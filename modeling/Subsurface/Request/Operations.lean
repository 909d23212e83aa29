import Subsurface.Request.Mesh
import Subsurface.Request.Naming
import Subsurface.Stratigraphy.Mapping
import Subsurface.Stratigraphy.ItemMesh
/-!
Requests on the stratigraphic operations of a model: stratigraphic boxes and
coordinates, folded elements, facets carried into stratigraphic space, and
mesh mappings.

A mapping answers a list of queries, each with its own result or error:
`forward` and `inverse` carry a point from one space to the other,
`implicit` gives the implicit value at a geometric point, `vertex` the
stratigraphic point of a vertex (or null), and `item` the mapped cell.
-/

namespace Subsurface.Request

/-- A library result about mappings inside a step. -/
def Step.ofMapping {α : Type} (r : Except MappingError α) : Step α :=
  Step.ofLibrary (r.mapError .mapping)

/-- The answer to one mapping query. -/
def mappingQuery (mp : MeshMapping) (q : Json) : Step Json := do
  let fn ← Step.ofReading (needString q "fn")
  match fn with
  | "forward" => do
    let p ← Step.ofReading (needPoint mp.dim q "point")
    return pointJson (← Step.ofMapping (mp.forward p))
  | "inverse" => do
    let p ← Step.ofReading (needPoint mp.dim q "point")
    return pointJson (← Step.ofMapping (mp.inverse p))
  | "implicit" => do
    let p ← Step.ofReading (needPoint mp.dim q "point")
    return .float (← Step.ofMapping (mp.implicitValue p))
  | "vertex" => do
    let v ← Step.ofReading (needNat q "vertex")
    return optJson pointJson (mp.vertexPoint v)
  | "item" => idJson mp.item
  | _ => throw (.unreadable s!"unknown mapping query {fn}")

/-- The answers to mapping queries, each a result or an error. -/
def mappingAnswers (mp : MeshMapping) (queries : List Json) : Named Json := do
  return .arr (← queries.mapM fun q => answerOf (mappingQuery mp q))

/-- Pairs (cell, element) as `[id, element]`. -/
def elementPairsJson (pairs : List (Uuid × Nat)) : Named Json := do
  return .arr (← pairs.mapM fun (item, e) => do return Json.arr [← idJson item, .nat e])

/-- The optional identifier field `key`. -/
def optId (j : Json) (key : String) : Step (Option Uuid) :=
  match opt j key with
  | some v => do return some (← readId v)
  | none => pure none

/-- A stratigraphic operation on a model, or none for another step. -/
def modelOperation (m : Model) (s : Json) : String → Option (Step Json)
  | "strat_bbox" => some do
    let item ← optId s "item"
    return boxJson (← Step.ofLibrary (m.stratigraphicBox item))
  | "strat_coords_from_vertex" => some do
    let item ← needId s "item"
    let vertex ← Step.ofReading (needNat s "vertex")
    return pointJson (← Step.ofLibrary (m.stratigraphicCoordinates item vertex))
  | "invalid_elements" => some do elementPairsJson (← Step.ofLibrary m.invalidElements)
  | "strat_item_mesh" => some do
    let parent ← needId s "parent"
    let item ← needId s "item"
    let tolerance ← match opt s "tolerance" with
      | some t => Step.ofReading (asFloat t)
      | none => pure 1e-8
    let meshes ← Step.ofLibrary (m.stratigraphicItemMeshes parent item tolerance)
    return .arr (meshes.map (meshJson true))
  | "mapping" => some do
    let item ← needId s "item"
    let params ← match opt s "params" with
      | some p => Step.ofReading (asLocatorParams p)
      | none => pure {}
    let mp ← Step.ofLibrary (m.meshMapping item params)
    mappingAnswers mp (← Step.ofReading (needArray s "queries"))
  | _ => none

end Subsurface.Request
