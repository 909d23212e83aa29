import Subsurface.Request.Geometry
import Subsurface.Request.Mesh
import Subsurface.Request.Stratigraphy
import Subsurface.Request.Json.Reader
/-!
Answering one request line.

A request is a JSON object whose `op` field selects the operation; the answer
is one JSON document. A line that cannot be read as a request is answered
with a `BadInput` error.
-/

namespace Subsurface.Request

/-- The answer of a request that names identifiers, labels counted from zero. -/
def namedAnswer (j : Json) (s : Step Json) : Json :=
  labelled j do
    match ← s.run with
    | .ok v => pure v
    | .error f => failureJson f

/-- The answer to a request document. -/
def answer (j : Json) : Json :=
  let result : Reading Json := do
    let op ← needString j "op"
    match op with
    | "orientation" | "barycentric" | "closest" | "interpolate" | "distance" => simplexAnswer op j
    | "bbox" => boxAnswer j
    | "locate" => locateAnswer j
    | "delaunay" => delaunayAnswer j
    | "mesh" => meshAnswer j
    | "attributes" => attributesAnswer j
    | "catalog" => pure (namedAnswer j (catalogAnswer j))
    | "model" => pure (namedAnswer j (modelAnswer j))
    | "stack" => pure (namedAnswer j (stackAnswer j))
    | "strat" => pure (namedAnswer j (stratAnswer j))
    | "graph" => relationAnswer j
    | "idset" => idSetAnswer j
    | "crs_registry" => registryAnswer j
    | "kind_info" => kindInfoAnswer j
    | _ => reject s!"unknown op {op}"
  match result with
  | .ok v => v
  | .error f => labelled j (failureJson f)

/-- The answer to a request line, as compact JSON text. -/
def respond (line : String) : String :=
  match Json.parse line with
  | .ok j => (answer j).render
  | .error msg => (badInput s!"invalid JSON: {msg}").render

end Subsurface.Request
