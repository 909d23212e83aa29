import Subsurface.Request.Naming
import Subsurface.Geometry.Simplex
/-!
Requests on simplices, points and boxes.

`orientation`, `barycentric`, `closest`, `interpolate` and `distance` answer
their value directly. `bbox` runs steps on a box that starts absent and
answers, for each step, its result and the box after it.
-/

namespace Subsurface.Request

/-- Answers `orientation`, `barycentric`, `closest`, `interpolate` or
`distance`. -/
def simplexAnswer (op : String) (j : Json) : Reading Json := do
  let d ← needDim j [1, 2, 3]
  match op with
  | "orientation" =>
    let vs ← needPoints d j "vertices"
    pure (optJson .float (Simplex.orientation d vs))
  | "barycentric" =>
    let vs ← needPoints d j "vertices"
    let p ← needPoint d j "point"
    pure (optJson floatsJson (Simplex.barycentric d vs p))
  | "closest" =>
    let vs ← needPoints d j "vertices"
    let p ← needPoint d j "point"
    pure (optJson floatsJson (Simplex.closestWeights d vs p))
  | "interpolate" =>
    let ps ← needPoints d j "points"
    let ws ← asListOf asFloat (← need j "weights")
    pure (pointJson (Point.interpolate d ps ws))
  | _ =>
    let a ← needPoint d j "a"
    let b ← needPoint d j "b"
    pure (.float (Point.distance a b))

/-- The box a non-empty point list spans. -/
def spannedBox (d : Nat) (j : Json) : Reading Box := do
  match Box.ofPoints (← needPoints d j "points") with
  | some b => pure b
  | none => reject "empty box"

/-- One box step: its result and the box after it. -/
def boxStep (d : Nat) (box : Option Box) (s : Json) : Reading (Json × Option Box) := do
  let op ← needString s "op"
  match op with
  | "from_points" => pure (.null, Box.ofPoints (← needPoints d s "points"))
  | "from_point" => pure (.null, some (Box.ofPoint (← needPoint d s "point")))
  | _ =>
    let some b := box | reject "no box"
    match op with
    | "add_point" => pure (.null, some (b.addPoint (← needPoint d s "point")))
    | "add_box" => pure (.null, some (b.addBox (← spannedBox d s)))
    | "contains" =>
      let p ← needPoint d s "point"
      let t ← needFloat s "tolerance"
      pure (.bool (b.contains p t), box)
    | "intersects" => pure (.bool (b.intersects (← spannedBox d s)), box)
    | "diagonal" => pure (pointJson b.diagonal, box)
    | _ => reject s!"unknown bbox op {op}"

/-- Answers `bbox`: every step with the box after it. -/
def boxAnswer (j : Json) : Reading Json := do
  let d ← needDim j [1, 2, 3]
  let steps ← needArray j "steps"
  pure <| labelled j do
    let (answers, _) ← runSteps (boxStep d) (fun r box => .obj [("result", r), ("box", boxJson box)])
      (fun a box => withFields a [("box", boxJson box)]) (none : Option Box) steps
    pure (.arr answers)

end Subsurface.Request
