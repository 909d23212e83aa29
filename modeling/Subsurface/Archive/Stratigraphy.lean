import Subsurface.Archive.Stack
import Subsurface.Stratigraphy.Edit
/-!
Stratigraphic models in archives.

A stratigraphic model is written as its model, its stack, and its isovalues
sorted by horizon. Reading restores the model, then the stack, then the
isovalues, a repeated horizon keeping its last value; the locator
parameters are not stored and come back as the defaults.
-/

namespace Subsurface.Archive

/-- A stratigraphic model as stored. -/
structure StratigraphicRecord where
  model : ModelRecord
  stack : StackRecord
  isovalues : List (Uuid × Binary64)

/-- The payload of a stratigraphic model. -/
def putStratigraphic (s : StratigraphicModel) : List UInt8 :=
  putModel s.model ++ putStack s.stack ++
    putList (fun (h, v) => putUuid h ++ putFloat v) s.isovalues.sorted

/-- Reads the payload of a stratigraphic model. -/
def getStratigraphic : Decoder StratigraphicRecord := do
  let model ← getModel
  let stack ← getStack
  let isovalues ← getList (do
    let h ← getUuid
    let v ← getFloat
    pure (h, v))
  pure ⟨model, stack, isovalues⟩

/-- The stratigraphic model of dimension `dim` that a stored one
describes. -/
def StratigraphicRecord.restore (dim : Nat) (r : StratigraphicRecord) :
    Except Error StratigraphicModel := do
  let model ← r.model.restore dim
  let stack ← r.stack.restore dim
  let isovalues := r.isovalues.foldl (fun (m : IsovalueMap) (h, v) => m.insert h v) []
  pure ⟨model, stack, isovalues, {}⟩

end Subsurface.Archive

namespace Subsurface.StratigraphicModel

/-- The file bytes of the stratigraphic model saved at `path`. -/
def save (s : StratigraphicModel) (path : String) : Except Error (List UInt8) :=
  Archive.writeFile path (nativeExtension s.dim) (Archive.putStratigraphic s)

/-- The stratigraphic model of dimension `dim` read from the file bytes at
`path`. -/
def load (dim : Nat) (path : String) (bytes : List UInt8) : Except Error StratigraphicModel := do
  let r ← Archive.readFile path (nativeExtension dim) Archive.getStratigraphic bytes
  r.restore dim

end Subsurface.StratigraphicModel
