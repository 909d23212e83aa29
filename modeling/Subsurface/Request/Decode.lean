import Subsurface.Request.Json
import Subsurface.Geometry.Box
import Subsurface.Error
/-!
Reading request fields and writing answer values.

A field that is missing, or holds a value of the wrong shape, makes the
request unreadable; the reason is a short sentence, quoting the value
when it is of the wrong kind. Floats are read from numbers or from the
words `NaN`, `inf`, `Infinity`, their negatives and `-0`; indices and counts from integer
numerals below 2^64; points must have exactly the dimension of the
request. Optional flags count only when they are `true`. Steps are an array that most requests must give; a stack may
leave them out, and a stratigraphic model or a mesh takes anything else
as no steps.
-/

namespace Subsurface.Request

/-- Why a request step has no value: the request could not be read, or the
library refused it. -/
inductive Failure where
  | unreadable (message : String)
  | failed (e : Error)
  deriving Inhabited

/-- A value computed for a request, or why there is none. -/
abbrev Reading := Except Failure

/-- Refuses an unreadable request. -/
def reject {α : Type} (message : String) : Reading α := .error (.unreadable message)

/-- A library result inside a request. -/
def lift {α : Type} : Except Error α → Reading α
  | .ok a => .ok a
  | .error e => .error (.failed e)

/-- The field `key`, which must be present. -/
def need (j : Json) (key : String) : Reading Json :=
  match j.field? key with
  | some v => .ok v
  | none => reject s!"missing field '{key}'"

/-- The field `key` when present and not null. -/
def opt (j : Json) (key : String) : Option Json :=
  match j.field? key with
  | some .null => none
  | other => other

/-- Refuses a value that is not of the kind expected, quoting it. -/
def mismatch {α : Type} (kind : String) (j : Json) : Reading α :=
  reject s!"expected {kind}, got {j.display}"

/-- A float: a number, or a word that stands for one (`Decimal.ofWord?`). -/
def asFloat (j : Json) : Reading Float :=
  match j with
  | .num n => .ok n.toFloat
  | .str s =>
    match Decimal.ofWord? s with
    | some x => .ok x
    | none => mismatch "a number" j
  | _ => mismatch "a number" j

/-- A natural number below 2^64 written as an integer without sign; `-0`
is the double negative zero, not an integer. -/
def asNat (j : Json) : Reading Nat :=
  match j with
  | .num n =>
    if n.integral ∧ ¬ n.negative ∧ n.digits < Nat.pow 2 64 then .ok n.digits
    else mismatch "a non-negative integer" j
  | _ => mismatch "a non-negative integer" j

/-- A boolean. -/
def asBool (j : Json) : Reading Bool :=
  match j with
  | .bool b => .ok b
  | _ => mismatch "a boolean" j

/-- A string. -/
def asString (j : Json) : Reading String :=
  match j with
  | .str s => .ok s
  | _ => mismatch "a string" j

/-- An array. -/
def asList (j : Json) : Reading (List Json) :=
  match j with
  | .arr xs => .ok xs
  | _ => mismatch "an array" j

/-- Every item of an array, read the same way. -/
def asListOf {α : Type} (f : Json → Reading α) (j : Json) : Reading (List α) := do
  (← asList j).mapM f

/-- A point of dimension `dim`. -/
def asPoint (dim : Nat) (j : Json) : Reading Point := do
  let xs ← asListOf asFloat j
  if xs.length ≠ dim then reject s!"point must have {dim} coordinates, got {xs.length}"
  pure xs.toArray

/-- A list of points of dimension `dim`. -/
def asPoints (dim : Nat) (j : Json) : Reading (List Point) :=
  asListOf (asPoint dim) j

/-- The items of the array field `key`, which must be present. -/
def needArray (j : Json) (key : String) : Reading (List Json) := do
  match ← need j key with
  | .arr items => pure items
  | _ => reject s!"field '{key}' must be an array"

/-- An optional flag: true only when the field `key` holds `true`. -/
def flagOf (j : Json) (key : String) : Bool :=
  match j.field? key with
  | some (.bool b) => b
  | _ => false

/-- The steps of a request: the items of its `steps` field, none when the
field is missing or not an array. -/
def stepsOf (j : Json) : List Json :=
  match j.field? "steps" with
  | some (.arr items) => items
  | _ => []

/-- The steps of a stack: the items of its `steps` field, none when the
field is missing or null. -/
def stackSteps (j : Json) : Reading (List Json) :=
  match j.field? "steps" with
  | none | some .null => pure []
  | some (.arr items) => pure items
  | some _ => reject "steps must be an array"

/-- A float field. -/
def needFloat (j : Json) (key : String) : Reading Float := do asFloat (← need j key)

/-- A natural-number field. -/
def needNat (j : Json) (key : String) : Reading Nat := do asNat (← need j key)

/-- A string field. -/
def needString (j : Json) (key : String) : Reading String := do asString (← need j key)

/-- A point field. -/
def needPoint (dim : Nat) (j : Json) (key : String) : Reading Point := do asPoint dim (← need j key)

/-- A points field. -/
def needPoints (dim : Nat) (j : Json) (key : String) : Reading (List Point) := do
  asPoints dim (← need j key)

/-- The `dim` field, one of `allowed`. -/
def needDim (j : Json) (allowed : List Nat) : Reading Nat := do
  let d ← needNat j "dim"
  if allowed.contains d then pure d
  else
    let listed := ", ".intercalate (allowed.map toString)
    reject s!"dim must be one of [{listed}]"

/-! ## Answers -/

/-- An error answer. -/
def errorAnswer (label message : String) : Json :=
  .obj [("error", .str label), ("message", .str message)]

/-- The answer to an unreadable request. -/
def badInput (message : String) : Json := errorAnswer "BadInput" message

/-- The answer to a library error. -/
def libraryError (e : Error) : Json := errorAnswer e.label e.message

/-- The answer to a failure. -/
def Failure.answer : Failure → Json
  | .unreadable m => badInput m
  | .failed e => libraryError e

/-- A list of floats. -/
def floatsJson (xs : List Float) : Json := .arr (xs.map .float)

/-- A point. -/
def pointJson (p : Point) : Json := floatsJson p.toList

/-- A box, or null. -/
def boxJson : Option Box → Json
  | some b => .obj [("min", pointJson b.min), ("max", pointJson b.max)]
  | none => .null

/-- An optional value, null when absent. -/
def optJson {α : Type} (f : α → Json) : Option α → Json
  | some a => f a
  | none => .null

end Subsurface.Request
