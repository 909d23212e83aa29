import Subsurface.Topology.Component
/-!
Errors of the library, one family per concern, each with its message.

Every failing operation reports a cause: a component problem (unknown or
misplaced identifiers, kinds that do not fit), a horizons-stack problem
(rebinding, cycles, a column that is not linear), a mapping problem (missing
attributes, points outside a mesh, bad topology), an archive problem, or a
reference-system problem. `Error.label` names the family and the cause, and
`Error.message` says it in words.

Two more causes are not families of their own, and nothing can go on after
either; both are labelled `panic`. One is a range of stored values that a
computation needs but the values do not reach, which only a damaged file
makes. The other is storage larger than memory can address: more than
`2^63` bytes, which a huge attribute dimension asks for.
-/

namespace Subsurface

/-- Catalog and relation errors. -/
inductive ComponentError where
  | notFound (kind : ComponentKind) (id : Uuid)
  | unknownId (id : Uuid)
  | unsupportedKind (kind : ComponentKind) (dimension : Nat)
  | wrongKind (id : Uuid) (expected found : ComponentKind)
  | invalidRelation (item collection : Uuid) (reason : String)
  | duplicate (id : Uuid)
  | notEmpty
  | stackManaged (kind : ComponentKind) (id : Uuid)
  deriving DecidableEq, Inhabited

/-- Which side of a stack node a query looked at. -/
inductive Side where
  | above
  | under
  deriving DecidableEq, Inhabited

/-- Horizons-stack errors. -/
inductive StackError where
  | conflict (node existing requested : Uuid)
  | unbound (node : Uuid) (side : Side)
  | cycle (above under : Uuid)
  | invalidNames (detail : String)
  | notLinear (detail : String)
  | missingIsovalue (horizon : Uuid)
  | undefinedDirection
  deriving DecidableEq, Inhabited

/-- Stratigraphic mapping and mesh errors. -/
inductive MappingError where
  | missingAttribute (item : Uuid) (vertex : Nat) (key : String)
  | outsideMesh (item : Uuid)
  | notBoundaryNorInternal (item parent : Uuid)
  | attributeDimension (key : String) (expected found : Nat)
  | invalidTopology (detail : String)
  | degenerate (detail : String)
  | invalidAxis (axis dimension : Nat)
  deriving DecidableEq, Inhabited

/-- Archive reading and writing errors. -/
inductive ArchiveError where
  | io (detail : String)
  | encoding (detail : String)
  | unexpectedExtension (expected found : String)
  | unexpectedFormat
  deriving DecidableEq, Inhabited

/-- Coordinate reference system errors. -/
inductive CrsError where
  | unset
  | unknown (authority code : String)
  | transform (detail : String)
  deriving DecidableEq, Inhabited

/-- A range `start` to `stop` of stored values that a computation needs, of
`length` values in all, which does not lie within them. -/
structure RangeFault where
  start : Nat
  stop : Nat
  length : Nat
  deriving DecidableEq, Inhabited

/-- The fault in words: a start beyond the values is told first, then an end
beyond them, then a start after the end. -/
def RangeFault.message (r : RangeFault) : String :=
  if r.start > r.length then s!"range start index {r.start} out of range for slice of length {r.length}"
  else if r.stop > r.length then s!"range end index {r.stop} out of range for slice of length {r.length}"
  else s!"slice index starts at {r.start} but ends at {r.stop}"

/-- Any error of the library. -/
inductive Error where
  | component (e : ComponentError)
  | stack (e : StackError)
  | mapping (e : MappingError)
  | archive (e : ArchiveError)
  | crs (e : CrsError)
  | outOfRange (r : RangeFault)
  | capacityOverflow
  deriving DecidableEq, Inhabited

instance : Coe ComponentError Error := ⟨.component⟩
instance : Coe StackError Error := ⟨.stack⟩
instance : Coe MappingError Error := ⟨.mapping⟩
instance : Coe ArchiveError Error := ⟨.archive⟩
instance : Coe CrsError Error := ⟨.crs⟩

namespace Side

/-- The side in words. -/
def text : Side → String
  | .above => "above"
  | .under => "under"

end Side

namespace ComponentError

/-- Name of the cause. -/
def name : ComponentError → String
  | .notFound .. => "NotFound"
  | .unknownId .. => "UnknownId"
  | .unsupportedKind .. => "UnsupportedKind"
  | .wrongKind .. => "WrongKind"
  | .invalidRelation .. => "InvalidRelation"
  | .duplicate .. => "Duplicate"
  | .notEmpty => "NotEmpty"
  | .stackManaged .. => "StackManaged"

/-- The cause in words. -/
def message : ComponentError → String
  | .notFound k id => s!"{k.text} {id.toText} not found"
  | .unknownId id => s!"component {id.toText} is not registered"
  | .unsupportedKind k d => s!"{k.text} items are not supported in {d}D models"
  | .wrongKind id e f => s!"component {id.toText} is a {f.text}, expected a {e.text}"
  | .invalidRelation i c r => s!"cannot relate {i.toText} to {c.toText}: {r}"
  | .duplicate id => s!"component {id.toText} is already registered"
  | .notEmpty => "target must be empty before copy"
  | .stackManaged k id =>
    s!"{k.text} {id.toText} mirrors a horizons stack node and is edited through the stratigraphic builder"

end ComponentError

namespace StackError

/-- Name of the cause. -/
def name : StackError → String
  | .conflict .. => "Conflict"
  | .unbound .. => "Unbound"
  | .cycle .. => "Cycle"
  | .invalidNames .. => "InvalidNames"
  | .notLinear .. => "NotLinear"
  | .missingIsovalue .. => "MissingIsovalue"
  | .undefinedDirection => "UndefinedDirection"

/-- The cause in words. -/
def message : StackError → String
  | .conflict n e r => s!"{n.toText} is already bound to {e.toText}, cannot rebind to {r.toText}"
  | .unbound n s => s!"nothing is {s.text} {n.toText}"
  | .cycle a u => s!"placing {a.toText} above {u.toText} would close a cycle"
  | .invalidNames d => s!"invalid name lists: {d}"
  | .notLinear d => s!"stack is not a single linear column: {d}"
  | .missingIsovalue h => s!"horizon {h.toText} has no implicit value"
  | .undefinedDirection => "horizon isovalues do not define a stacking direction"

end StackError

namespace MappingError

/-- Name of the cause. -/
def name : MappingError → String
  | .missingAttribute .. => "MissingAttribute"
  | .outsideMesh .. => "OutsideMesh"
  | .notBoundaryNorInternal .. => "NotBoundaryNorInternal"
  | .attributeDimension .. => "AttributeDimension"
  | .invalidTopology .. => "InvalidTopology"
  | .degenerate .. => "Degenerate"
  | .invalidAxis .. => "InvalidAxis"

/-- The cause in words. -/
def message : MappingError → String
  | .missingAttribute i v a => s!"vertex {v} of {i.toText} has no value for attribute '{a}'"
  | .outsideMesh i => s!"query point lies outside the mesh of {i.toText}"
  | .notBoundaryNorInternal i p => s!"{i.toText} is neither a boundary nor an internal item of {p.toText}"
  | .attributeDimension a e f => s!"attribute '{a}' holds {e} values per vertex, got {f}"
  | .invalidTopology d => s!"invalid mesh topology: {d}"
  | .degenerate d => s!"degenerate geometry: {d}"
  | .invalidAxis a d => s!"axis {a} does not exist in {d}D"

end MappingError

namespace ArchiveError

/-- Name of the cause. -/
def name : ArchiveError → String
  | .io .. => "Io"
  | .encoding .. => "Encoding"
  | .unexpectedExtension .. => "UnexpectedExtension"
  | .unexpectedFormat => "UnexpectedFormat"

/-- The cause in words. -/
def message : ArchiveError → String
  | .io d => d
  | .encoding d => d
  | .unexpectedExtension e f => s!"expected a '.{e}' file, got '{f}'"
  | .unexpectedFormat => "file content is not a geostrata archive"

end ArchiveError

namespace CrsError

/-- Name of the cause. -/
def name : CrsError → String
  | .unset => "Unset"
  | .unknown .. => "Unknown"
  | .transform .. => "Transform"

/-- The cause in words. -/
def message : CrsError → String
  | .unset => "model has no coordinate reference system"
  | .unknown a c => s!"unknown coordinate reference system {a}:{c}"
  | .transform d => s!"coordinate transform failed: {d}"

end CrsError

namespace Error

/-- Family and cause, as `Family.Cause`. -/
def label : Error → String
  | .component e => "Component." ++ e.name
  | .stack e => "Stack." ++ e.name
  | .mapping e => "Mapping." ++ e.name
  | .archive e => "Persistence." ++ e.name
  | .crs e => "Crs." ++ e.name
  | .outOfRange _ | .capacityOverflow => "panic"

/-- The error in words. -/
def message : Error → String
  | .component e => e.message
  | .stack e => e.message
  | .mapping e => e.message
  | .archive e => e.message
  | .crs e => e.message
  | .outOfRange r => r.message
  | .capacityOverflow => "capacity overflow"

/-- Whether the error ends the whole computation. -/
def isFatal : Error → Bool
  | .outOfRange _ | .capacityOverflow => true
  | _ => false

end Error

end Subsurface
