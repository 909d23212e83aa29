import Subsurface.Error
import Subsurface.Geometry.Point
/-!
Coordinate reference systems.

A system is identified by an authority and a code and written
`authority:code`. The registry keeps one system per pair, sorted by authority
then code; registering a pair again replaces its entry. Converting
coordinates is the work of a transform, which maps a point from a source
system to a target system or fails.
-/

namespace Subsurface

/-- Identity of a coordinate reference system. -/
structure CrsInfo where
  authority : String
  code : String
  name : String
  deriving DecidableEq, Inhabited

namespace CrsInfo

/-- The `authority:code` text. -/
def display (c : CrsInfo) : String := c.authority ++ ":" ++ c.code

end CrsInfo

/-- Registered systems, sorted by authority then code. -/
structure CrsRegistry where
  entries : List CrsInfo
  deriving Inhabited

namespace CrsRegistry

/-- Order of registry keys. -/
def keyLt (a b : CrsInfo) : Bool :=
  a.authority < b.authority || (a.authority == b.authority && a.code < b.code)

/-- Registers `info`; the entry it replaces, if any. -/
def register (r : CrsRegistry) (info : CrsInfo) : Option CrsInfo × CrsRegistry :=
  let same (c : CrsInfo) := c.authority == info.authority && c.code == info.code
  let old := r.entries.find? same
  let rest := r.entries.filter (!same ·)
  (old, ⟨(rest.filter (keyLt · info)) ++ [info] ++ (rest.filter (!keyLt · info))⟩)

/-- The system registered under `authority` and `code`. -/
def find (r : CrsRegistry) (authority code : String) : Except Error CrsInfo :=
  match r.entries.find? (fun c => c.authority == authority && c.code == code) with
  | some c => .ok c
  | none => .error (.crs (.unknown authority code))

end CrsRegistry

/-- A conversion of stored point coordinates between systems. -/
abbrev CoordinateTransform := Array Binary64 → CrsInfo → CrsInfo → Except Error (Array Binary64)

/-- The transform that shifts every point by `offset` from `source` to
`target`, axis by axis, and refuses every other pair of systems. -/
def shiftTransform (source target : CrsInfo) (offset : Point) : CoordinateTransform :=
  fun p s t =>
    if s = source ∧ t = target then .ok (Array.zipWith Binary64.add p offset.encode)
    else .error (.crs (.transform s!"{s.display} -> {t.display}"))

end Subsurface
