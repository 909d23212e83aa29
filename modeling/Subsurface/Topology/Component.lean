import Subsurface.Topology.Uuid
/-!
Components of a geological model: their seven kinds, the kind-specific types
of faults and horizons, and the record of identity, name and type that the
catalog keeps for each.

The four collection kinds (fault, horizon, fault block, stratigraphic unit)
gather the three item kinds (line, surface, block), which carry meshes. A new
component is named `unknown` and has no type; setting a `NoType` type clears
the type.
-/

namespace Subsurface

/-- The seven kinds of component, collections first. -/
inductive ComponentKind where
  | fault
  | horizon
  | faultBlock
  | stratigraphicUnit
  | line
  | surface
  | block
  deriving DecidableEq, Inhabited, Repr

namespace ComponentKind

/-- Every kind, in the order queries and dumps list them. -/
def all : List ComponentKind :=
  [.fault, .horizon, .faultBlock, .stratigraphicUnit, .line, .surface, .block]

/-- Position of a kind in `all`, also its tag in archives. -/
def index : ComponentKind → Nat
  | .fault => 0
  | .horizon => 1
  | .faultBlock => 2
  | .stratigraphicUnit => 3
  | .line => 4
  | .surface => 5
  | .block => 6

/-- The kind at a position of `all`. -/
def ofIndex? (i : Nat) : Option ComponentKind := all[i]?

/-- Whether the kind gathers items. -/
def isCollection : ComponentKind → Bool
  | .fault | .horizon | .faultBlock | .stratigraphicUnit => true
  | .line | .surface | .block => false

/-- Whether the kind carries a mesh. -/
def isItem (k : ComponentKind) : Bool := !k.isCollection

/-- The kind in words, as messages print it. -/
def text : ComponentKind → String
  | .fault => "fault"
  | .horizon => "horizon"
  | .faultBlock => "fault block"
  | .stratigraphicUnit => "stratigraphic unit"
  | .line => "line"
  | .surface => "surface"
  | .block => "block"

theorem ofIndex_index (k : ComponentKind) : ofIndex? k.index = some k := by
  cases k <;> rfl

end ComponentKind

/-- Tectonic type of a fault. -/
inductive FaultType where
  | noType
  | normal
  | reverse
  | strikeSlip
  | listric
  | decollement
  deriving DecidableEq, Inhabited, Repr

/-- Depositional type of a horizon. -/
inductive HorizonType where
  | noType
  | conformal
  | nonConformal
  | topography
  | intrusion
  deriving DecidableEq, Inhabited, Repr

namespace FaultType

/-- Every fault type, in tag order. -/
def all : List FaultType := [.noType, .normal, .reverse, .strikeSlip, .listric, .decollement]

/-- Tag of a fault type in archives. -/
def index (t : FaultType) : Nat := (all.idxOf t)

/-- Name of a fault type. -/
def name : FaultType → String
  | .noType => "NoType"
  | .normal => "Normal"
  | .reverse => "Reverse"
  | .strikeSlip => "StrikeSlip"
  | .listric => "Listric"
  | .decollement => "Decollement"

/-- The fault type of a name. -/
def ofName? (s : String) : Option FaultType := all.find? (·.name == s)

end FaultType

namespace HorizonType

/-- Every horizon type, in tag order. -/
def all : List HorizonType := [.noType, .conformal, .nonConformal, .topography, .intrusion]

/-- Tag of a horizon type in archives. -/
def index (t : HorizonType) : Nat := (all.idxOf t)

/-- Name of a horizon type. -/
def name : HorizonType → String
  | .noType => "NoType"
  | .conformal => "Conformal"
  | .nonConformal => "NonConformal"
  | .topography => "Topography"
  | .intrusion => "Intrusion"

/-- The horizon type of a name. -/
def ofName? (s : String) : Option HorizonType := all.find? (·.name == s)

end HorizonType

/-- The type a fault or a horizon may carry. -/
inductive ComponentType where
  | fault (t : FaultType)
  | horizon (t : HorizonType)
  deriving DecidableEq, Inhabited, Repr

namespace ComponentType

/-- The kind a type belongs to. -/
def kind : ComponentType → ComponentKind
  | .fault _ => .fault
  | .horizon _ => .horizon

/-- The type as stored: `NoType` reads as no type at all. -/
def normalized : ComponentType → Option ComponentType
  | .fault .noType => none
  | .horizon .noType => none
  | t => some t

end ComponentType

/-- Name of every component until it is renamed. -/
def defaultName : String := "unknown"

/-- Identity, kind, name and type of a registered component. -/
structure Component where
  id : Uuid
  kind : ComponentKind
  name : String
  type : Option ComponentType
  deriving DecidableEq, Inhabited

namespace Component

/-- A fresh component: default name, no type. -/
def new (id : Uuid) (kind : ComponentKind) : Component := ⟨id, kind, defaultName, none⟩

/-- The component renamed. -/
def rename (c : Component) (name : String) : Component := { c with name := name }

/-- The component retyped; a `NoType` type clears it. -/
def retype (c : Component) (t : ComponentType) : Component := { c with type := t.normalized }

@[simp] theorem kind_rename (c : Component) (n : String) : (c.rename n).kind = c.kind := rfl
@[simp] theorem id_rename (c : Component) (n : String) : (c.rename n).id = c.id := rfl
@[simp] theorem kind_retype (c : Component) (t : ComponentType) : (c.retype t).kind = c.kind := rfl
@[simp] theorem id_retype (c : Component) (t : ComponentType) : (c.retype t).id = c.id := rfl

end Component

end Subsurface
