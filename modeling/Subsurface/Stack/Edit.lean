import Subsurface.Stack.Basic
import Subsurface.InPlace
/-!
Editing a horizon stack.

Nodes are added unlinked and linked one pair at a time: a horizon directly
under or above a unit. A link is refused when it would close a cycle, and
when either node is already linked on that side to another node; making an
existing link again changes nothing. Every change to the nodes or links
makes the stack one being built, and computing the top and bottom horizons
checks the column and makes it built.

Splitting a unit replaces it by a unit above and a unit under a new horizon,
named after it; they take over its links, the erosions that truncate it and
the baselaps it laps onto.

Removing a node and splitting a unit write in steps (`HorizonStack.Builder`):
both unlink the node before they unregister it, and a split then registers
and renames the new nodes before it links them. Each is run as a whole
(`InPlace.commit`), which keeps nothing of a failure.
-/

namespace Subsurface

namespace HorizonStack

/-- Marks the stack as changed: empty without nodes, being built otherwise,
with no known top or bottom. -/
def touch (s : HorizonStack) : HorizonStack :=
  { s with state := if s.catalog.isEmpty then .empty else .building, top := none, bottom := none }

/-- Adds an unlinked node of `kind` under the fresh identifier `id`. -/
def addNode (s : HorizonStack) (kind : ComponentKind) (id : Uuid) : HorizonStack :=
  touch { s with catalog := s.catalog.register (Component.new id kind) }

/-- Adds an unlinked node of `kind` under `id`, refusing a used identifier. -/
def addNodeWithId (s : HorizonStack) (kind : ComponentKind) (id : Uuid) : Except Error HorizonStack := do
  pure (touch { s with catalog := ← s.catalog.createWithId kind id })

/-- Renames the horizon `id`. -/
def setHorizonName (s : HorizonStack) (id : Uuid) (name : String) : Except Error HorizonStack := do
  pure { s with catalog := ← s.catalog.setName id .horizon name }

/-- Sets the type of the horizon `id`. -/
def setHorizonType (s : HorizonStack) (id : Uuid) (t : HorizonType) : Except Error HorizonStack := do
  pure { s with catalog := ← s.catalog.setType id (.horizon t) }

/-- Renames the stratigraphic unit `id`. -/
def setUnitName (s : HorizonStack) (id : Uuid) (name : String) : Except Error HorizonStack := do
  pure { s with catalog := ← s.catalog.setName id .stratigraphicUnit name }

/-- Links `above` directly above `under`. -/
def link (s : HorizonStack) (above under : Uuid) : Except Error HorizonStack := do
  if above == under || s.isAbove under above then throw (.stack (.cycle above under))
  match s.aboveOf.get? under with
  | some existing =>
    if existing == above then pure s
    else throw (.stack (.conflict under existing above))
  | none =>
    match s.underOf.get? above with
    | some existing => throw (.stack (.conflict above existing under))
    | none =>
      pure (touch { s with aboveOf := s.aboveOf.insert under above, underOf := s.underOf.insert above under })

/-- Checks that `horizon` is a horizon and `unit` a stratigraphic unit. -/
def checkPair (s : HorizonStack) (horizon unit : Uuid) : Except Error Unit := do
  let _ ← s.horizon horizon
  let _ ← s.unit unit

/-- Places `horizon` directly under `unit`. -/
def addHorizonUnder (s : HorizonStack) (horizon unit : Uuid) : Except Error HorizonStack := do
  s.checkPair horizon unit
  s.link unit horizon

/-- Places `horizon` directly above `unit`. -/
def addHorizonAbove (s : HorizonStack) (horizon unit : Uuid) : Except Error HorizonStack := do
  s.checkPair horizon unit
  s.link horizon unit

/-- Records that `erosion` truncates `eroded`. -/
def addErosion (s : HorizonStack) (erosion eroded : Uuid) : Except Error HorizonStack := do
  let _ ← s.catalog.get erosion
  let _ ← s.catalog.get eroded
  pure { s with erosions := (s.erosions.addEdge erosion eroded).2 }

/-- Records that `baselapTop` laps onto `baselap`. -/
def addBaselap (s : HorizonStack) (baselapTop baselap : Uuid) : Except Error HorizonStack := do
  let _ ← s.catalog.get baselapTop
  let _ ← s.catalog.get baselap
  pure { s with baselaps := (s.baselaps.addEdge baselapTop baselap).2 }

/-- Drops the links, erosions and baselaps of `id`. -/
def unlinkNode (s : HorizonStack) (id : Uuid) : HorizonStack :=
  let (above, aboveOf) := s.aboveOf.erase id
  let underOf := (match above with
    | some a => (s.underOf.erase a).2
    | none => s.underOf)
  let (under, underOf) := underOf.erase id
  let aboveOf := (match under with
    | some u => (aboveOf.erase u).2
    | none => aboveOf)
  let erosions := (s.erosions.removeNode id).2
  let baselaps := (s.baselaps.removeNode id).2
  { s with aboveOf := aboveOf, underOf := underOf, erosions := erosions, baselaps := baselaps }

/-- The nodes that replace a split unit. -/
structure UnitSplit where
  horizon : Uuid
  unitAbove : Uuid
  unitUnder : Uuid

namespace Builder

/-- Removes the node `id` of `kind` as the builder does: it checks the node,
drops its links and relations, then unregisters it. -/
def removeNode (id : Uuid) (kind : ComponentKind) : InPlace HorizonStack Unit := do
  let _ ← InPlace.lift ((← get).catalog.getOfKind id kind)
  modify (·.unlinkNode id)
  let (_, catalog) ← InPlace.lift ((← get).catalog.remove id kind)
  modify fun s => touch { s with catalog := catalog }

/-- Splits `unit` by a new horizon as the builder does, with `split` giving
the fresh identifiers of the new horizon and of the units above and under
it: it checks the unit, unlinks and unregisters it, registers and renames
the new nodes, links them in place of the unit, and hands its erosions and
baselaps over. -/
def splitUnit (unit : Uuid) (split : UnitSplit) : InPlace HorizonStack Unit := do
  let s ← get
  let name := (← InPlace.lift (s.unit unit)).name
  let above := s.aboveOf.get? unit
  let under := s.underOf.get? unit
  let erodedBy := s.erosions.parentsOf unit
  let lapsOnto := s.baselaps.childrenOf unit
  modify (·.unlinkNode unit)
  let (_, catalog) ← InPlace.lift ((← get).catalog.remove unit .stratigraphicUnit)
  modify fun s => { s with catalog := catalog }
  modify (·.addNode .horizon split.horizon)
  modify (·.addNode .stratigraphicUnit split.unitAbove)
  modify (·.addNode .stratigraphicUnit split.unitUnder)
  InPlace.apply (·.setUnitName split.unitAbove (name ++ "_above"))
  InPlace.apply (·.setUnitName split.unitUnder (name ++ "_under"))
  InPlace.apply (·.link split.unitAbove split.horizon)
  InPlace.apply (·.link split.horizon split.unitUnder)
  match above with
  | some a => InPlace.apply (·.link a split.unitAbove)
  | none => pure ()
  match under with
  | some u => InPlace.apply (·.link split.unitUnder u)
  | none => pure ()
  modify fun s =>
    { s with erosions := erodedBy.foldl (fun r e => (r.addEdge e split.unitAbove).2) s.erosions }
  modify fun s =>
    { s with baselaps := lapsOnto.foldl (fun r b => (r.addEdge split.unitUnder b).2) s.baselaps }

end Builder

/-- Removes the node `id` of `kind` and its relations. -/
def removeNode (s : HorizonStack) (id : Uuid) (kind : ComponentKind) : Except Error HorizonStack :=
  (Builder.removeNode id kind).commit s

/-- Splits `unit` by a new horizon, with `split` giving the fresh identifiers
of the new horizon and of the units above and under it. -/
def splitUnit (s : HorizonStack) (unit : Uuid) (split : UnitSplit) : Except Error HorizonStack :=
  (Builder.splitUnit unit split).commit s

/-- Checks that the nodes form one column and records its highest and lowest
horizons. -/
def computeTopAndBottom (s : HorizonStack) : Except Error HorizonStack := do
  let chain ← s.column
  let isHorizon (id : Uuid) : Bool := (s.horizon id).toBool
  match chain.find? isHorizon, chain.reverse.find? isHorizon with
  | some bottom, some top => pure { s with top := some top, bottom := some bottom, state := .built }
  | _, _ => throw (.stack (.notLinear "stack has no horizon"))

/-- The content of `source` copied into `target`, which must have no node. -/
def copyInto (target source : HorizonStack) : Except Error HorizonStack :=
  if !target.catalog.isEmpty then .error (.component .notEmpty)
  else .ok { source with dim := target.dim }

/-- Links a column listed from the top down, each node above the next. -/
def linkColumn (s : HorizonStack) : List Uuid → Except Error HorizonStack
  | a :: b :: rest => do
    let s ← s.link a b
    linkColumn s (b :: rest)
  | _ => pure s

/-- Whether a column of these name lists starts and ends with a unit: with
`h` horizons there must be `h - 1` units (horizons at both ends) or `h + 1`
(units at both ends). -/
def outerUnits? (horizons units : List String) : Option Bool :=
  if horizons.isEmpty then none
  else if units.length + 1 = horizons.length then some false
  else if units.length = horizons.length + 1 then some true
  else none

/-- The node names of such a column from the top down, each with its kind. -/
def columnNames (outer : Bool) (horizons units : List String) : List (ComponentKind × String) :=
  let unitAt (i : Nat) : List (ComponentKind × String) :=
    match units[i]? with
    | some u => [(.stratigraphicUnit, u)]
    | none => []
  let first := if outer then unitAt 0 else []
  let offset := if outer then 1 else 0
  first ++ (horizons.zipIdx.flatMap fun (h, i) =>
    (.horizon, h) :: (if i + 1 < horizons.length || outer then unitAt (i + offset) else []))

/-- The built stack whose column, from the top down, alternates the named
horizons and units; `fresh` gives the identifier of the `i`-th node made. -/
def ofNamesFromTop (dim : Nat) (horizons units : List String) (fresh : Nat → Uuid) :
    Except Error HorizonStack := do
  let some outer := outerUnits? horizons units
    | throw (.stack (.invalidNames s!"{horizons.length} horizons cannot alternate with {units.length} units"))
  let named := (columnNames outer horizons units).zipIdx
  let s ← named.foldlM (fun (s : HorizonStack) ((kind, name), i) => do
    let id := fresh i
    let s := s.addNode kind id
    if kind = .horizon then s.setHorizonName id name else s.setUnitName id name) (empty dim)
  let s ← s.linkColumn (named.map fun (_, i) => fresh i)
  s.computeTopAndBottom

/-- The built stack whose column, from the bottom up, alternates the named
horizons and units. -/
def ofNamesFromBottom (dim : Nat) (horizons units : List String) (fresh : Nat → Uuid) :
    Except Error HorizonStack :=
  ofNamesFromTop dim horizons.reverse units.reverse fresh

end HorizonStack

end Subsurface
