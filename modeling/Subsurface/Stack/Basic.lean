import Subsurface.Topology.Catalog
import Subsurface.Topology.Relation
/-!
Horizon stacks: the depositional column of a model.

A stack holds horizons and stratigraphic units as nodes. Each node has at
most one node directly above it and one directly under it, and both
directions are stored, so that the node above the node under `x` is `x`.
Erosion and baselap relations are kept beside the column. A stack is empty,
being built, or built: built means its nodes were found to form one chain
from bottom to top, whose highest and lowest horizons are then known; any
change to the column makes it a stack being built again.
-/

namespace Subsurface

/-- Where a stack stands. -/
inductive StackState where
  /-- No node yet. -/
  | empty
  /-- Nodes exist; the column was not checked since the last change. -/
  | building
  /-- The column is one chain with known top and bottom horizons. -/
  | built
  deriving DecidableEq, Inhabited

namespace StackState

/-- The state in words. -/
def name : StackState → String
  | .empty => "Empty"
  | .building => "Building"
  | .built => "Built"

end StackState

/-- A map from nodes to nodes, at most one entry per key. -/
abbrev NodeMap := List (Uuid × Uuid)

namespace NodeMap

/-- The node `k` maps to. -/
def get? (m : NodeMap) (k : Uuid) : Option Uuid := m.lookup k

/-- Maps `k` to `v`, replacing an existing entry. -/
def insert (m : NodeMap) (k v : Uuid) : NodeMap := (m.filter (·.1 != k)) ++ [(k, v)]

/-- Drops the entry of `k`; the node it mapped to, if any. -/
def erase (m : NodeMap) (k : Uuid) : Option Uuid × NodeMap := (m.lookup k, m.filter (·.1 != k))

end NodeMap

/-- A column of horizons and stratigraphic units, for a model of dimension
`dim`. -/
structure HorizonStack where
  dim : Nat
  catalog : Catalog
  /-- The node directly above each node that has one. -/
  aboveOf : NodeMap
  /-- The node directly under each node that has one. -/
  underOf : NodeMap
  /-- Erosion surfaces and the nodes they truncate. -/
  erosions : Relation
  /-- Nodes that lap onto others, and the nodes they lap onto. -/
  baselaps : Relation
  state : StackState
  top : Option Uuid
  bottom : Option Uuid
  deriving Inhabited

namespace HorizonStack

/-- The stack without nodes. -/
def empty (dim : Nat) : HorizonStack :=
  ⟨dim, Catalog.empty, [], [], Relation.empty, Relation.empty, .empty, none, none⟩

/-- Extension of the files a stack of this dimension is saved to. -/
def nativeExtension (dim : Nat) : String := if dim = 2 then "og_hst2d" else "og_hst3d"

/-- Number of horizons. -/
def nbHorizons (s : HorizonStack) : Nat := s.catalog.count .horizon

/-- Number of stratigraphic units. -/
def nbUnits (s : HorizonStack) : Nat := s.catalog.count .stratigraphicUnit

/-- The horizon `id`. -/
def horizon (s : HorizonStack) (id : Uuid) : Except Error Component := s.catalog.getOfKind id .horizon

/-- The stratigraphic unit `id`. -/
def unit (s : HorizonStack) (id : Uuid) : Except Error Component :=
  s.catalog.getOfKind id .stratigraphicUnit

/-- Horizons, oldest first. -/
def horizons (s : HorizonStack) : List Component := s.catalog.ofKind .horizon

/-- Stratigraphic units, oldest first. -/
def units (s : HorizonStack) : List Component := s.catalog.ofKind .stratigraphicUnit

/-- Whether `id` is a node. -/
def contains (s : HorizonStack) (id : Uuid) : Bool := s.catalog.contains id

/-- The first horizon called `name`. -/
def horizonIdFromName (s : HorizonStack) (name : String) : Option Uuid :=
  s.catalog.findByName .horizon name

/-- The first stratigraphic unit called `name`. -/
def unitIdFromName (s : HorizonStack) (name : String) : Option Uuid :=
  s.catalog.findByName .stratigraphicUnit name

/-- The horizons, then the units, each oldest first. -/
def nodes (s : HorizonStack) : List Uuid := s.catalog.ids .horizon ++ s.catalog.ids .stratigraphicUnit

/-- The node directly above `id`. -/
def above (s : HorizonStack) (id : Uuid) : Except Error Uuid := do
  let _ ← s.catalog.get id
  match s.aboveOf.get? id with
  | some x => pure x
  | none => throw (.stack (.unbound id .above))

/-- The node directly under `id`. -/
def under (s : HorizonStack) (id : Uuid) : Except Error Uuid := do
  let _ ← s.catalog.get id
  match s.underOf.get? id with
  | some x => pure x
  | none => throw (.stack (.unbound id .under))

/-- Whether climbing at most `steps` links from `start` meets `target`. -/
def reaches (s : HorizonStack) (target : Uuid) : Nat → Uuid → Bool
  | 0, _ => false
  | steps + 1, start =>
    match s.aboveOf.get? start with
    | some next => next == target || s.reaches target steps next
    | none => false

/-- Whether `above` lies somewhere higher than `under` in the column; the
climb takes at most as many links as there are nodes. -/
def isAbove (s : HorizonStack) (above under : Uuid) : Bool :=
  s.reaches above s.catalog.size under

/-- Whether `erosion` truncates `eroded`. -/
def isErodedBy (s : HorizonStack) (eroded erosion : Uuid) : Bool := s.erosions.hasEdge erosion eroded

/-- Whether `baselapTop` laps onto `baselap`. -/
def isBaselapOf (s : HorizonStack) (baselap baselapTop : Uuid) : Bool :=
  s.baselaps.hasEdge baselapTop baselap

/-- The chain climbed from `start`: it fails once it grows beyond `limit`
nodes. -/
def climb (s : HorizonStack) (limit : Nat) (fuel : Nat) (acc : List Uuid) (current : Uuid) :
    Except Error (List Uuid) :=
  match fuel with
  | 0 => .error (.stack (.notLinear "column loops"))
  | fuel + 1 =>
    match s.aboveOf.get? current with
    | none => .ok acc
    | some next =>
      if acc.length > limit then .error (.stack (.notLinear "column loops"))
      else s.climb limit fuel (acc ++ [next]) next

/-- Every registered component from bottom to top, when they form exactly
one chain. -/
def column (s : HorizonStack) : Except Error (List Uuid) := do
  let all := s.catalog.all.map (·.id)
  match all.filter fun id => (s.underOf.get? id).isNone with
  | [bottom] =>
    let chain ← s.climb all.length (all.length + 2) [bottom] bottom
    if chain.length ≠ all.length then
      throw (.stack (.notLinear s!"{chain.length} of {all.length} nodes reachable from the bottom"))
    pure chain
  | _ => throw (.stack (.notLinear s!"expected a single bottom node among {all.length} nodes"))

/-- Horizon names from the top of the column down. -/
def horizonNamesFromTop (s : HorizonStack) : Except Error (List String) := do
  let chain ← s.column
  pure (chain.reverse.filterMap fun id => match s.horizon id with
    | .ok h => some h.name
    | .error _ => none)

/-- The pairs (node, node directly under it), sorted. -/
def abovePairs (s : HorizonStack) : List (Uuid × Uuid) :=
  s.underOf.mergeSort fun a b => a.1.toNat < b.1.toNat || (a.1 == b.1 && a.2.toNat ≤ b.2.toNat)

end HorizonStack

end Subsurface
