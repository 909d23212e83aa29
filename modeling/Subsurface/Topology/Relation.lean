import Subsurface.Topology.IdSet
/-!
Many-to-many relations between parents and children, such as the membership
of items in collections.

Both directions are stored: each parent with its children and each child with
its parents, in the order the edges were made, and no node is kept without an
edge. Removing a node drops every edge it has on either side, a loop from the
node to itself counting once. The per-node lists can be given back to rebuild
a relation, which succeeds only when both sides describe the same edges.
-/

namespace Subsurface

/-- Lists attached to nodes, one entry per node. -/
abbrev Adjacency := List (Uuid × IdSet)

namespace Adjacency

/-- The list attached to `node`, empty when it has none. -/
def get (a : Adjacency) (node : Uuid) : IdSet :=
  (a.lookup node).getD IdSet.empty

/-- Replaces the list of `node`, dropping the entry when the list is empty. -/
def put (a : Adjacency) (node : Uuid) (s : IdSet) : Adjacency :=
  if a.any (·.1 == node) then
    if s.isEmpty then a.filter (·.1 != node) else a.map fun (k, v) => if k == node then (k, s) else (k, v)
  else if s.isEmpty then a else a ++ [(node, s)]

/-- Total length of the lists. -/
def total (a : Adjacency) : Nat := a.foldl (fun n e => n + e.2.size) 0

/-- The entries sorted by node value, as plain lists. -/
def sorted (a : Adjacency) : List (Uuid × List Uuid) :=
  (a.map fun (k, v) => (k, v.toList)).mergeSort fun x y => x.1.toNat ≤ y.1.toNat

end Adjacency

/-- A relation, kept from both sides. -/
structure Relation where
  children : Adjacency
  parents : Adjacency
  deriving Inhabited

namespace Relation

/-- The relation without edges. -/
def empty : Relation := ⟨[], []⟩

/-- Children of `parent`, in edge order. -/
def childrenOf (r : Relation) (parent : Uuid) : List Uuid := (r.children.get parent).toList

/-- Parents of `child`, in edge order. -/
def parentsOf (r : Relation) (child : Uuid) : List Uuid := (r.parents.get child).toList

/-- Whether the edge exists. -/
def hasEdge (r : Relation) (parent child : Uuid) : Bool := (r.children.get parent).contains child

/-- Number of children of `parent`. -/
def nbChildren (r : Relation) (parent : Uuid) : Nat := (r.children.get parent).size

/-- Number of parents of `child`. -/
def nbParents (r : Relation) (child : Uuid) : Nat := (r.parents.get child).size

/-- Number of edges. -/
def nbEdges (r : Relation) : Nat := r.children.total

/-- Whether there is no edge. -/
def isEmpty (r : Relation) : Bool := r.children.isEmpty

/-- Adds the edge; whether it was new. -/
def addEdge (r : Relation) (parent child : Uuid) : Bool × Relation :=
  let (fresh, kids) := (r.children.get parent).insert child
  if !fresh then (false, r)
  else (true, ⟨r.children.put parent kids, r.parents.put child ((r.parents.get child).insert parent).2⟩)

/-- Removes the edge; whether it existed. -/
def removeEdge (r : Relation) (parent child : Uuid) : Bool × Relation :=
  if !r.hasEdge parent child then (false, r)
  else
    (true, ⟨r.children.put parent ((r.children.get parent).erase child).2,
      r.parents.put child ((r.parents.get child).erase parent).2⟩)

/-- Drops every edge of `node`, first those to its children, then those from
its parents; the number of edges dropped. -/
def removeNode (r : Relation) (node : Uuid) : Nat × Relation :=
  let kids := r.childrenOf node
  let r1 : Relation := ⟨r.children.put node IdSet.empty, r.parents⟩
  let r2 := kids.foldl (fun (acc : Relation) c =>
    ⟨acc.children, acc.parents.put c ((acc.parents.get c).erase node).2⟩) r1
  let ps := r2.parentsOf node
  let r3 : Relation := ⟨r2.children, r2.parents.put node IdSet.empty⟩
  let r4 := ps.foldl (fun (acc : Relation) p =>
    ⟨acc.children.put p ((acc.children.get p).erase node).2, acc.parents⟩) r3
  (kids.length + ps.length, r4)

/-- Children lists, one per parent, sorted by parent. -/
def childrenLists (r : Relation) : List (Uuid × List Uuid) := r.children.sorted

/-- Parent lists, one per child, sorted by child. -/
def parentsLists (r : Relation) : List (Uuid × List Uuid) := r.parents.sorted

/-- Adjacency from lists: empty lists are skipped, a later list for the same
node replaces an earlier one, and repetitions inside a list are dropped. -/
def adjacencyOf (lists : List (Uuid × List Uuid)) : Adjacency :=
  lists.foldl (fun a (k, vs) =>
    if vs.isEmpty then a
    else (a.filter (·.1 != k)) ++ [(k, IdSet.ofList vs)]) []

/-- The relation described by children and parent lists, when both describe
the same edges. -/
def ofLists (children parents : List (Uuid × List Uuid)) : Option Relation :=
  let r : Relation := ⟨adjacencyOf children, adjacencyOf parents⟩
  let symmetric := r.children.total == r.parents.total &&
    r.parents.all fun (c, ps) => ps.toList.all fun p => r.hasEdge p c
  if symmetric then some r else none

end Relation

end Subsurface
