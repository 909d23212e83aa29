import Subsurface.Archive.Model
import Subsurface.Stack.Edit
/-!
Horizon stacks in archives.

A stack is written as its nodes grouped by kind, its links as sorted pairs
(node, node directly under it), its erosions and baselaps as sorted
per-node lists, and whether it is built. Reading registers the nodes (a
repeated identifier fails), links every pair again (an unknown node, a cycle
or a conflict fails), restores the erosions and baselaps edge by edge, and
builds the column again when it was built.
-/

namespace Subsurface.Archive

/-- A stack as stored. -/
structure StackRecord where
  components : List Component
  abovePairs : List (Uuid × Uuid)
  erosions : List (Uuid × List Uuid)
  baselaps : List (Uuid × List Uuid)
  built : Bool

/-- The payload of a stack. -/
def putStack (s : HorizonStack) : List UInt8 :=
  putList putComponent s.catalog.all ++
    putList (fun (a, u) => putUuid a ++ putUuid u) s.abovePairs ++
    putLists s.erosions.childrenLists ++ putLists s.baselaps.childrenLists ++
    putBool (s.state == .built)

/-- Reads the payload of a stack. -/
def getStack : Decoder StackRecord := do
  let components ← getList getComponent
  let abovePairs ← getList (do
    let a ← getUuid
    let u ← getUuid
    pure (a, u))
  let erosions ← getLists
  let baselaps ← getLists
  let built ← getBool
  pure ⟨components, abovePairs, erosions, baselaps, built⟩

/-- The relation holding every listed edge, added in list order. -/
def relationOfChildren (lists : List (Uuid × List Uuid)) : Relation :=
  lists.foldl (fun r (p, cs) => cs.foldl (fun r c => (r.addEdge p c).2) r) Relation.empty

/-- The stack of dimension `dim` that a stored stack describes. -/
def StackRecord.restore (dim : Nat) (r : StackRecord) : Except Error HorizonStack := do
  let s ← r.components.foldlM (fun (s : HorizonStack) c => do
    pure (HorizonStack.touch { s with catalog := ← s.catalog.insert c })) (HorizonStack.empty dim)
  let s ← r.abovePairs.foldlM (fun (s : HorizonStack) (a, u) => do
    let _ ← s.catalog.get a
    let _ ← s.catalog.get u
    s.link a u) s
  let s := { s with erosions := relationOfChildren r.erosions, baselaps := relationOfChildren r.baselaps }
  if r.built then s.computeTopAndBottom else pure s

end Subsurface.Archive

namespace Subsurface.HorizonStack

/-- The file bytes of the stack saved at `path`. -/
def save (s : HorizonStack) (path : String) : Except Error (List UInt8) :=
  Archive.writeFile path (nativeExtension s.dim) (Archive.putStack s)

/-- The stack of dimension `dim` read from the file bytes at `path`. -/
def load (dim : Nat) (path : String) (bytes : List UInt8) : Except Error HorizonStack := do
  let r ← Archive.readFile path (nativeExtension dim) Archive.getStack bytes
  r.restore dim

end Subsurface.HorizonStack
