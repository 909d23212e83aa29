import Subsurface.Request.Naming
import Subsurface.Topology.Store
import Subsurface.Topology.Relation
import Subsurface.Crs
/-!
Requests on the topology containers: the component catalog, identifier sets,
relations, the registry of coordinate systems, and the facts about a kind.

Kinds are written by their key (`fault_block`), fault and horizon types by
name inside an object that says which (`{"fault": "Normal"}`), and a
component as its identifier, kind, name and type. Relation and set nodes are
small numbers standing for the identifier of that value, or identifier
texts; a node whose value fits in 64 bits is written back as its number.
-/

namespace Subsurface.Request

/-! ## Kinds, types and components -/

/-- The key a kind is written with in requests and answers. -/
def kindKey : ComponentKind → String
  | .fault => "fault"
  | .horizon => "horizon"
  | .faultBlock => "fault_block"
  | .stratigraphicUnit => "stratigraphic_unit"
  | .line => "line"
  | .surface => "surface"
  | .block => "block"

/-- Reads a kind key. -/
def asKind (j : Json) : Reading ComponentKind := do
  let s ← asString j
  match ComponentKind.all.find? (kindKey · == s) with
  | some k => pure k
  | none => reject s!"unknown kind {s}"

/-- The kind field `key`. -/
def needKind (j : Json) (key : String) : Reading ComponentKind := do asKind (← need j key)

/-- Reads a fault type name; anything else is refused, quoted as JSON. -/
def asFaultType (j : Json) : Reading FaultType :=
  match j with
  | .str s =>
    match FaultType.ofName? s with
    | some t => pure t
    | none => reject s!"unknown fault type {j.display}"
  | _ => reject s!"unknown fault type {j.display}"

/-- Reads a horizon type name; anything else is refused, quoted as JSON. -/
def asHorizonType (j : Json) : Reading HorizonType :=
  match j with
  | .str s =>
    match HorizonType.ofName? s with
    | some t => pure t
    | none => reject s!"unknown horizon type {j.display}"
  | _ => reject s!"unknown horizon type {j.display}"

/-- Reads a component type from an object: its `fault` field if it has one,
else its `horizon` field; other fields are ignored. -/
def asComponentType (j : Json) : Reading ComponentType :=
  match j.field? "fault", j.field? "horizon" with
  | some t, _ => do pure (.fault (← asFaultType t))
  | none, some t => do pure (.horizon (← asHorizonType t))
  | none, none => reject "type must be a fault type or a horizon type"

/-- A component type as written. -/
def componentTypeJson : ComponentType → Json
  | .fault t => .obj [("fault", .str t.name)]
  | .horizon t => .obj [("horizon", .str t.name)]

/-- A component as written, its identifier first. -/
def componentJson (c : Component) : Named Json := do
  let id ← idJson c.id
  pure (.obj [("id", id), ("kind", .str (kindKey c.kind)), ("name", .str c.name),
    ("type", optJson componentTypeJson c.type)])

/-- Identifiers as written, in list order. -/
def idsJson (ids : List Uuid) : Named Json := do
  pure (.arr (← ids.mapM idJson))

/-- Components as written, in list order. -/
def componentsJson (cs : List Component) : Named Json := do
  pure (.arr (← cs.mapM componentJson))

/-- Answers `kind_info`. -/
def kindInfoAnswer (j : Json) : Reading Json := do
  let k ← needKind j "kind"
  pure (.obj [("is_collection", .bool k.isCollection), ("is_item", .bool k.isItem),
    ("as_str", .str k.text), ("display", .str k.text)])

/-! ## Catalog -/

/-- One catalog step: its result and the catalog after it. -/
def catalogStep (c : Store) (s : Json) : Step (Json × Store) := do
  let op ← Step.ofReading (needString s "op")
  match op with
  | "create" =>
    let k ← Step.ofReading (needKind s "kind")
    let id ← freshIdOutside c.contains c.size
    pure (← idJson id, c.register (Component.new id k))
  | "create_with_id" =>
    let k ← Step.ofReading (needKind s "kind")
    let id ← needId s "id"
    let c ← Step.ofLibrary (c.createWithId k id)
    pure (← idJson id, c)
  | "insert" =>
    let id ← needId s "id"
    let k ← Step.ofReading (needKind s "kind")
    pure (.null, ← Step.ofLibrary (c.insert (Component.new id k)))
  | "contains" => pure (.bool (c.contains (← needId s "id")), c)
  | "get" =>
    let x ← Step.ofLibrary (c.get (← needId s "id"))
    pure (← componentJson x, c)
  | "get_of_kind" =>
    let id ← needId s "id"
    let x ← Step.ofLibrary (c.getOfKind id (← Step.ofReading (needKind s "kind")))
    pure (← componentJson x, c)
  | "set_name" =>
    let id ← needId s "id"
    let k ← Step.ofReading (needKind s "kind")
    let name ← Step.ofReading (needString s "name")
    pure (.null, ← Step.ofLibrary (c.setName id k name))
  | "set_type" =>
    let id ← needId s "id"
    let t ← Step.ofReading (do asComponentType (← need s "type"))
    pure (.null, ← Step.ofLibrary (c.setType id t))
  | "remove" =>
    let id ← needId s "id"
    let k ← Step.ofReading (needKind s "kind")
    let (x, c) ← Step.ofLibrary (InPlace.runResult (Store.remove id k) c)
    pure (← componentJson x, c)
  | "count" => pure (.nat (c.count (← Step.ofReading (needKind s "kind"))), c)
  | "len" => pure (.nat c.size, c)
  | "is_empty" => pure (.bool c.isEmpty, c)
  | "ids" => pure (← idsJson (c.ids (← Step.ofReading (needKind s "kind"))), c)
  | "iter" => pure (← componentsJson c.all, c)
  | "find_by_name" =>
    let k ← Step.ofReading (needKind s "kind")
    let name ← Step.ofReading (needString s "name")
    match c.findByName k name with
    | some id => pure (← idJson id, c)
    | none => pure (.null, c)
  | _ => throw (.unreadable s!"unknown catalog op {op}")

/-- Runs steps from a state, each answered as a result or an error; a failed
step leaves the state as it was. -/
def runNamedSteps {σ : Type} (step : σ → Json → Step (Json × σ)) (init : σ)
    (steps : List Json) : Named (List Json × σ) :=
  steps.foldlM (fun (acc, st) s => do
    match ← (step st s).run with
    | .ok (r, st') => pure (acc ++ [.obj [("result", r)]], st')
    | .error f => pure (acc ++ [← failureJson f], st)) ([], init)

/-- Answers `catalog`: every step, then the components. -/
def catalogAnswer (j : Json) : Step Json := do
  let steps ← Step.ofReading (needArray j "steps")
  let (answers, c) ← runNamedSteps catalogStep Store.empty steps
  pure (.obj [("steps", .arr answers), ("final", ← componentsJson c.all)])

/-! ## Identifier sets and relations -/

/-- Reads a node: a number standing for the identifier of that value, or an
identifier text. -/
def asNode (j : Json) : Reading Uuid :=
  match j with
  | .str s =>
    match Uuid.parse? s with
    | some u => pure u
    | none => reject s!"invalid uuid {s}"
  | _ => do pure (Uuid.ofNat (← asNat j))

/-- The node field `key`. -/
def needNode (j : Json) (key : String) : Reading Uuid := do asNode (← need j key)

/-- A node as written: its value when it fits in 64 bits, else its text. -/
def nodeJson (u : Uuid) : Json :=
  if u.toNat < Nat.pow 2 64 then .nat u.toNat else .str u.toText

/-- Nodes as written. -/
def nodesJson (ids : List Uuid) : Json := .arr (ids.map nodeJson)

/-- Per-node lists as written. -/
def listsJson (lists : List (Uuid × List Uuid)) : Json :=
  .arr (lists.map fun (k, vs) => .arr [nodeJson k, nodesJson vs])

/-- Reads per-node lists `[[node, [nodes]], ...]`. -/
def asLists (j : Json) : Reading (List (Uuid × List Uuid)) :=
  asListOf (fun e => do
    match ← asList e with
    | [k, vs] => pure (← asNode k, ← asListOf asNode vs)
    | _ => reject "expected [node, [nodes]]") j

/-- Answers `idset`: every step, the members and their number. -/
def idSetAnswer (j : Json) : Reading Json := do
  let init ← match opt j "from" with
    | some l => do pure (IdSet.ofList (← asListOf asNode l))
    | none => pure IdSet.empty
  let steps ← needArray j "steps"
  let step (s : IdSet) (st : Json) : Reading (Json × IdSet) := do
    match ← needString st "op" with
    | "insert" => let (b, s) := s.insert (← needNode st "id"); pure (.bool b, s)
    | "remove" => let (b, s) := s.erase (← needNode st "id"); pure (.bool b, s)
    | "contains" => pure (.bool (s.contains (← needNode st "id")), s)
    | "len" => pure (.nat s.size, s)
    | "is_empty" => pure (.bool s.isEmpty, s)
    | "iter" => pure (nodesJson s.toList, s)
    | op => reject s!"unknown idset op {op}"
  pure <| labelled j do
    let (answers, s) ← runSteps step (fun r _ => .obj [("result", r)]) (fun a _ => a) init steps
    pure (.obj [("steps", .arr answers), ("final", nodesJson s.toList), ("len", .nat s.size)])

/-- The observable state of a relation. -/
def relationJson (r : Relation) : Json :=
  .obj [("children", listsJson r.childrenLists), ("parents", listsJson r.parentsLists),
    ("nb_edges", .nat r.nbEdges), ("is_empty", .bool r.isEmpty)]

/-- One relation step: its result and the relation after it. -/
def relationStep (r : Relation) (s : Json) : Reading (Json × Relation) := do
  match ← needString s "op" with
  | "add_edge" =>
    let (b, r) := r.addEdge (← needNode s "parent") (← needNode s "child")
    pure (.bool b, r)
  | "remove_edge" =>
    let (b, r) := r.removeEdge (← needNode s "parent") (← needNode s "child")
    pure (.bool b, r)
  | "has_edge" => pure (.bool (r.hasEdge (← needNode s "parent") (← needNode s "child")), r)
  | "children_of" => pure (nodesJson (r.childrenOf (← needNode s "node")), r)
  | "parents_of" => pure (nodesJson (r.parentsOf (← needNode s "node")), r)
  | "nb_children" => pure (.nat (r.nbChildren (← needNode s "node")), r)
  | "nb_parents" => pure (.nat (r.nbParents (← needNode s "node")), r)
  | "nb_edges" => pure (.nat r.nbEdges, r)
  | "is_empty" => pure (.bool r.isEmpty, r)
  | "remove_node" =>
    let (n, r) := r.removeNode (← needNode s "node")
    pure (.nat n, r)
  | "from_lists" =>
    let children ← asLists (← need s "children")
    let parents ← asLists (← need s "parents")
    match Relation.ofLists children parents with
    | some r' => pure (.bool true, r')
    | none => pure (.bool false, r)
  | "rebuild" =>
    match Relation.ofLists r.childrenLists r.parentsLists with
    | some r' => pure (.bool true, r')
    | none => pure (.bool false, r)
  | op => reject s!"unknown graph op {op}"

/-- Answers `graph`: every step with the relation after it. -/
def relationAnswer (j : Json) : Reading Json := do
  let steps ← needArray j "steps"
  pure <| labelled j do
    let (answers, _) ← runSteps relationStep (fun v r => .obj [("result", v), ("state", relationJson r)])
      (fun a r => withFields a [("state", relationJson r)]) Relation.empty steps
    pure (.arr answers)

/-! ## Coordinate systems -/

/-- A coordinate system as written, with its `authority:code` text. -/
def crsJson (c : CrsInfo) : Json :=
  .obj [("authority", .str c.authority), ("code", .str c.code), ("display", .str c.display),
    ("name", .str c.name)]

/-- Reads a coordinate system. -/
def asCrs (j : Json) : Reading CrsInfo := do
  pure ⟨← needString j "authority", ← needString j "code", ← needString j "name"⟩

/-- One registry step: its result and the registry after it. -/
def registryStep (r : CrsRegistry) (s : Json) : Reading (Json × CrsRegistry) := do
  match ← needString s "op" with
  | "register" =>
    let (old, r) := r.register (← asCrs s)
    pure (optJson crsJson old, r)
  | "find" => pure (crsJson (← lift (r.find (← needString s "authority") (← needString s "code"))), r)
  | "len" => pure (.nat r.entries.length, r)
  | "is_empty" => pure (.bool r.entries.isEmpty, r)
  | "iter" => pure (.arr (r.entries.map crsJson), r)
  | op => reject s!"unknown crs_registry op {op}"

/-- Answers `crs_registry`: every step's answer. -/
def registryAnswer (j : Json) : Reading Json := do
  let steps ← needArray j "steps"
  pure <| labelled j do
    let (answers, _) ← runSteps registryStep (fun v _ => .obj [("result", v)]) (fun a _ => a)
      (⟨[]⟩ : CrsRegistry) steps
    pure (.arr answers)

end Subsurface.Request
