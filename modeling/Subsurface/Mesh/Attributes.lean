import Subsurface.Error
import Subsurface.Numeric.Binary64
/-!
Named per-vertex attributes of a mesh.

Every attribute holds `dimension` floats for each vertex of the mesh and a
flag telling whether the vertex was assigned; the floats are kept as their
encodings, so a stored NaN keeps its bits. Attributes are kept sorted by
name. Declaring an existing attribute again with its own dimension changes
nothing, and with another dimension fails. Setting a value declares the
attribute with the value's length; unsetting only clears the flag, so the raw
values stay.

The number of floats is counted in 64-bit sizes, so a huge dimension wraps it
around. Storage that grows to more bytes than a signed 64-bit size holds, at
least `2^60` floats or `2^63` flags, is a capacity overflow.
-/

namespace Subsurface

/-- Values of one attribute: `dimension` encoded floats per vertex, and one
assigned flag per vertex. -/
structure Attribute where
  dimension : Nat
  values : Array Binary64
  assigned : Array Bool
  deriving Inhabited

namespace Attribute

/-- Number of floats stored for `nbVertices` vertices of `dimension` values:
the product, counted in 64-bit sizes, so modulo 2^64. -/
def slotCount (dimension nbVertices : Nat) : Nat := dimension * nbVertices % Nat.pow 2 64

/-- Fewest floats whose storage overflows: `2^60` floats take `2^63` bytes. -/
def maxSlots : Nat := Nat.pow 2 60

/-- Fewest flags whose storage overflows. -/
def maxFlags : Nat := Nat.pow 2 63

/-- An attribute with every slot unassigned and zero; a capacity overflow
when the floats or the flags do not fit. -/
def empty (dimension nbVertices : Nat) : Except Error Attribute :=
  let size := slotCount dimension nbVertices
  if maxSlots ≤ size ∨ maxFlags ≤ nbVertices then .error .capacityOverflow
  else .ok ⟨dimension, Array.replicate size .zero, Array.replicate nbVertices false⟩

/-- The stored value at `vertex` when assigned: the `dimension` encodings
from position `vertex · dimension`, both ends of the range taken modulo
2^64, or none when that range is not a range of the stored values. -/
def encoded? (a : Attribute) (vertex : Nat) : Option (List Binary64) :=
  if a.assigned.getD vertex false then
    let start := vertex * a.dimension % Nat.pow 2 64
    let stop := (start + a.dimension) % Nat.pow 2 64
    if start ≤ stop ∧ stop ≤ a.values.size then some (a.values.extract start stop).toList else none
  else none

/-- The value at `vertex` when assigned. -/
def value? (a : Attribute) (vertex : Nat) : Option (List Float) :=
  (a.encoded? vertex).map (·.map Binary64.toFloat)

/-- The attribute resized to `n` vertices; new slots are unassigned zeros.
Growing the floats or the flags beyond what fits is a capacity overflow. -/
def resize (a : Attribute) (n : Nat) : Except Error Attribute :=
  let size := slotCount a.dimension n
  if (a.values.size < size ∧ maxSlots ≤ size) ∨ (a.assigned.size < n ∧ maxFlags ≤ n) then
    .error .capacityOverflow
  else
    let values := if size ≤ a.values.size then a.values.extract 0 size
      else a.values ++ Array.replicate (size - a.values.size) .zero
    let assigned := if n ≤ a.assigned.size then a.assigned.extract 0 n
      else a.assigned ++ Array.replicate (n - a.assigned.size) false
    .ok ⟨a.dimension, values, assigned⟩

/-- The value of `vertex` replaced by `x` and marked assigned. -/
def write (a : Attribute) (vertex : Nat) (x : List Binary64) : Attribute :=
  let values := (x.zipIdx).foldl (fun vs (v, i) => vs.set! (vertex * a.dimension + i) v) a.values
  ⟨a.dimension, values, a.assigned.set! vertex true⟩

/-- Every assigned value transformed by `f`, coordinate by coordinate, in
vertex order. The value of a vertex is the range of `dimension` values from
`vertex · dimension` to `(vertex + 1) · dimension`, both ends taken modulo
2^64; the first assigned vertex whose range the stored values do not hold
is a fault. -/
def mapAssigned (a : Attribute) (f : Binary64 → Binary64) : Except Error Attribute := do
  let values ← (List.range a.assigned.size).foldlM (fun vs v =>
    if a.assigned.getD v false then
      let start := v * a.dimension % Nat.pow 2 64
      let stop := (v + 1) * a.dimension % Nat.pow 2 64
      if start ≤ stop ∧ stop ≤ vs.size then
        pure ((List.range' start (stop - start)).foldl (fun vs k => vs.set! k (f (vs.getD k .zero))) vs)
      else throw (.outOfRange ⟨start, stop, vs.size⟩)
    else pure vs) a.values
  pure { a with values := values }

end Attribute

/-- The attributes of a mesh with `nbVertices` vertices, sorted by name. -/
structure VertexAttributes where
  nbVertices : Nat
  entries : List (String × Attribute)
  deriving Inhabited

namespace VertexAttributes

/-- No attribute, for `n` vertices. -/
def new (n : Nat) : VertexAttributes := ⟨n, []⟩

/-- The attribute called `name`. -/
def attribute? (va : VertexAttributes) (name : String) : Option Attribute :=
  va.entries.lookup name

/-- Whether an attribute called `name` exists. -/
def has (va : VertexAttributes) (name : String) : Bool :=
  (va.attribute? name).isSome

/-- Attribute names in increasing order. -/
def names (va : VertexAttributes) : List String := va.entries.map (·.1)

/-- Inserts or replaces an entry, keeping names sorted. -/
def putEntry (entries : List (String × Attribute)) (name : String) (a : Attribute) :
    List (String × Attribute) :=
  match entries with
  | [] => [(name, a)]
  | (k, b) :: rest =>
    if name = k then (name, a) :: rest
    else if name < k then (name, a) :: (k, b) :: rest
    else (k, b) :: putEntry rest name a

/-- Declares `name` with `dimension` values per vertex. -/
def declare (va : VertexAttributes) (name : String) (dimension : Nat) :
    Except Error VertexAttributes :=
  match va.attribute? name with
  | some a =>
    if a.dimension ≠ dimension then .error (.mapping (.attributeDimension name a.dimension dimension))
    else .ok va
  | none => do
    let a ← Attribute.empty dimension va.nbVertices
    pure { va with entries := putEntry va.entries name a }

/-- Assigns the encodings `x` to `vertex`, declaring the attribute with
`x`'s length if needed. -/
def setEncoded (va : VertexAttributes) (name : String) (vertex : Nat) (x : List Binary64) :
    Except Error VertexAttributes := do
  if vertex ≥ va.nbVertices then
    throw (.mapping (.invalidTopology s!"vertex {vertex} out of range ({va.nbVertices} vertices)"))
  let va ← va.declare name x.length
  match va.attribute? name with
  | some a => pure { va with entries := putEntry va.entries name (a.write vertex x) }
  | none => pure va

/-- Assigns `x` to `vertex`, declaring the attribute with `x`'s length if
needed. -/
def setValue (va : VertexAttributes) (name : String) (vertex : Nat) (x : List Float) :
    Except Error VertexAttributes :=
  va.setEncoded name vertex (x.map Binary64.ofFloat)

/-- Marks `vertex` of `name` unassigned, when both exist. -/
def unsetValue (va : VertexAttributes) (name : String) (vertex : Nat) : VertexAttributes :=
  match va.attribute? name with
  | some a =>
    if vertex < a.assigned.size then
      { va with entries := putEntry va.entries name { a with assigned := a.assigned.set! vertex false } }
    else va
  | none => va

/-- The value of `name` at `vertex`, when assigned. -/
def value? (va : VertexAttributes) (name : String) (vertex : Nat) : Option (List Float) :=
  (va.attribute? name).bind (·.value? vertex)

/-- The stored value of `name` at `vertex`, when assigned. -/
def encoded? (va : VertexAttributes) (name : String) (vertex : Nat) : Option (List Binary64) :=
  (va.attribute? name).bind (·.encoded? vertex)

/-- Removes `name`; whether it existed. -/
def remove (va : VertexAttributes) (name : String) : Bool × VertexAttributes :=
  (va.has name, { va with entries := va.entries.filter (·.1 ≠ name) })

/-- Follows a change of the vertex count, attribute by attribute in name
order. -/
def resize (va : VertexAttributes) (n : Nat) : Except Error VertexAttributes := do
  let entries ← va.entries.mapM fun (k, a) => do pure (k, ← a.resize n)
  pure ⟨n, entries⟩

/-- Every assigned value of `name` transformed by `f`. -/
def mapAssigned (va : VertexAttributes) (name : String) (f : Binary64 → Binary64) :
    Except Error VertexAttributes :=
  match va.attribute? name with
  | some a => do pure { va with entries := putEntry va.entries name (← a.mapAssigned f) }
  | none => pure va

/-- Adds or replaces a whole attribute; refused when its flags do not count
the vertices. -/
def insertAttribute (va : VertexAttributes) (name : String) (a : Attribute) :
    Option VertexAttributes :=
  if a.assigned.size ≠ va.nbVertices then none
  else some { va with entries := putEntry va.entries name a }

end VertexAttributes

end Subsurface
