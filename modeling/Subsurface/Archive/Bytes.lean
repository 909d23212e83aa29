import Subsurface.Archive.Utf8
import Subsurface.Topology.Uuid
import Subsurface.Numeric.Binary64
/-!
The binary layout of archives.

Integers are little-endian and of fixed width: tags of variants take four
bytes, lengths and sizes eight. A text is its byte length and its UTF-8
bytes; a list is its length and its items; an optional value is a tag byte,
0 or 1, and the value when present; a truth value is a byte 0 or 1; a float
is the eight bytes of its encoding; an identifier is the length 16 and
its sixteen bytes, most significant first.

Reading takes values from the front of a byte list and fails with the
message of the first problem: input that ends too early, text that is not
UTF-8, a tag or truth byte out of range, a variant index beyond the variants
of its type, or an identifier of another length than 16.
-/

namespace Subsurface.Archive

/-! ## Writing -/

/-- The `n` low bytes of `v`, least significant first. -/
def littleEndian (n v : Nat) : List UInt8 :=
  (List.range n).map fun i => (v / Nat.pow 256 i % 256).toUInt8

/-- A four-byte integer. -/
def putU32 (v : Nat) : List UInt8 := littleEndian 4 v

/-- An eight-byte integer. -/
def putU64 (v : Nat) : List UInt8 := littleEndian 8 v

/-- A truth value. -/
def putBool (b : Bool) : List UInt8 := [if b then 1 else 0]

/-- A float, by its encoding. -/
def putFloat (x : Binary64) : List UInt8 := putU64 x.bits.toNat

/-- A text. -/
def putString (s : String) : List UInt8 :=
  let bs := Utf8.encode s
  putU64 bs.length ++ bs

/-- An identifier. -/
def putUuid (u : Uuid) : List UInt8 := putU64 16 ++ u.toBytes

/-- A list, each item written by `f`. -/
def putList {α : Type} (f : α → List UInt8) (xs : List α) : List UInt8 :=
  putU64 xs.length ++ xs.flatMap f

/-- An optional value. -/
def putOption {α : Type} (f : α → List UInt8) : Option α → List UInt8
  | none => [0]
  | some a => 1 :: f a

/-! ## Reading -/

/-- A reader of values from the front of a byte list, failing with a
message. -/
abbrev Decoder := StateT (List UInt8) (Except String)

/-- Message of input that ends too early. -/
def endOfInput : String := "io error: failed to fill whole buffer"

/-- The first `n` bytes and the rest, when there are `n` bytes. -/
def splitExact : Nat → List UInt8 → Option (List UInt8 × List UInt8)
  | 0, bs => some ([], bs)
  | _ + 1, [] => none
  | n + 1, b :: bs => (splitExact n bs).map fun (p, r) => (b :: p, r)

/-- Reads `n` bytes. -/
def getBytes (n : Nat) : Decoder (List UInt8) := fun bs =>
  match splitExact n bs with
  | some r => .ok r
  | none => .error endOfInput

/-- The value of little-endian bytes. -/
def ofLittleEndian (bs : List UInt8) : Nat :=
  bs.foldr (fun b acc => b.toNat + 256 * acc) 0

/-- Reads one byte. -/
def getU8 : Decoder Nat := do return ofLittleEndian (← getBytes 1)

/-- Reads a four-byte integer. -/
def getU32 : Decoder Nat := do return ofLittleEndian (← getBytes 4)

/-- Reads an eight-byte integer. -/
def getU64 : Decoder Nat := do return ofLittleEndian (← getBytes 8)

/-- Reads a truth value. -/
def getBool : Decoder Bool := do
  match ← getU8 with
  | 0 => pure false
  | 1 => pure true
  | n => throw s!"invalid u8 while decoding bool, expected 0 or 1, found {n}"

/-- Reads a float, keeping its encoding. -/
def getFloat : Decoder Binary64 := do return ⟨(← getU64).toUInt64⟩

/-- Reads a text. -/
def getString : Decoder String := do
  let n ← getU64
  let bs ← getBytes n
  match Utf8.decode bs with
  | .ok s => pure s
  | .error f => throw s!"string is not valid utf8: {f.message}"

/-- Reads an identifier. -/
def getUuid : Decoder Uuid := do
  let n ← getU64
  let bs ← getBytes n
  if n ≠ 16 then throw s!"UUID parsing failed: invalid length: expected 16 bytes, found {n}"
  pure (Uuid.ofBytes bs)

/-- Reads the index of one of `count` variants. -/
def getVariant (count : Nat) : Decoder Nat := do
  let i ← getU32
  if i < count then pure i
  else throw s!"invalid value: integer \x60{i}\x60, expected variant index 0 <= i < {count}"

/-- Reads `n` items. -/
def getItems {α : Type} (item : Decoder α) : Nat → Decoder (List α)
  | 0 => pure []
  | n + 1 => do
    let x ← item
    let xs ← getItems item n
    pure (x :: xs)

/-- Reads a list. -/
def getList {α : Type} (item : Decoder α) : Decoder (List α) := do
  getItems item (← getU64)

/-- Reads an optional value. -/
def getOption {α : Type} (item : Decoder α) : Decoder (Option α) := do
  match ← getU8 with
  | 0 => pure none
  | 1 => pure (some (← item))
  | n => throw s!"tag for enum is not valid, found {n}"

/-- Runs a reader; the value and the bytes left. -/
def Decoder.runOn {α : Type} (d : Decoder α) (bs : List UInt8) : Except String (α × List UInt8) :=
  StateT.run d bs

end Subsurface.Archive
