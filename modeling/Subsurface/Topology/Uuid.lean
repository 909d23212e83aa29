/-!
Universally unique identifiers as 128-bit values.

An identifier is written in the canonical lowercase `8-4-4-4-12` hexadecimal
form. It is read from that form in any case, from 32 bare hexadecimal digits,
from the canonical form between braces, or after the `urn:uuid:` prefix in
any case. Its
sixteen bytes are the value in big-endian order, so comparing values compares
bytes.
-/

namespace Subsurface

/-- A 128-bit identifier. -/
structure Uuid where
  value : BitVec 128
  deriving DecidableEq, Inhabited, Hashable

namespace Uuid

instance : Ord Uuid := ⟨fun a b => compare a.value.toNat b.value.toNat⟩

instance : LT Uuid := ⟨fun a b => a.value.toNat < b.value.toNat⟩

instance (a b : Uuid) : Decidable (a < b) :=
  inferInstanceAs (Decidable (a.value.toNat < b.value.toNat))

/-- The identifier with the given numeric value, reduced modulo `2^128`. -/
def ofNat (n : Nat) : Uuid := ⟨BitVec.ofNat 128 n⟩

/-- Numeric value of an identifier. -/
def toNat (u : Uuid) : Nat := u.value.toNat

/-- Value of one hexadecimal digit, either case. -/
def hexValue (c : Char) : Option Nat :=
  if '0' ≤ c ∧ c ≤ '9' then some (c.toNat - '0'.toNat)
  else if 'a' ≤ c ∧ c ≤ 'f' then some (c.toNat - 'a'.toNat + 10)
  else if 'A' ≤ c ∧ c ≤ 'F' then some (c.toNat - 'A'.toNat + 10)
  else none

/-- Value of a string of hexadecimal digits, most significant first. -/
def hexDigits (cs : List Char) : Option Nat :=
  cs.foldlM (fun acc c => (hexValue c).map (acc * 16 + ·)) 0

/-- Reads 32 digits with hyphens after the 8th, 12th, 16th and 20th. -/
def readHyphenated (cs : List Char) : Option Uuid :=
  if cs.length = 36 ∧ cs[8]? = some '-' ∧ cs[13]? = some '-' ∧ cs[18]? = some '-' ∧
      cs[23]? = some '-' then
    let groups := [cs.take 8, (cs.drop 9).take 4, (cs.drop 14).take 4, (cs.drop 19).take 4, cs.drop 24]
    (hexDigits groups.flatten).map ofNat
  else none

/-- Reads an identifier in any of its accepted text forms. -/
def parse? (s : String) : Option Uuid :=
  let cs := s.toList
  if cs.length = 32 then (hexDigits cs).map ofNat
  else if cs.length = 36 then readHyphenated cs
  else if cs.length = 38 ∧ cs.head? = some '{' ∧ cs.getLast? = some '}' then
    readHyphenated ((cs.drop 1).take 36)
  else if cs.length = 45 ∧ (cs.take 9).map Char.toLower = "urn:uuid:".toList then
    readHyphenated (cs.drop 9)
  else none

/-- `n` lowercase hexadecimal digits of `v`, most significant first. -/
def hexText (n v : Nat) : List Char :=
  (List.range n).reverse.map fun i =>
    let d := (v / Nat.pow 16 i) % 16
    if d < 10 then Char.ofNat ('0'.toNat + d) else Char.ofNat ('a'.toNat + d - 10)

/-- The canonical lowercase hyphenated text. -/
def toText (u : Uuid) : String :=
  let h := hexText 32 u.toNat
  String.ofList (h.take 8 ++ '-' :: (h.drop 8).take 4 ++ '-' :: (h.drop 12).take 4 ++
    '-' :: (h.drop 16).take 4 ++ '-' :: h.drop 20)

/-- The sixteen bytes of an identifier, most significant first. -/
def toBytes (u : Uuid) : List UInt8 :=
  (List.range 16).reverse.map fun i => UInt8.ofNat (u.toNat / Nat.pow 256 i)

/-- The identifier whose big-endian bytes are `bs`. -/
def ofBytes (bs : List UInt8) : Uuid :=
  ofNat (bs.foldl (fun acc b => acc * 256 + b.toNat) 0)

/-- Whether `cs` starts with a hyphenated identifier text, in any case. -/
def isHyphenatedPrefix (cs : List Char) : Bool :=
  (cs.take 36).length == 36 &&
    ((cs.take 36).zipIdx.all fun (c, i) =>
      if i = 8 ∨ i = 13 ∨ i = 18 ∨ i = 23 then c == '-' else (hexValue c).isSome)

end Uuid

end Subsurface
