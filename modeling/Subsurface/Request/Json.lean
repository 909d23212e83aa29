import Subsurface.Numeric.Decimal
/-!
JSON documents, the text form of requests and answers.

Numbers read from text keep their decimal numeral, so that `-0`, integers
beyond 2^53 and every double survive exactly; numbers written are either
natural numbers or doubles, and a double is always written with a point or an
exponent (`2.0`, `1e-06`). Non-finite doubles are written as the strings
`"NaN"`, `"inf"` and `"-inf"`.
-/

namespace Subsurface

/-- A JSON document. -/
inductive Json where
  | null
  | bool (b : Bool)
  | num (n : Decimal.Numeral)
  | nat (n : Nat)
  | float (x : Float)
  | str (s : String)
  | arr (items : List Json)
  | obj (fields : List (String × Json))
  deriving Inhabited

namespace Json

/-- Four lowercase hexadecimal digits of a code unit. -/
def hex4 (n : Nat) : String :=
  String.ofList ((List.range 4).reverse.map fun i =>
    let d := (n / Nat.pow 16 i) % 16
    if d < 10 then Char.ofNat ('0'.toNat + d) else Char.ofNat ('a'.toNat + d - 10))

/-- A character inside a quoted string: quote, backslash and control
characters escaped, everything else as itself. -/
def escapeChar (c : Char) : String :=
  if c = '"' then "\\\""
  else if c = '\\' then "\\\\"
  else if c = '\x08' then "\\b"
  else if c = '\x0c' then "\\f"
  else if c = '\n' then "\\n"
  else if c = '\r' then "\\r"
  else if c = '\t' then "\\t"
  else if c.toNat < 0x20 then "\\u" ++ hex4 c.toNat
  else String.singleton c

/-- A quoted string. -/
def quote (s : String) : String :=
  "\"" ++ String.join (s.toList.map escapeChar) ++ "\""

/-- Text of a numeral as read. -/
def numeralText (n : Decimal.Numeral) : String :=
  (if n.negative then "-" else "") ++ toString n.digits ++
    (if n.exponent = 0 then "" else "e" ++ toString n.exponent)

mutual
/-- Compact text of a document. -/
def render : Json → String
  | .null => "null"
  | .bool b => if b then "true" else "false"
  | .num n => numeralText n
  | .nat n => toString n
  | .float x =>
    if x.isNaN || x.isInf then quote (Decimal.render x) else Decimal.render x
  | .str s => quote s
  | .arr items => "[" ++ renderItems items ++ "]"
  | .obj fields => "\x7b" ++ renderFields fields ++ "\x7d"

/-- Comma-separated texts of array items. -/
def renderItems : List Json → String
  | [] => ""
  | [x] => render x
  | x :: rest => render x ++ "," ++ renderItems rest

/-- Comma-separated `"key":value` texts of object fields. -/
def renderFields : List (String × Json) → String
  | [] => ""
  | [(k, v)] => quote k ++ ":" ++ render v
  | (k, v) :: rest => quote k ++ ":" ++ render v ++ "," ++ renderFields rest
end

/-- Text of a number as read: an integer within 64 bits keeps its digits, any
other number is the double it denotes. -/
def numberText (n : Decimal.Numeral) : String :=
  if n.integral ∧ ¬n.negative ∧ n.digits < Nat.pow 2 64 then toString n.digits
  else if n.integral ∧ n.negative ∧ 0 < n.digits ∧ n.digits ≤ Nat.pow 2 63 then "-" ++ toString n.digits
  else Decimal.renderIn Decimal.FloatStyle.message n.toFloat

/-- `"key":text` entries sorted by key, comma-separated. -/
def joinSorted (entries : List (String × String)) : String :=
  ",".intercalate ((entries.mergeSort fun a b => decide (a.1 ≤ b.1)).map fun (k, t) => quote k ++ ":" ++ t)

mutual
/-- Compact text of a document as quoted in messages: numbers as read,
fields sorted by key, a double that is not finite as `null`. -/
def display : Json → String
  | .null => "null"
  | .bool b => if b then "true" else "false"
  | .num n => numberText n
  | .nat n => toString n
  | .float x => if x.isNaN || x.isInf then "null" else Decimal.renderIn Decimal.FloatStyle.message x
  | .str s => quote s
  | .arr items => "[" ++ ",".intercalate (displayItems items) ++ "]"
  | .obj fields => "\x7b" ++ joinSorted (displayFields fields) ++ "\x7d"

/-- Texts of array items, as quoted in messages. -/
def displayItems : List Json → List String
  | [] => []
  | x :: rest => display x :: displayItems rest

/-- Keys of object fields with the texts of their values, as quoted in
messages. -/
def displayFields : List (String × Json) → List (String × String)
  | [] => []
  | (k, v) :: rest => (k, display v) :: displayFields rest
end

/-- Value of the field `key` of an object, the first one if repeated. -/
def field? (j : Json) (key : String) : Option Json :=
  match j with
  | .obj fields => fields.lookup key
  | _ => none

end Json

end Subsurface
