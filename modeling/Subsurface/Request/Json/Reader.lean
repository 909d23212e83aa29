import Subsurface.Request.Json
/-!
Reading JSON text.

The grammar is the strict one of RFC 8259, with containers nested at most
127 deep. A document that breaks it is refused with the first fault met
while reading from left to right, and with where reading stood: the line,
and the column counted in bytes from the start of the line. A fault seen
while looking at the next character without taking it stands one byte past
the current position (at the end of the text, there); a fault found on
taking a character stands past that character's first byte.

A number keeps its decimal numeral; one whose nearest double is infinite is
refused once it has been read, and so is one whose exponent, read digit by
digit, exceeds `2^31 - 1` while the numeral is positive-exponent and nonzero,
at the digit where it does. A string's `\u` escapes must pair surrogates,
and control characters must be escaped. When a key is repeated, its last
value is kept, at the place of its first.
-/

namespace Subsurface.Json

/-- A fault of JSON text. -/
inductive Fault where
  | eofInList
  | eofInObject
  | eofInString
  | eofInValue
  | expectedColon
  | expectedListCommaOrEnd
  | expectedObjectCommaOrEnd
  | expectedIdent
  | expectedValue
  | invalidEscape
  | invalidNumber
  | numberOutOfRange
  | controlCharacter
  | keyMustBeString
  | loneLeadingSurrogate
  | trailingComma
  | trailingCharacters
  | unexpectedEndOfHexEscape
  | recursionLimit
  deriving DecidableEq, Repr

/-- The text of a fault. -/
def Fault.message : Fault → String
  | .eofInList => "EOF while parsing a list"
  | .eofInObject => "EOF while parsing an object"
  | .eofInString => "EOF while parsing a string"
  | .eofInValue => "EOF while parsing a value"
  | .expectedColon => "expected `:`"
  | .expectedListCommaOrEnd => "expected `,` or `]`"
  | .expectedObjectCommaOrEnd => "expected `,` or `\x7d`"
  | .expectedIdent => "expected ident"
  | .expectedValue => "expected value"
  | .invalidEscape => "invalid escape"
  | .invalidNumber => "invalid number"
  | .numberOutOfRange => "number out of range"
  | .controlCharacter => "control character (\\u0000-\\u001F) found while parsing a string"
  | .keyMustBeString => "key must be a string"
  | .loneLeadingSurrogate => "lone leading surrogate in hex escape"
  | .trailingComma => "trailing comma"
  | .trailingCharacters => "trailing characters"
  | .unexpectedEndOfHexEscape => "unexpected end of hex escape"
  | .recursionLimit => "recursion limit exceeded"

/-- A fault and the byte offset in the text where it stands. -/
structure Failure where
  fault : Fault
  offset : Nat

/-- Text still to read, with the number of bytes read before it. -/
structure Cursor where
  rest : List Char
  offset : Nat

namespace Cursor

/-- The cursor past the next character. -/
def next (c : Cursor) : Cursor :=
  match c.rest with
  | ch :: r => ⟨r, c.offset + ch.utf8Size⟩
  | [] => c

/-- Where a fault seen in the next character stands: past its first byte,
or at the end of the text. -/
def ahead (c : Cursor) : Nat :=
  if c.rest.isEmpty then c.offset else c.offset + 1

/-- Whether a character is a blank between tokens. -/
def isBlank (ch : Char) : Bool :=
  ch == ' ' || ch == '\n' || ch == '\r' || ch == '\t'

/-- The cursor past blanks, each one byte long. -/
def skipBlank (c : Cursor) : Cursor :=
  let r := c.rest.dropWhile isBlank
  ⟨r, c.offset + (c.rest.length - r.length)⟩

/-- Leading decimal digits, each one byte long, and the cursor past them. -/
def digits (c : Cursor) : List Char × Cursor :=
  let ds := c.rest.takeWhile Char.isDigit
  (ds, ⟨c.rest.drop ds.length, c.offset + ds.length⟩)

end Cursor

/-- A value read, and the cursor past it. -/
abbrev Step (α : Type) := Except Failure (α × Cursor)

/-- Fails with `f` at `offset`. -/
def fail {α : Type} (f : Fault) (offset : Nat) : Except Failure α :=
  .error ⟨f, offset⟩

/-- Value of a string of decimal digits. -/
def digitValue (ds : List Char) : Nat :=
  ds.foldl (fun acc c => acc * 10 + (c.toNat - '0'.toNat)) 0

/-- Number of digits read when the value of the digits read so far first
exceeds `2^31 - 1`, starting from the value `v` after `k` digits. -/
def exponentOverflow (v k : Nat) : List Char → Option Nat
  | [] => none
  | d :: rest =>
    let v' := v * 10 + (d.toNat - '0'.toNat)
    if v' > 2147483647 then some (k + 1) else exponentOverflow v' (k + 1) rest

/-- Reads the digits of a number after its sign: an integer part without
leading zero, an optional fraction and an optional exponent. -/
def readNumber (negative : Bool) (c : Cursor) : Except Failure (Json × Cursor) := do
  let (intPart, c) ← match c.rest with
    | [] => fail .eofInValue c.offset
    | '0' :: _ =>
      let c := c.next
      match c.rest with
      | d :: _ => if d.isDigit then fail .invalidNumber c.ahead else pure (['0'], c)
      | [] => pure (['0'], c)
    | d :: _ => if d.isDigit then pure (c.digits) else fail .invalidNumber (c.offset + 1)
  let (frac, hasFrac, c) ← match c.rest with
    | '.' :: _ =>
      let (frac, c) := c.next.digits
      if frac.isEmpty then
        if c.rest.isEmpty then fail .eofInValue c.offset else fail .invalidNumber c.ahead
      else pure (frac, true, c)
    | _ => pure ([], false, c)
  let significand := digitValue (intPart ++ frac)
  let (exponent, hasExp, c) ← match c.rest with
    | e :: _ =>
      if e = 'e' ∨ e = 'E' then
        let c := c.next
        let (positive, c) := match c.rest with
          | '+' :: _ => (true, c.next)
          | '-' :: _ => (false, c.next)
          | _ => (true, c)
        match c.rest with
        | [] => fail .eofInValue c.offset
        | d :: rest =>
          if !d.isDigit then fail .invalidNumber (c.offset + 1)
          else
            let (ds, c') := c.digits
            match exponentOverflow (d.toNat - '0'.toNat) 1 (rest.takeWhile Char.isDigit) with
            | some n =>
              if significand ≠ 0 ∧ positive then fail .numberOutOfRange (c.offset + n)
              else pure ((if positive then (digitValue ds : Int) else -(digitValue ds : Int)), true, c')
            | none => pure ((if positive then (digitValue ds : Int) else -(digitValue ds : Int)), true, c')
      else pure (0, false, c)
    | [] => pure (0, false, c)
  let n : Decimal.Numeral := ⟨negative, significand, exponent - frac.length, !hasFrac && !hasExp⟩
  if n.toFloat.isInf then fail .numberOutOfRange c.offset else pure (.num n, c)

/-- Reads the four hexadecimal digits of a `\u` escape. -/
def readHex (c : Cursor) : Step Nat :=
  let bytes := (c.rest.take 4).foldl (fun n ch => n + ch.utf8Size) 0
  if bytes < 4 then fail .eofInString (c.offset + bytes)
  else
    let value := (c.rest.take 4).foldlM (fun acc ch =>
      if ch.isDigit then some (acc * 16 + (ch.toNat - '0'.toNat))
      else if 'a' ≤ ch ∧ ch ≤ 'f' then some (acc * 16 + (ch.toNat - 'a'.toNat + 10))
      else if 'A' ≤ ch ∧ ch ≤ 'F' then some (acc * 16 + (ch.toNat - 'A'.toNat + 10))
      else none) 0
    match value with
    | some v => .ok (v, ⟨c.rest.drop 4, c.offset + 4⟩)
    | none => fail .invalidEscape (c.offset + 4)

/-- Reads a `\u` escape after its `u`: a character outside the surrogates,
or a leading surrogate followed at once by the escape of a trailing one. -/
def readUnicode (c : Cursor) : Except Failure (Char × Cursor) := do
  let (n, c) ← readHex c
  if 0xDC00 ≤ n ∧ n ≤ 0xDFFF then fail .loneLeadingSurrogate c.offset
  else if n < 0xD800 ∨ 0xDBFF < n then pure (Char.ofNat n, c)
  else
    match c.rest with
    | [] => fail .eofInString c.offset
    | '\\' :: _ =>
      let c := c.next
      match c.rest with
      | [] => fail .eofInString c.offset
      | 'u' :: _ =>
        let (low, c) ← readHex c.next
        if low < 0xDC00 ∨ 0xDFFF < low then fail .loneLeadingSurrogate c.offset
        else pure (Char.ofNat (0x10000 + (n - 0xD800) * 0x400 + (low - 0xDC00)), c)
      | _ => fail .unexpectedEndOfHexEscape (c.offset + 1)
    | _ => fail .unexpectedEndOfHexEscape (c.offset + 1)

/-- The character a one-letter escape stands for. -/
def escaped (e : Char) : Option Char :=
  match e with
  | '"' => some '"'
  | '\\' => some '\\'
  | '/' => some '/'
  | 'b' => some '\x08'
  | 'f' => some '\x0c'
  | 'n' => some '\n'
  | 'r' => some '\r'
  | 't' => some '\t'
  | _ => none

/-- Reads the body of a string after its opening quote, up to and past the
closing quote; each character read uses one unit of `fuel`. -/
def readString (fuel : Nat) (acc : List Char) (c : Cursor) : Step String :=
  match fuel with
  | 0 => fail .eofInString c.offset
  | fuel + 1 =>
    match c.rest with
    | [] => fail .eofInString c.offset
    | '"' :: _ => .ok (String.ofList acc.reverse, c.next)
    | '\\' :: _ =>
      let c := c.next
      match c.rest with
      | [] => fail .eofInString c.offset
      | 'u' :: _ =>
        match readUnicode c.next with
        | .ok (ch, c) => readString fuel (ch :: acc) c
        | .error f => .error f
      | e :: _ =>
        match escaped e with
        | some ch => readString fuel (ch :: acc) c.next
        | none => fail .invalidEscape (c.offset + 1)
    | ch :: _ =>
      if ch.toNat < 0x20 then fail .controlCharacter (c.offset + 1)
      else readString fuel (ch :: acc) c.next

/-- Reads the rest of a literal word after its first letter. -/
def readWord (word : List Char) (v : Json) (c : Cursor) : Step Json :=
  match word with
  | [] => .ok (v, c)
  | w :: ws =>
    match c.rest with
    | [] => fail .eofInValue c.offset
    | ch :: _ => if ch = w then readWord ws v c.next else fail .expectedIdent (c.offset + 1)

/-- Fields read so far, last first, with `key` set to `v`: a repeated key
keeps its place and takes the new value. -/
def setField (acc : List (String × Json)) (key : String) (v : Json) : List (String × Json) :=
  if acc.any (·.1 == key) then acc.map fun (k, x) => if k == key then (k, v) else (k, x)
  else (key, v) :: acc

mutual
/-- Reads one value after blanks; `depth` containers may still be opened,
and `fuel` bounds the calls. -/
def readValue (fuel depth : Nat) (c : Cursor) : Step Json :=
  match fuel with
  | 0 => fail .eofInValue c.offset
  | fuel + 1 =>
    let c := c.skipBlank
    match c.rest with
    | [] => fail .eofInValue c.offset
    | ch :: _ =>
      if ch = 'n' then readWord ['u', 'l', 'l'] .null c.next
      else if ch = 't' then readWord ['r', 'u', 'e'] (.bool true) c.next
      else if ch = 'f' then readWord ['a', 'l', 's', 'e'] (.bool false) c.next
      else if ch = '-' then readNumber true c.next
      else if ch.isDigit then readNumber false c
      else if ch = '"' then
        match readString (c.rest.length + 1) [] c.next with
        | .ok (s, c) => .ok (.str s, c)
        | .error f => .error f
      else if ch = '[' then
        if depth ≤ 1 then fail .recursionLimit c.ahead
        else
          match readItems fuel (depth - 1) [] true c.next with
          | .ok (items, c) => .ok (.arr items, c)
          | .error f => .error f
      else if ch = '{' then
        if depth ≤ 1 then fail .recursionLimit c.ahead
        else
          match readFields fuel (depth - 1) [] true c.next with
          | .ok (fields, c) => .ok (.obj fields, c)
          | .error f => .error f
      else fail .expectedValue c.ahead

/-- Reads array items up to and past the closing bracket. -/
def readItems (fuel depth : Nat) (acc : List Json) (first : Bool) (c : Cursor) : Step (List Json) :=
  match fuel with
  | 0 => fail .eofInList c.offset
  | fuel + 1 =>
    let c := c.skipBlank
    match c.rest with
    | [] => fail .eofInList c.offset
    | ']' :: _ => .ok (acc.reverse, c.next)
    | ch :: _ =>
      let start : Except Failure Cursor :=
        if first then .ok c
        else if ch = ',' then
          let c := c.next.skipBlank
          match c.rest with
          | ']' :: _ => fail .trailingComma c.ahead
          | [] => fail .eofInValue c.offset
          | _ => .ok c
        else fail .expectedListCommaOrEnd c.ahead
      match start with
      | .error f => .error f
      | .ok c =>
        match readValue fuel depth c with
        | .error f => .error f
        | .ok (v, c) => readItems fuel depth (v :: acc) false c

/-- Reads object fields up to and past the closing brace. -/
def readFields (fuel depth : Nat) (acc : List (String × Json)) (first : Bool) (c : Cursor) :
    Step (List (String × Json)) :=
  match fuel with
  | 0 => fail .eofInObject c.offset
  | fuel + 1 =>
    let c := c.skipBlank
    match c.rest with
    | [] => fail .eofInObject c.offset
    | '}' :: _ => .ok (acc.reverse, c.next)
    | ch :: _ =>
      let start : Except Failure Cursor :=
        if ch = ',' ∧ !first then .ok c.next.skipBlank
        else if first then .ok c
        else fail .expectedObjectCommaOrEnd c.ahead
      match start with
      | .error f => .error f
      | .ok c =>
        match c.rest with
        | '"' :: _ =>
          match readString (c.rest.length + 1) [] c.next with
          | .error f => .error f
          | .ok (key, c) =>
            let c := c.skipBlank
            match c.rest with
            | ':' :: _ =>
              match readValue fuel depth c.next with
              | .error f => .error f
              | .ok (v, c) => readFields fuel depth (setField acc key v) false c
            | [] => fail .eofInObject c.offset
            | _ => fail .expectedColon c.ahead
        | '}' :: _ => fail .trailingComma c.ahead
        | [] => fail .eofInValue c.offset
        | _ => fail .keyMustBeString c.ahead
end

/-- Line and column of a byte offset of `text`: lines are counted from one,
columns in bytes from the start of the line. -/
def lineColumn (text : String) (offset : Nat) : Nat × Nat :=
  let before := text.toUTF8.toList.take offset
  let lineStart := before.length - (before.reverse.takeWhile (· != 10)).length
  (1 + ((before.take lineStart).filter (· == 10)).length, offset - lineStart)

/-- The text of a failure: the fault and where it stands. -/
def Failure.describe (text : String) (f : Failure) : String :=
  let (line, column) := lineColumn text f.offset
  s!"{f.fault.message} at line {line} column {column}"

/-- Reads a whole document; only blanks may follow it. -/
def parse (text : String) : Except String Json :=
  let cs := text.toList
  match readValue (2 * cs.length + 4) 128 ⟨cs, 0⟩ with
  | .error f => .error (f.describe text)
  | .ok (v, c) =>
    let c := c.skipBlank
    if c.rest.isEmpty then .ok v
    else .error (Failure.describe text ⟨.trailingCharacters, c.ahead⟩)

end Subsurface.Json
