/-!
UTF-8 decoding that reports where and how a byte sequence fails.

A failure gives the length of the valid prefix and, when the bytes at that
point cannot start any character, the length of the invalid sequence (one to
three bytes); when they are the beginning of a character cut short by the end
of the input, the length is absent. The accepted sequences are exactly the
well-formed ones of the standard: no overlong forms, no surrogates, nothing
above U+10FFFF.
-/

namespace Subsurface.Utf8

/-- Where decoding stopped: the length of the valid prefix, and the length
of the invalid sequence unless the input ended inside a character. -/
structure Failure where
  validUpTo : Nat
  errorLen : Option Nat
  deriving DecidableEq, Inhabited

/-- The failure in words. -/
def Failure.message (f : Failure) : String :=
  match f.errorLen with
  | some n => s!"invalid utf-8 sequence of {n} bytes from index {f.validUpTo}"
  | none => s!"incomplete utf-8 byte sequence from index {f.validUpTo}"

/-- Whether a byte continues a character (`10xxxxxx`). -/
def isContinuation (b : UInt8) : Bool := b &&& 0xC0 == 0x80

/-- Number of bytes of the character a lead byte starts, zero for a byte that
starts none. -/
def width (b : UInt8) : Nat :=
  if b < 0x80 then 1
  else if b < 0xC2 then 0
  else if b < 0xE0 then 2
  else if b < 0xF0 then 3
  else if b < 0xF5 then 4
  else 0

/-- Whether `b` may follow the lead byte `lead` of a three- or four-byte
character; this excludes overlong forms, surrogates and values above
U+10FFFF. -/
def secondAllowed (lead b : UInt8) : Bool :=
  if lead == 0xE0 then 0xA0 ≤ b && b ≤ 0xBF
  else if lead == 0xED then 0x80 ≤ b && b ≤ 0x9F
  else if lead == 0xF0 then 0x90 ≤ b && b ≤ 0xBF
  else if lead == 0xF4 then 0x80 ≤ b && b ≤ 0x8F
  else isContinuation b

/-- The payload bits of a continuation byte. -/
def low (b : UInt8) : Nat := (b &&& 0x3F).toNat

/-- Decodes from byte offset `offset`, appending to `acc`. -/
def decodeFrom (offset : Nat) (acc : Array Char) : List UInt8 → Except Failure (Array Char)
  | [] => .ok acc
  | b :: rest =>
    let fail (n : Option Nat) : Except Failure (Array Char) := .error ⟨offset, n⟩
    let w := width b
    if w = 1 then decodeFrom (offset + 1) (acc.push (Char.ofNat b.toNat)) rest
    else if w = 2 then
      match rest with
      | [] => fail none
      | c :: r =>
        if !isContinuation c then fail (some 1)
        else decodeFrom (offset + 2) (acc.push (Char.ofNat ((b &&& 0x1F).toNat * 64 + low c))) r
    else if w = 3 then
      match rest with
      | [] => fail none
      | c :: [] => if !secondAllowed b c then fail (some 1) else fail none
      | c :: d :: r =>
        if !secondAllowed b c then fail (some 1)
        else if !isContinuation d then fail (some 2)
        else
          let v := (b &&& 0x0F).toNat * 4096 + low c * 64 + low d
          decodeFrom (offset + 3) (acc.push (Char.ofNat v)) r
    else if w = 4 then
      match rest with
      | [] => fail none
      | c :: [] => if !secondAllowed b c then fail (some 1) else fail none
      | c :: d :: [] =>
        if !secondAllowed b c then fail (some 1)
        else if !isContinuation d then fail (some 2)
        else fail none
      | c :: d :: e :: r =>
        if !secondAllowed b c then fail (some 1)
        else if !isContinuation d then fail (some 2)
        else if !isContinuation e then fail (some 3)
        else
          let v := (b &&& 0x07).toNat * 262144 + low c * 4096 + low d * 64 + low e
          decodeFrom (offset + 4) (acc.push (Char.ofNat v)) r
    else fail (some 1)

/-- The text a byte sequence encodes, or where it fails. -/
def decode (bs : List UInt8) : Except Failure String :=
  (decodeFrom 0 #[] bs).map fun cs => String.ofList cs.toList

/-- The bytes of a text. -/
def encode (s : String) : List UInt8 := s.toUTF8.toList

end Subsurface.Utf8
