import Subsurface.Archive.Bytes
import Subsurface.Error
/-!
Archive files: a header, then the payload of one kind of object.

The header holds the four bytes `GSTR`, the extension of the kind of file and
the format version 1. A file is written and read only under the extension of
its kind; reading checks the file name first, then decodes the header, then
compares it with what the kind expects, and only then decodes the payload.

Files are made in a working directory that holds nothing else, so a path
of more than one segment always passes through a directory that does not
exist; writing checks the file name, then whether the file can be made.
-/

namespace Subsurface.Archive

/-- The leading bytes of every archive, `GSTR`. -/
def magic : List UInt8 := [0x47, 0x53, 0x54, 0x52]

/-- The payload layout version. -/
def formatVersion : Nat := 1

/-- The pieces of `s` between the occurrences of the character `c`. -/
def splitAt (s : String) (c : Char) : List String := (s.toList.splitOn c).map String.ofList

/-- The last segment of a path, `.` segments and trailing slashes ignored. -/
def fileName? (path : String) : Option String :=
  match ((splitAt path '/').filter fun s => s ≠ "" && s ≠ ".").getLast? with
  | some ".." => none
  | other => other

/-- The extension of a path: what follows the last dot of its file name, when
the name has a dot that does not start it. -/
def extensionOf (path : String) : String :=
  match fileName? path with
  | none => ""
  | some name =>
    let parts := splitAt name '.'
    match parts with
    | [] | [_] => ""
    | _ =>
      let before := ".".intercalate parts.dropLast
      if before = "" then "" else parts.getLast?.getD ""

/-- Refuses a path whose extension is not `expected`. -/
def checkExtension (path expected : String) : Except Error Unit :=
  let found := extensionOf path
  if found = expected then .ok () else .error (.archive (.unexpectedExtension expected found))

/-- Why no file can be made at `path` in an empty working directory, in the
words of the system, or none when one can. A NUL byte is refused before
the system sees the path; then a path of 4096 bytes or more, or a first
segment of more than 255 bytes, is too long; and a path of more than one
segment goes through its first segment, which does not exist: with nothing
but slashes after it, the path asks for a directory, and otherwise for an
entry of a missing directory. -/
def creationProblem (path : String) : Option String :=
  if path.toList.contains '\x00' then some "file name contained an unexpected NUL byte"
  else if path.utf8ByteSize ≥ 4096 then some "File name too long (os error 36)"
  else
    match splitAt path '/' with
    | [] => none
    | first :: rest =>
      if first.utf8ByteSize > 255 then some "File name too long (os error 36)"
      else if rest.isEmpty then none
      else if rest.all (· == "") then some "Is a directory (os error 21)"
      else some "No such file or directory (os error 2)"

/-- Refuses a path at which no file can be made. -/
def checkCreation (path : String) : Except Error Unit :=
  match creationProblem path with
  | some problem => .error (.archive (.io problem))
  | none => .ok ()

/-- The header of a file of the kind with extension `ext`. -/
def header (ext : String) : List UInt8 := magic ++ putString ext ++ putU32 formatVersion

/-- A decoding failure as an archive error. -/
def encodingError {α : Type} (r : Except String α) : Except Error α :=
  r.mapError fun m => .archive (.encoding m)

/-- The bytes of a file of the kind with extension `ext` at `path`. -/
def writeFile (path ext : String) (payload : List UInt8) : Except Error (List UInt8) := do
  checkExtension path ext
  checkCreation path
  pure (header ext ++ payload)

/-- Reads the payload of a file of the kind with extension `ext` at `path`;
bytes after the payload are ignored. -/
def readFile {α : Type} (path ext : String) (payload : Decoder α) (bytes : List UInt8) :
    Except Error α := do
  checkExtension path ext
  let ((m, e, v), rest) ← encodingError ((do
    let m ← getBytes 4
    let e ← getString
    let v ← getU32
    pure (m, e, v) : Decoder _).runOn bytes)
  if m ≠ magic || e ≠ ext || v ≠ formatVersion then throw (.archive .unexpectedFormat)
  let (a, _) ← encodingError (payload.runOn rest)
  pure a

/-- Lowercase hexadecimal text of bytes. -/
def toHex (bs : List UInt8) : String :=
  let digit (n : Nat) : Char := if n < 10 then Char.ofNat (48 + n) else Char.ofNat (87 + n)
  String.ofList (bs.flatMap fun b => [digit (b.toNat / 16), digit (b.toNat % 16)])

/-- Value of a hexadecimal digit. -/
def hexDigit? (c : Char) : Option Nat :=
  if '0' ≤ c && c ≤ '9' then some (c.toNat - 48)
  else if 'a' ≤ c && c ≤ 'f' then some (c.toNat - 87)
  else if 'A' ≤ c && c ≤ 'F' then some (c.toNat - 55)
  else none

/-- Bytes of hexadecimal text, two digits a byte. -/
def ofHex? : List Char → Option (List UInt8)
  | [] => some []
  | a :: b :: rest => do
    let hi ← hexDigit? a
    let lo ← hexDigit? b
    let tail ← ofHex? rest
    pure ((hi * 16 + lo).toUInt8 :: tail)
  | [_] => none

end Subsurface.Archive
