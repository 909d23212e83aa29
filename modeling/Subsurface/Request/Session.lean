import Subsurface.Request.Topology
import Subsurface.Archive.File
/-!
Sessions: a sequence of steps on one object, with a second object that a
copy sets aside.

Every step is answered as a result or an error, and a failed step leaves the
session as it was. After every step the identifiers of the session's
components are labelled, those of the current object first. The steps that
every kind of object takes are handled here: copying into a fresh object,
swapping with the object set aside, copying onto a clone, and saving to and
loading from a scratch file. Loading writes the given bytes to the scratch
file first, so a path where no file can be made fails before its name is
checked.
-/

namespace Subsurface.Request

/-- How objects of one kind are made, copied, saved and loaded. -/
structure ObjectKind (σ : Type) where
  /-- What the objects are called in messages. -/
  name : String
  /-- A fresh object without components. -/
  empty : σ
  /-- The source copied into the target, which must be empty. -/
  copyInto : σ → σ → Except Error σ
  /-- The extension of the object's files. -/
  nativeExtension : String
  /-- The file bytes of the object saved at a path. -/
  save : σ → String → Except Error (List UInt8)
  /-- The object read from file bytes at a path. -/
  load : String → List UInt8 → Except Error σ
  /-- The identifiers of the object's components, in labelling order. -/
  ids : σ → List Uuid

/-- The current object and the one a copy set aside. -/
structure Session (σ : Type) where
  current : σ
  other : Option σ

/-- Identifiers of a session, current object first. -/
def Session.ids {σ : Type} (k : ObjectKind σ) (s : Session σ) : List Uuid :=
  k.ids s.current ++ (s.other.map k.ids).getD []

/-- The scratch file with extension `ext`; no dot when `ext` is empty. -/
def scratchPath (ext : String) : String := if ext = "" then "file" else "file." ++ ext

/-- Whether an identifier was first given in the request. -/
def isLiteral (u : Uuid) : Named Bool := do return (← get).literals.contains u

/-- Whether every identifier was first given in the request. -/
def allLiteral (ids : List Uuid) : Named Bool := ids.allM isLiteral

/-- The extension a step names, or the native one. -/
def stepExtension (native : String) (s : Json) : Step String :=
  match opt s "ext" with
  | some e => Step.ofReading (asString e)
  | none => pure native

/-- The bytes of the `hex` field. -/
def needHex (s : Json) : Step (List UInt8) := do
  let text ← Step.ofReading (needString s "hex")
  match Archive.ofHex? text.toList with
  | some bs => pure bs
  | none => throw (.unreadable "invalid hex")

/-- A step every kind of session takes, or none for another step. -/
def sessionStep {σ : Type} (k : ObjectKind σ) (sess : Session σ) (s : Json) :
    String → Option (Step (Json × Session σ))
  | "copy" => some do
    let copy ← Step.ofLibrary (k.copyInto k.empty sess.current)
    pure (.null, ⟨copy, some sess.current⟩)
  | "swap" => some do
    match sess.other with
    | some o => pure (.null, ⟨o, some sess.current⟩)
    | none => throw (.unreadable s!"no other {k.name}")
  | "copy_onto_clone" => some do
    let _ ← Step.ofLibrary (k.copyInto sess.current sess.current)
    pure (.null, sess)
  | "save" => some do
    let ext ← stepExtension k.nativeExtension s
    let bytes ← Step.ofLibrary (k.save sess.current (scratchPath ext))
    let literal ← allLiteral (k.ids sess.current)
    let hex : Json := if literal then .str (Archive.toHex bytes) else .null
    pure (.obj [("size", .nat bytes.length), ("hex", hex)], sess)
  | "roundtrip" => some do
    let path := scratchPath (← stepExtension k.nativeExtension s)
    let bytes ← Step.ofLibrary (k.save sess.current path)
    let loaded ← Step.ofLibrary (k.load path bytes)
    pure (.obj [("size", .nat bytes.length)], { sess with current := loaded })
  | "load" => some do
    let bytes ← needHex s
    let path := scratchPath (← stepExtension k.nativeExtension s)
    Step.ofLibrary (Archive.checkCreation path)
    let loaded ← Step.ofLibrary (k.load path bytes)
    pure (.null, { sess with current := loaded })
  | _ => none

/-- Runs the steps of a session, labelling the session's identifiers after
each step. A step gives its answer value or its failure, and the object
after it, which a failure may have changed. -/
def runEdits {σ : Type} (step : σ → Json → Named (Except Failure Json × σ)) (ids : σ → List Uuid)
    (init : σ) (steps : List Json) : Named (List Json × σ) :=
  steps.foldlM (fun (acc, st) s => do
    if ← halted then return (acc, st)
    let (r, st') ← step st s
    let answer ← match r with
      | .ok v => pure (Json.obj [("result", v)])
      | .error f => failureJson f
    sweep (ids st')
    pure (acc ++ [answer], st')) ([], init)

/-- Runs the steps of a session whose failing steps change nothing. -/
def runSession {σ : Type} (step : σ → Json → Step (Json × σ)) (ids : σ → List Uuid) (init : σ)
    (steps : List Json) : Named (List Json × σ) :=
  runEdits (fun st s => do
    match ← (step st s).run with
    | .ok (r, st') => pure (.ok r, st')
    | .error f => pure (.error f, st)) ids init steps

end Subsurface.Request
