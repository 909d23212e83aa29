import Subsurface.Request.Decode
import Subsurface.Topology.Catalog
/-!
How identifiers appear in requests and answers.

An identifier the library made up is never written: the first time one
appears in an answer it gets the label `$N`, counting from zero within the
request. An identifier first seen in a request is a literal and is written
back as its canonical text. Inside error messages every hyphenated identifier
text, in any case, is replaced the same way, in text order.

Fresh identifiers come from a counter mixed into 128 bits, with the version
and variant bits of a random identifier. A random identifier never meets one
that the request spells out, so a draw that the request text mentions, in
any spelling, is skipped.

A fatal library error ends the request where it happens: no later step
runs, and the whole answer is that error.
-/

namespace Subsurface.Request

/-- Labels and literals seen so far, the state of the fresh-identifier
source, and the fatal error that ended the request, if one did. -/
structure Naming where
  labels : Array Uuid := #[]
  literals : List Uuid := []
  seed : Nat := 0
  halt : Option Error := none
  /-- The request text in lowercase, hyphens left out. -/
  request : String := ""
  deriving Inhabited

/-- Computations that read and write identifiers. -/
abbrev Named := StateM Naming

/-- Request steps: they may fail, and they name identifiers. -/
abbrev Step := ExceptT Failure Named

/-- Lifts a reading into a step. -/
def Step.ofReading {α : Type} (r : Reading α) : Step α :=
  match r with
  | .ok a => pure a
  | .error f => throw f

/-- Lifts a library result into a step. -/
def Step.ofLibrary {α : Type} (r : Except Error α) : Step α := Step.ofReading (lift r)

/-- The label number of an identifier. -/
def labelOf? (n : Naming) (u : Uuid) : Option Nat := n.labels.findIdx? (· == u)

/-- The text an identifier is written as, labelling it if needed. -/
def nameOf (u : Uuid) : Named String := do
  let n ← get
  if n.literals.contains u then return u.toText
  match labelOf? n u with
  | some i => return s!"${i}"
  | none =>
    set { n with labels := n.labels.push u }
    return s!"${n.labels.size}"

/-- An identifier as written in an answer. -/
def idJson (u : Uuid) : Named Json := do return .str (← nameOf u)

/-- Gives labels to identifiers not yet written, in list order. -/
def sweep (ids : List Uuid) : Named Unit :=
  ids.forM fun u => do let _ ← nameOf u

/-- Reads an identifier: a label `$N` written as it was given out, or a text
form, which becomes a literal unless it was already labelled. -/
def readId (j : Json) : Step Uuid := do
  let s ← Step.ofReading (asString j)
  match s.toList with
  | '$' :: _ =>
    let n ← get
    match (List.range n.labels.size).find? (fun i => s!"${i}" == s) >>= fun i => n.labels[i]? with
    | some u => pure u
    | none => throw (.unreadable s!"unknown label {s}")
  | _ =>
    match Uuid.parse? s with
    | none => throw (.unreadable s!"invalid uuid {s}")
    | some u =>
      let n ← get
      if (labelOf? n u).isNone && !n.literals.contains u then
        set { n with literals := n.literals ++ [u] }
      pure u

/-- The identifier field `key`. -/
def needId (j : Json) (key : String) : Step Uuid := do
  readId (← Step.ofReading (need j key))

/-- Replaces every hyphenated identifier text of a message, in any case, by
its written form; `fuel` bounds the characters scanned. -/
def relabel (fuel : Nat) (acc : String) (cs : List Char) : Named String :=
  match fuel with
  | 0 => pure acc
  | fuel + 1 =>
    match cs with
    | [] => pure acc
    | c :: rest =>
      if Uuid.isHyphenatedPrefix cs then
        match Uuid.parse? (String.ofList (cs.take 36)) with
        | some u => do relabel fuel (acc ++ (← nameOf u)) (cs.drop 36)
        | none => relabel fuel (acc.push c) rest
      else relabel fuel (acc.push c) rest

/-- A message with its identifiers written. -/
def relabelMessage (m : String) : Named String := relabel m.length "" m.toList

/-- The answer to a failure, identifiers in its message written. -/
def failureJson : Failure → Named Json
  | .unreadable m => do return badInput (← relabelMessage m)
  | .failed e => do
    if e.isFatal then modify fun n => { n with halt := n.halt.orElse fun _ => some e }
    return errorAnswer e.label (← relabelMessage e.message)

/-- Whether a fatal error has ended the request. -/
def halted : Named Bool := do return (← get).halt.isSome

/-- Runs steps on a state from `init`: a step that succeeds answers
`done r st` with its result and the state after it, and one that fails
answers `failed a st` with the answer of its failure and the state it
keeps. Labels given in messages run on from step to step. -/
def runSteps {σ : Type} (step : σ → Json → Reading (Json × σ)) (done failed : Json → σ → Json)
    (init : σ) (steps : List Json) : Named (List Json × σ) :=
  steps.foldlM (fun (acc, st) s => do
    if ← halted then return (acc, st)
    match step st s with
    | .ok (r, st') => pure (acc ++ [done r st'], st')
    | .error f => pure (acc ++ [failed (← failureJson f) st], st)) ([], init)

/-- A step's answer with `extra` fields after its result or error. -/
def withFields (a : Json) (extra : List (String × Json)) : Json :=
  match a with
  | .obj fields => .obj (fields ++ extra)
  | other => .obj ([("error", other)] ++ extra)

/-- The answer to `request` of a computation naming identifiers, labels
counted from zero, or the fatal error that ended it. -/
def labelled (request : Json) (a : Named Json) : Json :=
  match a.run { request := (request.render.toLower.replace "-" "") } with
  | (_, { halt := some e, .. }) => libraryError e
  | (j, _) => j

/-- Mixes a 64-bit word (the SplitMix64 finaliser). -/
def mix64 (z : Nat) : Nat :=
  let m := Nat.pow 2 64
  let z := (z ^^^ (z >>> 30)) * 0xbf58476d1ce4e5b9 % m
  let z := (z ^^^ (z >>> 27)) * 0x94d049bb133111eb % m
  z ^^^ (z >>> 31)

/-- The identifier of number `k` in the sequence of draws. -/
def drawn (k : Nat) : Uuid :=
  let hi := mix64 (k * 0x9e3779b97f4a7c15 % Nat.pow 2 64)
  let lo := mix64 ((k * 0x9e3779b97f4a7c15 + 0x632be59bd9b4e019) % Nat.pow 2 64)
  let hi := hi &&& 0xffffffffffff0fff ||| 0x4000
  let lo := lo &&& 0x3fffffffffffffff ||| 0x8000000000000000
  Uuid.ofNat (hi * Nat.pow 2 64 + lo)

/-- Whether `text`, in lowercase with its hyphens left out, holds the 32
digits of `u`; every literal spelling of an identifier, and the bytes of one
in hexadecimal, hold them once hyphens are left out. -/
def mentions (text : String) (u : Uuid) : Bool :=
  text.contains (u.toText.replace "-" "")

/-- The first draw from number `k` on that the request text does not
mention, and its number. Draws differ, and a text holds fewer mentions than
bytes, so `fuel` of its size suffices. -/
def unmentioned (text : String) (k : Nat) : Nat → Uuid × Nat
  | 0 => (drawn k, k)
  | fuel + 1 => if mentions text (drawn k) then unmentioned text (k + 1) fuel else (drawn k, k)

/-- A fresh identifier, never given before in this request and never spelled
out in it. -/
def freshId : Named Uuid := do
  let n ← get
  let (u, k) := unmentioned n.request (n.seed + 1) (n.request.utf8ByteSize + 1)
  set { n with seed := k }
  pure u

/-- A fresh identifier that `taken` does not hold: identifiers are drawn
until one is free, at most `bound` after the first. Draws do not repeat, so
a bound of the number of taken identifiers always finds a free one. -/
def freshIdOutside (taken : Uuid → Bool) : Nat → Named Uuid
  | 0 => freshId
  | bound + 1 => do
    let id ← freshId
    if taken id then freshIdOutside taken bound else pure id

/-- A fresh identifier for a new component of the catalog `c`, one that `c`
does not hold. -/
def freshIdIn (c : Catalog) : Named Uuid := freshIdOutside c.contains c.size

/-- Three fresh identifiers for the horizon and the two units that replace
`unit` in a stack whose catalog is `c`: the unit leaves the catalog first,
and each identifier avoids the ones drawn before it. -/
def splitIds (c : Catalog) (unit : Uuid) : Named (Uuid × Uuid × Uuid) := do
  let taken (drawn : List Uuid) (id : Uuid) : Bool := (id != unit && c.contains id) || drawn.contains id
  let h ← freshIdOutside (taken []) (c.size + 1)
  let a ← freshIdOutside (taken [h]) (c.size + 2)
  let u ← freshIdOutside (taken [h, a]) (c.size + 3)
  pure (h, a, u)

/-- Runs a step, turning a failure into its answer. -/
def answerOf (s : Step Json) : Named Json := do
  match ← s.run with
  | .ok v => pure (.obj [("result", v)])
  | .error f => failureJson f

end Subsurface.Request
