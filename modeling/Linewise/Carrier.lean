import Linewise.Cause
import Linewise.Text.Quoted

/-! A program text may be handed over as bytes, as text, in a buffer, or as a stream that has to be
drained. All but text may be absent: the kind is known, but there is nothing to read from. -/

namespace Linewise

inductive Carrier.Kind where
  | bytes
  | text
  | buffer
  | stream
  deriving DecidableEq, Repr

def Carrier.Kind.label : Carrier.Kind → String
  | bytes => "bytes"
  | text => "text"
  | buffer => "buffer"
  | stream => "reader"

structure Carrier.Stream where
  bytes : List UInt8
  outage : Option Outage := none
  deriving DecidableEq, Repr

inductive Carrier where
  | bytes (value : Option (List UInt8))
  | text (value : String)
  | buffer (value : Option (List UInt8))
  | stream (value : Option Carrier.Stream)
  deriving DecidableEq, Repr

inductive LoadError where
  | absent (kind : Carrier.Kind)
  | outage (o : Outage)
  deriving DecidableEq, Repr

def LoadError.message : LoadError → String
  | absent kind => "unsupported source, cannot read from: " ++ kind.label
  | outage o => o.message

/-- A value out of a carrier. It is a copy unless the carrier holds the very same value. -/
structure Loaded (α : Type) where
  value : α
  copied : Bool
  deriving DecidableEq, Repr

namespace Carrier

def kind : Carrier → Kind
  | bytes _ => .bytes
  | text _ => .text
  | buffer _ => .buffer
  | stream _ => .stream

def load (c : Carrier) : Except LoadError (Loaded (List UInt8)) :=
  match c with
  | text value => .ok ⟨value.toUTF8.toList, false⟩
  | bytes (some value) | buffer (some value) => .ok ⟨value, false⟩
  | stream (some value) =>
    match value.outage with
    | none => .ok ⟨value.bytes, true⟩
    | some outage => .error (.outage outage)
  | bytes none | buffer none | stream none => .error (.absent c.kind)

/-- The text of a carrier. Bytes that are no text have to be replaced, which takes a copy. -/
def loadText (c : Carrier) : Except LoadError (Loaded String) := do
  let loaded ← c.load
  let parts := Text.pieces loaded.value
  return ⟨Text.ofPieces parts, loaded.copied || parts.any Text.Piece.isBroken⟩

def describeOption : Option String → String
  | none => "None"
  | some shown => "Some(" ++ shown ++ ")"

def describe : Carrier → String
  | bytes value => "Bytes(" ++ describeOption (value.map Text.Quoted.ofBytes) ++ ")"
  | text value => "Text(" ++ Text.Quoted.ofString value ++ ")"
  | buffer value => "Buffer(" ++ describeOption (value.map Text.Quoted.ofBytes) ++ ")"
  | stream value => "Reader(" ++ describeOption (value.map fun _ => Text.Quoted.enclose "..") ++ ")"

end Carrier

end Linewise
