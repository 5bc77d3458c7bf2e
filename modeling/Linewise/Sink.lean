import Linewise.Cause

/-! Prompts go to a sink, which may have room for a limited number of bytes only, or allow a limited
number of flushes. A write that does not fit leaves behind the bytes that did. -/

namespace Linewise

structure Sink where
  room : Option Nat := none
  flushes : Option Nat := none
  outage : Outage := .shortWrite
  taken : Array UInt8 := #[]
  deriving DecidableEq, Repr

namespace Sink

/-- An action on a sink either succeeds or reports an outage; it leaves a sink in both cases. -/
abbrev Action := EStateM Outage Sink Unit

def write (bytes : List UInt8) : Action := fun sink =>
  match sink.room with
  | none => .ok () { sink with taken := sink.taken ++ bytes }
  | some room =>
    let next :=
      { sink with
        room := some (room - bytes.length)
        taken := sink.taken ++ bytes.take room }
    if bytes.length ≤ room then .ok () next else .error sink.outage next

def flush : Action := fun sink =>
  match sink.flushes with
  | none => .ok () sink
  | some 0 => .error sink.outage sink
  | some (count + 1) => .ok () { sink with flushes := some count }

def deliver (bytes : List UInt8) : Action := do
  write bytes
  flush

def emptied (sink : Sink) : Sink := { sink with taken := #[] }

end Sink

end Linewise
