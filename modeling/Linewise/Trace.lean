import Linewise.Log

/-! The log of an episode as records with messages and named fields. The first byte of code has
a record of its own, unless it is a slash or hash sign whose meaning was decided by the byte
after it. -/

namespace Linewise.Trace

def target : String := "readmore::scan"

def level : String := "TRACE"

inductive Record where
  | scannedByte (offset : Nat) (byte : String) (before after : Context) (depth : Nat)
      (expecting : Bool)
  | firstToken (offset : Nat)
  | lineFinished (judgement : Judgement) (context : Context) (depth : Nat) (expecting : Bool)
      (size : Nat)
  deriving DecidableEq, Repr

def Record.message : Record → String
  | scannedByte .. => "scanned byte"
  | firstToken _ => "first token"
  | lineFinished .. => "line finished"

def ofSighting (s : Sighting) : List Record :=
  .scannedByte s.offset (Byte.escaped s.byte) s.before s.after.context s.after.depth
      s.after.expecting ::
    if s.after.codeStart = some s.offset then [.firstToken s.offset] else []

def ofEvent : Event → List Record
  | .sighting s => ofSighting s
  | .report r => [.lineFinished r.judgement r.status.context r.status.depth r.status.expecting r.size]

def ofLog (log : Array Event) : List Record := log.toList.flatMap ofEvent

end Linewise.Trace
