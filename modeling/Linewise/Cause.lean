import Linewise.Context
import Linewise.Byte

/-! Why an episode ends without a unit. Causes are data; `Cause.chain` lists the messages from the
cause itself down to what brought it about. -/

namespace Linewise

/-- A control byte inside a quoted literal. Literals cannot span lines, so most often it is the
newline before a missing delimiter. -/
structure Intrusion where
  byte : UInt8
  literal : Literal
  offset : Nat
  deriving DecidableEq, Repr

def Intrusion.message (i : Intrusion) : String :=
  "unexpected character '" ++ Byte.escaped i.byte ++ "' inside " ++ i.literal.label ++ " literal"

inductive Outage.Kind where
  | notFound
  | permissionDenied
  | connectionReset
  | brokenPipe
  | invalidData
  | timedOut
  | writeZero
  | unexpectedEnd
  | other
  deriving DecidableEq, Repr

/-- A failure of the input, or of the place where prompts are written. -/
structure Outage where
  kind : Outage.Kind
  message : String
  deriving DecidableEq, Repr

def Outage.shortWrite : Outage := ⟨.writeZero, "failed to write whole buffer"⟩

inductive Cause where
  | intrusion (i : Intrusion)
  | openEnd
  | endOfInput
  | outage (o : Outage)
  deriving DecidableEq, Repr

namespace Cause

def message : Cause → String
  | intrusion i => i.message
  | openEnd => "unexpected end of input"
  | endOfInput => "end of input"
  | outage o => o.message

def chain : Cause → List String
  | openEnd => [openEnd.message, "unexpected end of file"]
  | cause => [cause.message]

/-- After an intrusion the next line starts afresh; every other cause ends the session. -/
def isRecoverable : Cause → Bool
  | intrusion _ => true
  | _ => false

def atEnd (depth : Nat) : Cause := if 0 < depth then openEnd else endOfInput

theorem isRecoverable_atEnd (depth : Nat) : (atEnd depth).isRecoverable = false := by
  unfold atEnd; split <;> rfl

end Cause

end Linewise
