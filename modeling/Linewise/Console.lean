import Linewise.Session

/-! The console reads units, prompting for each, and echoes the code of every one with a note on its
length. A broken literal is reported and the console goes on; the end of the input ends it. -/

namespace Linewise.Console

def prompt : List UInt8 := "readmore> ".toUTF8.toList

/-- Prompts are shown, comments wait for code, and the dialect with code templates is understood. -/
def policy : Policy where
  settings := ⟨Settings.promptBit ||| Settings.commentsBit⟩
  vocabulary := .goDialect

structure Reply where
  text : Array UInt8
  exit : Option Nat

def bytes (text : String) : Array UInt8 := text.toUTF8.data

def echo (entry : Entry) : Array UInt8 :=
  match entry.code with
  | none => #[]
  | some code => bytes ("// unit, " ++ toString entry.text.size ++ " bytes\n") ++ code

def complaint (cause : Cause) : Array UInt8 := bytes ("\n// error: " ++ cause.message ++ "\n")

def reply (entry : Entry) : Option Cause → Reply
  | none => ⟨echo entry, none⟩
  | some (.intrusion i) => ⟨complaint (.intrusion i), none⟩
  | some .openEnd => ⟨complaint .openEnd, some 0⟩
  | some .endOfInput => ⟨bytes "\n", some 0⟩
  | some (.outage _) => ⟨#[], some 1⟩

/-! ## As it is typed -/

/-- A line, or the bytes in front of the end of the input. -/
inductive Typed where
  | line (body : List UInt8)
  | last (bytes : List UInt8)
  deriving DecidableEq, Repr

inductive Response where
  | listen (text : Array UInt8) (scan : Scan)
  | exit (text : Array UInt8) (code : Nat)

def shown (action : Sink.Action) : Array UInt8 :=
  match policy.prompting action {} with
  | .ok _ sink | .error _ sink => sink.taken

def opening : Response := .listen (shown (Sink.deliver prompt)) {}

def respond (entry : Entry) (failure : Option Cause) : Response :=
  let reply := reply entry failure
  match reply.exit with
  | none => .listen (reply.text ++ shown (Sink.deliver prompt)) {}
  | some code => .exit reply.text code

def react (scan : Scan) : Typed → Response
  | .line body =>
    let line := policy.line scan body
    match line.outcome with
    | .error intrusion => respond line.scan.entry (some (.intrusion intrusion))
    | .ok .complete => respond line.scan.entry none
    | .ok .unfinished | .ok .dangling =>
      let scan := line.scan.openLine
      .listen (shown (Dots.deliver scan.depth)) scan
  | .last bytes =>
    let reading := Policy.finish (.rest bytes) scan {} #[]
    respond reading.entry reading.failure

/-! ## As a whole -/

structure Transcript where
  text : Array UInt8 := #[]
  exit : Nat := 0
  deriving DecidableEq, Repr

def Transcript.add (t : Transcript) (reading : Reading) : Transcript :=
  let reply := reply reading.entry reading.failure
  { text := t.text ++ reading.sink.taken ++ reply.text, exit := reply.exit.getD t.exit }

def run (input : Input) : Transcript :=
  (policy.session prompt {} input).foldl Transcript.add {}

end Linewise.Console
