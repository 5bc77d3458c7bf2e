import Linewise.Cause
import Linewise.Effect

/-! The lexical state of one episode, with the text read so far. The text keeps every byte in order;
only the two bytes of a shebang give way to the two slashes of a line comment. -/

namespace Linewise

structure Extent where
  first : Nat
  last : Nat
  deriving DecidableEq, Repr

def Extent.mark (extent : Option Extent) (offset : Nat) : Option Extent :=
  match extent with
  | none => some ⟨offset, offset⟩
  | some extent => some { extent with last := offset }

/-- What the continuation rules look at. -/
structure Status where
  context : Context := .code
  depth : Nat := 0
  /-- A trailing operator or keyword asks for more. -/
  expecting : Bool := false
  extent : Option Extent := none
  deriving DecidableEq, Repr

namespace Status

/-- The status after a byte at `offset` had the given effect. Open brackets, literals, sign runs and
the tilde hold the unit open by themselves, so there the expectation is dropped. -/
def after (s : Status) (offset : Nat) (effect : Effect) : Status :=
  let depth := effect.nesting.apply s.depth
  let expecting := effect.expectation.apply s.expecting
  let extent := if effect.deferred then Extent.mark s.extent (offset - 1) else s.extent
  { context := effect.context
    depth
    expecting := expecting && depth == 0 && effect.context.keepsExpectation
    extent := if effect.counts then Extent.mark extent offset else extent }

def codeStart (s : Status) : Option Nat := s.extent.map Extent.first

def codeLast (s : Status) : Option Nat := s.extent.map Extent.last

end Status

structure Scan extends Status where
  lineStart : Nat := 0
  text : Array UInt8 := #[]
  deriving DecidableEq, Repr

/-- One scanned byte: where it stands, the context it met and the status it left. -/
structure Sighting where
  offset : Nat
  byte : UInt8
  before : Context
  after : Status
  deriving DecidableEq, Repr

namespace Scan

def effect (s : Scan) (byte : UInt8) : Except Intrusion Effect :=
  (s.context.effect (Role.ofByte byte) (0 < s.depth)).mapError
    fun literal => ⟨byte, literal, s.text.size⟩

def record (s : Scan) (byte : UInt8) : Scan := { s with text := s.text.push byte }

/-- Appends a byte and carries out its effect. The bang of a shebang takes the place of the hash
sign before it, and both become slashes. -/
def apply (s : Scan) (byte : UInt8) (effect : Effect) : Scan :=
  { toStatus := s.toStatus.after s.text.size effect
    lineStart := s.lineStart
    text :=
      if effect.shebang then (s.text.pop.push Byte.slash).push Byte.slash else s.text.push byte }

def sighting (s : Scan) (byte : UInt8) (effect : Effect) : Sighting :=
  ⟨s.text.size, byte, s.context, s.toStatus.after s.text.size effect⟩

def step (s : Scan) (byte : UInt8) : Scan :=
  match s.effect byte with
  | .ok effect => s.apply byte effect
  | .error _ => s.record byte

end Scan

/-- The result of scanning some bytes: the scan reached, what was seen on the way, and the byte that
stopped it, if any. -/
structure Run where
  scan : Scan
  seen : List Sighting
  intrusion : Option Intrusion
  deriving DecidableEq, Repr

namespace Scan

def run (s : Scan) (bytes : List UInt8) : Run :=
  go [] s bytes
where
  /-- Scans on with the sightings so far, latest first. Each is taken before the scan moves on, so that
  the text is never shared and grows in place. -/
  go (seen : List Sighting) (s : Scan) : List UInt8 → Run
    | [] => ⟨s, seen.reverse, none⟩
    | byte :: bytes =>
      match s.effect byte with
      | .error intrusion => ⟨s.record byte, seen.reverse, some intrusion⟩
      | .ok effect =>
        go (s.sighting byte effect :: seen) (s.apply byte effect) bytes

def line (s : Scan) (bytes : List UInt8) : Run :=
  { s with lineStart := s.text.size }.run bytes

def lineText (s : Scan) : Array UInt8 := s.text.extract s.lineStart s.text.size

def closeLine (s : Scan) : Scan := { s with context := s.context.atLineEnd }

def openLine (s : Scan) : Scan := { s with context := s.context.atLineStart }

theorem run.go_eq (seen : List Sighting) (s : Scan) (bytes : List UInt8) :
    run.go seen s bytes =
      { run.go [] s bytes with seen := seen.reverse ++ (run.go [] s bytes).seen } := by
  induction bytes generalizing s seen with
  | nil => simp [run.go]
  | cons byte bytes ih =>
    simp only [run.go]
    split
    · simp
    · rw [ih (_ :: seen), ih [_]]; simp

theorem run_nil (s : Scan) : s.run [] = ⟨s, [], none⟩ := rfl

theorem run_cons_of_error {s : Scan} {byte : UInt8} {intrusion : Intrusion}
    (refused : s.effect byte = .error intrusion) (bytes : List UInt8) :
    s.run (byte :: bytes) = ⟨s.record byte, [], some intrusion⟩ := by
  simp [run, run.go, refused]

theorem run_cons_of_ok {s : Scan} {byte : UInt8} {effect : Effect}
    (accepted : s.effect byte = .ok effect) (bytes : List UInt8) :
    s.run (byte :: bytes) =
      let rest := (s.apply byte effect).run bytes
      { rest with seen := s.sighting byte effect :: rest.seen } := by
  simp only [run, run.go, accepted]
  rw [run.go_eq]; simp

end Scan

end Linewise
