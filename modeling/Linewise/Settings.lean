import Linewise.Byte

/-! The settings of a session are the bits of one byte. Two of them have a meaning; the others are
kept and change nothing. -/

namespace Linewise

structure Settings where
  bits : UInt8 := 0
  deriving DecidableEq, Repr

namespace Settings

def promptBit : UInt8 := 1

def commentsBit : UInt8 := 2

def knownBits : UInt8 := promptBit ||| commentsBit

def showsPrompt (s : Settings) : Bool := s.bits &&& promptBit != 0

/-- Go on reading until there is code. Otherwise a line of comments is an entry of its own. -/
def collectsComments (s : Settings) : Bool := s.bits &&& commentsBit != 0

def known? (s : Settings) : Option Settings :=
  if s.bits &&& ~~~knownBits = 0 then some s else none

def truncated (s : Settings) : Settings := ⟨s.bits &&& knownBits⟩

def parts (s : Settings) : List String :=
  let rest := s.bits &&& ~~~knownBits
  (if s.showsPrompt then ["SHOW_PROMPT"] else []) ++
    (if s.collectsComments then ["COLLECT_ALL_COMMENTS"] else []) ++
    (if rest = 0 then [] else ["0x" ++ Byte.hex rest.toNat])

def describe (s : Settings) : String :=
  "ReadOptions(" ++ (if s.bits = 0 then "0x0" else " | ".intercalate s.parts) ++ ")"

end Settings

end Linewise
