import Linewise.Byte

/-! Before a line is scanned, each paragraph separator (U+2029) in it becomes a newline. That does
not start a new physical line: only the newline at its end does. -/

namespace Linewise.Separator

/-- The three bytes of the separator in UTF-8. They differ, so two occurrences never overlap. -/
def bytes : List UInt8 := [0xe2, 0x80, 0xa9]

structure Replaced where
  bytes : List UInt8 := []
  found : Bool := false
  deriving DecidableEq, Repr

def Replaced.cons (byte : UInt8) (rest : Replaced) : Replaced :=
  if Separator.bytes.isPrefixOf (byte :: rest.bytes) then
    ⟨Byte.newline :: rest.bytes.drop 2, true⟩
  else { rest with bytes := byte :: rest.bytes }

/-- Replaces every separator by a newline, from the right. A newline put in is not part of a
separator, so the direction makes no difference. -/
def replace (text : List UInt8) : Replaced := text.foldr Replaced.cons {}

@[simp] theorem replace_nil : replace [] = {} := rfl

theorem replace_cons (byte : UInt8) (text : List UInt8) :
    replace (byte :: text) = (replace text).cons byte := rfl

end Linewise.Separator
