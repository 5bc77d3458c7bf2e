import Linewise.Scan
import Linewise.Settings
import Linewise.Vocabulary

/-! After a physical line its scan is judged: either the text is one complete unit, or another line
is wanted. `Scan.conclude` carries that back into the scan, so that a trailing keyword holds the
unit open. -/

namespace Linewise

inductive Judgement where
  | complete
  /-- Brackets, a literal, a block comment or a trailing operator ask for more, or only comments were
  seen so far and they are not wanted alone. -/
  | unfinished
  | dangling
  deriving DecidableEq, Repr

def Judgement.label : Judgement → String
  | complete => "Complete"
  | unfinished => "Incomplete"
  | dangling => "Keyword"

namespace Scan

/-- The code of the current line, from its first byte of code through its last. It is empty if the
latest code stands on an earlier line. -/
def lineCode (s : Scan) : List UInt8 :=
  match s.extent with
  | none => []
  | some extent => (s.text.extract (max extent.first s.lineStart) (extent.last + 1)).toList

def isResolved (s : Scan) (settings : Settings) : Bool :=
  s.depth == 0 && !s.expecting && s.context == .code &&
    (s.extent.isSome || !settings.collectsComments)

def judgement (s : Scan) (settings : Settings) (vocabulary : Vocabulary) : Judgement :=
  if s.isResolved settings then
    if vocabulary.promisesMore s.lineCode then .dangling else .complete
  else .unfinished

/-- A trailing keyword leaves an expectation behind, like a trailing operator. -/
def conclude (s : Scan) (judgement : Judgement) : Scan :=
  { s with expecting := s.expecting || judgement == .dangling }

end Scan

end Linewise
