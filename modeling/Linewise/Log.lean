import Linewise.Judgement

/-! What can be observed of an episode. A byte that is refused is not scanned, and a line that ends
the episode otherwise is not judged. -/

namespace Linewise

structure Report where
  judgement : Judgement
  status : Status
  size : Nat
  deriving DecidableEq, Repr

inductive Event where
  | sighting (s : Sighting)
  | report (r : Report)
  deriving DecidableEq, Repr

namespace Event

def sighting? : Event → Option Sighting
  | sighting s => some s
  | report _ => none

def report? : Event → Option Report
  | sighting _ => none
  | report r => some r

end Event

end Linewise
