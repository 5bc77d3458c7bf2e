import Linewise.Scan

/-! An entry is the text of one episode, cut in two where the code begins. -/

namespace Linewise

structure Entry where
  /-- Every byte read, apart from replaced separators and shebangs. -/
  text : Array UInt8 := #[]
  start : Option Nat := none
  deriving DecidableEq, Repr

namespace Entry

def comments (e : Entry) : Array UInt8 := e.text.extract 0 (e.start.getD e.text.size)

def code (e : Entry) : Option (Array UInt8) := e.start.map fun start => e.text.extract start e.text.size

variable {e : Entry} {start : Nat}

theorem code_of_blank (blank : e.start = none) : e.code = none := by
  rw [code, blank, Option.map_none]

theorem comments_of_blank (blank : e.start = none) : e.comments = e.text := by
  simp [comments, blank]

theorem code_of_start (begins : e.start = some start) :
    e.code = some (e.text.extract start e.text.size) := by
  rw [code, begins, Option.map_some]

theorem comments_append_code {code : Array UInt8} (begins : e.start = some start)
    (inside : start ≤ e.text.size) (found : e.code = some code) : e.comments ++ code = e.text := by
  obtain rfl := Option.some.inj ((code_of_start begins).symm.trans found)
  simp [comments, begins, inside]

end Entry

def Scan.entry (s : Scan) : Entry := ⟨s.text, s.codeStart⟩

end Linewise
