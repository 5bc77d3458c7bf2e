import Linewise.Byte
import Linewise.Cause

/-! An input is read by physical lines. Its tail is either the bytes after the last newline, or the
outage that came instead of the end, in which case those bytes are lost. -/

namespace Linewise

inductive Input.Tail where
  | rest (bytes : List UInt8)
  | cut (outage : Outage)
  deriving DecidableEq, Repr

structure Input where
  lines : List (List UInt8)
  tail : Input.Tail
  deriving DecidableEq, Repr

namespace Input

def consByte (byte : UInt8) : List (List UInt8) × List UInt8 → List (List UInt8) × List UInt8
  | (lines, rest) =>
    if byte = Byte.newline then ([] :: lines, rest)
    else
      match lines with
      | [] => ([], byte :: rest)
      | line :: lines => ((byte :: line) :: lines, rest)

/-- Cuts text behind every newline: the lines without their newlines, and what follows the last. -/
def split (text : List UInt8) : List (List UInt8) × List UInt8 := text.foldr consByte ([], [])

def ofBytes (text : List UInt8) (outage : Option Outage) : Input :=
  let (lines, rest) := split text
  { lines, tail := outage.elim (.rest rest) .cut }

def terminated (line : List UInt8) : List UInt8 := line ++ [Byte.newline]

def toBytes (input : Input) : List UInt8 :=
  (input.lines.map terminated).flatten ++
    match input.tail with
    | .rest bytes => bytes
    | .cut _ => []

/-- The number of lines still to come, counting bytes after the last newline as one. -/
def size (input : Input) : Nat :=
  input.lines.length +
    match input.tail with
    | .rest (_ :: _) => 1
    | _ => 0

/-- An input at its end. An outage stays: a further attempt to read meets it again. -/
def spent (tail : Tail) : Input :=
  match tail with
  | .rest _ => ⟨[], .rest []⟩
  | .cut outage => ⟨[], .cut outage⟩

theorem size_spent (tail : Tail) : (spent tail).size = 0 := by cases tail <;> rfl

theorem flatten_split (text : List UInt8) :
    ((split text).1.map terminated).flatten ++ (split text).2 = text := by
  induction text with
  | nil => rfl
  | cons byte text ih =>
    rw [show split (byte :: text) = consByte byte (split text) from rfl]
    generalize split text = pieces at ih ⊢
    obtain ⟨lines, rest⟩ := pieces
    simp only [consByte]
    split
    · next newline => subst newline; simpa [terminated] using ih
    · cases lines <;> simpa [terminated] using ih

theorem toBytes_ofBytes (text : List UInt8) : (ofBytes text none).toBytes = text :=
  flatten_split text

end Input

end Linewise
