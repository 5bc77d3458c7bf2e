import Linewise.Byte
import Linewise.Context

/-! Two bytes with the same role are treated alike in every context, so the scanning rules can be
read, and reasoned about, by cases. -/

namespace Linewise

inductive Role where
  /-- A blank below the space. -/
  | control
  | space
  | opener
  /-- A closing bracket, of any shape: nesting does not compare shapes. -/
  | closer
  | quote (l : Literal)
  | backtick
  | backslash
  | slash
  | hash
  | tilde
  | bang
  | star
  | sign (s : Sign)
  | operator
  /-- Letters, digits, the remaining punctuation, and all bytes outside ASCII. -/
  | plain
  deriving DecidableEq, Repr

namespace Role

def ofMark (b : UInt8) : Role :=
  match b with
  | 0x28 | 0x5b | 0x7b => opener  -- ( [ and the left brace
  | 0x29 | 0x5d | 0x7d => closer  -- ) ] and the right brace
  | 0x27 => quote .rune
  | 0x22 => quote .string
  | 0x60 => backtick
  | 0x5c => backslash
  | 0x2f => slash
  | 0x23 => hash
  | 0x7e => tilde
  | 0x21 => bang
  | 0x2a => star
  | 0x2b => sign .plus
  | 0x2d => sign .minus
  -- % & , . < = > ^ |
  | 0x25 | 0x26 | 0x2c | 0x2e | 0x3c | 0x3d | 0x3e | 0x5e | 0x7c => operator
  | _ => plain

def ofByte (b : UInt8) : Role :=
  if Byte.isControl b then control else if b = 0x20 then space else ofMark b

def isBlank : Role → Bool
  | control | space => true
  | _ => false

theorem isBlank_ofMark (b : UInt8) : (ofMark b).isBlank = false := by
  unfold ofMark; split <;> rfl

theorem isBlank_ofByte (b : UInt8) : (ofByte b).isBlank = Byte.isBlank b := by
  unfold ofByte
  split
  · next control => exact (Byte.isBlank_of_isControl control).symm
  · next mark =>
    split
    · next space => subst space; rfl
    · next other =>
      rw [isBlank_ofMark, eq_comm, Byte.isBlank_eq_false_iff]
      exact Byte.above_space (by simpa using mark) other

theorem ofByte_eq_control_iff {b : UInt8} : ofByte b = control ↔ Byte.isControl b = true := by
  have mark : ofMark b ≠ control := fun h => by simpa [h, isBlank] using isBlank_ofMark b
  unfold ofByte
  split
  · next h => simp [h]
  · next h => split <;> simp [h, mark]

end Role

end Linewise
