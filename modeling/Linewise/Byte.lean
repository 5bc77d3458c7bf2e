/-! The byte classes the scanner tells apart. Text is scanned as bytes: every byte of a longer
character lies above the space, so it counts as ordinary content. -/

namespace Linewise.Byte

def newline : UInt8 := 0x0a

def slash : UInt8 := 0x2f

def hash : UInt8 := 0x23

def bang : UInt8 := 0x21

/-- Blanks are the space and everything below it. -/
def isBlank (b : UInt8) : Bool := b ≤ 0x20

/-- Control bytes are the blanks other than the space; a quoted literal may not hold one. -/
def isControl (b : UInt8) : Bool := b < 0x20

def isLower (b : UInt8) : Bool := 0x61 ≤ b && b ≤ 0x7a

def isPrintable (b : UInt8) : Bool := 0x20 ≤ b && b < 0x7f

def toChar (b : UInt8) : Char := Char.ofNat b.toNat

def hex (n : Nat) : String := String.ofList (Nat.toDigits 16 n)

def hexPair (b : UInt8) : String := if b < 0x10 then "0" ++ hex b.toNat else hex b.toNat

/-- The printable form of a byte: quotes and the backslash carry a backslash, the usual control
bytes have letters, and whatever else is not printable is written in hexadecimal. -/
def escaped (b : UInt8) : String :=
  match b with
  | 0x09 => "\\t"
  | 0x0a => "\\n"
  | 0x0d => "\\r"
  | 0x22 => "\\\""
  | 0x27 => "\\'"
  | 0x5c => "\\\\"
  | _ => if isPrintable b then String.singleton (toChar b) else "\\x" ++ hexPair b

theorem isBlank_of_isControl {b : UInt8} (h : isControl b = true) : isBlank b = true := by
  simp only [isControl, isBlank, decide_eq_true_eq, UInt8.lt_iff_toNat_lt, UInt8.le_iff_toNat_le]
    at h ⊢
  exact Nat.le_of_lt h

theorem isBlank_eq_false_iff {b : UInt8} : isBlank b = false ↔ 0x20 < b := by
  simp [isBlank]

theorem above_space {b : UInt8} (control : isControl b = false) (space : b ≠ 0x20) : 0x20 < b := by
  simp only [isControl, decide_eq_false_iff_not, UInt8.lt_iff_toNat_lt] at control ⊢
  have distinct : b.toNat ≠ (0x20 : UInt8).toNat := fun h => space (UInt8.toNat_inj.mp h)
  omega

end Linewise.Byte
