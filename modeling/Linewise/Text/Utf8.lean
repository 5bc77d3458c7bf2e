import Linewise.Byte

/-! Bytes are cut into characters and parts that are no UTF-8. A broken part is never longer than
the beginning of one character, so a byte that cannot go on with it starts a piece of its own. -/

namespace Linewise.Text

inductive Piece where
  | char (c : Char)
  | broken (bytes : List UInt8)
  deriving DecidableEq, Repr

def Piece.isBroken : Piece → Bool
  | char _ => false
  | broken _ => true

structure Lead where
  length : Nat
  /-- The first of them lies in a range, which rules out overlong forms, surrogates and numbers too
  large; the others have the whole range of continuation bytes. -/
  low : UInt8 := 0x80
  high : UInt8 := 0xbf
  bits : Nat

def Lead.ofByte? (b : UInt8) : Option Lead :=
  let bits (mask : UInt8) : Nat := (b &&& mask).toNat
  if b < 0x80 then some { length := 0, bits := b.toNat }
  else if b < 0xc2 then none
  else if b < 0xe0 then some { length := 1, bits := bits 0x1f }
  else if b < 0xf0 then
    some {
      length := 2
      low := if b = 0xe0 then 0xa0 else 0x80
      high := if b = 0xed then 0x9f else 0xbf
      bits := bits 0x0f }
  else if b < 0xf5 then
    some {
      length := 3
      low := if b = 0xf0 then 0x90 else 0x80
      high := if b = 0xf4 then 0x8f else 0xbf
      bits := bits 0x07 }
  else none

def continuation (length : Nat) (low high : UInt8) : List UInt8 → List UInt8
  | [] => []
  | b :: rest =>
    match length with
    | 0 => []
    | length + 1 =>
      if low ≤ b ∧ b ≤ high then b :: continuation length 0x80 0xbf rest else []

def codePoint (bits : Nat) (bytes : List UInt8) : Nat :=
  bytes.foldl (fun n b => n * 64 + (b &&& 0x3f).toNat) bits

def piece (b : UInt8) (rest : List UInt8) : Piece × List UInt8 :=
  match Lead.ofByte? b with
  | none => (.broken [b], [])
  | some lead =>
    let taken := continuation lead.length lead.low lead.high rest
    if taken.length = lead.length then (.char (Char.ofNat (codePoint lead.bits taken)), taken)
    else (.broken (b :: taken), taken)

def pieces (bytes : List UInt8) : List Piece :=
  go [] bytes
where
  go (done : List Piece) : List UInt8 → List Piece
    | [] => done.reverse
    | b :: rest =>
      let (next, taken) := piece b rest
      go (next :: done) (rest.drop taken.length)
  termination_by bytes => bytes.length
  decreasing_by simp only [List.length_drop, List.length_cons]; omega

def ofPieces (parts : List Piece) : String :=
  String.ofList <| parts.map fun
    | .char c => c
    | .broken _ => '\uFFFD'

end Linewise.Text
