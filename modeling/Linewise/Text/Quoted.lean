import Linewise.Text.Unprintable
import Linewise.Text.Utf8

/-! Text between double quotes, in which whatever could be mistaken is escaped: one form for text,
and one for bytes, which may hold parts that are no text. -/

namespace Linewise.Text.Quoted

def numbered (c : Char) : String := "\\u\x7b" ++ Byte.hex c.toNat ++ "\x7d"

def printed (c : Char) : String := if isUnprintable c then numbered c else String.singleton c

/-- In text, control characters without a letter of their own are written by number, and a single
quote needs no escape. -/
def char (c : Char) : String :=
  match c with
  | '\x00' => "\\0"
  | '\t' => "\\t"
  | '\n' => "\\n"
  | '\r' => "\\r"
  | '"' => "\\\""
  | '\\' => "\\\\"
  | _ => printed c

def piece : Piece → String
  | .broken bytes => String.join (bytes.map fun b => "\\x" ++ Byte.hexPair b)
  | .char c =>
    if c = '\x00' then "\\0"
    else if c.toNat < 0x80 then Byte.escaped c.toNat.toUInt8
    else printed c

def enclose (text : String) : String := "\"" ++ text ++ "\""

def ofString (text : String) : String := enclose (String.join (text.toList.map char))

def ofBytes (bytes : List UInt8) : String := enclose (String.join ((pieces bytes).map piece))

end Linewise.Text.Quoted
