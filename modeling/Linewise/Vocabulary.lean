import Linewise.Byte

/-! A line such as `if x` has no open bracket and no trailing operator, and still the statement goes
on. A vocabulary says of the last word of a line whether it promises more. -/

namespace Linewise

inductive WordClass where
  | identifier
  /-- A keyword that may end a statement. -/
  | terminal
  | reserved
  deriving DecidableEq, Repr

namespace WordClass

def label : WordClass → String
  | identifier => "Identifier"
  | terminal => "Terminal"
  | reserved => "Reserved"

def promisesMore : WordClass → Bool
  | reserved => true
  | _ => false

end WordClass

/-- The lowercase letters that end a text, blanks after them aside. A word is cut off on the left by
any other byte, so `x.if` ends in `if`, and `If` in `f`. -/
def lastWord (text : List UInt8) : Option (List UInt8) :=
  match ((text.reverse.dropWhile Byte.isBlank).takeWhile Byte.isLower).reverse with
  | [] => none
  | word => some word

def spelling (word : List UInt8) : String := String.ofList (word.map Byte.toChar)

structure Vocabulary where
  classify : String → WordClass

namespace Vocabulary

/-- A word in both lists is reserved. -/
def ofLists (reserved terminal : List String) : Vocabulary where
  classify word :=
    if word ∈ reserved then .reserved else if word ∈ terminal then .terminal else .identifier

def empty : Vocabulary where
  classify _ := .identifier

def goTerminal : List String := ["break", "continue", "fallthrough", "return"]

def goReserved : List String :=
  ["case", "chan", "const", "default", "defer", "else", "for", "func", "go", "goto", "if", "import",
    "interface", "map", "package", "range", "select", "struct", "switch", "type", "var"]

def go : Vocabulary := ofLists goReserved goTerminal

/-- The keywords of Go, and those of the dialect with code templates to which the tilde belongs. -/
def goDialect : Vocabulary :=
  ofLists (["macro", "lambda", "function", "typecase"] ++ goReserved) goTerminal

def promisesMore (v : Vocabulary) (code : List UInt8) : Bool :=
  (lastWord code).any fun word => (v.classify (spelling word)).promisesMore

end Vocabulary

end Linewise
