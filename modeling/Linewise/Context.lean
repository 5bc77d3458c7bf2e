/-! Where in the text a scan stands: in plain code, inside a literal or a comment, or right after a
byte whose meaning the next byte decides. -/

namespace Linewise

/-- The two kinds of literal in which a control byte is an error. -/
inductive Literal where
  | rune
  | string
  deriving DecidableEq, Repr

def Literal.label : Literal → String
  | .rune => "rune"
  | .string => "string"

/-- The two operators that cancel out when doubled, as in `++` and `--`. -/
inductive Sign where
  | plus
  | minus
  deriving DecidableEq, Repr

inductive Context where
  | code
  /-- Code after an odd run of one sign, which may yet turn out to be doubled. -/
  | sign (s : Sign)
  | quoted (l : Literal)
  | escape (l : Literal)
  | raw
  /-- After a slash that is a division, or opens a comment. -/
  | slash
  /-- After a hash sign that is plain content, or opens a shebang. -/
  | hash
  | lineComment
  | block
  /-- Inside a block comment after an odd run of stars; only here a slash closes it. -/
  | blockStar
  /-- After a tilde; the next byte belongs to it, whatever it is. -/
  | tilde
  deriving DecidableEq, Repr

namespace Context

instance : Inhabited Context := ⟨code⟩

def label : Context → String
  | code => "norm"
  | sign .plus => "plus"
  | sign .minus => "minus"
  | quoted .rune => "rune"
  | quoted .string => "string"
  | escape .rune => "runesc"
  | escape .string => "stresc"
  | raw => "strraw"
  | slash => "slash"
  | hash => "hash"
  | lineComment => "lcomm"
  | block => "comment"
  | blockStar => "comm*"
  | tilde => "tilde"

/-- Plain code, comments and undecided slashes and hash signs leave a raised expectation alone;
in the other contexts the text is open on its own account, and the expectation lapses. -/
def keepsExpectation : Context → Bool
  | code | slash | hash | lineComment | block | blockStar => true
  | _ => false

def inComment : Context → Bool
  | lineComment | block | blockStar => true
  | _ => false

/-- The context at the end of a physical line: a line comment does not outlive its line. -/
def atLineEnd : Context → Context
  | lineComment => code
  | c => c

/-- The context at the start of a further line: a sign run does not reach across the line end. -/
def atLineStart : Context → Context
  | sign _ => code
  | c => c

end Context

end Linewise
