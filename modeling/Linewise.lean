import Linewise.Carrier
import Linewise.Main
import Linewise.Trace
import Linewise.Proofs.Effect
import Linewise.Proofs.Separator
import Linewise.Proofs.Sink
import Linewise.Proofs.Run
import Linewise.Proofs.Episode
import Linewise.Proofs.Soundness
import Linewise.Proofs.Shebang
import Linewise.Proofs.Conservation
import Linewise.Proofs.Lead
import Linewise.Proofs.Words
import Linewise.Proofs.Outcome
import Linewise.Proofs.Comments
import Linewise.Proofs.Keywords
import Linewise.Proofs.Marks
import Linewise.Proofs.Respelling
import Linewise.Proofs.Rereading
import Linewise.Proofs.Gap
import Linewise.Proofs.Lines
import Linewise.Proofs.Reachable
import Linewise.Proofs.CodeStart
import Linewise.Proofs.Pieces
import Linewise.Proofs.Cutoff
import Linewise.Proofs.Behind
import Linewise.Proofs.Earliest
import Linewise.Proofs.Limits
import Linewise.Proofs.Alike
import Linewise.Proofs.Blanks
import Linewise.Proofs.Padding
import Linewise.Proofs.Breaks
import Linewise.Proofs.Attempts
import Linewise.Proofs.Prompting
import Linewise.Proofs.Asides
import Linewise.Proofs.Pending
import Linewise.Proofs.Reserved
import Linewise.Proofs.Signs
import Linewise.Proofs.Operators
import Linewise.Proofs.Expecting
import Linewise.Proofs.Conversation
import Linewise.Proofs.Nesting
import Linewise.Proofs.Literals
import Linewise.Proofs.Blocks
import Linewise.Proofs.Intrusions
import Linewise.Proofs.LastWord
import Linewise.Proofs.Occurrences
import Linewise.Proofs.Dots
import Linewise.Proofs.Logging
import Linewise.Proofs.Dialogue
import Linewise.Proofs.Dialogue
