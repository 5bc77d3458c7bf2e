import Linewise.Policy

/-! A session reads one episode after the other from the same input, up to the first whose failure
cannot be recovered from. It comes to an end since every episode before that uses up a line. -/

namespace Linewise

def Policy.session (p : Policy) (prompt : List UInt8) (sink : Sink) (input : Input) :
    List Reading :=
  let reading := p.read prompt sink.emptied input
  if _ : reading.isResumable then
    reading :: p.session prompt reading.sink reading.input
  else [reading]
termination_by input.size
decreasing_by exact Policy.size_input_read ‹_›

end Linewise
