import Linewise.Console

/-! Runs the console on standard input and output. What it writes, and when it exits, is up to
`Console.react`. -/

namespace Linewise.Main

partial def takeLine (input : IO.FS.Stream) (line : Array UInt8) : IO Console.Typed := do
  match (← input.read 1).data[0]? with
  | none => return .last line.toList
  | some byte =>
    if byte = Byte.newline then return .line line.toList else takeLine input (line.push byte)

def send (output : IO.FS.Stream) (bytes : Array UInt8) : IO Unit := do
  output.write ⟨bytes⟩
  output.flush

partial def converse (input output : IO.FS.Stream) : Console.Response → IO UInt32
  | .listen text scan => do
    send output text
    converse input output (Console.react scan (← takeLine input #[]))
  | .exit text code => do
    send output text
    return code.toUInt32

end Linewise.Main

def main : IO UInt32 := do
  Linewise.Main.converse (← IO.getStdin) (← IO.getStdout) Linewise.Console.opening
