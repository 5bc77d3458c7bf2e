import Linewise.Sink

/-! A further line of a unit is asked for by a run of dots and spaces, written in whole blocks and a
part of one. A block has an even number of columns, so the blocks join without a seam. -/

namespace Linewise.Dots

def width (depth : Nat) : Nat := 4 + 2 * depth

def block : List UInt8 := (List.replicate 16 [0x2e, 0x20]).flatten

def writeBlocks : Nat → Sink.Action
  | 0 => pure ()
  | count + 1 => do
    Sink.write block
    writeBlocks count

def write (columns : Nat) : Sink.Action := do
  writeBlocks (columns / block.length)
  Sink.write (block.take (columns % block.length))

def deliver (depth : Nat) : Sink.Action := do
  write (width depth)
  Sink.flush

end Linewise.Dots
