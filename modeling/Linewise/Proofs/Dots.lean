import Linewise.Proofs.Prompting

/-! Rows of dots are written in blocks, and a sink may run out of room inside any of them. Wherever
a row breaks off, the sink has taken the beginning of one endless pattern (`Dots.write_in_step`). -/

namespace Linewise

namespace Sink

variable {sink : Sink} {bytes : List UInt8} {count : Nat}

def Fits (sink : Sink) (count : Nat) : Prop := ∀ room ∈ sink.room, count ≤ room

def portion (sink : Sink) (count : Nat) : Nat := sink.room.elim count (min · count)

instance : Decidable (sink.Fits count) := inferInstanceAs (Decidable (∀ room ∈ sink.room, count ≤ room))

theorem portion_le (sink : Sink) (count : Nat) : sink.portion count ≤ count := by
  unfold portion
  cases sink.room with
  | none => exact Nat.le_refl count
  | some room => exact Nat.min_le_right room count

theorem write_eq_if (bytes : List UInt8) (sink : Sink) :
    let next := { sink with
      room := sink.room.map (· - bytes.length)
      taken := sink.taken ++ bytes.take (sink.portion bytes.length) }
    write bytes sink = if sink.Fits bytes.length then .ok () next else .error sink.outage next := by
  obtain ⟨room, flushes, outage, taken⟩ := sink
  cases room with
  | none => simp [write, Fits, portion]
  | some room =>
    have part : bytes.take (min room bytes.length) = bytes.take room := by
      rw [← List.take_take, List.take_length]
    simp [write, Fits, portion, part]

end Sink

namespace Dots

theorem length_columns (count : Nat) : (columns count).length = count := by
  simp [columns]

/-- Writing a row of dots comes to an end at every sink, and leaves there as much of the pattern as the row
has columns and the sink has room for. It succeeds if there is room for the whole row. Nothing else
about the sink changes. -/
theorem write_in_step (count : Nat) (sink : Sink) :
    let next := { sink with
      room := sink.room.map (· - count)
      taken := sink.taken ++ (List.range (sink.portion count)).map pattern }
    write count sink = if sink.Fits count then .ok () next else .error sink.outage next := by
  have written := Sink.write_eq_if (columns count) sink
  rw [length_columns, take_columns (sink.portion_le count)] at written
  rw [write_eq, row_eq_columns]
  exact written

example : (∃ next, write 64 { room := some 64 } = .ok () next) ∧
    ∃ next, write 64 { room := some 37 } = .error .shortWrite next ∧ next.taken.toList = columns 37 :=
  ⟨⟨_, rfl⟩, _, rfl, by decide⟩

end Dots

end Linewise
