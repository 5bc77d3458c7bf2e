import Linewise.Policy

/-! A sink that bounds neither its room nor its flushes refuses nothing, so prompting at one never
ends an episode. -/

namespace Linewise.Sink

/-- Every write and every flush succeeds. -/
structure IsUnlimited (sink : Sink) : Prop where
  room : sink.room = none
  flushes : sink.flushes = none

/-- No unlimited sink refuses the action, or becomes limited by it. -/
def Passes (action : Action) : Prop :=
  ∀ sink : Sink, sink.IsUnlimited → ∃ next, action sink = .ok () next ∧ next.IsUnlimited

theorem isUnlimited_emptied {sink : Sink} (unlimited : sink.IsUnlimited) :
    sink.emptied.IsUnlimited :=
  ⟨unlimited.room, unlimited.flushes⟩

theorem Passes.unlimited {action : Action} (passes : Passes action) {sink next : Sink} {done : Unit}
    (taken : action sink = .ok done next) (unlimited : sink.IsUnlimited) : next.IsUnlimited := by
  obtain ⟨other, same, still⟩ := passes sink unlimited
  rw [taken] at same
  cases same
  exact still

theorem Passes.limited {action : Action} (passes : Passes action) {sink next : Sink} {outage : Outage}
    (refused : action sink = .error outage next) : ¬ sink.IsUnlimited := by
  intro unlimited
  obtain ⟨other, same, -⟩ := passes sink unlimited
  rw [refused] at same
  cases same

theorem passes_pure : Passes (pure ()) := fun sink unlimited => ⟨sink, rfl, unlimited⟩

theorem passes_bind {first second : Action} (one : Passes first) (two : Passes second) :
    Passes (do first; second) := by
  intro sink unlimited
  obtain ⟨middle, written, still⟩ := one sink unlimited
  obtain ⟨next, done, after⟩ := two middle still
  refine ⟨next, ?_, after⟩
  simp only [bind, EStateM.bind, written]
  exact done

theorem passes_write (bytes : List UInt8) : Passes (write bytes) := by
  intro sink unlimited
  refine ⟨{ sink with taken := sink.taken ++ bytes }, ?_, unlimited.room, unlimited.flushes⟩
  simp only [write, unlimited.room]

theorem passes_flush : Passes flush := by
  intro sink unlimited
  refine ⟨sink, ?_, unlimited⟩
  simp only [flush, unlimited.flushes]

theorem passes_deliver (bytes : List UInt8) : Passes (deliver bytes) :=
  passes_bind (passes_write bytes) passes_flush

theorem passes_writeBlocks (count : Nat) : Passes (Dots.writeBlocks count) := by
  induction count with
  | zero => exact passes_pure
  | succ count ih => exact passes_bind (passes_write Dots.block) ih

theorem passes_dots (depth : Nat) : Passes (Dots.deliver depth) :=
  passes_bind (passes_bind (passes_writeBlocks _) (passes_write _)) passes_flush

theorem passes_prompting (p : Policy) {action : Action} (passes : Passes action) :
    Passes (p.prompting action) := by
  unfold Policy.prompting
  split
  · exact passes
  · exact passes_pure

end Linewise.Sink
