import Linewise.Scan

/-! A run either accepts all its bytes, or accepts those before the first that is refused
(`Scan.run_cases`), so what one byte preserves is preserved by a run. -/

namespace Linewise.Scan

inductive Accepts : Scan → List UInt8 → List Sighting → Scan → Prop where
  | nil {s : Scan} : Accepts s [] [] s
  | cons {s t : Scan} {byte : UInt8} {effect : Effect} {bytes : List UInt8} {seen : List Sighting}
      (accepted : s.effect byte = .ok effect) (rest : Accepts (s.apply byte effect) bytes seen t) :
      Accepts s (byte :: bytes) (s.sighting byte effect :: seen) t

variable {s t u : Scan} {byte : UInt8} {effect : Effect} {bytes more : List UInt8}
  {seen later : List Sighting}

namespace Accepts

theorem single (accepted : s.effect byte = .ok effect) :
    Accepts s [byte] [s.sighting byte effect] (s.apply byte effect) :=
  .cons accepted .nil

theorem append (first : Accepts s bytes seen t) (second : Accepts t more later u) :
    Accepts s (bytes ++ more) (seen ++ later) u := by
  induction first with
  | nil => exact second
  | cons accepted _ ih => exact .cons accepted (ih second)

theorem split (whole : Accepts s (bytes ++ more) seen u) :
    ∃ first second t, seen = first ++ second ∧ Accepts s bytes first t ∧ Accepts t more second u := by
  induction bytes generalizing s seen with
  | nil => exact ⟨[], seen, s, rfl, .nil, whole⟩
  | cons byte bytes ih =>
    cases whole with
    | cons accepted rest =>
      obtain ⟨first, second, t, rfl, left, right⟩ := ih rest
      exact ⟨_, second, t, rfl, .cons accepted left, right⟩

/-- What holds after every byte holds after all of them. -/
theorem preserves {P : Scan → Prop}
    (step : ∀ {s byte effect}, s.effect byte = .ok effect → P s → P (s.apply byte effect))
    (accepted : Accepts s bytes seen t) (start : P s) : P t := by
  induction accepted with
  | nil => exact start
  | cons one _ ih => exact ih (step one start)

theorem lineStart_eq (accepted : Accepts s bytes seen t) : t.lineStart = s.lineStart :=
  accepted.preserves (P := fun u => u.lineStart = s.lineStart) (fun _ same => same) rfl

end Accepts

theorem run_eq (accepted : Accepts s bytes seen t) : s.run bytes = ⟨t, seen, none⟩ := by
  induction accepted with
  | nil => rfl
  | cons one _ ih => simp [run_cons_of_ok one, ih]

theorem run_append (accepted : Accepts s bytes seen t) (more : List UInt8) :
    s.run (bytes ++ more) = { t.run more with seen := seen ++ (t.run more).seen } := by
  induction accepted with
  | nil => rfl
  | cons one _ ih => simp [run_cons_of_ok one, ih]

theorem run_of_refused {intrusion : Intrusion} (accepted : Accepts s bytes seen t)
    (refused : t.effect byte = .error intrusion) (rest : List UInt8) :
    s.run (bytes ++ byte :: rest) = ⟨t.record byte, seen, some intrusion⟩ := by
  rw [run_append accepted, run_cons_of_error refused, List.append_nil]

/-- A run accepts all its bytes, or stops at one of them. -/
theorem run_cases (s : Scan) (bytes : List UInt8) :
    (∃ seen t, Accepts s bytes seen t ∧ s.run bytes = ⟨t, seen, none⟩) ∨
      ∃ front byte back seen t intrusion, bytes = front ++ byte :: back ∧
        Accepts s front seen t ∧ t.effect byte = .error intrusion ∧
        s.run bytes = ⟨t.record byte, seen, some intrusion⟩ := by
  induction bytes generalizing s with
  | nil => exact .inl ⟨[], s, .nil, rfl⟩
  | cons byte bytes ih =>
    cases entry : s.effect byte with
    | error intrusion =>
      exact .inr ⟨[], byte, bytes, [], s, intrusion, rfl, .nil, entry, run_cons_of_error entry bytes⟩
    | ok effect =>
      rcases ih (s.apply byte effect) with
        ⟨seen, t, rest, run⟩ | ⟨front, stop, back, seen, t, intrusion, rfl, rest, refused, run⟩
      · exact .inl ⟨_, t, .cons entry rest, by simp [run_cons_of_ok entry, run]⟩
      · exact .inr ⟨byte :: front, stop, back, _, t, intrusion, rfl, .cons entry rest, refused,
          by simp [run_cons_of_ok entry, run]⟩

theorem effect_eq_ok_iff :
    s.effect byte = .ok effect ↔
      s.context.effect (Role.ofByte byte) (0 < s.depth) = .ok effect := by
  unfold Scan.effect
  cases s.context.effect (Role.ofByte byte) (0 < s.depth) with
  | ok found =>
    show Except.ok found = Except.ok effect ↔ _
    simp
  | error literal =>
    show Except.error _ = Except.ok effect ↔ _
    simp

theorem effect_eq_error_iff {intrusion : Intrusion} :
    s.effect byte = .error intrusion ↔
      ∃ literal, s.context.effect (Role.ofByte byte) (0 < s.depth) = .error literal ∧
        intrusion = ⟨byte, literal, s.text.size⟩ := by
  unfold Scan.effect
  cases s.context.effect (Role.ofByte byte) (0 < s.depth) with
  | ok effect =>
    show Except.ok effect = Except.error intrusion ↔ _
    simp
  | error literal =>
    show Except.error _ = Except.error intrusion ↔ _
    simp [eq_comm]

/-- A refused byte is a control byte inside a quoted literal, and it is reported where it stands. -/
theorem intrusion_of_error {intrusion : Intrusion} (refused : s.effect byte = .error intrusion) :
    Byte.isControl byte = true ∧ intrusion.byte = byte ∧ intrusion.offset = s.text.size ∧
      (s.context = .quoted intrusion.literal ∨ s.context = .escape intrusion.literal) := by
  obtain ⟨literal, entry, rfl⟩ := effect_eq_error_iff.mp refused
  obtain ⟨control, inside⟩ := Context.effect_eq_error_iff.mp entry
  exact ⟨Role.ofByte_eq_control_iff.mp control, rfl, rfl, inside⟩

end Linewise.Scan
