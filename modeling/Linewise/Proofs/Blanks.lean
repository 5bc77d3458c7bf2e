import Linewise.Proofs.Soundness

/-! Outside quoted literals a newline does what any other blank does, and behind a blank a further
one does nothing. Inside a quoted literal a newline is refused, and blanks before it cannot change
that. -/

namespace Linewise

theorem Separator.blank_foreign {byte : UInt8} (blank : Byte.isBlank byte = true) : byte ∉ bytes := by
  intro member
  simp only [bytes, List.mem_cons, List.not_mem_nil, or_false] at member
  rcases member with rfl | rfl | rfl <;> exact absurd blank (by decide)

theorem Status.after_blank_again (s : Status) (offset offset' : Nat) (effect : Effect) :
    (s.after offset effect).after offset' { context := effect.context } = s.after offset effect := by
  have absorbed (a b c : Bool) : (a && b && c && b && c) = (a && b && c) := by
    cases a <;> cases b <;> cases c <;> rfl
  exact congrArg (fun expecting => ({ s.after offset effect with expecting } : Status))
    (absorbed _ (effect.nesting.apply s.depth == 0) effect.context.keepsExpectation)

namespace Scan

variable {s t : Scan} {byte : UInt8} {effect : Effect} {bytes more blanks : List UInt8}
  {seen : List Sighting} {literal : Literal}

theorem effect_blank (accepted : s.effect Byte.newline = .ok effect)
    (blank : Byte.isBlank byte = true) : s.effect byte = .ok effect :=
  effect_eq_ok_iff.mpr
    (Context.effect_blank (effect_eq_ok_iff.mp accepted) ((Role.isBlank_ofByte byte).trans blank))

theorem not_shebang_of_newline (accepted : s.effect Byte.newline = .ok effect) :
    effect.shebang = false :=
  Bool.eq_false_iff.mpr fun shebang => absurd
    (Context.hash_bang_of_shebang (effect_eq_ok_iff.mp accepted) shebang).2 (by decide)

theorem text_apply_newline (accepted : s.effect Byte.newline = .ok effect) (byte : UInt8) :
    (s.apply byte effect).text = s.text.push byte :=
  text_apply_of_not_shebang (not_shebang_of_newline accepted)

/-- A blank leaves the same scan as a newline, but for the text. -/
theorem apply_blank (accepted : s.effect Byte.newline = .ok effect) (byte : UInt8) :
    s.apply byte effect = { s.apply Byte.newline effect with text := s.text.push byte } := by
  rw [← text_apply_newline accepted byte]
  rfl

theorem extent_newline (accepted : s.effect Byte.newline = .ok effect) :
    (s.apply Byte.newline effect).extent =
      if s.context = .slash ∨ s.context = .hash then Extent.mark s.extent (s.text.size - 1)
      else s.extent := by
  have entry := effect_eq_ok_iff.mp accepted
  have blank : (Role.ofByte Byte.newline).isBlank = true := rfl
  have uncounted : effect.counts = false := Bool.eq_false_iff.mpr fun counts => by
    cases blank.symm.trans (Context.isBlank_of_counts entry counts)
  have deferred := Context.deferred_iff_of_isBlank entry blank
  simp only [Scan.apply, Status.after, uncounted, deferred, Bool.false_eq_true, if_false]

theorem effect_newline_again (accepted : s.effect Byte.newline = .ok effect) (byte : UInt8) :
    (s.apply byte effect).effect Byte.newline = .ok { context := effect.context } :=
  effect_eq_ok_iff.mpr (Context.effect_blank_again (effect_eq_ok_iff.mp accepted))

theorem accepts_blanks (accepted : s.effect Byte.newline = .ok effect)
    (blank : ∀ byte ∈ blanks, Byte.isBlank byte = true) :
    ∃ seen, Accepts s (blanks ++ [Byte.newline]) seen
      { s.apply Byte.newline effect with text := (s.text ++ blanks).push Byte.newline } := by
  induction blanks generalizing s effect with
  | nil =>
    have only := Accepts.single accepted
    rw [apply_blank accepted Byte.newline] at only
    exact ⟨_, by simpa using only⟩
  | cons byte blanks ih =>
    have first := effect_blank accepted (blank byte List.mem_cons_self)
    obtain ⟨seen, rest⟩ := ih (effect_newline_again accepted byte) fun other member =>
      blank other (List.mem_cons_of_mem _ member)
    have text : (s.apply byte effect).text ++ blanks = s.text ++ (byte :: blanks) := by
      rw [text_apply_newline accepted]
      apply Array.ext'
      simp
    have same : { (s.apply byte effect).apply Byte.newline { context := effect.context } with
          text := ((s.apply byte effect).text ++ blanks).push Byte.newline } =
        { s.apply Byte.newline effect with text := (s.text ++ (byte :: blanks)).push Byte.newline } := by
      rw [text]
      exact congrArg (fun status => Scan.mk status s.lineStart _) (Status.after_blank_again ..)
    exact ⟨_, .cons first (same ▸ rest)⟩

/-! ## Refused bytes -/

def Refuses (s : Scan) (bytes : List UInt8) (literal : Literal) : Prop :=
  ∃ intrusion, (s.run bytes).intrusion = some intrusion ∧ intrusion.literal = literal

theorem refuses_of_error {intrusion : Intrusion} (refused : s.effect byte = .error intrusion)
    (bytes : List UInt8) : s.Refuses (byte :: bytes) intrusion.literal :=
  ⟨intrusion, congrArg Run.intrusion (run_cons_of_error refused bytes), rfl⟩

theorem Accepts.refuses (accepted : Accepts s bytes seen t) (refuses : t.Refuses more literal) :
    s.Refuses (bytes ++ more) literal := by
  obtain ⟨intrusion, stopped, same⟩ := refuses
  exact ⟨intrusion, by rw [run_append accepted, stopped], same⟩

/-- Blanks before a newline that is refused are refused themselves, or leave the literal open. -/
theorem refuses_blanks {intrusion : Intrusion} (refused : s.effect Byte.newline = .error intrusion)
    (blank : ∀ byte ∈ blanks, Byte.isBlank byte = true) :
    s.Refuses (blanks ++ [Byte.newline]) intrusion.literal := by
  induction blanks generalizing s intrusion with
  | nil => exact refuses_of_error refused []
  | cons byte blanks ih =>
    obtain ⟨literal, entry, rfl⟩ := effect_eq_error_iff.mp refused
    have role : (Role.ofByte byte).isBlank = true :=
      (Role.isBlank_ofByte byte).trans (blank byte List.mem_cons_self)
    rcases Context.effect_blank_quoted entry role with stop | goes
    · exact refuses_of_error (effect_eq_error_iff.mpr ⟨literal, stop, rfl⟩) (blanks ++ [Byte.newline])
    · have first : s.effect byte = .ok { context := .quoted literal } := effect_eq_ok_iff.mpr goes
      have still : (s.apply byte { context := .quoted literal }).effect Byte.newline =
          .error ⟨Byte.newline, literal, (s.apply byte { context := .quoted literal }).text.size⟩ :=
        effect_eq_error_iff.mpr ⟨literal, rfl, rfl⟩
      have rest := ih still fun other member => blank other (List.mem_cons_of_mem _ member)
      exact (Accepts.single first).refuses rest

end Scan

end Linewise
