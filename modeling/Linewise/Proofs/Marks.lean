import Linewise.Proofs.Words

/-! Where the code was last seen matters on the current line only. Two scans that are the same but
for marks on an earlier line take the same bytes and are judged alike. -/

namespace Linewise

namespace Extent

/-- The extents begin alike, and unless they are the same, end before the line. -/
def Alike (lineStart : Nat) (a b : Option Extent) : Prop :=
  a = b ∨ (a.map first = b.map first ∧
    (∀ x ∈ a, x.last < lineStart) ∧ ∀ x ∈ b, x.last < lineStart)

variable {lineStart : Nat} {a b : Option Extent}

theorem Alike.first (alike : Alike lineStart a b) : b.map Extent.first = a.map Extent.first := by
  rcases alike with rfl | ⟨same, -⟩
  · rfl
  · exact same.symm

theorem isSome_of_first (first : b.map Extent.first = a.map Extent.first) :
    b.isSome = a.isSome := by
  have same := congrArg Option.isSome first
  simpa using same

theorem Alike.isSome (alike : Alike lineStart a b) : b.isSome = a.isSome :=
  isSome_of_first alike.first

theorem Alike.mark (alike : Alike lineStart a b) (offset : Nat) : mark a offset = mark b offset := by
  have first := alike.first
  cases a <;> cases b <;> simp_all [Extent.mark]

end Extent

namespace Scan

def withExtent (s : Scan) (extent : Option Extent) : Scan := { s with extent }

variable {s t : Scan} {extent : Option Extent} {byte : UInt8} {effect : Effect}

theorem eq_withExtent (context : t.context = s.context) (depth : t.depth = s.depth)
    (expecting : t.expecting = s.expecting) (lineStart : t.lineStart = s.lineStart)
    (text : t.text = s.text) : t = s.withExtent t.extent := by
  obtain ⟨⟨_, _, _, _⟩, _, _⟩ := s
  obtain ⟨⟨_, _, _, _⟩, _, _⟩ := t
  simp_all [withExtent]

theorem apply_withExtent (alike : Extent.Alike s.lineStart s.extent extent) (byte : UInt8)
    (effect : Effect) :
    ∃ next, (s.withExtent extent).apply byte effect = (s.apply byte effect).withExtent next ∧
      Extent.Alike s.lineStart (s.apply byte effect).extent next := by
  refine ⟨((s.withExtent extent).apply byte effect).extent, rfl, ?_⟩
  have late := alike.mark (s.text.size - 1)
  have now := alike.mark s.text.size
  simp only [withExtent, apply, Status.after]
  cases effect.deferred <;> cases effect.counts <;> simp only [if_true, if_false, Bool.false_eq_true]
  · exact alike
  · exact .inl now
  · exact .inl late
  · exact .inl (by rw [late])

theorem accepts_withExtent {bytes : List UInt8} {seen : List Sighting}
    (alike : Extent.Alike s.lineStart s.extent extent) (accepted : Accepts s bytes seen t) :
    ∃ seen' next, Accepts (s.withExtent extent) bytes seen' (t.withExtent next) ∧
      Extent.Alike t.lineStart t.extent next := by
  induction accepted generalizing extent with
  | nil => exact ⟨[], extent, .nil, alike⟩
  | @cons s t byte effect bytes seen one _ ih =>
    obtain ⟨next, applied, after⟩ := apply_withExtent alike byte effect
    obtain ⟨seen', last, rest, done⟩ := ih after
    exact ⟨_, last, .cons one (applied ▸ rest), done⟩

theorem Accepts.reaches_withExtent {u : Scan} {bytes : List UInt8} {seen : List Sighting}
    (accepted : Accepts s bytes seen t) (context : t.context = u.context) (depth : t.depth = u.depth)
    (expecting : t.expecting = u.expecting) (lineStart : t.lineStart = u.lineStart)
    (text : t.text = u.text) : Accepts s bytes seen (u.withExtent t.extent) :=
  eq_withExtent context depth expecting lineStart text ▸ accepted

theorem lineCode_of_early {early : Extent} (marked : s.extent = some early)
    (before : early.last < s.lineStart) : s.lineCode = [] := by
  have empty : s.text.extract (max early.first s.lineStart) (early.last + 1) = #[] :=
    Array.extract_empty_of_stop_le_start (by omega)
  simp only [lineCode, marked, empty]

theorem lineCode_withExtent (alike : Extent.Alike s.lineStart s.extent extent) :
    (s.withExtent extent).lineCode = s.lineCode := by
  rcases alike with rfl | ⟨same, before, before'⟩
  · rfl
  · cases marked : s.extent with
    | none =>
      cases extent with
      | none => exact (lineCode_of_blank rfl).trans (lineCode_of_blank marked).symm
      | some later => simp [marked] at same
    | some early =>
      cases extent with
      | none => simp [marked] at same
      | some later =>
        rw [lineCode_of_early marked (before early marked)]
        exact lineCode_of_early (s := s.withExtent (some later)) rfl (before' later rfl)

theorem isResolved_withExtent (same : extent.isSome = s.extent.isSome) (settings : Settings) :
    (s.withExtent extent).isResolved settings = s.isResolved settings := by
  simp only [isResolved, withExtent, same]

theorem judgement_withExtent (alike : Extent.Alike s.lineStart s.extent extent)
    (settings : Settings) (vocabulary : Vocabulary) :
    (s.withExtent extent).judgement settings vocabulary = s.judgement settings vocabulary := by
  simp only [judgement, isResolved_withExtent alike.isSome, lineCode_withExtent alike]

/-- At the end of a line, all that matters of the marks is where the code starts. -/
theorem alike_of_codeStart (sound : s.Sound) (sound' : (s.withExtent extent).Sound)
    (start : extent.map Extent.first = s.extent.map Extent.first) :
    Extent.Alike s.text.size s.extent extent :=
  .inr ⟨start.symm, fun x marked => (sound.marks x marked).2.2.lt,
    fun x marked => (sound'.marks x marked).2.2.lt⟩

end Scan

end Linewise
