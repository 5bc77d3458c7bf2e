import Linewise.Judgement
import Linewise.Proofs.Effect
import Linewise.Proofs.Run
import Linewise.Proofs.Separator

/-! The parts of a scan depend on each other: the marks lie on code, an undecided byte is the last
of the text, and before the first code nothing can hold the unit open. Every byte and every line end
preserves that. -/

namespace Linewise

theorem Extent.mark_eq_some {extent : Option Extent} {offset : Nat} {marked : Extent}
    (h : Extent.mark extent offset = some marked) :
    marked.last = offset ∧ ((extent = none ∧ marked.first = offset) ∨
      ∃ old, extent = some old ∧ marked.first = old.first) := by
  cases extent with
  | none => cases h; exact ⟨rfl, .inl ⟨rfl, rfl⟩⟩
  | some old => cases h; exact ⟨rfl, .inr ⟨old, rfl, rfl⟩⟩

@[simp] theorem Extent.mark_ne_none (extent : Option Extent) (offset : Nat) :
    Extent.mark extent offset ≠ none := by
  cases extent <;> simp [Extent.mark]

namespace Scan

/-- A byte other than a blank stands at the offset. -/
def Filled (s : Scan) (offset : Nat) : Prop :=
  ∃ byte, s.text[offset]? = some byte ∧ Byte.isBlank byte = false

structure Sound (s : Scan) : Prop where
  marks : ∀ extent ∈ s.extent,
    extent.first ≤ extent.last ∧ s.Filled extent.first ∧ s.Filled extent.last
  lineStart : s.lineStart ≤ s.text.size
  depth : s.depth ≤ s.text.size
  expecting : s.expecting = true → s.depth = 0 ∧ s.context.keepsExpectation = true
  sign : ∀ sign, s.context = .sign sign → s.depth = 0
  slash : s.context = .slash → s.text.back? = some Byte.slash
  hash : s.context = .hash → s.text.back? = some Byte.hash
  /-- Nothing but blanks, comments and an undecided byte comes before the code. -/
  blank : s.extent = none →
    s.depth = 0 ∧ s.expecting = false ∧ s.context.keepsExpectation = true

variable {s : Scan} {byte : UInt8} {effect : Effect}

theorem Filled.lt {offset : Nat} (filled : s.Filled offset) : offset < s.text.size := by
  obtain ⟨byte, found, -⟩ := filled
  exact (Array.getElem?_eq_some_iff.mp found).1

theorem sound_empty : Sound {} where
  marks := by simp
  lineStart := Nat.le_refl 0
  depth := Nat.le_refl 0
  expecting := nofun
  sign := nofun
  slash := nofun
  hash := nofun
  blank := fun _ => ⟨rfl, rfl, rfl⟩

/-! ## The text after a byte -/

theorem text_apply_of_not_shebang (h : effect.shebang = false) :
    (s.apply byte effect).text = s.text.push byte := by
  simp [apply, h]

theorem text_apply_of_shebang (h : effect.shebang = true) :
    (s.apply byte effect).text = (s.text.pop.push Byte.slash).push Byte.slash := by
  simp [apply, h]

theorem size_pos_of_back? {text : Array UInt8} {byte : UInt8} (h : text.back? = some byte) :
    0 < text.size := by
  rw [Array.back?_eq_getElem?] at h
  have := (Array.getElem?_eq_some_iff.mp h).1
  omega

theorem back?_of_shebang (sound : s.Sound) (accepted : s.effect byte = .ok effect)
    (shebang : effect.shebang = true) : s.text.back? = some Byte.hash ∧ byte = Byte.bang := by
  obtain ⟨context, role⟩ := Context.hash_bang_of_shebang (effect_eq_ok_iff.mp accepted) shebang
  exact ⟨sound.hash context, Role.ofByte_eq_bang_iff.mp role⟩

theorem size_apply (sound : s.Sound) (accepted : s.effect byte = .ok effect) :
    (s.apply byte effect).text.size = s.text.size + 1 := by
  by_cases shebang : effect.shebang = true
  · have := size_pos_of_back? (back?_of_shebang sound accepted shebang).1
    rw [text_apply_of_shebang shebang]
    simp only [Array.size_push, Array.size_pop]
    omega
  · rw [text_apply_of_not_shebang (by simpa using shebang), Array.size_push]

theorem getElem?_apply_of_lt (byte : UInt8) (effect : Effect) {offset : Nat}
    (h : offset < s.text.size) :
    (s.apply byte effect).text[offset]? = s.text[offset]? ∨
      (s.apply byte effect).text[offset]? = some Byte.slash := by
  by_cases shebang : effect.shebang = true
  · rw [text_apply_of_shebang shebang]
    simp only [Array.getElem?_push, Array.size_push, Array.size_pop, Array.getElem?_pop]
    split
    · exact .inr rfl
    · split
      · exact .inr rfl
      · left; rw [if_pos (by omega)]
  · left
    rw [text_apply_of_not_shebang (by simpa using shebang), Array.getElem?_push_lt h,
      Array.getElem?_eq_getElem h]

theorem Filled.apply {offset : Nat} (filled : s.Filled offset) :
    (s.apply byte effect).Filled offset := by
  rcases getElem?_apply_of_lt byte effect filled.lt with same | slash
  · obtain ⟨old, found, solid⟩ := filled
    exact ⟨old, same.trans found, solid⟩
  · exact ⟨_, slash, by decide⟩

theorem filled_of_undecided (sound : s.Sound) (h : s.context = .slash ∨ s.context = .hash) :
    s.Filled (s.text.size - 1) := by
  rcases h with slash | hash
  · exact ⟨_, Array.back?_eq_getElem? ▸ sound.slash slash, by decide⟩
  · exact ⟨_, Array.back?_eq_getElem? ▸ sound.hash hash, by decide⟩

theorem filled_of_counts (sound : s.Sound) (accepted : s.effect byte = .ok effect)
    (counts : effect.counts = true) : (s.apply byte effect).Filled s.text.size := by
  have solid : Byte.isBlank byte = false := by
    rw [← Role.isBlank_ofByte]
    exact Context.isBlank_of_counts (effect_eq_ok_iff.mp accepted) counts
  by_cases shebang : effect.shebang = true
  · have pos := size_pos_of_back? (back?_of_shebang sound accepted shebang).1
    refine ⟨Byte.slash, ?_, by decide⟩
    rw [text_apply_of_shebang shebang, Array.getElem?_push, if_pos (by simp; omega)]
  · refine ⟨byte, ?_, solid⟩
    rw [text_apply_of_not_shebang (by simpa using shebang), Array.getElem?_push_size]

/-! ## Every byte preserves soundness -/

theorem marks_mark {extent : Option Extent} {offset : Nat} {P : Nat → Prop}
    (before : ∀ x ∈ extent, x.first ≤ x.last ∧ P x.first ∧ P x.last)
    (below : ∀ x ∈ extent, x.last ≤ offset) (here : P offset) :
    ∀ x ∈ Extent.mark extent offset, x.first ≤ x.last ∧ P x.first ∧ P x.last := by
  intro x marked
  obtain ⟨last, ⟨-, first⟩ | ⟨old, rfl, first⟩⟩ := Extent.mark_eq_some marked
  · rw [last, first]; exact ⟨Nat.le_refl _, here, here⟩
  · obtain ⟨ordered, start, -⟩ := before old rfl
    rw [last, first]
    exact ⟨Nat.le_trans ordered (below old rfl), start, here⟩

theorem marks_apply (sound : s.Sound) (accepted : s.effect byte = .ok effect) :
    ∀ x ∈ (s.apply byte effect).extent, x.first ≤ x.last ∧
      (s.apply byte effect).Filled x.first ∧ (s.apply byte effect).Filled x.last := by
  have old : ∀ x ∈ s.extent, x.first ≤ x.last ∧
      (s.apply byte effect).Filled x.first ∧ (s.apply byte effect).Filled x.last := by
    intro x hx
    obtain ⟨ordered, first, last⟩ := sound.marks x hx
    exact ⟨ordered, first.apply, last.apply⟩
  have deferred : ∀ x ∈ (if effect.deferred then Extent.mark s.extent (s.text.size - 1)
      else s.extent), x.first ≤ x.last ∧ (s.apply byte effect).Filled x.first ∧
      (s.apply byte effect).Filled x.last := by
    split
    · next deferred =>
      have undecided := Context.undecided_of_deferred (effect_eq_ok_iff.mp accepted) deferred
      refine marks_mark old (fun x hx => ?_) (filled_of_undecided sound undecided).apply
      have := (sound.marks x hx).2.2.lt
      omega
    · exact old
  have size := size_apply sound accepted
  simp only [apply, Status.after]
  split
  · next counts =>
    refine marks_mark deferred (fun x hx => ?_) (filled_of_counts sound accepted counts)
    have := (deferred x hx).2.2.lt
    omega
  · exact deferred

theorem depth_apply (sound : s.Sound) (accepted : s.effect byte = .ok effect) :
    (s.apply byte effect).depth ≤ (s.apply byte effect).text.size := by
  have bound := sound.depth
  rw [size_apply sound accepted]
  simp only [apply, Status.after]
  cases effect.nesting <;> simp only [Nesting.apply] <;> omega

theorem expecting_apply (h : (s.apply byte effect).expecting = true) :
    (s.apply byte effect).depth = 0 ∧ (s.apply byte effect).context.keepsExpectation = true := by
  simp only [apply, Status.after, Bool.and_eq_true, beq_iff_eq] at h ⊢
  exact ⟨h.1.2, h.2⟩

theorem sign_apply (sound : s.Sound) (accepted : s.effect byte = .ok effect) {sign : Sign}
    (run : (s.apply byte effect).context = .sign sign) : (s.apply byte effect).depth = 0 := by
  obtain ⟨same, outside⟩ := Context.same_of_sign (effect_eq_ok_iff.mp accepted) run
  have level : s.depth = 0 := by
    rcases outside with closed | ⟨t, before⟩
    · simpa using closed
    · exact sound.sign t before
  simp [apply, Status.after, same, Nesting.apply, level]

theorem back?_apply (h : effect.shebang = false) :
    (s.apply byte effect).text.back? = some byte := by
  rw [text_apply_of_not_shebang h, Array.back?_push]

theorem undecided_apply {mark : Role} {sign : UInt8} (accepted : s.effect byte = .ok effect)
    (undecided : (s.apply byte effect).context.undecided? = some mark) (only : mark.only = some sign) :
    (s.apply byte effect).text.back? = some sign := by
  obtain ⟨role, plain⟩ := Context.role_of_undecided (effect_eq_ok_iff.mp accepted) undecided
  have spelled : byte = sign := Role.eq_of_only_ofByte (role ▸ only)
  rw [back?_apply plain, spelled]

theorem uncounted_of_unmarked (unmarked : (s.apply byte effect).extent = none) :
    s.extent = none ∧ effect.counts = false ∧ effect.deferred = false := by
  simp only [apply, Status.after] at unmarked
  split at unmarked
  · exact absurd unmarked (Extent.mark_ne_none _ _)
  · next uncounted =>
    split at unmarked
    · exact absurd unmarked (Extent.mark_ne_none _ _)
    · next undeferred => exact ⟨unmarked, by simpa using uncounted, by simpa using undeferred⟩

/-- As long as there is no code, a byte leaves depth and expectation alone. -/
theorem silent_of_blank (sound : s.Sound) (accepted : s.effect byte = .ok effect)
    (blank : (s.apply byte effect).extent = none) :
    s.extent = none ∧ effect.nesting = .same ∧ effect.expectation = .keep ∧
      effect.context.keepsExpectation = true := by
  obtain ⟨before, uncounted, undeferred⟩ := uncounted_of_unmarked blank
  have outside := (sound.blank before).2.2
  obtain ⟨same, keep, still, -⟩ := Context.silent_of_uncounted (effect_eq_ok_iff.mp accepted)
    (.inl outside) uncounted undeferred
  exact ⟨before, same, keep, still.trans outside⟩

theorem blank_apply (sound : s.Sound) (accepted : s.effect byte = .ok effect)
    (blank : (s.apply byte effect).extent = none) :
    (s.apply byte effect).depth = 0 ∧ (s.apply byte effect).expecting = false ∧
      (s.apply byte effect).context.keepsExpectation = true := by
  obtain ⟨before, same, keep, outside⟩ := silent_of_blank sound accepted blank
  obtain ⟨level, silent, -⟩ := sound.blank before
  simp [apply, Status.after, same, keep, Nesting.apply, Expectation.apply, level, silent, outside]

theorem Sound.apply (sound : s.Sound) (accepted : s.effect byte = .ok effect) :
    (s.apply byte effect).Sound where
  marks := marks_apply sound accepted
  lineStart := by
    have := sound.lineStart
    rw [size_apply sound accepted]
    exact Nat.le_succ_of_le this
  depth := depth_apply sound accepted
  expecting := expecting_apply
  sign := fun _ => sign_apply sound accepted
  slash := fun slash => undecided_apply accepted (congrArg Context.undecided? slash) rfl
  hash := fun hash => undecided_apply accepted (congrArg Context.undecided? hash) rfl
  blank := blank_apply sound accepted

theorem Sound.accepts {t : Scan} {bytes : List UInt8} {seen : List Sighting} (sound : s.Sound)
    (accepted : Accepts s bytes seen t) : t.Sound :=
  accepted.preserves (fun one sound => sound.apply one) sound

/-! ## Line ends preserve soundness -/

theorem Accepts.size {t : Scan} {bytes : List UInt8} {seen : List Sighting} (sound : s.Sound)
    (accepted : Accepts s bytes seen t) : t.text.size = s.text.size + bytes.length := by
  induction accepted with
  | nil => simp
  | cons one _ ih =>
    rw [ih (sound.apply one), size_apply sound one, List.length_cons]
    omega

theorem Sound.startLine (sound : s.Sound) : Sound { s with lineStart := s.text.size } :=
  { sound with lineStart := Nat.le_refl _ }

/-- A change of context that touches no undecided byte and no open text is harmless. -/
theorem Sound.relabel {context : Context} (sound : s.Sound)
    (kept : s.context.keepsExpectation = true → context.keepsExpectation = true)
    (sign : ∀ sign, context = .sign sign → s.context = .sign sign)
    (slash : context = .slash → s.context = .slash) (hash : context = .hash → s.context = .hash) :
    Sound { s with context := context } where
  marks := sound.marks
  lineStart := sound.lineStart
  depth := sound.depth
  expecting := fun h => ⟨(sound.expecting h).1, kept (sound.expecting h).2⟩
  sign := fun g h => sound.sign g (sign g h)
  slash := fun h => sound.slash (slash h)
  hash := fun h => sound.hash (hash h)
  blank := fun h => ⟨(sound.blank h).1, (sound.blank h).2.1, kept (sound.blank h).2.2⟩

theorem Sound.closeLine (sound : s.Sound) : s.closeLine.Sound := by
  apply sound.relabel <;> cases s.context <;> simp [Context.atLineEnd, Context.keepsExpectation]

theorem Sound.openLine (sound : s.Sound) : s.openLine.Sound := by
  apply sound.relabel <;> cases s.context <;> simp [Context.atLineStart, Context.keepsExpectation]

theorem closeLine_eq_self (h : s.context ≠ .lineComment) : s.closeLine = s := by
  have same : s.context.atLineEnd = s.context := by
    cases context : s.context <;> first | rfl | exact absurd context h
  simp only [closeLine, same]

theorem openLine_eq_self (outside : s.context.keepsExpectation = true) : s.openLine = s := by
  have same : s.context.atLineStart = s.context := by
    cases context : s.context <;> first | rfl | simp [context, Context.keepsExpectation] at outside
  simp only [openLine, same]

theorem openLine_of_code (code : s.context = .code) : s.openLine = s :=
  openLine_eq_self (by rw [code]; rfl)

/-! ## The end of a line -/

section

variable {t : Scan} {body : List UInt8} {seen : List Sighting}

theorem Accepts.newline (accepted : Accepts s (Separator.replace (Input.terminated body)).bytes seen t) :
    ∃ (u : Scan) (last : Effect), u.effect Byte.newline = .ok last ∧
      t = u.apply Byte.newline last := by
  rw [Separator.replace_terminated] at accepted
  obtain ⟨_, _, u, -, -, ended⟩ := accepted.split
  cases ended with
  | cons one none =>
    cases none
    exact ⟨u, _, one, rfl⟩

theorem back?_of_terminated
    (accepted : Accepts s (Separator.replace (Input.terminated body)).bytes seen t) :
    t.text.back? = some Byte.newline := by
  obtain ⟨u, last, one, rfl⟩ := accepted.newline
  refine back?_apply (Bool.eq_false_iff.mpr fun shebang => ?_)
  have bang := (Context.hash_bang_of_shebang (effect_eq_ok_iff.mp one) shebang).2
  exact absurd bang (by decide)

/-- No byte is undecided. -/
structure Settled (s : Scan) : Prop where
  hash : s.context ≠ .hash
  slash : s.context ≠ .slash

theorem settled_of_terminated
    (accepted : Accepts s (Separator.replace (Input.terminated body)).bytes seen t) :
    t.Settled := by
  obtain ⟨u, last, one, rfl⟩ := accepted.newline
  have entry := effect_eq_ok_iff.mp one
  constructor
  · intro hash
    exact absurd (Context.role_of_undecided entry (congrArg Context.undecided? hash)).1 (by decide)
  · intro slash
    exact absurd (Context.role_of_undecided entry (congrArg Context.undecided? slash)).1 (by decide)

theorem Settled.nextLine (settled : s.Settled) : s.closeLine.openLine.Settled := by
  obtain ⟨hash, slash⟩ := settled
  constructor <;> cases context : s.context <;>
    simp_all [Scan.closeLine, Scan.openLine, Context.atLineEnd, Context.atLineStart]

end

/-! ## Judgements -/

theorem lineCode_of_blank (blank : s.extent = none) : s.lineCode = [] := by
  simp [lineCode, blank]

section

variable {settings : Settings} {vocabulary : Vocabulary}

theorem judgement_eq_unfinished_iff :
    s.judgement settings vocabulary = .unfinished ↔ s.isResolved settings = false := by
  unfold judgement
  cases s.isResolved settings <;> cases vocabulary.promisesMore s.lineCode <;> simp

theorem judgement_eq_complete_iff :
    s.judgement settings vocabulary = .complete ↔
      s.isResolved settings = true ∧ vocabulary.promisesMore s.lineCode = false := by
  unfold judgement
  cases s.isResolved settings <;> cases vocabulary.promisesMore s.lineCode <;> simp

theorem judgement_eq_dangling_iff :
    s.judgement settings vocabulary = .dangling ↔
      s.isResolved settings = true ∧ vocabulary.promisesMore s.lineCode = true := by
  unfold judgement
  cases s.isResolved settings <;> cases vocabulary.promisesMore s.lineCode <;> simp

theorem isSome_of_dangling (h : s.judgement settings vocabulary = .dangling) :
    s.extent.isSome = true := by
  refine Option.isSome_iff_ne_none.mpr fun blank => ?_
  have promised := (judgement_eq_dangling_iff.mp h).2
  simp [lineCode_of_blank blank, Vocabulary.promisesMore, lastWord] at promised

end

theorem isResolved_iff {settings : Settings} :
    s.isResolved settings = true ↔ s.depth = 0 ∧ s.expecting = false ∧ s.context = .code ∧
      (s.extent.isSome = true ∨ settings.collectsComments = false) := by
  simp [isResolved, and_assoc]

/-- In plain code outside of brackets, behind some code, nothing but an expectation leaves a line open. -/
theorem unfinished_iff_expecting (code : s.context = .code) (level : s.depth = 0)
    (marked : s.extent.isSome = true) (settings : Settings) (vocabulary : Vocabulary) :
    s.judgement settings vocabulary = .unfinished ↔ s.expecting = true := by
  rw [judgement_eq_unfinished_iff, isResolved]
  simp [code, level, marked]

theorem conclude_of_ne {judgement : Judgement} (h : judgement ≠ .dangling) :
    s.conclude judgement = s := by
  have : (judgement == .dangling) = false := by simpa using h
  simp only [Scan.conclude, this, Bool.or_false]

theorem Sound.conclude (sound : s.Sound) (settings : Settings) (vocabulary : Vocabulary) :
    (s.conclude (s.judgement settings vocabulary)).Sound := by
  cases judged : s.judgement settings vocabulary with
  | complete | unfinished => rw [conclude_of_ne (by decide)]; exact sound
  | dangling =>
    have occupied := isSome_of_dangling judged
    obtain ⟨level, -, code, -⟩ := isResolved_iff.mp (judgement_eq_dangling_iff.mp judged).1
    exact { sound with
      expecting := fun _ => ⟨level, by simp [Scan.conclude, code, Context.keepsExpectation]⟩
      blank := fun blank => absurd (Option.isSome_iff_ne_none.mp occupied) (not_not_intro blank) }

end Scan

end Linewise
