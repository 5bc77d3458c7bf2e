import Linewise.Proofs.Attempts
import Linewise.Proofs.Behind
import Linewise.Proofs.Marks

/-! A scan rests as long as no code comes: blanks and comments change neither its depth nor its
expectation, and lead neither into a literal nor out of one. So what holds a unit open in plain code
holds it open until new code comes (`Policy.read_pending`). -/

namespace Linewise

namespace Context

variable {context : Context} {nested : Bool} {effect : Effect}

/-- In these contexts the text goes on over the end of a line. -/
def CrossesLine (context : Context) : Prop := context = code ∨ context = raw ∨ context = block

theorem crossesLine_of_control (entry : context.effect .control nested = .ok effect) :
    effect.context.atLineEnd.CrossesLine := by
  unfold CrossesLine
  cases context <;> cases entry <;> simp [Effect.inCode, Effect.afterSign, Effect.afterSlash,
    Effect.afterHash, atLineEnd]

theorem CrossesLine.atLineStart (crosses : context.CrossesLine) : context.atLineStart = context := by
  rcases crosses with rfl | rfl | rfl <;> rfl

end Context

namespace Status

variable {a b c : Status} {size size' : Nat}

def CodeFrom (s : Status) (offset : Nat) : Prop := ∃ last, s.codeLast = some last ∧ offset ≤ last

/-- Nothing has changed for the continuation rules: the marks, the depth and the expectation are the same,
and so is whether the context keeps an expectation, and whether it is a literal between backticks. -/
structure Rests (a b : Status) : Prop where
  extent : b.extent = a.extent
  depth : b.depth = a.depth
  expecting : b.expecting = a.expecting
  keeps : b.context.keepsExpectation = a.context.keepsExpectation
  raw : b.context = .raw ↔ a.context = .raw

theorem Rests.refl (a : Status) : a.Rests a := ⟨rfl, rfl, rfl, rfl, Iff.rfl⟩

theorem Rests.trans (first : a.Rests b) (second : b.Rests c) : a.Rests c where
  extent := second.extent.trans first.extent
  depth := second.depth.trans first.depth
  expecting := second.expecting.trans first.expecting
  keeps := second.keeps.trans first.keeps
  raw := second.raw.trans first.raw

/-- Bytes that are no code leave such a status at rest: it stands outside of literals or in one between
backticks, and more is expected only outside of brackets and literals. -/
structure Steady (s : Status) : Prop where
  context : s.context.keepsExpectation = true ∨ s.context = .raw
  expecting : s.expecting = true → s.depth = 0 ∧ s.context.keepsExpectation = true

theorem Rests.steady (rests : a.Rests b) (steady : a.Steady) : b.Steady where
  context := by
    rw [rests.keeps, rests.raw]
    exact steady.context
  expecting := by
    rw [rests.keeps, rests.depth, rests.expecting]
    exact steady.expecting

/-- Behind a text of this size code came, or the status rests. -/
def Since (a : Status) (size : Nat) (b : Status) : Prop := b.CodeFrom size ∨ a.Rests b

theorem Since.trans (first : a.Since size b) (second : b.Since size' c) (le : size ≤ size') :
    a.Since size c := by
  rcases second with ⟨last, marked, behind⟩ | still
  · exact .inl ⟨last, marked, Nat.le_trans le behind⟩
  · refine first.imp ?_ (·.trans still)
    rintro ⟨last, marked, behind⟩
    refine ⟨last, ?_, behind⟩
    rw [codeLast, still.extent]
    exact marked

/-- What holds a unit open in plain code: brackets, an expectation, or that only comments were seen so
far. -/
def Holds (s : Status) (settings : Settings) : Prop :=
  0 < s.depth ∨ s.expecting = true ∨ (s.extent = none ∧ settings.collectsComments = true)

theorem Rests.holds {settings : Settings} (rests : a.Rests b) (holds : a.Holds settings) :
    b.Holds settings := by
  unfold Holds
  rw [rests.depth, rests.expecting, rests.extent]
  exact holds

end Status

namespace Report

/-- The code of a line lies before its end, and the text may go on there. -/
structure Sound (a : Report) : Prop where
  marks : ∀ last ∈ a.status.codeLast, last < a.size
  crosses : a.status.context.CrossesLine

/-- The line asks for more, but is not inside a literal or a comment at its end. -/
def Pending (a : Report) : Prop :=
  a.judgement = .dangling ∨ (a.judgement = .unfinished ∧ a.status.context = .code)

end Report

namespace Scan

variable {s t : Scan} {byte : UInt8} {effect : Effect} {bytes body : List UInt8}
  {seen : List Sighting}

/-! ## Bytes that are no code -/

theorem rests_apply (steady : s.Steady) (accepted : s.effect byte = .ok effect)
    (unmarked : (s.apply byte effect).extent = none) :
    s.toStatus.Rests (s.apply byte effect).toStatus := by
  obtain ⟨before, uncounted, undeferred⟩ := uncounted_of_unmarked unmarked
  obtain ⟨same, keep, keeps, raw⟩ := Context.silent_of_uncounted (effect_eq_ok_iff.mp accepted)
    steady.context uncounted undeferred
  refine ⟨unmarked.trans before.symm, ?_, ?_, keeps, raw⟩
  · simp [apply, Status.after, same, Nesting.apply]
  · cases expecting : s.expecting with
    | false => simp [apply, Status.after, keep, Expectation.apply, expecting]
    | true =>
      obtain ⟨level, outside⟩ := steady.expecting expecting
      simp [apply, Status.after, same, keep, Nesting.apply, Expectation.apply, expecting, level, keeps,
        outside]

theorem Accepts.rests (steady : s.Steady) (accepted : Accepts s bytes seen t)
    (unmarked : t.extent = none) : s.toStatus.Rests t.toStatus := by
  refine accepted.preserves (P := fun u => u.extent = none → s.toStatus.Rests u.toStatus) ?_
    (fun _ => .refl _) unmarked
  intro u byte effect one rests unmarked
  have sofar := rests (uncounted_of_unmarked unmarked).1
  exact sofar.trans (rests_apply (sofar.steady steady) one unmarked)

/-- Any bytes add code behind the text, or leave the status at rest. -/
theorem Accepts.since (settled : s.Settled) (steady : s.Steady) (accepted : Accepts s bytes seen t) :
    s.toStatus.Since s.text.size t.toStatus := by
  obtain ⟨z, _, taken, rfl, -⟩ := accepted.bare settled
  cases marked : z.extent with
  | none =>
    have rests := taken.rests (s := s.bare) ⟨steady.context, steady.expecting⟩ marked
    refine .inr ⟨?_, rests.depth, rests.expecting, rests.keeps, rests.raw⟩
    simp only [Scan.behind, marked]
    cases s.extent <;> rfl
  | some extent =>
    refine .inl ⟨extent.last + s.text.size, ?_, Nat.le_add_left ..⟩
    simp only [Status.codeLast, Scan.behind, marked]
    cases s.extent <;> rfl

/-! ## Line ends -/

structure BetweenLines (s : Scan) : Prop where
  sound : s.Sound
  crosses : s.context.CrossesLine
  newline : 0 < s.text.size → s.text.back? = some Byte.newline

theorem betweenLines_empty : BetweenLines {} := ⟨sound_empty, .inl rfl, nofun⟩

theorem BetweenLines.settled (between : s.BetweenLines) : s.Settled := by
  rcases between.crosses with code | raw | block <;> constructor <;> simp [*]

theorem BetweenLines.steady (between : s.BetweenLines) : s.Steady where
  context := by
    rcases between.crosses with code | raw | block
    · exact .inl (by rw [code]; rfl)
    · exact .inr raw
    · exact .inl (by rw [block]; rfl)
  expecting := between.sound.expecting

theorem BetweenLines.since (between : s.BetweenLines)
    (accepted : Accepts { s with lineStart := s.text.size } bytes seen t) :
    s.toStatus.Since s.text.size t.toStatus :=
  Accepts.since (s := { s with lineStart := s.text.size })
    ⟨between.settled.hash, between.settled.slash⟩
    ⟨between.steady.context, between.steady.expecting⟩ accepted

theorem rests_closeLine (t : Scan) : t.toStatus.Rests t.closeLine.toStatus := by
  refine ⟨rfl, rfl, rfl, ?_, ?_⟩ <;> simp only [closeLine] <;>
    cases t.context <;> simp [Context.atLineEnd, Context.keepsExpectation]

theorem crossesLine_of_terminated
    (accepted : Accepts s (Separator.replace (Input.terminated body)).bytes seen t) :
    t.closeLine.context.CrossesLine := by
  obtain ⟨u, last, one, rfl⟩ := accepted.newline
  exact Context.crossesLine_of_control (effect_eq_ok_iff.mp one)

theorem openLine_of_crossesLine (crosses : s.context.CrossesLine) : s.openLine = s := by
  simp only [openLine, crosses.atLineStart]

theorem not_dangling_of_rests {settings : Settings} {vocabulary : Vocabulary} (sound : s.Sound)
    (rests : s.toStatus.Rests t.toStatus) (lineStart : t.lineStart = s.text.size) :
    t.judgement settings vocabulary ≠ .dangling := by
  have empty : t.lineCode = [] := by
    cases marked : t.extent with
    | none => exact lineCode_of_blank marked
    | some extent =>
      have before := (sound.marks extent (rests.extent.symm.trans marked)).2.2.lt
      exact lineCode_of_early marked (lineStart ▸ before)
  intro dangling
  have promised := (judgement_eq_dangling_iff.mp dangling).2
  simp [empty, Vocabulary.promisesMore, lastWord] at promised

/-! ## What holds a unit open -/

theorem holds_of_unresolved {settings : Settings} (unresolved : s.isResolved settings = false)
    (code : s.context = .code) : s.toStatus.Holds settings := by
  refine not_not.mp fun free => Bool.eq_false_iff.mp unresolved ?_
  simp only [Status.Holds, not_or, not_and] at free
  obtain ⟨level, calm, seen⟩ := free
  refine isResolved_iff.mpr ⟨by omega, by simpa using calm, code, ?_⟩
  cases marked : s.extent with
  | none => exact .inr (by simpa using seen marked)
  | some extent => exact .inl rfl

theorem not_holds_of_resolved {settings : Settings} (resolved : s.isResolved settings = true) :
    ¬ s.toStatus.Holds settings := by
  obtain ⟨level, calm, -, seen⟩ := isResolved_iff.mp resolved
  rintro (deep | expecting | ⟨blank, collects⟩)
  · omega
  · simp [calm] at expecting
  · simp [blank, collects] at seen

end Scan

namespace Policy

variable {p : Policy} {s t u : Scan} {body : List UInt8} {bodies front back : List (List UInt8)}
  {ends last : List Scan} {tail : Input.Tail} {sink : Sink} {seen : List Sighting} {r : Reading}

theorem betweenLines_reopen (sound : s.Sound)
    (accepted : Scan.Accepts { s with lineStart := s.text.size }
      (Separator.replace (Input.terminated body)).bytes seen t) : (p.reopen t).BetweenLines where
  sound := sound_reopen (sound.startLine.accepts accepted) p
  crosses := by
    have crosses := Scan.crossesLine_of_terminated accepted
    simpa only [reopen, Scan.openLine, Scan.conclude, crosses.atLineStart] using crosses
  newline := fun _ =>
    show t.text.back? = some Byte.newline from Scan.back?_of_terminated accepted

theorem Traverses.betweenLines (traverses : p.Traverses s bodies ends u) (between : s.BetweenLines) :
    u.BetweenLines := by
  induction traverses with
  | nil => exact between
  | cons accepted _ ih => exact ih (betweenLines_reopen between.sound accepted)

theorem reopen_eq_report (accepted : Scan.Accepts s
      (Separator.replace (Input.terminated body)).bytes seen t) :
    (p.reopen t).toStatus = (p.report t.closeLine).status := by
  rw [reopen, Scan.openLine_of_crossesLine]
  · rfl
  · exact Scan.crossesLine_of_terminated accepted

/-- Only a keyword at the end of the line makes a difference to the status that is reported. -/
theorem status_report {closed : Scan}
    (calm : closed.judgement p.settings p.vocabulary ≠ .dangling) :
    (p.report closed).status = closed.toStatus := by
  simp only [report, Scan.conclude_of_ne calm]

theorem since_report (between : s.BetweenLines)
    (accepted : Scan.Accepts { s with lineStart := s.text.size }
      (Separator.replace (Input.terminated body)).bytes seen t) :
    s.toStatus.Since s.text.size (p.report t.closeLine).status := by
  refine (between.since accepted).imp id fun rests => ?_
  have closed := rests.trans (Scan.rests_closeLine t)
  have calm : t.closeLine.judgement p.settings p.vocabulary ≠ .dangling :=
    Scan.not_dangling_of_rests between.sound closed accepted.lineStart_eq
  rw [status_report calm]
  exact closed

/-! ## The reports of an episode -/

/-- Some reports and a last status come behind the scan `s`, and behind each other. -/
structure Succeed (s : Scan) (reports : List Report) (final : Status) : Prop where
  sound : ∀ a ∈ reports, a.Sound
  each : ∀ a ∈ reports, s.text.size ≤ a.size ∧ s.toStatus.Since s.text.size a.status
  pairs : reports.Pairwise fun a b => a.size ≤ b.size ∧ a.status.Since a.size b.status
  ends : s.toStatus.Since s.text.size final
  last : ∀ a ∈ reports, a.status.Since a.size final

theorem succeed_nil {final : Status} (since : s.toStatus.Since s.text.size final) :
    Succeed s [] final :=
  ⟨by simp, by simp, .nil, since, by simp⟩

theorem sound_report (sound : s.Sound)
    (accepted : Scan.Accepts { s with lineStart := s.text.size }
      (Separator.replace (Input.terminated body)).bytes seen t) : (p.report t.closeLine).Sound where
  marks := by
    intro last marked
    obtain ⟨extent, found, rfl⟩ := Option.map_eq_some_iff.mp marked
    exact ((sound.startLine.accepts accepted).marks extent found).2.2.lt
  crosses := Scan.crossesLine_of_terminated accepted

/-- One more line in front: what is behind it is behind the scan before it as well. -/
theorem Succeed.cons {reports : List Report} {final : Status} (between : s.BetweenLines)
    (accepted : Scan.Accepts { s with lineStart := s.text.size }
      (Separator.replace (Input.terminated body)).bytes seen t)
    (later : Succeed (p.reopen t) reports final) :
    Succeed s (p.report t.closeLine :: reports) final := by
  have first := since_report (p := p) between accepted
  have size : s.text.size ≤ (p.report t.closeLine).size := by
    have longer := accepted.size between.sound.startLine
    exact Nat.le.intro longer.symm
  obtain ⟨sound, each, pairs, ends, last⟩ := later
  rw [reopen_eq_report accepted] at each ends
  exact {
    sound := List.forall_mem_cons.mpr ⟨sound_report between.sound accepted, sound⟩
    each := List.forall_mem_cons.mpr ⟨⟨size, first⟩, fun a member =>
      ⟨Nat.le_trans size (each a member).1, first.trans (each a member).2 size⟩⟩
    pairs := .cons each pairs
    ends := first.trans ends size
    last := List.forall_mem_cons.mpr ⟨ends, last⟩ }

theorem since_finish (between : u.BetweenLines) (tail : Input.Tail) (sink : Sink) (log : Array Event) :
    u.toStatus.Since u.text.size (finish tail u sink log).scan.toStatus := by
  cases tail with
  | cut outage => exact .inr (.refl _)
  | rest bytes =>
    rcases finish_cases bytes u sink log with ⟨seen, t, accepted, ended⟩ |
      ⟨front, byte, back, seen, t, intrusion, -, accepted, -, stopped⟩
    · rw [ended]
      exact (between.since accepted).imp id (·.trans (Scan.rests_closeLine t))
    · have since := between.since accepted
      rw [stopped]
      exact since

theorem Last.succeed (ended : p.Last tail sink u back last r) (between : u.BetweenLines) :
    Succeed u (last.map p.report) r.scan.toStatus := by
  cases ended with
  | @complete _ _ _ t _ accepted complete failure scan input =>
    have final : r.scan.toStatus = (p.reopen t).toStatus := by
      rw [reopen_eq_report accepted, status_report (by simp [complete]), scan]
    exact .cons between accepted (succeed_nil (final ▸ .inr (.refl _)))
  | refused spelled accepted refused failure scan input =>
    have since := between.since accepted
    rw [scan]
    exact succeed_nil since
  | exhausted => exact succeed_nil (since_finish between ..)
  | unasked limited failure scan input =>
    rw [scan]
    exact succeed_nil (.inr (.refl _))

theorem Attempts.succeed (attempts : p.Attempts tail sink s bodies front back ends last u r)
    (between : s.BetweenLines) : Succeed s ((ends ++ last).map p.report) r.scan.toStatus := by
  obtain ⟨-, traverses, -, ended⟩ := attempts
  induction traverses with
  | nil => exact ended.succeed between
  | cons accepted _ ih =>
    exact .cons between accepted (ih (betweenLines_reopen between.sound accepted) ended)

/-! ## Pending lines -/

theorem holds_of_pending {closed : Scan} (pending : (p.report closed).Pending) :
    (p.report closed).status.Holds p.settings := by
  rcases pending with dangling | ⟨unfinished, code⟩
  · refine .inr (.inl ?_)
    simp only [report] at dangling ⊢
    simp [Scan.conclude, dangling]
  · have judged : closed.judgement p.settings p.vocabulary = .unfinished := unfinished
    rw [status_report (by simp [judged])] at code ⊢
    exact Scan.holds_of_unresolved (Scan.judgement_eq_unfinished_iff.mp judged) code

theorem not_holds_of_complete {closed : Scan} (complete : (p.report closed).judgement = .complete) :
    ¬ (p.report closed).status.Holds p.settings := by
  have judged : closed.judgement p.settings p.vocabulary = .complete := complete
  rw [status_report (by simp [judged])]
  exact Scan.not_holds_of_resolved (Scan.judgement_eq_complete_iff.mp judged).1

/-- Behind a pending line, no line completes the unit before new code comes. The code of a line lies before
its end. As long as none comes behind that, depth, expectation and marks stay what they are, at the ends of
all later lines and at the end of the episode, however it ends. -/
theorem read_pending (p : Policy) (prompt : List UInt8) (sink : Sink) (input : Input) :
    let r := p.read prompt sink input
    (∀ a ∈ r.reports, ∀ last ∈ a.status.codeLast, last < a.size) ∧
      (r.reports.Pairwise fun a b =>
        (b.status.CodeFrom a.size ∨ a.status.Rests b.status) ∧
          (a.Pending → b.judgement = .complete → b.status.CodeFrom a.size)) ∧
      ∀ a ∈ r.reports, r.scan.CodeFrom a.size ∨ a.status.Rests r.scan.toStatus := by
  intro r
  obtain ⟨front, back, ends, last, u, attempts, reports⟩ := read_attempts p prompt sink input
  obtain ⟨sound, -, pairs, -, final⟩ := attempts.succeed Scan.betweenLines_empty
  rw [← reports] at sound pairs final
  refine ⟨fun a member => (sound a member).marks, pairs.imp_of_mem ?_, final⟩
  rintro a b first second ⟨-, since⟩
  refine ⟨since, fun pending complete => since.resolve_right fun rests => ?_⟩
  have reported := reports ▸ first
  have reported' := reports ▸ second
  obtain ⟨closed, -, rfl⟩ := List.mem_map.mp reported
  obtain ⟨closed', -, rfl⟩ := List.mem_map.mp reported'
  exact not_holds_of_complete complete (rests.holds (holds_of_pending pending))

example : ((read {} [] {} (.ofBytes "if\n\n/*\n*/\nx\n".toUTF8.toList none)).reports.map
    Report.judgement) = [.dangling, .unfinished, .unfinished, .unfinished, .complete] := by
  decide +kernel

end Policy

end Linewise
