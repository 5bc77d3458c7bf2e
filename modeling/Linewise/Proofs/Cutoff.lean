import Linewise.Proofs.Blanks
import Linewise.Proofs.CodeStart

/-! When the input ends in the middle of an entry, its newline would not move the start of the code,
except where the last byte is a slash or a hash sign that no byte decides any more
(`Policy.cut_off_start_iff`). -/

namespace Linewise

namespace Gap

variable {context : Context} {text : List UInt8}

/-- Text without code, in which the end of the last comment may be missing. -/
inductive Remarks : List UInt8 → Prop where
  | closed {text : List UInt8} (gap : Gap text) : Remarks text
  | line {front opener note : List UInt8} (gap : Gap front) (opens : OpensLine opener)
      (inside : Byte.newline ∉ note) : Remarks (front ++ (opener ++ note))
  | block {front body : List UInt8} (gap : Gap front) (unclosed : Unclosed body) :
      Remarks (front ++ Byte.slash :: Byte.star :: body)

theorem Upto.remarks (upto : Upto context text) (decided : ¬ (context = .slash ∨ context = .hash)) :
    Remarks text := by
  cases upto with
  | code gap => exact .closed gap
  | slash | hash => simp at decided
  | lineComment gap opens inside => exact .line gap opens inside
  | block gap unclosed _ | blockStar gap unclosed _ => exact .block gap unclosed

theorem Upto.undecided (upto : Upto context text) (undecided : context = .slash ∨ context = .hash) :
    ∃ front last, text = front ++ [last] ∧ (last = Byte.slash ∨ last = Byte.hash) ∧ Gap front := by
  cases upto with
  | slash gap => exact ⟨_, _, rfl, .inl rfl, gap⟩
  | hash gap => exact ⟨_, _, rfl, .inr rfl, gap⟩
  | code | lineComment | block | blockStar => rcases undecided with h | h <;> cases h

end Gap

namespace Scan

variable {s : Scan} {effect : Effect}

/-- There is no code so far, unless the last byte turns out to be some. -/
structure Pending (s : Scan) : Prop where
  blank : s.codeStart = none
  undecided : s.context = .slash ∨ s.context = .hash

theorem pending_closeLine : s.closeLine.Pending ↔ s.Pending := by
  by_cases comment : s.context = .lineComment
  · have closed : s.closeLine.context = .code := congrArg Context.atLineEnd comment
    constructor
    · rintro ⟨-, h | h⟩ <;> cases closed.symm.trans h
    · rintro ⟨-, h | h⟩ <;> cases comment.symm.trans h
  · rw [closeLine_eq_self comment]

/-! ## The newline that is missing -/

theorem codeStart_newline_of_pending (accepted : s.effect Byte.newline = .ok effect)
    (pending : s.Pending) :
    (s.apply Byte.newline effect).codeStart = some (s.text.size - 1) := by
  have blank : s.extent = none := by simpa [Status.codeStart] using pending.blank
  rw [Status.codeStart, extent_newline accepted, if_pos pending.undecided, blank]
  rfl

theorem codeStart_newline_of_not_pending (accepted : s.effect Byte.newline = .ok effect)
    (decided : ¬ s.Pending) : (s.apply Byte.newline effect).codeStart = s.codeStart := by
  rw [Status.codeStart, extent_newline accepted]
  split
  · next undecided =>
    cases marked : s.extent with
    | none => exact absurd ⟨by simp [Status.codeStart, marked], undecided⟩ decided
    | some extent => simp [Status.codeStart, Extent.mark, marked]
  · rfl

theorem not_pending_of_refused {intrusion : Intrusion}
    (refused : s.effect Byte.newline = .error intrusion) : ¬ s.Pending := by
  obtain ⟨-, -, -, inside⟩ := intrusion_of_error refused
  rintro ⟨-, slash | hash⟩
  · rcases inside with h | h <;> cases slash.symm.trans h
  · rcases inside with h | h <;> cases hash.symm.trans h

end Scan

namespace Policy

variable {p : Policy} {s t : Scan} {body : List UInt8} {sink : Sink} {log : Array Event}
  {seen : List Sighting}

theorem start_follow_line (unlimited : sink.IsUnlimited)
    (accepted : Scan.Accepts { s with lineStart := s.text.size }
      (Separator.replace (Input.terminated body)).bytes seen t) :
    (p.follow (.rest []) [body] s sink log).entry.start = t.codeStart := by
  have judged := line_of_accepts p accepted
  have outcome : (p.line s body).outcome =
      .ok (t.closeLine.judgement p.settings p.vocabulary) := by rw [judged]; rfl
  by_cases complete : t.closeLine.judgement p.settings p.vocabulary = .complete
  · rw [follow_complete (complete ▸ outcome), judged]
    rfl
  · obtain ⟨next, -, goes⟩ := follow_unfinished outcome complete unlimited
    rw [goes, judged]
    rfl

theorem start_follow_refused {intrusion : Intrusion}
    (accepted : Scan.Accepts { s with lineStart := s.text.size }
      (Separator.replace body).bytes seen t)
    (refused : t.effect Byte.newline = .error intrusion) :
    (p.follow (.rest []) [body] s sink log).entry.start = t.codeStart := by
  have run := Scan.run_append accepted [Byte.newline]
  rw [← Separator.replace_terminated, Scan.run_cons_of_error refused] at run
  have stopped : p.line s body = ⟨t.record Byte.newline, (seen ++ []).map Event.sighting,
      .error intrusion⟩ := by
    simp only [line, Scan.line, run]
  rw [follow_refused (by rw [stopped]), stopped]
  rfl

/-- A newline after the last line makes a slash or hash sign the start of the code, if it is pending,
and moves no other. -/
theorem start_follow_terminated (unlimited : sink.IsUnlimited)
    (accepted : Scan.Accepts { s with lineStart := s.text.size }
      (Separator.replace body).bytes seen t) :
    (t.Pending ∧ (p.follow (.rest []) [body] s sink log).entry.start = some (t.text.size - 1)) ∨
      (¬ t.Pending ∧ (p.follow (.rest []) [body] s sink log).entry.start = t.codeStart) := by
  cases entry : t.effect Byte.newline with
  | error intrusion =>
    exact .inr ⟨Scan.not_pending_of_refused entry, start_follow_refused accepted entry⟩
  | ok effect =>
    have line := accepted.append (.single entry)
    rw [← Separator.replace_terminated] at line
    by_cases pending : t.Pending
    · refine .inl ⟨pending, ?_⟩
      rw [start_follow_line unlimited line, Scan.codeStart_newline_of_pending entry pending]
    · refine .inr ⟨pending, ?_⟩
      rw [start_follow_line unlimited line, Scan.codeStart_newline_of_not_pending entry pending]

theorem start_read_terminated {text : List UInt8} {u : Scan} {last : List Sighting}
    (prompt : List UInt8) (unlimited : sink.IsUnlimited)
    (opened : p.StaysOpen {} (Input.split text).1 seen u)
    (accepted : Scan.Accepts { u with lineStart := u.text.size }
      (Separator.replace (Input.split text).2).bytes last t) :
    let r := p.read prompt sink (Input.ofBytes (Input.terminated text) none)
    (t.Pending ∧ r.entry.start = some (t.text.size - 1)) ∨
      (¬ t.Pending ∧ r.entry.start = t.codeStart) := by
  intro r
  have input : Input.ofBytes (Input.terminated text) none =
      ⟨(Input.split text).1 ++ [(Input.split text).2], .rest []⟩ := by
    rw [Input.ofBytes, Input.split_terminated]
    rfl
  obtain ⟨next, free, reads⟩ :=
    read_eq_follow p prompt (Input.ofBytes (Input.terminated text) none) unlimited
  rw [input] at reads
  obtain ⟨next', log, free', goes⟩ := follow_of_staysOpen opened free
  have same : r = p.follow (.rest []) [(Input.split text).2] u next' log := by
    rw [← goes, ← reads, ← input]
  rw [same]
  exact start_follow_terminated free' accepted

theorem led_cut_off {text : List UInt8} {u : Scan} {last : List Sighting}
    (plain : ¬ Separator.bytes <:+: text) (opened : p.StaysOpen {} (Input.split text).1 seen u)
    (accepted : Scan.Accepts { u with lineStart := u.text.size }
      (Separator.replace (Input.split text).2).bytes last t) : t.Led text := by
  have whole := Input.flatten_split text
  have lines : ∀ body ∈ (Input.split text).1, Input.IsPlain body := fun body member =>
    Input.isPlain_of_mem_split plain member
  have rest : ¬ Separator.bytes <:+: (Input.split text).2 := fun inside =>
    plain (inside.trans ⟨_, [], by rw [List.append_nil]; exact whole⟩)
  have led := opened.led Scan.led_empty Scan.sound_empty lines
  rw [Separator.replace_of_not_infix rest] at accepted
  have all := led.startLine.accepts (opened.sound Scan.sound_empty).startLine
    (Input.newline_not_mem_split text).2 accepted
  rwa [List.nil_append, whole] at all

/-- An input that ends inside an entry and the same input with a newline more start the code in the same
place, exactly if no byte is pending; a byte that is pending is where the longer input starts it. Where
no code was found, the text is blanks and comments, followed by the byte that is pending, if any is. -/
theorem cut_off_start_iff (p : Policy) (prompt prompt' : List UInt8) (sink : Sink) {sink' : Sink}
    (text : List UInt8) {cause : Cause} (unlimited : sink'.IsUnlimited) (ended : cause.IsEnd)
    (failure : (p.read prompt sink (Input.ofBytes text none)).failure = some cause) :
    let r := p.read prompt sink (Input.ofBytes text none)
    let r' := p.read prompt' sink' (Input.ofBytes (Input.terminated text) none)
    (r'.entry.start = r.entry.start ↔ ¬ r.scan.Pending) ∧
      (r.scan.Pending → r'.entry.start = some (r.entry.text.size - 1)) ∧
      (¬ Separator.bytes <:+: text → r.entry.start = none →
        (¬ r.scan.Pending → Gap.Remarks r.entry.text.toList) ∧
        (r.scan.Pending → ∃ front last, r.entry.text.toList = front ++ [last] ∧
          (last = Byte.slash ∨ last = Byte.hash) ∧ Gap front)) := by
  intro r r'
  have clean : ∀ found ∈ r.failure, found.IsEnd := by
    intro found member
    cases failure.symm.trans member
    exact ended
  obtain ⟨all, ends, -⟩ := read_ends clean
  cases ends with
  | complete _ _ _ _ none _ _ => cases none.symm.trans failure
  | @exhausted bytes seen last u t rest opened accepted _ scan =>
    obtain rfl : (Input.split text).2 = bytes := Input.Tail.rest.inj rest
    have pending : r.scan.Pending ↔ t.Pending := by rw [scan]; exact Scan.pending_closeLine
    have start : r.entry.start = t.codeStart := by rw [Reading.entry, scan]; rfl
    have text' : r.entry.text = t.text := by rw [Reading.entry, scan]; rfl
    have led : ¬ Separator.bytes <:+: text → r.entry.start = none →
        Gap.Upto t.context r.entry.text.toList := by
      intro plain blank
      have extent : t.extent = none := by simpa [Status.codeStart] using start.symm.trans blank
      rw [text']
      exact ((led_cut_off plain opened accepted).blank extent).2
    refine ⟨?_, ?_, fun plain blank => ⟨fun decided => ?_, fun undecided => ?_⟩⟩
    · rw [pending, start]
      rcases start_read_terminated prompt' unlimited opened accepted with ⟨yes, here⟩ | ⟨no, same⟩
      · refine iff_of_false ?_ (not_not_intro yes)
        rw [here, yes.blank]
        exact Option.some_ne_none _
      · exact iff_of_true same no
    · rw [pending, text']
      intro yes
      rcases start_read_terminated prompt' unlimited opened accepted with ⟨-, here⟩ | ⟨no, -⟩
      · exact here
      · contradiction
    · refine (led plain blank).remarks fun undecided => decided ?_
      exact pending.mpr ⟨start.symm.trans blank, undecided⟩
    · exact (led plain blank).undecided (pending.mp undecided).undecided

/-- A slash behind open brackets is cut off where the code started long before, and a comment that is
cut off is no code. A slash alone would be code, but is not counted. -/
theorem cut_off_start_slash :
    let called : List UInt8 := [0x66, 0x28, 0x0a, 0x2f]
    let commented : List UInt8 := [0x2f, 0x2a, 0x20]
    let slash : List UInt8 := [0x2f]
    let start := fun text => (read {} [] {} (Input.ofBytes text none)).entry.start
    start called = some 0 ∧ start (Input.terminated called) = start called ∧
      start commented = none ∧ start (Input.terminated commented) = start commented ∧
      Gap.Remarks commented ∧ start slash = none ∧ start (Input.terminated slash) = some 0 := by
  intro called commented slash start
  have unlimited : Sink.IsUnlimited {} := ⟨rfl, rfl⟩
  have started : start called = some 0 := by decide +kernel
  have blank : start commented = none := by decide +kernel
  have plain : ¬ Separator.bytes <:+: commented := by decide
  have text : (read {} [] {} (Input.ofBytes commented none)).entry.text.toList = commented := by
    decide +kernel
  obtain ⟨same, -⟩ := cut_off_start_iff {} [] [] {} called unlimited (.inr rfl) (by decide +kernel)
  obtain ⟨same', -, remarks⟩ :=
    cut_off_start_iff {} [] [] {} commented unlimited (.inl rfl) (by decide +kernel)
  obtain ⟨-, found, -⟩ := cut_off_start_iff {} [] [] {} slash unlimited (.inl rfl) (by decide +kernel)
  have decided : ¬ (read {} [] {} (Input.ofBytes called none)).scan.Pending := by
    rintro ⟨blank', -⟩
    cases started.symm.trans blank'
  have decided' : ¬ (read {} [] {} (Input.ofBytes commented none)).scan.Pending := by
    rintro ⟨-, undecided⟩
    revert undecided
    decide +kernel
  have pending : (read {} [] {} (Input.ofBytes slash none)).scan.Pending := by
    constructor <;> decide +kernel
  exact ⟨started, same.mpr decided, blank, same'.mpr decided',
    text ▸ (remarks plain blank).1 decided', pending.blank, found pending⟩

end Policy

end Linewise
