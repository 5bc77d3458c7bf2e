import Linewise.Proofs.Episode
import Linewise.Proofs.Words

/-! What a reader gets from an episode. At a sink without limits the outcomes of a session can be
computed line by line, each from the scan before it (`Policy.session_outcomes`). -/

namespace Linewise

def Entry.append (lead e : Entry) : Entry :=
  ⟨lead.text ++ e.text, lead.start.or (e.start.map (· + lead.text.size))⟩

theorem Entry.text_append (lead e : Entry) : (lead.append e).text = lead.text ++ e.text := rfl

theorem Entry.append_assoc (a b c : Entry) : (a.append b).append c = a.append (b.append c) := by
  obtain ⟨aText, aStart⟩ := a
  obtain ⟨bText, bStart⟩ := b
  obtain ⟨cText, cStart⟩ := c
  cases aStart <;> cases bStart <;> cases cStart <;> simp [append, Nat.add_comm, Nat.add_left_comm]

theorem Entry.empty_append (e : Entry) : Entry.append {} e = e := by
  obtain ⟨text, start⟩ := e
  cases start <;> simp [append]

def Cause.shift (distance : Nat) : Cause → Cause
  | intrusion i => intrusion (i.shift distance)
  | cause => cause

theorem Cause.shift_atEnd (distance depth : Nat) : (atEnd depth).shift distance = atEnd depth := by
  unfold atEnd
  split <;> rfl

theorem Cause.shift_shift (a b : Nat) (cause : Cause) :
    (cause.shift a).shift b = cause.shift (b + a) := by
  cases cause <;> simp [shift, Intrusion.shift, Nat.add_assoc, Nat.add_comm a b]

theorem Cause.shift_zero (cause : Cause) : cause.shift 0 = cause := by
  cases cause <;> rfl

structure Outcome where
  entry : Entry
  failure : Option Cause
  rest : Input
  deriving DecidableEq, Repr

def Reading.outcome (r : Reading) : Outcome := ⟨r.entry, r.failure, r.input⟩

namespace Outcome

def after (lead : Entry) (o : Outcome) : Outcome :=
  ⟨lead.append o.entry, o.failure.map (Cause.shift lead.text.size), o.rest⟩

theorem after_after (a b : Entry) (o : Outcome) : (o.after b).after a = o.after (a.append b) := by
  obtain ⟨entry, failure, rest⟩ := o
  cases failure <;>
    simp [after, Entry.append_assoc, Cause.shift_shift, Entry.text_append]

theorem after_empty (o : Outcome) : o.after {} = o := by
  obtain ⟨entry, failure, rest⟩ := o
  cases failure <;> simp [after, Entry.empty_append, Cause.shift_zero]

end Outcome

namespace Policy

variable {p : Policy} {scan : Scan} {bodies : List (List UInt8)} {tail : Input.Tail} {sink : Sink}
  {log : Array Event}

/-- The outcomes after the last line: another call follows only a refused byte. -/
def closing (tail : Input.Tail) (scan : Scan) : List Outcome :=
  let reading := finish tail scan {} #[]
  reading.outcome ::
    if reading.isResumable then [(finish (.rest []) {} {} #[]).outcome] else []

/-- The outcomes of a session, from the scan before its next line. -/
def outcomes (p : Policy) (tail : Input.Tail) : List (List UInt8) → Scan → List Outcome
  | [], scan => closing tail scan
  | body :: bodies, scan =>
    let line := p.line scan body
    match line.outcome with
    | .error intrusion =>
      ⟨line.scan.entry, some (.intrusion intrusion), ⟨bodies, tail⟩⟩ :: p.outcomes tail bodies {}
    | .ok .complete => ⟨line.scan.entry, none, ⟨bodies, tail⟩⟩ :: p.outcomes tail bodies {}
    | .ok .unfinished | .ok .dangling => p.outcomes tail bodies line.scan.openLine

theorem outcomes_of_refused {body : List UInt8} {intrusion : Intrusion}
    (refused : (p.line scan body).outcome = .error intrusion) :
    p.outcomes tail (body :: bodies) scan =
      ⟨(p.line scan body).scan.entry, some (.intrusion intrusion), ⟨bodies, tail⟩⟩ ::
        p.outcomes tail bodies {} := by
  simp only [outcomes, refused]

theorem outcomes_of_complete {body : List UInt8} {seen : List Sighting} {closed : Scan}
    (judged : p.line scan body = p.judge seen closed)
    (complete : closed.judgement p.settings p.vocabulary = .complete) :
    p.outcomes tail (body :: bodies) scan =
      ⟨closed.entry, none, ⟨bodies, tail⟩⟩ :: p.outcomes tail bodies {} := by
  simp only [outcomes, judged, judge, complete]
  rfl

theorem outcomes_of_open {body : List UInt8} {seen : List Sighting} {closed : Scan}
    (judged : p.line scan body = p.judge seen closed)
    (more : closed.judgement p.settings p.vocabulary ≠ .complete) :
    p.outcomes tail (body :: bodies) scan = p.outcomes tail bodies
      (closed.conclude (closed.judgement p.settings p.vocabulary)).openLine := by
  simp only [outcomes, judged, judge]
  split
  · next refused => cases refused
  · next complete => exact absurd (Except.ok.inj complete) more
  · rfl
  · rfl

theorem outcome_finish (tail : Input.Tail) (scan : Scan) (sink : Sink) (log : Array Event) :
    (finish tail scan sink log).outcome = (finish tail scan {} #[]).outcome := by
  cases tail with
  | cut outage => rfl
  | rest bytes => simp only [finish]; split <;> rfl

theorem isResumable_finish (tail : Input.Tail) (scan : Scan) (sink : Sink) (log : Array Event) :
    (finish tail scan sink log).isResumable = (finish tail scan {} #[]).isResumable := by
  have failure := congrArg Outcome.failure (outcome_finish tail scan sink log)
  exact congrArg (fun failure : Option Cause => failure.all Cause.isRecoverable) failure

/-- What is left after an episode, read to the end. -/
def sequel (p : Policy) (prompt : List UInt8) (r : Reading) : List Outcome :=
  r.outcome ::
    if r.isResumable then (p.session prompt r.sink r.input).map Reading.outcome else []

theorem session_eq_sequel (p : Policy) (prompt : List UInt8) (sink : Sink) (input : Input) :
    (p.session prompt sink input).map Reading.outcome =
      p.sequel prompt (p.read prompt sink.emptied input) := by
  rw [session_eq, sequel]
  split <;> simp

theorem sequel_finish (prompt : List UInt8) (unlimited : sink.IsUnlimited) :
    p.sequel prompt (finish tail scan sink log) = closing tail scan := by
  rw [sequel, closing, outcome_finish, isResumable_finish]
  split
  · next more =>
    have spent : Input.spent tail = Input.spent (.rest []) := by
      cases tail with
      | cut outage => simp [finish, Reading.isResumable, Cause.isRecoverable] at more
      | rest bytes => rfl
    rw [input_finish, sink_finish, spent, session_eq_sequel]
    obtain ⟨next, -, follows⟩ := read_eq_follow p prompt (Input.spent (.rest []))
      (Sink.isUnlimited_emptied unlimited)
    rw [follows]
    simp only [sequel, Input.spent, follow]
    rw [outcome_finish, isResumable_finish]
    rfl
  · rfl

/-- An episode and what follows it give the outcomes from the scan before its next line. -/
theorem sequel_follow (prompt : List UInt8) (unlimited : sink.IsUnlimited) :
    p.sequel prompt (p.follow tail bodies scan sink log) = p.outcomes tail bodies scan := by
  induction bodies generalizing scan sink log with
  | nil => exact sequel_finish prompt unlimited
  | cons body bodies ih =>
    have afresh (sink : Sink) (unlimited : sink.IsUnlimited) :
        (p.session prompt sink ⟨bodies, tail⟩).map Reading.outcome = p.outcomes tail bodies {} := by
      obtain ⟨next, still, follows⟩ := read_eq_follow p prompt ⟨bodies, tail⟩
        (Sink.isUnlimited_emptied unlimited)
      rw [session_eq_sequel, follows]
      exact ih still
    cases outcome : (p.line scan body).outcome with
    | error intrusion =>
      rw [follow_refused outcome]
      simp only [sequel, Reading.outcome, Reading.entry, Reading.isResumable, Cause.isRecoverable,
        outcomes, outcome, Option.all_some, if_true, afresh sink unlimited]
    | ok judgement =>
      cases judgement with
      | complete =>
        rw [follow_complete outcome]
        simp only [sequel, Reading.outcome, Reading.entry, Reading.isResumable, outcomes, outcome,
          Option.all_none, if_true, afresh sink unlimited]
      | unfinished | dangling =>
        obtain ⟨next, still, goes⟩ := follow_unfinished outcome (by decide) unlimited
        rw [goes, ih still]
        simp only [outcomes, outcome]

theorem session_outcomes (p : Policy) (prompt : List UInt8) (unlimited : sink.IsUnlimited)
    (input : Input) :
    (p.session prompt sink input).map Reading.outcome = p.outcomes input.tail input.lines {} := by
  obtain ⟨next, still, follows⟩ := read_eq_follow p prompt input (Sink.isUnlimited_emptied unlimited)
  rw [session_eq_sequel, follows]
  exact sequel_follow prompt still

theorem outcomes_ne_nil (p : Policy) (tail : Input.Tail) (bodies : List (List UInt8)) (scan : Scan) :
    p.outcomes tail bodies scan ≠ [] := by
  induction bodies generalizing scan with
  | nil => simp [outcomes, closing]
  | cons body bodies ih =>
    simp only [outcomes]
    split
    · simp
    · simp
    · exact ih _
    · exact ih _

end Policy

/-! ## Lines behind a lead -/

namespace Scan

variable {lead : Array UInt8} {before : Option Extent} {s t : Scan}

/-- The entry of the code in a lead, in front of what follows it. -/
theorem Follows.entry (follows : Follows lead before s t) :
    t.entry = Entry.append ⟨lead, before.map Extent.first⟩ s.entry := by
  simp only [Scan.entry, Entry.append, Status.codeStart, follows.text, follows.extent]
  cases before <;> cases s.extent <;> rfl

end Scan

namespace Policy

variable {lead : Array UInt8} {before : Option Extent} {s t : Scan} {p q : Policy}

/-- Two like scans accept a line, and the closed scans `c` and `d` that are judged are alike again. -/
structure LinesFollow (p q : Policy) (lead : Array UInt8) (before : Option Extent) (s t : Scan)
    (body : List UInt8) (c d : Scan) : Prop where
  left : ∃ seen, p.line s body = p.judge seen c
  right : ∃ seen, q.line t body = q.judge seen d
  sound : c.Sound
  sound' : d.Sound
  headed : s.Headed → c.Headed
  follows : Scan.Follows lead before c d
  lineStart : d.lineStart = c.lineStart + lead.size

theorem line_follows (p q : Policy) (sound : s.Sound) (sound' : t.Sound)
    (follows : Scan.Follows lead before s t) (body : List UInt8) :
    (∃ intrusion, (p.line s body).outcome = .error intrusion ∧
      (q.line t body).outcome = .error (intrusion.shift lead.size) ∧
      Scan.Follows lead before (p.line s body).scan (q.line t body).scan) ∨
    ∃ c d, LinesFollow p q lead before s t body c d := by
  have started := follows.startLine s.text.size t.text.size
  rcases line_cases p s body with ⟨seen, s', accepted, judged⟩ |
    ⟨front, byte, back, seen, s', intrusion, spelled, accepted, refused, stopped⟩
  · right
    obtain ⟨seen', t', accepted', after⟩ := started.accepts sound.startLine accepted
    have judged' : q.line t body = q.judge seen' t'.closeLine := by
      simp only [line, Scan.line, Scan.run_eq accepted', judge]
    refine ⟨s'.closeLine, t'.closeLine, ⟨seen, judged⟩, ⟨seen', judged'⟩,
      (sound.startLine.accepts accepted).closeLine, (sound'.startLine.accepts accepted').closeLine,
      fun headed => ?_, after.closeLine, ?_⟩
    · have started : Scan.Headed { s with lineStart := s.text.size } := headed
      exact (started.accepts sound.startLine accepted).closeLine (Scan.back?_of_terminated accepted)
    · have size := follows.size
      have left : s'.closeLine.lineStart = s.text.size := accepted.lineStart_eq
      have right : t'.closeLine.lineStart = t.text.size := accepted'.lineStart_eq
      omega
  · left
    obtain ⟨seen', t', accepted', after⟩ := started.accepts sound.startLine accepted
    have run := Scan.run_append accepted' (byte :: back)
    rw [Scan.run_cons_of_error (after.refused refused)] at run
    refine ⟨intrusion, by rw [stopped], ?_, ?_⟩
    · simp only [line, Scan.line, spelled, run]
    · simp only [line, Scan.line, spelled, run, Scan.run_append accepted,
        Scan.run_cons_of_error refused]
      exact after.record byte

theorem outcome_finish_follows (sound : s.Sound) (follows : Scan.Follows lead before s t)
    (tail : Input.Tail) :
    (finish tail t {} #[]).outcome =
      (finish tail s {} #[]).outcome.after ⟨lead, before.map Extent.first⟩ := by
  have started := follows.startLine s.text.size t.text.size
  cases tail with
  | cut outage =>
    simp only [finish, Reading.outcome, Reading.entry, follows.entry]
    rfl
  | rest bytes =>
    rcases finish_cases bytes s {} #[] with ⟨seen, s', accepted, ended⟩ |
      ⟨front, byte, back, seen, s', intrusion, spelled, accepted, refused, stopped⟩
    · obtain ⟨seen', t', accepted', after⟩ := started.accepts sound.startLine accepted
      have ended' : (finish (.rest bytes) t {} #[]).outcome =
          ⟨t'.closeLine.entry, some (.atEnd t'.depth), Input.spent (.rest bytes)⟩ := by
        simp only [finish, Scan.line, Scan.run_eq accepted', Scan.closeLine, Reading.outcome,
          Reading.entry]
      rw [ended, ended', after.closeLine.entry, after.depth]
      simp only [Reading.outcome, Reading.entry, Outcome.after, Option.map_some, Cause.shift_atEnd]
    · obtain ⟨seen', t', accepted', after⟩ := started.accepts sound.startLine accepted
      have run := Scan.run_append accepted' (byte :: back)
      rw [Scan.run_cons_of_error (after.refused refused)] at run
      rw [stopped]
      simp only [finish, Scan.line, spelled, run, Reading.outcome, Reading.entry, Outcome.after,
        (after.record byte).entry]
      rfl

theorem closing_follows (sound : s.Sound) (follows : Scan.Follows lead before s t)
    (tail : Input.Tail) :
    ∃ first rest, closing tail s = first :: rest ∧
      closing tail t = first.after ⟨lead, before.map Extent.first⟩ :: rest := by
  have same := outcome_finish_follows sound follows tail
  have resumable : (finish tail t {} #[]).isResumable = (finish tail s {} #[]).isResumable := by
    have failure : (finish tail t {} #[]).failure =
        (finish tail s {} #[]).failure.map (Cause.shift lead.size) := congrArg Outcome.failure same
    rw [Reading.isResumable, Reading.isResumable, failure]
    rcases (finish tail s {} #[]).failure with _ | cause
    · rfl
    · cases cause <;> rfl
  exact ⟨_, _, rfl, by rw [closing, same, resumable]⟩

end Policy

end Linewise
