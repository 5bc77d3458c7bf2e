import Linewise.Session
import Linewise.Proofs.Run
import Linewise.Proofs.Sink

/-! What a policy does with one line, with the end of the input, and with the lines of an episode
one after the other, at a sink without limits. Prompts go through, so the lines alone decide how it
goes on. -/

namespace Linewise.Policy

variable {p : Policy} {scan : Scan} {body : List UInt8} {bodies : List (List UInt8)}
  {tail : Input.Tail} {sink : Sink} {log : Array Event}

/-- What becomes of a line whose bytes were all accepted: the closed scan is judged. -/
def judge (p : Policy) (seen : List Sighting) (closed : Scan) : LineReading :=
  let judgement := closed.judgement p.settings p.vocabulary
  let scan := closed.conclude judgement
  ⟨scan, seen.map Event.sighting ++ [.report ⟨judgement, scan.toStatus, scan.text.size⟩],
    .ok judgement⟩

/-- A line is accepted and judged, or refused at one of its bytes. -/
theorem line_cases (p : Policy) (scan : Scan) (body : List UInt8) :
    (∃ seen t, Scan.Accepts { scan with lineStart := scan.text.size }
        (Separator.replace (Input.terminated body)).bytes seen t ∧
      p.line scan body = p.judge seen t.closeLine) ∨
    ∃ front byte back seen t intrusion,
      (Separator.replace (Input.terminated body)).bytes = front ++ byte :: back ∧
      Scan.Accepts { scan with lineStart := scan.text.size } front seen t ∧
      t.effect byte = .error intrusion ∧
      p.line scan body = ⟨t.record byte, seen.map Event.sighting, .error intrusion⟩ := by
  rcases Scan.run_cases { scan with lineStart := scan.text.size }
      (Separator.replace (Input.terminated body)).bytes with
    ⟨seen, t, accepted, run⟩ | ⟨front, byte, back, seen, t, intrusion, spelled, accepted, refused, run⟩
  · exact .inl ⟨seen, t, accepted, by simp only [line, Scan.line, run, judge]⟩
  · exact .inr ⟨front, byte, back, seen, t, intrusion, spelled, accepted, refused,
      by simp only [line, Scan.line, run]⟩

theorem finish_cases (bytes : List UInt8) (scan : Scan) (sink : Sink) (log : Array Event) :
    (∃ seen t, Scan.Accepts { scan with lineStart := scan.text.size }
        (Separator.replace bytes).bytes seen t ∧
      finish (.rest bytes) scan sink log =
        { scan := t.closeLine, failure := some (.atEnd t.depth), input := Input.spent (.rest bytes),
          sink, log := log ++ seen.map Event.sighting }) ∨
    ∃ front byte back seen t intrusion,
      (Separator.replace bytes).bytes = front ++ byte :: back ∧
      Scan.Accepts { scan with lineStart := scan.text.size } front seen t ∧
      t.effect byte = .error intrusion ∧
      finish (.rest bytes) scan sink log =
        { scan := t.record byte, failure := some (.intrusion intrusion),
          input := Input.spent (.rest bytes), sink, log := log ++ seen.map Event.sighting } := by
  rcases Scan.run_cases { scan with lineStart := scan.text.size } (Separator.replace bytes).bytes with
    ⟨seen, t, accepted, run⟩ | ⟨front, byte, back, seen, t, intrusion, spelled, accepted, refused, run⟩
  · exact .inl ⟨seen, t, accepted, by simp only [finish, Scan.line, run, Scan.closeLine]⟩
  · exact .inr ⟨front, byte, back, seen, t, intrusion, spelled, accepted, refused,
      by simp only [finish, Scan.line, run]⟩

theorem failure_finish (tail : Input.Tail) (s : Scan) (sink : Sink) (log : Array Event) :
    (finish tail s sink log).failure ≠ none := by
  cases tail with
  | cut outage => simp [finish]
  | rest bytes => simp only [finish]; split <;> simp

theorem sink_finish : (finish tail scan sink log).sink = sink := by
  cases tail with
  | cut outage => rfl
  | rest bytes => simp only [finish]; split <;> rfl

theorem follow_refused {intrusion : Intrusion} (h : (p.line scan body).outcome = .error intrusion) :
    p.follow tail (body :: bodies) scan sink log =
      { scan := (p.line scan body).scan, failure := some (.intrusion intrusion),
        input := ⟨bodies, tail⟩, sink, log := log ++ (p.line scan body).events } := by
  simp only [follow, h]

theorem follow_complete (h : (p.line scan body).outcome = .ok .complete) :
    p.follow tail (body :: bodies) scan sink log =
      { scan := (p.line scan body).scan, failure := none, input := ⟨bodies, tail⟩, sink,
        log := log ++ (p.line scan body).events } := by
  simp only [follow, h]

theorem follow_unfinished {judgement : Judgement} (h : (p.line scan body).outcome = .ok judgement)
    (more : judgement ≠ .complete) (unlimited : sink.IsUnlimited) :
    ∃ next : Sink, next.IsUnlimited ∧
      p.follow tail (body :: bodies) scan sink log =
        p.follow tail bodies (p.line scan body).scan.openLine next
          (log ++ (p.line scan body).events) := by
  obtain ⟨next, asked, still⟩ := Sink.passes_prompting p
    (Sink.passes_dots (p.line scan body).scan.openLine.depth) sink unlimited
  refine ⟨next, still, ?_⟩
  cases judgement with
  | complete => contradiction
  | unfinished | dangling => simp only [follow, h, asked]

theorem isUnlimited_follow (unlimited : sink.IsUnlimited) :
    (p.follow tail bodies scan sink log).sink.IsUnlimited := by
  induction bodies generalizing scan sink log with
  | nil => rw [follow, sink_finish]; exact unlimited
  | cons body bodies ih =>
    cases outcome : (p.line scan body).outcome with
    | error intrusion => rw [follow_refused outcome]; exact unlimited
    | ok judgement =>
      by_cases more : judgement = .complete
      · subst more; rw [follow_complete outcome]; exact unlimited
      · obtain ⟨next, still, goes⟩ := follow_unfinished outcome more unlimited
        rw [goes]; exact ih still

theorem read_eq_follow (p : Policy) (prompt : List UInt8) (input : Input)
    (unlimited : sink.IsUnlimited) :
    ∃ next : Sink, next.IsUnlimited ∧
      p.read prompt sink input = p.follow input.tail input.lines {} next #[] := by
  obtain ⟨next, asked, still⟩ := Sink.passes_prompting p (Sink.passes_deliver prompt) sink unlimited
  exact ⟨next, still, by simp only [read, asked]⟩

theorem isUnlimited_read (p : Policy) (prompt : List UInt8) (input : Input)
    (unlimited : sink.IsUnlimited) : (p.read prompt sink input).sink.IsUnlimited := by
  obtain ⟨next, still, follows⟩ := read_eq_follow p prompt input unlimited
  rw [follows]; exact isUnlimited_follow still

def readings (p : Policy) (prompt : List UInt8) : Nat → Sink → Input → List Reading
  | 0, _, _ => []
  | calls + 1, sink, input =>
    let reading := p.read prompt sink.emptied input
    reading :: p.readings prompt calls reading.sink reading.input

theorem session_eq (p : Policy) (prompt : List UInt8) (sink : Sink) (input : Input) :
    p.session prompt sink input =
      p.read prompt sink.emptied input ::
        if (p.read prompt sink.emptied input).isResumable then
          p.session prompt (p.read prompt sink.emptied input).sink
            (p.read prompt sink.emptied input).input
        else [] := by
  rw [session]
  split <;> simp_all

end Linewise.Policy
