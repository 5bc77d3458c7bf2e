import Linewise.Dots
import Linewise.Entry
import Linewise.Input
import Linewise.Log
import Linewise.Separator

/-! A policy decides where a unit ends. Under it, `Policy.read` takes lines from an input until
their text is one complete unit, a line is refused, or the input gives out. -/

namespace Linewise

structure Policy where
  settings : Settings := {}
  vocabulary : Vocabulary := .go

structure LineReading where
  scan : Scan
  events : List Event
  outcome : Except Intrusion Judgement

structure Reading where
  scan : Scan
  /-- Why there is no complete unit, unless there is one. -/
  failure : Option Cause
  input : Input
  sink : Sink
  log : Array Event

namespace Reading

def entry (r : Reading) : Entry := r.scan.entry

def isResumable (r : Reading) : Bool := r.failure.all Cause.isRecoverable

end Reading

namespace Policy

def line (p : Policy) (scan : Scan) (body : List UInt8) : LineReading :=
  let run := scan.line (Separator.replace (Input.terminated body)).bytes
  let seen := run.seen.map Event.sighting
  match run.intrusion with
  | some intrusion => ⟨run.scan, seen, .error intrusion⟩
  | none =>
    let closed := run.scan.closeLine
    let judgement := closed.judgement p.settings p.vocabulary
    let scan := closed.conclude judgement
    let report := ⟨judgement, scan.toStatus, scan.text.size⟩
    ⟨scan, seen ++ [.report report], .ok judgement⟩

def prompting (p : Policy) (action : Sink.Action) : Sink.Action :=
  if p.settings.showsPrompt then action else pure ()

/-- Ends an episode whose lines have run out. Bytes without a newline still count as text, but they
are not judged. -/
def finish (tail : Input.Tail) (scan : Scan) (sink : Sink) (log : Array Event) : Reading :=
  let input := Input.spent tail
  match tail with
  | .cut outage => { scan, failure := some (.outage outage), input, sink, log }
  | .rest bytes =>
    let run := scan.line (Separator.replace bytes).bytes
    let log := log ++ run.seen.map Event.sighting
    match run.intrusion with
    | some intrusion => { scan := run.scan, failure := some (.intrusion intrusion), input, sink, log }
    | none =>
      let scan := run.scan.closeLine
      { scan, failure := some (.atEnd scan.depth), input, sink, log }

def follow (p : Policy) (tail : Input.Tail) :
    List (List UInt8) → Scan → Sink → Array Event → Reading
  | [], scan, sink, log => finish tail scan sink log
  | body :: bodies, scan, sink, log =>
    let line := p.line scan body
    let log := log ++ line.events
    let input := ⟨bodies, tail⟩
    match line.outcome with
    | .error intrusion => { scan := line.scan, failure := some (.intrusion intrusion), input, sink, log }
    | .ok .complete => { scan := line.scan, failure := none, input, sink, log }
    | .ok .unfinished | .ok .dangling =>
      let scan := line.scan.openLine
      match p.prompting (Dots.deliver scan.depth) sink with
      | .ok _ sink => p.follow tail bodies scan sink log
      | .error outage sink => { scan, failure := some (.outage outage), input, sink, log }

def read (p : Policy) (prompt : List UInt8) (sink : Sink) (input : Input) : Reading :=
  match p.prompting (Sink.deliver prompt) sink with
  | .ok _ sink => p.follow input.tail input.lines {} sink #[]
  | .error outage sink => { scan := {}, failure := some (.outage outage), input, sink, log := #[] }

theorem input_finish (tail : Input.Tail) (scan : Scan) (sink : Sink) (log : Array Event) :
    (finish tail scan sink log).input = Input.spent tail := by
  cases tail with
  | cut outage => rfl
  | rest bytes => simp only [finish]; split <;> rfl

theorem size_input_finish {tail : Input.Tail} {scan : Scan} {sink : Sink} {log : Array Event}
    (resumable : (finish tail scan sink log).isResumable = true) :
    (finish tail scan sink log).input.size < Input.size ⟨[], tail⟩ := by
  rw [input_finish, Input.size_spent]
  cases tail with
  | cut outage => simp [finish, Reading.isResumable, Cause.isRecoverable] at resumable
  | rest bytes =>
    cases bytes with
    | nil =>
      simp [finish, Scan.line, Scan.run_nil, Reading.isResumable, Cause.isRecoverable_atEnd]
        at resumable
    | cons byte bytes => simp [Input.size]

theorem size_input_follow {p : Policy} {tail : Input.Tail} {bodies : List (List UInt8)} {scan : Scan}
    {sink : Sink} {log : Array Event}
    (resumable : (p.follow tail bodies scan sink log).isResumable = true) :
    (p.follow tail bodies scan sink log).input.size < Input.size ⟨bodies, tail⟩ := by
  induction bodies generalizing scan sink log with
  | nil => exact size_input_finish resumable
  | cons body bodies ih =>
    have shorter : Input.size ⟨bodies, tail⟩ < Input.size ⟨body :: bodies, tail⟩ := by
      simp only [Input.size, List.length_cons]; omega
    cases outcome : (p.line scan body).outcome with
    | error intrusion => simpa only [follow, outcome] using shorter
    | ok judgement =>
      cases judgement with
      -- any line that was read makes the input smaller, whatever comes of it
      | complete => simpa only [follow, outcome] using shorter
      | unfinished | dangling =>
        cases asked : p.prompting (Dots.deliver (p.line scan body).scan.openLine.depth) sink with
        | error outage next => simpa only [follow, outcome, asked] using shorter
        | ok _ next =>
          simp only [follow, outcome, asked] at resumable ⊢
          exact Nat.lt_trans (ih resumable) shorter

theorem size_input_read {p : Policy} {prompt : List UInt8} {sink : Sink} {input : Input}
    (resumable : (p.read prompt sink input).isResumable = true) :
    (p.read prompt sink input).input.size < input.size := by
  cases asked : p.prompting (Sink.deliver prompt) sink with
  | ok _ next =>
    simp only [read, asked] at resumable ⊢
    exact size_input_follow resumable
  | error outage next =>
    simp [read, asked, Reading.isResumable, Cause.isRecoverable] at resumable

end Policy

end Linewise
