import Linewise.Proofs.Lines

/-! An episode attempts to read a line, and another one behind every line that leaves the unit open.
The log reports the lines that were scanned to their ends, in order (`Policy.read_attempts`). -/

namespace Linewise

def reportsOf (log : Array Event) : List Report := log.toList.filterMap Event.report?

def Reading.reports (r : Reading) : List Report := reportsOf r.log

/-- What is left of an input after some attempts to read a line. A further attempt at the end does not
change it. -/
def Input.behind : Nat → Input → Input
  | 0, input => input
  | _ + 1, ⟨[], tail⟩ => spent tail
  | count + 1, ⟨_ :: lines, tail⟩ => behind count ⟨lines, tail⟩

theorem Input.behind_append (front back : List (List UInt8)) (tail : Input.Tail) (count : Nat) :
    Input.behind (front.length + count) ⟨front ++ back, tail⟩ = Input.behind count ⟨back, tail⟩ := by
  induction front with
  | nil => rw [List.length_nil, Nat.zero_add, List.nil_append]
  | cons body front ih =>
    rw [List.length_cons, Nat.add_right_comm, List.cons_append]
    exact ih

namespace Policy

variable {p : Policy} {s t u : Scan} {body : List UInt8} {bodies front back : List (List UInt8)}
  {ends last : List Scan} {tail : Input.Tail} {sink next : Sink} {log : Array Event}
  {seen : List Sighting} {r : Reading}

def report (p : Policy) (closed : Scan) : Report :=
  let judgement := closed.judgement p.settings p.vocabulary
  ⟨judgement, (closed.conclude judgement).toStatus, closed.text.size⟩

/-- A scan takes lines, each up to its end, to the scan before the next line. The closed scans at the ends
of the lines are listed. -/
inductive Traverses (p : Policy) : Scan → List (List UInt8) → List Scan → Scan → Prop where
  | nil {s : Scan} : Traverses p s [] [] s
  | cons {s t u : Scan} {body : List UInt8} {bodies : List (List UInt8)} {seen : List Sighting}
      {ends : List Scan}
      (accepted : Scan.Accepts { s with lineStart := s.text.size }
        (Separator.replace (Input.terminated body)).bytes seen t)
      (rest : Traverses p (p.reopen t) bodies ends u) :
      Traverses p s (body :: bodies) (t.closeLine :: ends) u

/-- The last attempt of an episode, from the scan `u` before the lines that are left. It adds a line to
those that are judged if the line completes the unit. Where a sink with limits has failed, there is no such
attempt. -/
inductive Last (p : Policy) (tail : Input.Tail) (sink : Sink) (u : Scan) :
    List (List UInt8) → List Scan → Reading → Prop where
  | complete {body : List UInt8} {back : List (List UInt8)} {seen : List Sighting} {t : Scan}
      {r : Reading}
      (accepted : Scan.Accepts { u with lineStart := u.text.size }
        (Separator.replace (Input.terminated body)).bytes seen t)
      (complete : t.closeLine.judgement p.settings p.vocabulary = .complete)
      (failure : r.failure = none) (scan : r.scan = t.closeLine) (input : r.input = ⟨back, tail⟩) :
      Last p tail sink u (body :: back) [t.closeLine] r
  | refused {body front rest : List UInt8} {byte : UInt8} {back : List (List UInt8)}
      {seen : List Sighting} {t : Scan} {intrusion : Intrusion} {r : Reading}
      (spelled : (Separator.replace (Input.terminated body)).bytes = front ++ byte :: rest)
      (accepted : Scan.Accepts { u with lineStart := u.text.size } front seen t)
      (refused : t.effect byte = .error intrusion)
      (failure : r.failure = some (.intrusion intrusion)) (scan : r.scan = t.record byte)
      (input : r.input = ⟨back, tail⟩) : Last p tail sink u (body :: back) [] r
  | exhausted {next : Sink} {log : Array Event} : Last p tail sink u [] [] (finish tail u next log)
  | unasked {back : List (List UInt8)} {outage : Outage} {r : Reading}
      (limited : ¬ sink.IsUnlimited) (failure : r.failure = some (.outage outage))
      (scan : r.scan = u) (input : r.input = ⟨back, tail⟩) : Last p tail sink u back [] r

/-! ## Lines one after the other -/

theorem Traverses.length_eq (traverses : p.Traverses s bodies ends u) :
    ends.length = bodies.length := by
  induction traverses with
  | nil => rfl
  | cons _ _ ih => rw [List.length_cons, List.length_cons, ih]

theorem Traverses.staysOpen (traverses : p.Traverses s bodies ends u)
    (more : ∀ closed ∈ ends, closed.judgement p.settings p.vocabulary ≠ .complete) :
    ∃ seen, p.StaysOpen s bodies seen u := by
  induction traverses with
  | nil => exact ⟨[], .nil⟩
  | cons accepted _ ih =>
    obtain ⟨unmet, later⟩ := List.forall_mem_cons.mp more
    obtain ⟨seen, rest⟩ := ih later
    exact ⟨_, .cons accepted unmet rest⟩

theorem Traverses.exists_behind {offset : Nat} (traverses : p.Traverses s bodies ends u)
    (inside : offset < u.text.size) :
    offset < s.text.size ∨ ∃ closed ∈ ends, offset < closed.text.size := by
  induction traverses with
  | nil => exact .inl inside
  | @cons s t u body bodies seen ends _ _ ih =>
    rcases ih inside with first | ⟨closed, later, behind⟩
    · exact .inr ⟨t.closeLine, List.mem_cons_self, first⟩
    · exact .inr ⟨closed, List.mem_cons_of_mem _ later, behind⟩

/-! ## The last attempt -/

theorem Last.mono (last : p.Last tail next u back ends r)
    (free : sink.IsUnlimited → next.IsUnlimited) : p.Last tail sink u back ends r := by
  cases last with
  | complete accepted complete failure scan input =>
    exact .complete accepted complete failure scan input
  | refused spelled accepted refused failure scan input =>
    exact .refused spelled accepted refused failure scan input
  | exhausted => exact .exhausted
  | unasked limited failure scan input => exact .unasked (mt free limited) failure scan input

theorem Last.input (last : p.Last tail sink u back ends r) (unlimited : sink.IsUnlimited) :
    r.input = Input.behind 1 ⟨back, tail⟩ := by
  cases last with
  | complete _ _ _ _ input => exact input
  | refused _ _ _ _ _ input => exact input
  | exhausted => exact input_finish ..
  | unasked limited _ _ _ => contradiction

/-! ## The attempts -/

theorem reportsOf_append (log : Array Event) (seen : List Sighting) (events : List Event) :
    reportsOf (log ++ (seen.map Event.sighting ++ events)) =
      reportsOf log ++ events.filterMap Event.report? := by
  have silent : (seen.map Event.sighting).filterMap Event.report? = [] := by
    simp [List.filterMap_map, Function.comp_def, Event.report?]
  simp [reportsOf, silent]

theorem reportsOf_seen (log : Array Event) (seen : List Sighting) :
    reportsOf (log ++ seen.map Event.sighting) = reportsOf log := by
  simpa using reportsOf_append log seen []

theorem reportsOf_judge (log : Array Event) (p : Policy) (seen : List Sighting) (closed : Scan) :
    reportsOf (log ++ (p.judge seen closed).events) = reportsOf log ++ [p.report closed] :=
  reportsOf_append log seen [.report (p.report closed)]

theorem reportsOf_finish (tail : Input.Tail) (s : Scan) (sink : Sink) (log : Array Event) :
    reportsOf (finish tail s sink log).log = reportsOf log := by
  cases tail with
  | cut outage => rfl
  | rest bytes => simp only [finish]; split <;> exact reportsOf_seen log _

/-- The attempts from the scan `s` on that end in the reading `r`: every line in front left the unit open,
and was followed by another attempt. -/
structure Attempts (p : Policy) (tail : Input.Tail) (sink : Sink) (s : Scan)
    (bodies front back : List (List UInt8)) (ends last : List Scan) (u : Scan) (r : Reading) :
    Prop where
  lines : bodies = front ++ back
  traverses : p.Traverses s front ends u
  more : ∀ closed ∈ ends, closed.judgement p.settings p.vocabulary ≠ .complete
  last : p.Last tail sink u back last r

theorem Attempts.cons
    (accepted : Scan.Accepts { s with lineStart := s.text.size }
      (Separator.replace (Input.terminated body)).bytes seen t)
    (unmet : t.closeLine.judgement p.settings p.vocabulary ≠ .complete)
    (free : sink.IsUnlimited → next.IsUnlimited)
    (attempts : p.Attempts tail next (p.reopen t) bodies front back ends last u r) :
    p.Attempts tail sink s (body :: bodies) (body :: front) back (t.closeLine :: ends) last u r where
  lines := congrArg (body :: ·) attempts.lines
  traverses := .cons accepted attempts.traverses
  more := List.forall_mem_cons.mpr ⟨unmet, attempts.more⟩
  last := attempts.last.mono free

theorem follow_judged (judged : p.line s body = p.judge seen t.closeLine)
    (unmet : t.closeLine.judgement p.settings p.vocabulary ≠ .complete) :
    p.follow tail (body :: bodies) s sink log =
      match p.prompting (Dots.deliver (p.reopen t).depth) sink with
      | .ok _ next => p.follow tail bodies (p.reopen t) next (log ++ (p.line s body).events)
      | .error outage next =>
        { scan := p.reopen t, failure := some (.outage outage), input := ⟨bodies, tail⟩, sink := next,
          log := log ++ (p.line s body).events } := by
  have outcome : (p.line s body).outcome =
      .ok (t.closeLine.judgement p.settings p.vocabulary) := by rw [judged]; rfl
  have scan : (p.line s body).scan.openLine = p.reopen t := by rw [judged]; rfl
  cases judgement : t.closeLine.judgement p.settings p.vocabulary with
  | complete => contradiction
  | unfinished | dangling =>
    rw [judgement] at outcome
    cases asked : p.prompting (Dots.deliver (p.reopen t).depth) sink <;>
      simp only [follow, outcome, scan, asked]

theorem follow_attempts (p : Policy) (tail : Input.Tail) (bodies : List (List UInt8)) (s : Scan)
    (sink : Sink) (log : Array Event) :
    ∃ front back ends last u,
      p.Attempts tail sink s bodies front back ends last u (p.follow tail bodies s sink log) ∧
      reportsOf (p.follow tail bodies s sink log).log =
        reportsOf log ++ (ends ++ last).map p.report := by
  induction bodies generalizing s sink log with
  | nil =>
    refine ⟨[], [], [], [], s, ⟨rfl, .nil, List.forall_mem_nil _, .exhausted⟩, ?_⟩
    rw [follow, reportsOf_finish, List.append_nil, List.map_nil, List.append_nil]
  | cons body bodies ih =>
    rcases line_cases p s body with ⟨seen, t, accepted, judged⟩ |
      ⟨front, byte, rest, seen, t, intrusion, spelled, accepted, refused, stopped⟩
    · have reported : reportsOf (log ++ (p.line s body).events) =
          reportsOf log ++ [p.report t.closeLine] := by rw [judged, reportsOf_judge]
      by_cases complete : t.closeLine.judgement p.settings p.vocabulary = .complete
      · rw [follow_completed judged complete]
        exact ⟨[], body :: bodies, [], [t.closeLine], s,
          ⟨rfl, .nil, List.forall_mem_nil _, .complete accepted complete rfl rfl rfl⟩,
          reportsOf_judge log p seen t.closeLine⟩
      · have passes := Sink.passes_prompting p (Sink.passes_dots (p.reopen t).depth)
        rw [follow_judged judged complete]
        cases asked : p.prompting (Dots.deliver (p.reopen t).depth) sink with
        | ok _ next =>
          obtain ⟨front, back, ends, last, u, attempts, reports⟩ :=
            ih (p.reopen t) next (log ++ (p.line s body).events)
          refine ⟨body :: front, back, t.closeLine :: ends, last, u,
            attempts.cons accepted complete (passes.unlimited asked), ?_⟩
          simp only [reports, reported, List.append_assoc, List.cons_append, List.nil_append,
            List.map_cons]
        -- the line was judged and is reported, but no other is attempted
        | error outage next =>
          exact ⟨[body], bodies, [t.closeLine], [], p.reopen t,
            ⟨rfl, .cons accepted .nil, by simpa using complete,
              .unasked (passes.limited asked) rfl rfl rfl⟩, reported⟩
    · rw [follow_refused (by rw [stopped]), stopped]
      refine ⟨[], body :: bodies, [], [], s,
        ⟨rfl, .nil, List.forall_mem_nil _, .refused spelled accepted refused rfl rfl rfl⟩, ?_⟩
      rw [reportsOf_seen, List.append_nil, List.map_nil, List.append_nil]

theorem read_attempts (p : Policy) (prompt : List UInt8) (sink : Sink) (input : Input) :
    let r := p.read prompt sink input
    ∃ front back ends last u,
      p.Attempts input.tail sink {} input.lines front back ends last u r ∧
      r.reports = (ends ++ last).map p.report := by
  intro r
  have passes := Sink.passes_prompting p (Sink.passes_deliver prompt)
  cases asked : p.prompting (Sink.deliver prompt) sink with
  | ok _ next =>
    have reads : r = p.follow input.tail input.lines {} next #[] := by simp only [r, read, asked]
    obtain ⟨front, back, ends, last, u, attempts, reports⟩ :=
      follow_attempts p input.tail input.lines {} next #[]
    rw [← reads] at attempts reports
    exact ⟨front, back, ends, last, u,
      { attempts with last := attempts.last.mono (passes.unlimited asked) }, reports⟩
  | error outage next =>
    have reads : r =
        { scan := {}, failure := some (.outage outage), input, sink := next, log := #[] } := by
      simp only [r, read, asked]
    rw [reads]
    exact ⟨[], input.lines, [], [], {},
      ⟨rfl, .nil, List.forall_mem_nil _, .unasked (passes.limited asked) rfl rfl rfl⟩, rfl⟩

/-! ## What every episode keeps -/

/-- A property of a scan and of what was seen before it that the bytes of a line keep, and so do the end of a
line and a refused byte. -/
structure Keeps (p : Policy) (P : List Sighting → Scan → Prop) : Prop where
  accepts : ∀ {sofar seen : List Sighting} {s t : Scan} {bytes : List UInt8}, P sofar s →
    Scan.Accepts { s with lineStart := s.text.size } bytes seen t → P (sofar ++ seen) t
  closeLine : ∀ {sofar : List Sighting} {t : Scan}, P sofar t → P sofar t.closeLine
  reopen : ∀ {sofar : List Sighting} {t : Scan}, P sofar t → P sofar (p.reopen t)
  record : ∀ {sofar : List Sighting} {t : Scan} (byte : UInt8), P sofar t → P sofar (t.record byte)

theorem Keeps.finish {P : List Sighting → Scan → Prop} (keeps : p.Keeps P) (tail : Input.Tail)
    (sink : Sink) (holds : P (sightingsOf log) s) :
    P (finish tail s sink log).sightings (finish tail s sink log).scan := by
  cases tail with
  | cut outage => exact holds
  | rest bytes =>
    rcases finish_cases bytes s sink log with ⟨seen, t, accepted, ended⟩ |
      ⟨front, byte, back, seen, t, intrusion, -, accepted, -, stopped⟩
    · rw [ended, Reading.sightings, sightingsOf_seen]
      exact keeps.closeLine (keeps.accepts holds accepted)
    · rw [stopped, Reading.sightings, sightingsOf_seen]
      exact keeps.record byte (keeps.accepts holds accepted)

theorem Keeps.follow {P : List Sighting → Scan → Prop} (keeps : p.Keeps P) (tail : Input.Tail)
    (bodies : List (List UInt8)) (sink : Sink) (holds : P (sightingsOf log) s) :
    P (p.follow tail bodies s sink log).sightings (p.follow tail bodies s sink log).scan := by
  induction bodies generalizing s sink log with
  | nil => exact keeps.finish tail sink holds
  | cons body bodies ih =>
    rcases line_cases p s body with ⟨seen, t, accepted, judged⟩ |
      ⟨front, byte, rest, seen, t, intrusion, -, accepted, -, stopped⟩
    · have next := keeps.accepts holds accepted
      have logged : sightingsOf (log ++ (p.line s body).events) = sightingsOf log ++ seen := by
        rw [judged, sightingsOf_judge]
      by_cases complete : t.closeLine.judgement p.settings p.vocabulary = .complete
      · rw [follow_completed judged complete, Reading.sightings, sightingsOf_judge]
        exact keeps.closeLine next
      · have reopened : P (sightingsOf (log ++ (p.line s body).events)) (p.reopen t) :=
          logged ▸ keeps.reopen next
        rw [follow_judged judged complete]
        cases asked : p.prompting (Dots.deliver (p.reopen t).depth) sink with
        | ok _ sink => exact ih sink reopened
        | error outage sink => exact reopened
    · rw [follow_refused (by rw [stopped]), stopped, Reading.sightings, sightingsOf_seen]
      exact keeps.record byte (keeps.accepts holds accepted)

theorem Keeps.read {P : List Sighting → Scan → Prop} (keeps : p.Keeps P) (start : P [] {})
    (prompt : List UInt8) (sink : Sink) (input : Input) :
    P (p.read prompt sink input).sightings (p.read prompt sink input).scan := by
  cases asked : p.prompting (Sink.deliver prompt) sink with
  | ok _ next =>
    simp only [Policy.read, asked]
    exact keeps.follow input.tail input.lines next start
  | error outage next =>
    simp only [Policy.read, asked]
    exact start

end Policy

end Linewise
