import Linewise.Proofs.Conservation
import Linewise.Proofs.Split

/-! An episode is a stretch of lines that leave its unit open, and a last line: one that completes
the unit, or the bytes after the last newline. So a fact about episodes needs an argument for one
line and one for the last (`Policy.StaysOpen`, `Policy.Ends`). -/

namespace Linewise

def Cause.IsEnd (cause : Cause) : Prop := cause = .endOfInput ∨ cause = .openEnd

theorem Reading.clean_of_complete {r : Reading} (complete : r.failure = none) :
    ∀ cause ∈ r.failure, cause.IsEnd := by
  rw [complete]
  nofun

namespace Policy

variable {p : Policy} {s t u : Scan} {body : List UInt8} {bodies more : List (List UInt8)}
  {tail : Input.Tail} {sink : Sink} {log : Array Event} {seen later last : List Sighting} {r : Reading}

/-- The scan before the next line, behind one that left the unit open. -/
def reopen (p : Policy) (t : Scan) : Scan :=
  (t.closeLine.conclude (t.closeLine.judgement p.settings p.vocabulary)).openLine

/-- A scan takes lines to the scan before the next line: each is accepted up to its end, and none
completes the unit. -/
inductive StaysOpen (p : Policy) : Scan → List (List UInt8) → List Sighting → Scan → Prop where
  | nil {s : Scan} : StaysOpen p s [] [] s
  | cons {s t u : Scan} {body : List UInt8} {bodies : List (List UInt8)} {seen later : List Sighting}
      (accepted : Scan.Accepts { s with lineStart := s.text.size }
        (Separator.replace (Input.terminated body)).bytes seen t)
      (more : t.closeLine.judgement p.settings p.vocabulary ≠ .complete)
      (rest : StaysOpen p (p.reopen t) bodies later u) :
      StaysOpen p s (body :: bodies) (seen ++ later) u

theorem sound_reopen (sound : t.Sound) (p : Policy) : (p.reopen t).Sound :=
  (sound.closeLine.conclude p.settings p.vocabulary).openLine

theorem StaysOpen.sound (opened : p.StaysOpen s bodies seen u) (sound : s.Sound) : u.Sound := by
  induction opened with
  | nil => exact sound
  | cons accepted _ _ ih => exact ih (sound_reopen (sound.startLine.accepts accepted) p)

theorem sightingsOf_seen (log : Array Event) (seen : List Sighting) :
    sightingsOf (log ++ seen.map Event.sighting) = sightingsOf log ++ seen := by
  simpa using sightingsOf_append log seen [] rfl

theorem sightingsOf_judge (log : Array Event) (p : Policy) (seen : List Sighting) (closed : Scan) :
    sightingsOf (log ++ (p.judge seen closed).events) = sightingsOf log ++ seen :=
  sightingsOf_append log seen [_] rfl

theorem Recorded.staysOpen {done : List (List UInt8)} (recorded : Recorded done s log)
    (opened : p.StaysOpen s bodies seen u) :
    Recorded (done ++ bodies) u (log ++ seen.map Event.sighting) := by
  induction opened generalizing done log with
  | nil => simpa using recorded
  | @cons s t u body bodies seen later accepted _ _ ih =>
    have next := ih (recorded.next accepted p)
    have same : sightingsOf (log ++ (p.judge seen t.closeLine).events ++ later.map Event.sighting) =
        sightingsOf (log ++ (seen ++ later).map Event.sighting) := by
      rw [sightingsOf_seen, sightingsOf_judge, sightingsOf_seen, List.append_assoc]
    have lines : done ++ [body] ++ bodies = done ++ body :: bodies := by simp
    exact ⟨next.sound, same ▸ next.told, same ▸ lines ▸ next.all⟩

theorem StaysOpen.told {bytes : List UInt8} (opened : p.StaysOpen {} bodies seen u)
    (accepted : Scan.Accepts { u with lineStart := u.text.size } bytes last t) :
    t.Tells (seen ++ last) ∧ (seen ++ last).map Sighting.byte =
      (Separator.replace (bodies.map Input.terminated).flatten).bytes ++ bytes := by
  have recorded := (recorded_empty.staysOpen opened).accepts accepted
  rw [sightingsOf_seen] at recorded
  exact recorded.2

theorem line_of_accepts (p : Policy) (accepted : Scan.Accepts { s with lineStart := s.text.size }
    (Separator.replace (Input.terminated body)).bytes seen t) :
    p.line s body = p.judge seen t.closeLine := by
  simp only [line, Scan.line, Scan.run_eq accepted, judge]

/-- An episode ends at a line that completes its unit, with the scan as the line left it. -/
theorem follow_completed (judged : p.line s body = p.judge seen t.closeLine)
    (complete : t.closeLine.judgement p.settings p.vocabulary = .complete) :
    p.follow tail (body :: bodies) s sink log =
      { scan := t.closeLine, failure := none, input := ⟨bodies, tail⟩, sink,
        log := log ++ (p.judge seen t.closeLine).events } := by
  have outcome : (p.line s body).outcome = .ok .complete := by rw [judged, ← complete]; rfl
  have scan : (p.judge seen t.closeLine).scan = t.closeLine :=
    Scan.conclude_of_ne (by simp [complete])
  rw [follow_complete outcome, judged, scan]

theorem follow_of_staysOpen (opened : p.StaysOpen s bodies seen u) (unlimited : sink.IsUnlimited) :
    ∃ (next : Sink) (log' : Array Event), next.IsUnlimited ∧
      p.follow tail (bodies ++ more) s sink log = p.follow tail more u next log' := by
  induction opened generalizing sink log with
  | nil => exact ⟨sink, log, unlimited, rfl⟩
  | @cons s t u body bodies seen later accepted unmet _ ih =>
    have judged := line_of_accepts p accepted
    have outcome : (p.line s body).outcome =
        .ok (t.closeLine.judgement p.settings p.vocabulary) := by rw [judged]; rfl
    obtain ⟨middle, still, goes⟩ := follow_unfinished outcome unmet unlimited
    obtain ⟨next, log', free, rest⟩ := ih still
    refine ⟨next, log', free, ?_⟩
    rw [List.cons_append, goes, judged]
    exact rest

/-- How an episode ends that no refused byte and no outage cuts short. -/
inductive Ends (p : Policy) (s : Scan) (tail : Input.Tail) (bodies : List (List UInt8)) (r : Reading) :
    List Sighting → Prop where
  | complete {front back : List (List UInt8)} {body : List UInt8} {seen last : List Sighting}
      {u t : Scan} (lines : bodies = front ++ body :: back) (opened : p.StaysOpen s front seen u)
      (accepted : Scan.Accepts { u with lineStart := u.text.size }
        (Separator.replace (Input.terminated body)).bytes last t)
      (complete : t.closeLine.judgement p.settings p.vocabulary = .complete)
      (failure : r.failure = none) (scan : r.scan = t.closeLine) (input : r.input = ⟨back, tail⟩) :
      Ends p s tail bodies r (seen ++ last)
  | exhausted {bytes : List UInt8} {seen last : List Sighting} {u t : Scan}
      (rest : tail = .rest bytes) (opened : p.StaysOpen s bodies seen u)
      (accepted : Scan.Accepts { u with lineStart := u.text.size }
        (Separator.replace bytes).bytes last t)
      (failure : r.failure = some (.atEnd t.depth)) (scan : r.scan = t.closeLine) :
      Ends p s tail bodies r (seen ++ last)

theorem Ends.cons (accepted : Scan.Accepts { s with lineStart := s.text.size }
      (Separator.replace (Input.terminated body)).bytes seen t)
    (more : t.closeLine.judgement p.settings p.vocabulary ≠ .complete)
    (ends : p.Ends (p.reopen t) tail bodies r later) :
    p.Ends s tail (body :: bodies) r (seen ++ later) := by
  cases ends with
  | complete lines opened accepted' complete failure scan input =>
    rw [← List.append_assoc]
    exact .complete (by rw [lines]; rfl) (.cons accepted more opened) accepted' complete failure scan
      input
  | exhausted rest opened accepted' failure scan =>
    rw [← List.append_assoc]
    exact .exhausted rest (.cons accepted more opened) accepted' failure scan

theorem not_isEnd_outage (outage : Outage) : ¬ Cause.IsEnd (.outage outage) := by
  rintro (h | h) <;> cases h

theorem not_isEnd_intrusion (intrusion : Intrusion) : ¬ Cause.IsEnd (.intrusion intrusion) := by
  rintro (h | h) <;> cases h

theorem finish_ends (clean : ∀ cause ∈ (finish tail s sink log).failure, cause.IsEnd) :
    ∃ seen, p.Ends s tail [] (finish tail s sink log) seen ∧
      (finish tail s sink log).sightings = sightingsOf log ++ seen := by
  cases tail with
  | cut outage => exact absurd (clean _ rfl) (not_isEnd_outage outage)
  | rest bytes =>
    rcases finish_cases bytes s sink log with ⟨seen, t, accepted, ended⟩ |
      ⟨front, byte, back, seen, t, intrusion, -, -, -, stopped⟩
    · refine ⟨seen, ?_, ?_⟩
      · rw [ended]
        exact .exhausted rfl .nil accepted rfl rfl
      · rw [ended]
        exact sightingsOf_seen log seen
    · rw [stopped] at clean
      exact absurd (clean _ rfl) (not_isEnd_intrusion intrusion)

theorem follow_of_open {judgement : Judgement} (outcome : (p.line s body).outcome = .ok judgement)
    (more : judgement ≠ .complete)
    (clean : ∀ cause ∈ (p.follow tail (body :: bodies) s sink log).failure, cause.IsEnd) :
    ∃ next, p.follow tail (body :: bodies) s sink log =
      p.follow tail bodies (p.line s body).scan.openLine next (log ++ (p.line s body).events) := by
  cases judgement with
  | complete => contradiction
  | unfinished | dangling =>
    cases asked : p.prompting (Dots.deliver (p.line s body).scan.openLine.depth) sink with
    | ok _ next => exact ⟨next, by simp only [follow, outcome, asked]⟩
    | error outage next =>
      simp only [follow, outcome, asked] at clean
      exact absurd (clean _ rfl) (not_isEnd_outage outage)

theorem follow_ends (clean : ∀ cause ∈ (p.follow tail bodies s sink log).failure, cause.IsEnd) :
    ∃ seen, p.Ends s tail bodies (p.follow tail bodies s sink log) seen ∧
      (p.follow tail bodies s sink log).sightings = sightingsOf log ++ seen := by
  induction bodies generalizing s sink log with
  | nil => exact finish_ends clean
  | cons body bodies ih =>
    rcases line_cases p s body with ⟨seen, t, accepted, judged⟩ |
      ⟨front, byte, back, seen, t, intrusion, -, -, -, stopped⟩
    · have outcome : (p.line s body).outcome =
          .ok (t.closeLine.judgement p.settings p.vocabulary) := by rw [judged]; rfl
      have logged : sightingsOf (log ++ (p.line s body).events) = sightingsOf log ++ seen := by
        rw [judged, sightingsOf_judge]
      by_cases complete : t.closeLine.judgement p.settings p.vocabulary = .complete
      · rw [follow_completed judged complete]
        exact ⟨[] ++ seen, .complete rfl .nil accepted complete rfl rfl rfl,
          sightingsOf_judge log p seen t.closeLine⟩
      · obtain ⟨next, goes⟩ := follow_of_open outcome complete clean
        have scan : (p.line s body).scan.openLine = p.reopen t := by rw [judged]; rfl
        rw [goes, scan] at clean ⊢
        obtain ⟨later, ends, sightings⟩ := ih clean
        refine ⟨seen ++ later, ends.cons accepted complete, ?_⟩
        rw [sightings, logged, List.append_assoc]
    · rw [follow_refused (by rw [stopped])] at clean
      exact absurd (clean _ rfl) (not_isEnd_intrusion intrusion)

theorem read_of_clean {prompt : List UInt8} {input : Input}
    (clean : ∀ cause ∈ (p.read prompt sink input).failure, cause.IsEnd) :
    ∃ next, p.read prompt sink input = p.follow input.tail input.lines {} next #[] := by
  cases asked : p.prompting (Sink.deliver prompt) sink with
  | ok _ next => exact ⟨next, by simp only [read, asked]⟩
  | error outage next =>
    simp only [read, asked] at clean
    exact absurd (clean _ rfl) (not_isEnd_outage outage)

theorem read_ends {prompt : List UInt8} {input : Input}
    (clean : ∀ cause ∈ (p.read prompt sink input).failure, cause.IsEnd) :
    ∃ seen, p.Ends {} input.tail input.lines (p.read prompt sink input) seen ∧
      (p.read prompt sink input).sightings = seen := by
  obtain ⟨next, follows⟩ := read_of_clean clean
  rw [follows] at clean ⊢
  exact follow_ends clean

/-- The entry of a reading is the lines `front`, which leave the unit open, and `body`, which completes
it. -/
structure Enters (p : Policy) (text : List UInt8) (outage : Option Outage) (r : Reading)
    (front : List (List UInt8)) (body rest : List UInt8) (seen last : List Sighting) (u t : Scan) :
    Prop where
  whole : text = ((front ++ [body]).map Input.terminated).flatten ++ rest
  lines : ∀ line ∈ front ++ [body], line ∈ (Input.split text).1
  opened : p.StaysOpen {} front seen u
  accepted : Scan.Accepts { u with lineStart := u.text.size }
    (Separator.replace (Input.terminated body)).bytes last t
  resolved : t.closeLine.isResolved p.settings = true
  scan : r.scan = t.closeLine
  input : r.input = Input.ofBytes rest outage
  sightings : r.sightings = seen ++ last

theorem read_enters {prompt : List UInt8} {text : List UInt8} {outage : Option Outage}
    (complete : (p.read prompt sink (Input.ofBytes text outage)).failure = none) :
    ∃ front body rest seen last u t,
      p.Enters text outage (p.read prompt sink (Input.ofBytes text outage)) front body rest seen last
        u t := by
  obtain ⟨all, ends, sightings⟩ := read_ends (Reading.clean_of_complete complete)
  cases ends with
  | exhausted _ _ _ failure _ => cases complete.symm.trans failure
  | @complete front back body seen last u t lines opened accepted judged failure scan input =>
    have cut : (Input.split text).1 = (front ++ [body]) ++ back := by
      rw [List.append_assoc]
      exact lines
    obtain ⟨rest, whole, left⟩ := Input.ofBytes_suffix cut outage
    exact ⟨front, body, rest, seen, last, u, t, whole,
      fun line member => cut ▸ List.mem_append_left _ member, opened, accepted,
      (Scan.judgement_eq_complete_iff.mp judged).1, scan, input.trans left, sightings⟩

end Policy

end Linewise
