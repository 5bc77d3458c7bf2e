import Linewise.Proofs.Behind
import Linewise.Proofs.Lines

/-! An entry is read from lines that leave its unit open and one that completes it.
`Policy.Completes` is that sequence of lines, whatever follows it in an input. -/

namespace Linewise.Policy

variable {p : Policy} {s t u : Scan} {body : List UInt8} {bodies front back : List (List UInt8)}
  {tail : Input.Tail} {sink : Sink} {log : Array Event} {seen later last : List Sighting}

/-- A scan takes lines to the end of the unit, which the last of them completes. -/
inductive Completes (p : Policy) : Scan → List (List UInt8) → List Sighting → Scan → Prop where
  | last {s t : Scan} {body : List UInt8} {seen : List Sighting}
      (accepted : Scan.Accepts { s with lineStart := s.text.size }
        (Separator.replace (Input.terminated body)).bytes seen t)
      (complete : t.closeLine.judgement p.settings p.vocabulary = .complete) :
      Completes p s [body] seen t.closeLine
  | cons {s t u : Scan} {body : List UInt8} {bodies : List (List UInt8)} {seen later : List Sighting}
      (accepted : Scan.Accepts { s with lineStart := s.text.size }
        (Separator.replace (Input.terminated body)).bytes seen t)
      (more : t.closeLine.judgement p.settings p.vocabulary ≠ .complete)
      (rest : Completes p (p.reopen t) bodies later u) :
      Completes p s (body :: bodies) (seen ++ later) u

theorem StaysOpen.completes (opened : p.StaysOpen s front seen u) (rest : p.Completes u back later t) :
    p.Completes s (front ++ back) (seen ++ later) t := by
  induction opened with
  | nil => exact rest
  | cons accepted more _ ih =>
    rw [List.append_assoc]
    exact .cons accepted more (ih rest)

theorem Completes.ne_nil (completes : p.Completes s bodies seen u) : bodies ≠ [] := by
  cases completes <;> simp

theorem Completes.split (completes : p.Completes s (front ++ back) seen u) (fewer : back ≠ []) :
    ∃ first last m, seen = first ++ last ∧ p.StaysOpen s front first m ∧ p.Completes m back last u := by
  induction front generalizing s seen with
  | nil => exact ⟨[], seen, s, rfl, .nil, completes⟩
  | cons body front ih =>
    generalize lines : front ++ back = bodies at ih
    rw [List.cons_append, lines] at completes
    cases completes with
    | last => simp_all
    | cons accepted more rest =>
      obtain ⟨first, last, m, rfl, left, right⟩ := ih rest
      exact ⟨_, last, m, (List.append_assoc ..).symm, .cons accepted more left, right⟩

theorem StaysOpen.size (opened : p.StaysOpen {} bodies seen u) :
    u.text.size = (Separator.replace (bodies.map Input.terminated).flatten).bytes.length := by
  obtain ⟨told, bytes⟩ := opened.told (.nil (s := { u with lineStart := u.text.size }))
  rw [List.append_nil] at told bytes
  have offsets := congrArg List.length told.offsets
  rw [List.append_nil] at bytes
  have count := congrArg List.length bytes
  simp at offsets count
  omega

theorem settled_reopen (accepted : Scan.Accepts { s with lineStart := s.text.size }
      (Separator.replace (Input.terminated body)).bytes seen t) (p : Policy) : (p.reopen t).Settled := by
  have next := (Scan.settled_of_terminated accepted).nextLine
  exact ⟨next.hash, next.slash⟩

theorem StaysOpen.settled (opened : p.StaysOpen s bodies seen u) (settled : s.Settled) : u.Settled := by
  induction opened with
  | nil => exact settled
  | cons accepted _ _ ih => exact ih (settled_reopen accepted p)

theorem extends_line {bytes : List UInt8} (sound : s.Sound) (settled : s.Settled)
    (accepted : Scan.Accepts { s with lineStart := s.text.size } bytes seen t) : s.Extends t := by
  have extended := accepted.extends sound.startLine ⟨settled.hash, settled.slash⟩
  exact ⟨extended.text, extended.start⟩

theorem Completes.extends (completes : p.Completes s bodies seen u) (sound : s.Sound)
    (settled : s.Settled) : s.Extends u := by
  induction completes with
  | last accepted _ =>
    have line := extends_line sound settled accepted
    exact ⟨line.text, line.start⟩
  | cons accepted _ _ ih =>
    have later := ih (sound_reopen (sound.startLine.accepts accepted) p) (settled_reopen accepted p)
    exact (extends_line sound settled accepted).trans ⟨later.text, later.start⟩

theorem Completes.map_byte (completes : p.Completes s bodies seen u) :
    seen.map Sighting.byte = (Separator.replace (bodies.map Input.terminated).flatten).bytes := by
  induction completes with
  | last accepted _ => simpa using accepted.map_byte
  | cons accepted _ _ ih =>
    rw [List.map_append, accepted.map_byte, ih, List.map_cons, List.flatten_cons,
      Separator.replace_terminated_append]

/-- An episode takes the lines that complete its unit, and no more. -/
theorem follow_of_completes (completes : p.Completes s bodies seen u) (unlimited : sink.IsUnlimited) :
    let r := p.follow tail (bodies ++ back) s sink log
    r.failure = none ∧ r.scan = u ∧ r.input = ⟨back, tail⟩ ∧
      r.sightings = sightingsOf log ++ seen := by
  induction completes generalizing sink log with
  | @last s t body seen accepted complete =>
    have judged := line_of_accepts p accepted
    rw [List.singleton_append, follow_completed judged complete]
    exact ⟨rfl, rfl, rfl, sightingsOf_judge log p seen t.closeLine⟩
  | @cons s t u body bodies seen later accepted more _ ih =>
    have judged := line_of_accepts p accepted
    have outcome : (p.line s body).outcome =
        .ok (t.closeLine.judgement p.settings p.vocabulary) := by rw [judged]; rfl
    obtain ⟨next, still, goes⟩ := follow_unfinished outcome more unlimited
    rw [List.cons_append, goes, judged]
    obtain ⟨none, scan, input, sightings⟩ := @ih next _ still
    refine ⟨none, scan, input, sightings.trans ?_⟩
    rw [sightingsOf_judge, List.append_assoc]

theorem follow_of_exhausted (opened : p.StaysOpen s bodies seen u) (unlimited : sink.IsUnlimited) :
    let r := p.follow (.rest []) bodies s sink log
    r.failure = some (.atEnd u.depth) ∧ r.entry = u.entry := by
  intro r
  obtain ⟨next, log', -, goes⟩ :=
    @follow_of_staysOpen _ _ _ _ [] (.rest []) _ log _ opened unlimited
  rw [List.append_nil] at goes
  have same : r = finish (.rest []) u next log' := goes
  rw [same]
  exact ⟨rfl, rfl⟩

theorem read_of_completes (prompt : List UInt8) (unlimited : sink.IsUnlimited)
    (completes : p.Completes {} bodies seen u) (back : List (List UInt8)) (tail : Input.Tail) :
    let r := p.read prompt sink ⟨bodies ++ back, tail⟩
    r.failure = none ∧ r.scan = u ∧ r.input = ⟨back, tail⟩ ∧ r.sightings = seen := by
  intro r
  obtain ⟨next, free, reads⟩ := read_eq_follow p prompt ⟨bodies ++ back, tail⟩ unlimited
  have same : r = _ := reads
  rw [same]
  exact follow_of_completes completes free

theorem read_completes {prompt : List UInt8} {input : Input}
    (complete : (p.read prompt sink input).failure = none) :
    let r := p.read prompt sink input
    ∃ bodies back, input.lines = bodies ++ back ∧ p.Completes {} bodies r.sightings r.scan ∧
      r.input = ⟨back, input.tail⟩ := by
  intro r
  obtain ⟨all, ends, sightings⟩ := read_ends (Reading.clean_of_complete complete)
  cases ends with
  | exhausted _ _ _ failure _ => cases complete.symm.trans failure
  | @complete front back body seen last u t lines opened accepted judged failure scan input' =>
    have completes := opened.completes (.last accepted judged)
    refine ⟨front ++ [body], back, by simpa using lines, ?_, input'⟩
    rw [show r.sightings = seen ++ last from sightings, show r.scan = t.closeLine from scan]
    exact completes

end Linewise.Policy
