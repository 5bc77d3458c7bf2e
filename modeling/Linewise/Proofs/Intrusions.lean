import Linewise.Proofs.Attempts

/-! A control byte in a quoted literal stops the line there, and nothing of the byte is seen. The
episode ends with the broken line, and the next begins behind it as with a new input
(`Policy.read_intrusion`). -/

namespace Linewise

namespace Scan

variable {s t : Scan} {byte : UInt8} {bytes : List UInt8} {i : Intrusion}

/-- The scan of a line stops at its byte `k`, which breaks a literal. Up to there it is the scan of the bytes
before, and the byte is only added to the text. -/
structure StopsAt (s : Scan) (bytes : List UInt8) (i : Intrusion) (k : Nat) : Prop where
  byte : bytes[k]? = some i.byte
  control : i.byte < 0x20
  accepted : (s.line (bytes.take k)).intrusion = none
  inside : (s.line (bytes.take k)).scan.context = .quoted i.literal ∨
    (s.line (bytes.take k)).scan.context = .escape i.literal
  offset : i.offset = (s.line (bytes.take k)).scan.text.size
  scan : (s.line bytes).scan = { (s.line (bytes.take k)).scan with
    text := (s.line (bytes.take k)).scan.text.push i.byte }
  seen : (s.line bytes).seen = (s.line (bytes.take k)).seen
  shown : (s.line bytes).seen.map Sighting.byte = bytes.take k

theorem stopsAt_of_refused {front back : List UInt8} {seen : List Sighting}
    (accepted : Accepts { s with lineStart := s.text.size } front seen t)
    (refused : t.effect byte = .error i) : s.StopsAt (front ++ byte :: back) i front.length := by
  obtain ⟨control, rfl, offset, inside⟩ := intrusion_of_error refused
  have before : s.line ((front ++ i.byte :: back).take front.length) = ⟨t, seen, none⟩ := by
    rw [List.take_left]
    exact run_eq accepted
  have whole : s.line (front ++ i.byte :: back) = ⟨t.record i.byte, seen, some i⟩ :=
    run_of_refused accepted refused back
  constructor
  · simp
  · simpa [Byte.isControl] using control
  all_goals simp only [before, whole]
  · exact inside
  · exact offset
  · rfl
  · rw [accepted.map_byte, List.take_left]

theorem stopsAt_of_intrusion (stopped : (s.line bytes).intrusion = some i) : ∃ k, s.StopsAt bytes i k := by
  rcases run_cases { s with lineStart := s.text.size } bytes with
    ⟨seen, t, -, run⟩ | ⟨front, byte, back, seen, t, intrusion, rfl, accepted, refused, run⟩
  · cases stopped.symm.trans (congrArg Run.intrusion run)
  · obtain rfl : i = intrusion := Option.some.inj (stopped.symm.trans (congrArg Run.intrusion run))
    exact ⟨_, stopsAt_of_refused accepted refused⟩

/-- A literal begins with code, so there is some before the byte that breaks it. -/
theorem Sound.codeStart_of_refused (sound : t.Sound) (refused : t.effect byte = .error i) :
    ∃ start, t.codeStart = some start ∧ start < i.offset := by
  obtain ⟨-, -, offset, inside⟩ := intrusion_of_error refused
  obtain ⟨extent, marked⟩ : ∃ extent, t.extent = some extent := by
    by_contra blank
    have outside := (sound.blank (Option.eq_none_iff_forall_not_mem.mpr (not_exists.mp blank))).2.2
    rcases inside with quoted | escaped
    · rw [quoted] at outside
      cases outside
    · rw [escaped] at outside
      cases outside
  obtain ⟨ordered, -, last⟩ := sound.marks extent marked
  exact ⟨extent.first, by simp [Status.codeStart, marked], offset ▸ Nat.lt_of_le_of_lt ordered last.lt⟩

end Scan

namespace Input

variable {text body bytes : List UInt8} {front more : List (List UInt8)} {outage : Option Outage}

/-- A text is cut at a line: into the lines before it, the line itself, and the text behind it. -/
structure CutAt (text : List UInt8) (outage : Option Outage) (front : List (List UInt8))
    (line rest : List UInt8) : Prop where
  whole : text = (front.map terminated).flatten ++ line ++ rest
  lines : (ofBytes text outage).physicalLines =
    front.map terminated ++ line :: (ofBytes rest outage).physicalLines

theorem cutAt_terminated (lines : (split text).1 = front ++ body :: more) (outage : Option Outage) :
    ∃ rest, CutAt text outage front (terminated body) rest ∧
      ⟨more, (ofBytes text outage).tail⟩ = ofBytes rest outage := by
  have cut : (split text).1 = (front ++ [body]) ++ more := by
    rw [lines, List.append_assoc]
    rfl
  obtain ⟨rest, whole, behind⟩ := ofBytes_suffix cut outage
  refine ⟨rest, ⟨by simpa using whole, ?_⟩, behind⟩
  rw [← behind, ← physicalLines_cons, physicalLines, physicalLines,
    show (ofBytes text outage).lines = front ++ body :: more from lines, List.map_append,
    List.append_assoc]

theorem cutAt_rest (nonempty : bytes ≠ [])
    (lines : (split text).1 = front) (tail : (ofBytes text outage).tail = .rest bytes) :
    CutAt text outage front bytes [] ∧ (⟨[], .rest []⟩ : Input) = ofBytes [] outage := by
  cases outage with
  | some outage => cases tail
  | none =>
    have rest : (split text).2 = bytes := Tail.rest.inj tail
    refine ⟨⟨?_, ?_⟩, rfl⟩
    · rw [List.append_nil, ← lines, ← rest, flatten_split]
    · rw [physicalLines, tail, ← lines]
      split
      · next none => exact absurd (Tail.rest.inj none) nonempty
      · next cut => cases cut
      · next same => rw [← Tail.rest.inj same]; rfl

end Input

namespace Policy

variable {p : Policy} {u : Scan} {line : List UInt8} {back : List (List UInt8)} {last : List Scan}
  {tail : Input.Tail} {sink : Sink} {r : Reading} {i : Intrusion}

/-- The reading ends at a byte of a line that breaks a literal, behind the scan `u`. -/
structure BreaksOff (u : Scan) (line : List UInt8) (i : Intrusion) (r : Reading) : Prop where
  intrusion : (u.line (Separator.replace line).bytes).intrusion = some i
  scan : r.scan = (u.line (Separator.replace line).bytes).scan
  ended : r.entry.text.back? = some i.byte ∧ i.offset + 1 = r.entry.text.size
  start : ∃ start, r.entry.start = some start ∧ start < i.offset

theorem breaksOff_of_refused {front rest : List UInt8} {byte : UInt8} {seen : List Sighting} {t : Scan}
    (sound : u.Sound) (spelled : (Separator.replace line).bytes = front ++ byte :: rest)
    (accepted : Scan.Accepts { u with lineStart := u.text.size } front seen t)
    (refused : t.effect byte = .error i) (scan : r.scan = t.record byte) : BreaksOff u line i r := by
  have run : u.line (Separator.replace line).bytes = ⟨t.record byte, seen, some i⟩ := by
    rw [spelled]
    exact Scan.run_of_refused accepted refused rest
  obtain ⟨-, same, offset, -⟩ := Scan.intrusion_of_error refused
  refine ⟨by rw [run], by rw [run, scan], ?_, ?_⟩
  · simp [Reading.entry, Scan.entry, scan, Scan.record, same, offset]
  · rw [Reading.entry, scan]
    exact (sound.startLine.accepts accepted).codeStart_of_refused refused

theorem Last.breaksOff (ended : p.Last tail sink u back last r) (sound : u.Sound)
    (failed : r.failure = some (.intrusion i)) :
    (∃ body more, back = body :: more ∧ r.input = ⟨more, tail⟩ ∧ BreaksOff u (Input.terminated body) i r) ∨
      ∃ bytes, bytes ≠ [] ∧ back = [] ∧ tail = .rest bytes ∧ r.input = ⟨[], .rest []⟩ ∧
        BreaksOff u bytes i r := by
  cases ended with
  | complete _ _ failure => cases failed.symm.trans failure
  | refused spelled accepted refused failure scan input =>
    cases failed.symm.trans failure
    exact .inl ⟨_, _, rfl, input, breaksOff_of_refused sound spelled accepted refused scan⟩
  | @exhausted next log =>
    cases tail with
    | cut outage => cases failed
    | rest bytes =>
      rcases finish_cases bytes u next log with ⟨seen, t, -, ended⟩ |
        ⟨front, byte, rest, seen, t, intrusion, spelled, accepted, refused, stopped⟩
      · rw [ended] at failed
        exact absurd (Option.some.inj failed) (Cause.atEnd_ne_intrusion _ i)
      · rw [stopped] at failed ⊢
        cases failed
        refine .inr ⟨bytes, ?_, rfl, rfl, rfl, breaksOff_of_refused sound spelled accepted refused rfl⟩
        rintro rfl
        simp at spelled
  | unasked _ failure => cases failed.symm.trans failure

theorem session_of_intrusion {prompt : List UInt8} {before : Sink} {input : Input}
    (empty : before.emptied = sink) (failed : (p.read prompt sink input).failure = some (.intrusion i)) :
    p.session prompt before input = p.read prompt sink input ::
      p.session prompt (p.read prompt sink input).sink (p.read prompt sink input).input := by
  rw [session_eq, empty, if_pos (by rw [Reading.isResumable, failed]; rfl)]

/-- Where a byte breaks a literal, the line stops at it. An episode that ends so has the byte at the end of its
text, and code before it. The lines before the broken one leave the unit open, the broken one is taken whole,
and the next episode reads those behind it as it would read them as a new input. -/
theorem read_intrusion (p : Policy) (i : Intrusion) :
    (∀ (s : Scan) (bytes : List UInt8), (s.line bytes).intrusion = some i → ∃ k, s.StopsAt bytes i k) ∧
      ∀ (prompt : List UInt8) (sink : Sink) (text : List UInt8) (outage : Option Outage),
        let r := p.read prompt sink (Input.ofBytes text outage)
        r.failure = some (.intrusion i) →
          ∃ front line rest seen u,
            Input.CutAt text outage front line rest ∧ p.StaysOpen {} front seen u ∧ BreaksOff u line i r ∧
              r.input = Input.ofBytes rest outage ∧
              ∀ before : Sink, before.emptied = sink →
                p.session prompt before (Input.ofBytes text outage) =
                  r :: p.session prompt r.sink (Input.ofBytes rest outage) := by
  refine ⟨fun s bytes => Scan.stopsAt_of_intrusion, ?_⟩
  intro prompt sink text outage r failed
  obtain ⟨front, back, ends, last, u, ⟨lines, traverses, more, ended⟩, -⟩ :=
    read_attempts p prompt sink (Input.ofBytes text outage)
  obtain ⟨seen, opened⟩ := traverses.staysOpen more
  obtain ⟨line, rest, cut, left, broken⟩ : ∃ line rest, Input.CutAt text outage front line rest ∧
      r.input = Input.ofBytes rest outage ∧ BreaksOff u line i r := by
    rcases ended.breaksOff (opened.sound Scan.sound_empty) failed with
      ⟨body, more, rfl, left, broken⟩ | ⟨bytes, nonempty, rfl, tail, left, broken⟩
    · obtain ⟨rest, cut, behind⟩ := Input.cutAt_terminated lines outage
      exact ⟨_, rest, cut, left.trans behind, broken⟩
    · obtain ⟨cut, behind⟩ := Input.cutAt_rest nonempty (lines.trans (List.append_nil _)) tail
      exact ⟨bytes, [], cut, left.trans behind, broken⟩
  refine ⟨front, line, rest, seen, u, cut, opened, broken, left, fun before empty => ?_⟩
  rw [session_of_intrusion empty failed, left]

/-- A tab in the string that begins on the second line ends the episode. The third line is left. -/
theorem read_intrusion_tab :
    let bytes : List UInt8 := [0x22, 0x62, 0x09, 0x22]
    let text := [0x61, 0x2b, 0x0a] ++ bytes ++ [0x0a, 0x63, 0x0a]
    let i : Intrusion := ⟨0x09, .string, 5⟩
    let r := read {} [] {} (Input.ofBytes text none)
    (Scan.line {} bytes).intrusion = some { i with offset := 2 } ∧
      (∃ k, Scan.StopsAt {} bytes { i with offset := 2 } k) ∧
      r.failure = some (.intrusion i) ∧ r.entry.text.size = 6 ∧
      ∃ rest, r.input = Input.ofBytes rest none ∧
        session {} [] {} (Input.ofBytes text none) = r :: session {} [] r.sink (Input.ofBytes rest none) := by
  intro bytes text i r
  have stopped : (Scan.line {} bytes).intrusion = some { i with offset := 2 } := by decide +kernel
  have failed : r.failure = some (.intrusion i) := by decide +kernel
  obtain ⟨front, line, rest, seen, u, -, -, broken, left, goes⟩ :=
    (read_intrusion {} i).2 [] {} text none failed
  exact ⟨stopped, (read_intrusion {} _).1 {} bytes stopped, failed, broken.ended.2.symm, rest, left,
    goes {} rfl⟩

end Policy

end Linewise
