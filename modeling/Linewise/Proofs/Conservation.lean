import Mathlib.Data.List.Forall2
import Linewise.Proofs.Episode
import Linewise.Proofs.Separator
import Linewise.Proofs.Shebang

/-! An episode takes whole physical lines, and its text is what it took: separators became newlines,
and the shebangs met as code became slashes. Only a refused byte cuts the text short, inside the
last line taken. -/

namespace Linewise

open Shebang (Rewritten bangs)

theorem Cause.atEnd_ne_intrusion (depth : Nat) (i : Intrusion) : atEnd depth ≠ intrusion i := by
  unfold atEnd
  split <;> nofun

/-- The physical lines that can still be read, the last of them possibly without a newline. -/
def Input.physicalLines (input : Input) : List (List UInt8) :=
  input.lines.map terminated ++
    match input.tail with
    | .rest [] | .cut _ => []
    | .rest bytes => [bytes]

theorem Input.flatten_physicalLines (input : Input) :
    input.physicalLines.flatten = input.toBytes := by
  obtain ⟨lines, tail⟩ := input
  cases tail with
  | cut outage => simp [physicalLines, toBytes]
  | rest bytes => cases bytes <;> simp [physicalLines, toBytes]

theorem Input.physicalLines_cons (body : List UInt8) (bodies : List (List UInt8)) (tail : Tail) :
    physicalLines ⟨body :: bodies, tail⟩ = terminated body :: physicalLines ⟨bodies, tail⟩ := rfl

theorem Input.physicalLines_spent (tail : Tail) : (spent tail).physicalLines = [] := by
  cases tail <;> rfl

theorem Input.ne_nil_of_mem_physicalLines {input : Input} {line : List UInt8}
    (member : line ∈ input.physicalLines) : line ≠ [] := by
  rcases List.mem_append.mp member with whole | partly
  · obtain ⟨body, -, rfl⟩ := List.mem_map.mp whole
    simp [terminated]
  · split at partly
    · simp at partly
    · simp at partly
    · next bytes nonempty _ =>
      obtain rfl := List.mem_singleton.mp partly
      exact nonempty

def sightingsOf (log : Array Event) : List Sighting := log.toList.filterMap Event.sighting?

theorem sightingsOf_append (log : Array Event) (seen : List Sighting) (events : List Event)
    (silent : events.filterMap Event.sighting? = []) :
    sightingsOf (log ++ (seen.map Event.sighting ++ events)) = sightingsOf log ++ seen := by
  have plain : (seen.map Event.sighting).filterMap Event.sighting? = seen := by
    simp [List.filterMap_map, Function.comp_def, Event.sighting?]
  simp [sightingsOf, silent, plain]

namespace Reading

/-- What was scanned during an episode, in order. -/
def sightings (r : Reading) : List Sighting := sightingsOf r.log

def refused (r : Reading) : List UInt8 :=
  match r.failure with
  | some (.intrusion i) => [i.byte]
  | _ => []

/-- The text of an episode before any shebang was rewritten. -/
def source (r : Reading) : List UInt8 := r.sightings.map Sighting.byte ++ r.refused

/-- The episode accounts for the lines it took. Its text is their bytes with separators replaced and
shebangs rewritten, up to the byte that was refused in the last line, if any was. -/
structure Accounts (r : Reading) (taken : List (List UInt8)) : Prop where
  offsets : r.sightings.map Sighting.offset = List.range r.sightings.length
  text : Rewritten (bangs r.sightings) r.source r.scan.text.toList
  apart : (bangs r.sightings).Pairwise fun a b => a + 1 < b
  source : match r.failure with
    | some (.intrusion i) => ∃ whole last rest, taken = whole ++ [last] ∧
        (Separator.replace taken.flatten).bytes = r.source ++ rest ∧
        r.source.length = i.offset + 1 ∧ (Separator.replace whole.flatten).bytes.length ≤ i.offset
    | _ => r.source = (Separator.replace taken.flatten).bytes

variable {r : Reading} {taken : List (List UInt8)}

theorem accounts_of_told (told : r.scan.Tells r.sightings)
    (all : r.sightings.map Sighting.byte = (Separator.replace taken.flatten).bytes)
    (accepted : ∀ i, r.failure ≠ some (.intrusion i)) : r.Accounts taken := by
  have none : r.refused = [] := by
    unfold refused
    split
    · next i failed => exact absurd failed (accepted i)
    · rfl
  refine ⟨?_, ?_, told.apart, ?_⟩
  · have length := told.text.length_eq
    rw [Array.length_toList, List.length_map] at length
    rw [told.offsets, length]
  · simpa [source, none] using told.text
  · split
    · next i failed => exact absurd failed (accepted i)
    · simp [source, none, all]

theorem accounts_of_refused {t : Scan} {byte : UInt8} {intrusion : Intrusion}
    {done : List (List UInt8)} {last front back : List UInt8} (told : t.Tells r.sightings)
    (scan : r.scan = t.record byte) (failed : r.failure = some (.intrusion intrusion))
    (refused : t.effect byte = .error intrusion)
    (all : r.sightings.map Sighting.byte =
      (Separator.replace (done.map Input.terminated).flatten).bytes ++ front)
    (spelled : (Separator.replace last).bytes = front ++ byte :: back) :
    r.Accounts (done.map Input.terminated ++ [last]) := by
  obtain ⟨-, same, offset, -⟩ := Scan.intrusion_of_error refused
  have source : r.source = r.sightings.map Sighting.byte ++ [byte] := by
    simp [Reading.source, Reading.refused, failed, same]
  have length : r.sightings.length = t.text.size := by
    simpa using told.text.length_eq.symm
  refine ⟨?_, ?_, told.apart, ?_⟩
  · rw [told.offsets, length]
  · rw [source, scan]
    simpa [Scan.record] using told.text.push byte
  · rw [failed]
    refine ⟨_, last, back, rfl, ?_, ?_, ?_⟩
    · simp [Separator.replace_lines_append, spelled, source, all]
    · rw [source, offset, ← length]; simp
    · have count := congrArg List.length all
      simp only [List.length_map, List.length_append] at count
      omega

end Reading

namespace Policy

/-- What the scan and the log of an unfinished episode know of the lines it took. -/
structure Recorded (done : List (List UInt8)) (scan : Scan) (log : Array Event) : Prop where
  sound : scan.Sound
  told : scan.Tells (sightingsOf log)
  all : (sightingsOf log).map Sighting.byte =
    (Separator.replace (done.map Input.terminated).flatten).bytes

theorem recorded_empty : Recorded [] {} #[] := ⟨Scan.sound_empty, Scan.tells_empty, rfl⟩

section

variable {scan t : Scan} {done : List (List UInt8)} {log : Array Event} {seen : List Sighting}
  {r : Reading} {last : List UInt8}

theorem Recorded.accepts {bytes : List UInt8} (recorded : Recorded done scan log)
    (accepted : Scan.Accepts { scan with lineStart := scan.text.size } bytes seen t) :
    t.Sound ∧ t.Tells (sightingsOf log ++ seen) ∧
      (sightingsOf log ++ seen).map Sighting.byte =
        (Separator.replace (done.map Input.terminated).flatten).bytes ++ bytes := by
  have told : Scan.Tells { scan with lineStart := scan.text.size } (sightingsOf log) :=
    ⟨recorded.told.offsets, recorded.told.text⟩
  refine ⟨recorded.sound.startLine.accepts accepted, told.accepts recorded.sound.startLine accepted,
    ?_⟩
  rw [List.map_append, recorded.all, accepted.map_byte]

theorem Recorded.accounts_accepted (recorded : Recorded done scan log)
    (accepted : Scan.Accepts { scan with lineStart := scan.text.size }
      (Separator.replace last).bytes seen t)
    (text : r.scan.text = t.text) (log' : r.sightings = sightingsOf log ++ seen)
    (clean : ∀ i, r.failure ≠ some (.intrusion i)) {taken : List (List UInt8)}
    (flat : taken.flatten = last) : r.Accounts (done.map Input.terminated ++ taken) := by
  obtain ⟨-, told, all⟩ := recorded.accepts accepted
  refine Reading.accounts_of_told (log' ▸ ⟨?_, ?_⟩) ?_ clean
  · rw [text]; exact told.offsets
  · rw [text]; exact told.text
  · rw [log', all, List.flatten_append, flat, Separator.replace_lines_append]

theorem Recorded.accounts_refused {front back : List UInt8} {byte : UInt8} {intrusion : Intrusion}
    (recorded : Recorded done scan log)
    (accepted : Scan.Accepts { scan with lineStart := scan.text.size } front seen t)
    (refused : t.effect byte = .error intrusion)
    (spelled : (Separator.replace last).bytes = front ++ byte :: back)
    (text : r.scan = t.record byte) (log' : r.sightings = sightingsOf log ++ seen)
    (failed : r.failure = some (.intrusion intrusion)) :
    r.Accounts (done.map Input.terminated ++ [last]) := by
  obtain ⟨-, told, all⟩ := recorded.accepts accepted
  exact Reading.accounts_of_refused (log' ▸ told) text failed refused (log' ▸ all) spelled

theorem Recorded.next {body : List UInt8} (recorded : Recorded done scan log)
    (accepted : Scan.Accepts { scan with lineStart := scan.text.size }
      (Separator.replace (Input.terminated body)).bytes seen t) (p : Policy) :
    Recorded (done ++ [body]) (p.judge seen t.closeLine).scan.openLine
      (log ++ (p.judge seen t.closeLine).events) := by
  obtain ⟨sound, told, all⟩ := recorded.accepts accepted
  have logged : sightingsOf (log ++ (p.judge seen t.closeLine).events) = sightingsOf log ++ seen :=
    sightingsOf_append log seen [_] rfl
  refine ⟨(sound.closeLine.conclude _ _).openLine, ?_, ?_⟩
  · rw [logged]; exact ⟨told.offsets, told.text⟩
  · rw [logged, all, List.map_append, List.flatten_append]
    simp [Separator.replace_lines_append]

end

variable {p : Policy} {scan : Scan} {done bodies : List (List UInt8)} {tail : Input.Tail}
  {sink : Sink} {log : Array Event}

/-- What an episode does to its input, from the lines it took before its present one. -/
structure Conserves (done : List (List UInt8)) (input : Input) (r : Reading)
    (taken : List (List UInt8)) : Prop where
  lines : input.physicalLines = taken ++ r.input.physicalLines
  progress : r.isResumable = true → taken ≠ []
  exhausted : r.isResumable = false → r.input.physicalLines = []
  accounts : r.Accounts (done.map Input.terminated ++ taken)

theorem finish_conserves (recorded : Recorded done scan log) :
    ∃ taken, Conserves done ⟨[], tail⟩ (finish tail scan sink log) taken := by
  cases tail with
  | cut outage =>
    refine ⟨[], rfl, nofun, fun _ => rfl, ?_⟩
    rw [List.append_nil]
    exact Reading.accounts_of_told recorded.told recorded.all nofun
  | rest bytes =>
    have lines : Input.physicalLines ⟨[], .rest bytes⟩ =
        (if bytes = [] then [] else [bytes]) ++ (Input.spent (.rest bytes)).physicalLines := by
      cases bytes <;> simp [Input.physicalLines, Input.spent]
    rcases finish_cases bytes scan sink log with ⟨seen, t, accepted, ended⟩ |
      ⟨front, byte, back, seen, t, intrusion, spelled, accepted, refused, stopped⟩
    · rw [ended]
      refine ⟨_, lines, ?_, fun _ => Input.physicalLines_spent _, ?_⟩
      · simp [Reading.isResumable, Cause.isRecoverable_atEnd]
      · refine recorded.accounts_accepted accepted rfl ?_ ?_ ?_
        · simpa [Reading.sightings] using sightingsOf_append log seen [] rfl
        · exact fun i failed => Cause.atEnd_ne_intrusion _ i (Option.some.inj failed)
        · split <;> simp_all
    · have occupied : bytes ≠ [] := by
        rintro rfl
        simp at spelled
      rw [if_neg occupied] at lines
      rw [stopped]
      refine ⟨[bytes], lines, by simp, fun _ => Input.physicalLines_spent _, ?_⟩
      refine recorded.accounts_refused accepted refused spelled rfl ?_ rfl
      simpa [Reading.sightings] using sightingsOf_append log seen [] rfl

theorem follow_conserves (unlimited : sink.IsUnlimited) (recorded : Recorded done scan log) :
    ∃ taken, Conserves done ⟨bodies, tail⟩ (p.follow tail bodies scan sink log) taken := by
  induction bodies generalizing scan sink log done with
  | nil => exact finish_conserves recorded
  | cons body bodies ih =>
    rcases line_cases p scan body with ⟨seen, t, accepted, judged⟩ |
      ⟨front, byte, back, seen, t, intrusion, spelled, accepted, refused, stopped⟩
    · have outcome : (p.line scan body).outcome =
          .ok (t.closeLine.judgement p.settings p.vocabulary) := by rw [judged]; rfl
      by_cases complete : t.closeLine.judgement p.settings p.vocabulary = .complete
      · rw [follow_complete (complete ▸ outcome), judged]
        refine ⟨[Input.terminated body], rfl, by simp, nofun, ?_⟩
        refine recorded.accounts_accepted accepted rfl ?_ (by simp) (by simp)
        exact sightingsOf_append log seen [_] rfl
      · obtain ⟨next, still, goes⟩ := follow_unfinished outcome complete unlimited
        rw [goes, judged]
        obtain ⟨taken, lines, progress, exhausted, accounts⟩ :=
          ih still (recorded.next accepted p)
        refine ⟨Input.terminated body :: taken, ?_, by simp, exhausted, ?_⟩
        · rw [Input.physicalLines_cons, lines]; rfl
        · simpa using accounts
    · have outcome : (p.line scan body).outcome = .error intrusion := by rw [stopped]
      rw [follow_refused outcome, stopped]
      refine ⟨[Input.terminated body], rfl, by simp, nofun, ?_⟩
      refine recorded.accounts_refused accepted refused spelled rfl ?_ rfl
      simpa [Reading.sightings] using sightingsOf_append log seen [] rfl

theorem read_conserves (p : Policy) (prompt : List UInt8) (input : Input)
    (unlimited : sink.IsUnlimited) :
    ∃ taken, Conserves [] input (p.read prompt sink input) taken := by
  obtain ⟨next, still, follows⟩ := read_eq_follow p prompt input unlimited
  rw [follows]
  exact follow_conserves still recorded_empty

end Policy

/-! ## Successive calls -/

/-- The input that some readings leave. -/
def Input.after (input : Input) : List Reading → Input
  | [] => input
  | r :: readings => r.input.after readings

theorem Input.replace_append_of_physicalLines {front more back : List (List UInt8)} {input : Input}
    (cut : input.physicalLines = front ++ (more ++ back)) :
    (Separator.replace (front.flatten ++ more.flatten)).bytes =
      (Separator.replace front.flatten).bytes ++ (Separator.replace more.flatten).bytes := by
  obtain ⟨lines, tail⟩ := input
  induction lines generalizing front with
  | nil =>
    have short : (physicalLines ⟨[], tail⟩).length ≤ 1 := by
      simp only [physicalLines]
      split <;> simp
    rcases front with _ | ⟨line, front⟩
    · rfl
    · simp only [cut, List.cons_append, List.length_cons, List.length_append] at short
      obtain rfl : more = [] := List.eq_nil_of_length_eq_zero (by omega)
      simp
  | cons body lines ih =>
    rcases front with _ | ⟨line, front⟩
    · rfl
    · rw [physicalLines_cons] at cut
      obtain ⟨rfl, rest⟩ := List.cons.inj cut
      simp [Separator.replace_terminated_append, ih rest]

namespace Shebang

/-- The shebangs of the readings, by their offsets in the joined text. -/
def joined : List Reading → List Nat
  | [] => []
  | r :: readings => bangs r.sightings ++ (joined readings).map (· + r.source.length)

end Shebang

namespace Policy

variable {p : Policy} {prompt : List UInt8} {sink : Sink} {input : Input}

theorem Conserves.flatten_ne_nil {done taken : List (List UInt8)} {r : Reading}
    (conserves : Conserves done input r taken) (resumable : r.isResumable = true) : taken.flatten ≠ [] := by
  intro empty
  obtain ⟨line, member⟩ := List.exists_mem_of_ne_nil taken (conserves.progress resumable)
  have listed : line ∈ input.physicalLines := conserves.lines ▸ List.mem_append_left _ member
  exact Input.ne_nil_of_mem_physicalLines listed (List.flatten_eq_nil_iff.mp empty line member)

/-- The portions of lines that the calls on an input take, one after the other. -/
structure Portioned (input : Input) (readings : List Reading) (portions : List (List (List UInt8))) :
    Prop where
  each : List.Forall₂
    (fun taken r => (r.isResumable = true → taken.flatten ≠ []) ∧ r.Accounts taken) portions readings
  lines : input.physicalLines = portions.flatten ++ (input.after readings).physicalLines
  joined : (∀ r ∈ readings, ∀ i, r.failure ≠ some (.intrusion i)) →
    Rewritten (Shebang.joined readings) (Separator.replace portions.flatten.flatten).bytes
      (readings.flatMap fun r => r.scan.text.toList)

theorem source_eq_of_accounts {r : Reading} {taken : List (List UInt8)} (accounts : r.Accounts taken)
    (clean : ∀ i, r.failure ≠ some (.intrusion i)) :
    r.source = (Separator.replace taken.flatten).bytes := by
  have source := accounts.source
  split at source
  · next i failed => exact absurd failed (clean i)
  · exact source

theorem Portioned.cons {r : Reading} {readings : List Reading} {taken : List (List UInt8)}
    {portions : List (List (List UInt8))} (first : Conserves [] input r taken)
    (rest : Portioned r.input readings portions) :
    Portioned input (r :: readings) (taken :: portions) where
  each := .cons ⟨first.flatten_ne_nil, first.accounts⟩ rest.each
  lines := by rw [first.lines, rest.lines]; simp [Input.after]
  joined := by
    intro clean
    have cut := first.lines.trans (congrArg (taken ++ ·) rest.lines)
    have accounts : r.Accounts taken := first.accounts
    have source := source_eq_of_accounts accounts (clean r List.mem_cons_self)
    have text := accounts.text.append
      (rest.joined fun r' member => clean r' (List.mem_cons_of_mem _ member))
    rw [source, ← Input.replace_append_of_physicalLines cut] at text
    simpa [Shebang.joined, source] using text

theorem readings_portioned (p : Policy) (prompt : List UInt8) (unlimited : sink.IsUnlimited)
    (input : Input) (calls : Nat) :
    ∃ portions, Portioned input (p.readings prompt calls sink input) portions := by
  induction calls generalizing sink input with
  | zero => exact ⟨[], .nil, rfl, fun _ => Shebang.rewritten_self []⟩
  | succ calls ih =>
    have still := Sink.isUnlimited_emptied unlimited
    obtain ⟨taken, first⟩ := read_conserves p prompt input still
    obtain ⟨portions, rest⟩ := ih (isUnlimited_read p prompt input still) _
    exact ⟨taken :: portions, .cons first rest⟩

theorem session_eq_readings (p : Policy) (prompt : List UInt8) (sink : Sink) (input : Input) :
    ∃ calls, p.session prompt sink input = p.readings prompt calls sink input := by
  generalize size : input.size = n
  induction n using Nat.strongRecOn generalizing sink input with
  | ind n ih =>
    rw [session_eq]
    by_cases more : (p.read prompt sink.emptied input).isResumable = true
    · obtain ⟨calls, rest⟩ := ih _ (size ▸ size_input_read more) _ _ rfl
      exact ⟨calls + 1, by rw [if_pos more, rest]; rfl⟩
    · exact ⟨1, by rw [if_neg more]; rfl⟩

theorem physicalLines_after_session (unlimited : sink.IsUnlimited) :
    (input.after (p.session prompt sink input)).physicalLines = [] := by
  generalize size : input.size = n
  induction n using Nat.strongRecOn generalizing sink input with
  | ind n ih =>
    have still := Sink.isUnlimited_emptied unlimited
    rw [session_eq]
    by_cases more : (p.read prompt sink.emptied input).isResumable = true
    · rw [if_pos more]
      exact ih _ (size ▸ size_input_read more) (isUnlimited_read p prompt input still) rfl
    · rw [if_neg more]
      obtain ⟨taken, -, -, exhausted, -⟩ := read_conserves p prompt input still
      exact exhausted (by simpa using more)

theorem session_portioned (p : Policy) (prompt : List UInt8) (unlimited : sink.IsUnlimited) (input : Input) :
    ∃ portions, Portioned input (p.session prompt sink input) portions ∧
      portions.flatten.flatten = input.toBytes := by
  obtain ⟨calls, session⟩ := session_eq_readings p prompt sink input
  obtain ⟨portions, portioned⟩ := readings_portioned p prompt unlimited input calls
  rw [← session] at portioned
  have whole := portioned.lines
  rw [physicalLines_after_session unlimited, List.append_nil] at whole
  exact ⟨portions, portioned, by rw [← whole, Input.flatten_physicalLines]⟩

/-- However often an input is read, each call takes whole lines from it, an entry or a refused line at
least one, and accounts for them; the portions and what is left make up the input. A session without
a refused line gives back the whole input, with separators replaced and shebangs rewritten. -/
theorem session_conserves_input (p : Policy) (prompt : List UInt8) {sink : Sink}
    (unlimited : sink.IsUnlimited) (text : List UInt8) (outage : Option Outage) (calls : Nat) :
    (∃ portions, List.Forall₂
        (fun taken r => (r.isResumable = true → taken.flatten ≠ []) ∧ r.Accounts taken) portions
        (p.readings prompt calls sink (Input.ofBytes text outage)) ∧
      (Input.ofBytes text outage).physicalLines = portions.flatten ++
        ((Input.ofBytes text outage).after
          (p.readings prompt calls sink (Input.ofBytes text outage))).physicalLines) ∧
    ((∀ r ∈ p.session prompt sink (Input.ofBytes text outage), ∀ i, r.failure ≠ some (.intrusion i)) →
      Rewritten (Shebang.joined (p.session prompt sink (Input.ofBytes text outage)))
        (Separator.replace (Input.ofBytes text outage).toBytes).bytes
        ((p.session prompt sink (Input.ofBytes text outage)).flatMap fun r => r.scan.text.toList)) := by
  obtain ⟨portions, portioned⟩ := readings_portioned p prompt unlimited (Input.ofBytes text outage) calls
  refine ⟨⟨portions, portioned.each, portioned.lines⟩, fun clean => ?_⟩
  obtain ⟨all, session⟩ := session_eq_readings p prompt sink (Input.ofBytes text outage)
  obtain ⟨portions, portioned⟩ := readings_portioned p prompt unlimited (Input.ofBytes text outage) all
  rw [← session] at portioned
  have whole := portioned.lines
  rw [physicalLines_after_session unlimited, List.append_nil] at whole
  rw [← Input.flatten_physicalLines, whole]
  exact portioned.joined clean

/-- Two lines, a shebang and a name before a separator, are the portions of two calls. -/
theorem session_conserves_shebang_line :
    ({} : Sink).IsUnlimited ∧
    ∃ portions, List.Forall₂
        (fun taken r => (r.isResumable = true → taken.flatten ≠ []) ∧ r.Accounts taken) portions
        (readings {} [] 2 {} (Input.ofBytes [0x23, 0x21, 0x0a, 0x66, 0xe2, 0x80, 0xa9, 0x0a] none)) ∧
      portions.flatten = [[0x23, 0x21, 0x0a], [0x66, 0xe2, 0x80, 0xa9, 0x0a]] := by
  refine ⟨⟨rfl, rfl⟩, ?_⟩
  obtain ⟨⟨portions, each, lines⟩, -⟩ := @session_conserves_input {} [] {} ⟨rfl, rfl⟩
    [0x23, 0x21, 0x0a, 0x66, 0xe2, 0x80, 0xa9, 0x0a] none 2
  have left : ((Input.ofBytes [0x23, 0x21, 0x0a, 0x66, 0xe2, 0x80, 0xa9, 0x0a] none).after
      (readings {} [] 2 {}
        (Input.ofBytes [0x23, 0x21, 0x0a, 0x66, 0xe2, 0x80, 0xa9, 0x0a] none))).physicalLines = [] := by
    decide +kernel
  rw [left, List.append_nil] at lines
  exact ⟨portions, each, lines.symm.trans (by decide)⟩

end Policy

end Linewise
