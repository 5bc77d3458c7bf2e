import Mathlib.Algebra.GroupWithZero.Nat
import Linewise.Console
import Linewise.Proofs.Conservation
import Linewise.Proofs.Reserved

/-! Whatever is typed, the console comes to an end, with exit code zero. Every episode
but the last is a unit, of which the code is echoed, or a broken literal, which is
reported (`Console.run_ends`). -/

namespace Linewise.Console

def written (r : Reading) : Array UInt8 := r.sink.taken ++ (reply r.entry r.failure).text

/-- The console reads and replies until a reply stops it with an exit code. -/
inductive Converses : Sink → Input → List Reading → Nat → Prop where
  | stop {sink : Sink} {input : Input} {r : Reading} {code : Nat}
      (reads : r = policy.read prompt sink.emptied input)
      (stops : (reply r.entry r.failure).exit = some code) : Converses sink input [r] code
  | next {sink : Sink} {input : Input} {r : Reading} {readings : List Reading} {code : Nat}
      (reads : r = policy.read prompt sink.emptied input)
      (goes : (reply r.entry r.failure).exit = none)
      (rest : Converses r.sink r.input readings code) : Converses sink input (r :: readings) code

/-- An episode behind which the console goes on. A unit has code, which is echoed from its first byte to the
last newline, below the length of the whole text. A broken literal is reported. -/
inductive Continues (r : Reading) : Prop where
  | unit {start : Nat} {code : Array UInt8} (complete : r.failure = none)
      (begins : r.entry.start = some start) (inside : start < r.entry.text.size)
      (found : r.entry.code = some code) (tokens : code = r.entry.text.extract start r.entry.text.size)
      (whole : r.entry.comments ++ code = r.entry.text) (ended : code.back? = some Byte.newline)
      (shown : (reply r.entry r.failure).text =
        bytes ("// unit, " ++ toString r.entry.text.size ++ " bytes\n") ++ code)
  | broken {i : Intrusion} (failure : r.failure = some (.intrusion i))
      (shown : (reply r.entry r.failure).text = bytes ("\n// error: " ++ i.message ++ "\n"))

/-- An episode that ends the console: it met the end of the input, outside of brackets or inside. -/
inductive Closes (r : Reading) : Prop where
  | outside (failure : r.failure = some .endOfInput) (shown : (reply r.entry r.failure).text = bytes "\n")
  | inside (failure : r.failure = some .openEnd)
      (shown : (reply r.entry r.failure).text = bytes "\n// error: unexpected end of input\n")

def Uses (before after : Input) : Prop :=
  ∃ portion, portion ≠ [] ∧ before.toBytes = portion ++ after.toBytes

variable {sink : Sink} {input : Input} {r : Reading} {readings : List Reading}

/-! ## One episode -/

theorem Continues.exit (continues : Continues r) : (reply r.entry r.failure).exit = none := by
  cases continues with
  | unit complete => rw [complete]; rfl
  | broken failure => rw [failure]; rfl

theorem Continues.isResumable (continues : Continues r) : r.isResumable = true := by
  cases continues with
  | unit complete => rw [Reading.isResumable, complete]; rfl
  | broken failure => rw [Reading.isResumable, failure]; rfl

theorem Closes.exit (closes : Closes r) : (reply r.entry r.failure).exit = some 0 := by
  cases closes with
  | outside failure => rw [failure]; rfl
  | inside failure => rw [failure]; rfl

theorem Closes.isResumable (closes : Closes r) : r.isResumable = false := by
  cases closes with
  | outside failure => rw [Reading.isResumable, failure]; rfl
  | inside failure => rw [Reading.isResumable, failure]; rfl

/-- A unit has code, since comments alone make none here, and the code reaches to the end of a line. -/
theorem continues_of_complete (complete : (policy.read prompt sink input).failure = none) :
    Continues (policy.read prompt sink input) := by
  generalize reads : policy.read prompt sink input = r at complete
  obtain ⟨front, back, ends, last, u, attempts, -⟩ := Policy.read_attempts policy prompt sink input
  rw [reads] at attempts
  obtain ⟨body, seen, t, accepted, judged, -, scan⟩ := attempts.last.complete_of_unfailed complete
  have between := attempts.traverses.betweenLines Scan.betweenLines_empty
  have sound := between.sound.startLine.accepts accepted
  have resolved := (Scan.judgement_eq_complete_iff.mp judged).1
  have occupied := (Scan.isResolved_iff.mp resolved).2.2.2.resolve_right (by decide)
  obtain ⟨extent, marked⟩ := Option.isSome_iff_exists.mp occupied
  have entry : r.entry = t.closeLine.entry := congrArg Scan.entry scan
  have begins : r.entry.start = some extent.first := by
    rw [entry, Scan.entry, Status.codeStart, marked, Option.map_some]
  have text : r.entry.text = t.text := by rw [entry]; rfl
  have inside : extent.first < r.entry.text.size := text ▸ (sound.marks extent marked).2.1.lt
  have found := Entry.code_of_start begins
  refine .unit complete begins inside found rfl
    (Entry.comments_append_code begins (Nat.le_of_lt inside) found) ?_ ?_
  · rw [← Array.getLast?_toList, Scan.getLast?_extract inside (Nat.le_refl _),
      ← Array.back?_eq_getElem?, text, Scan.back?_of_terminated accepted]
  · rw [complete]
    simp only [reply, echo, found]

theorem closes_of_atEnd {depth : Nat} (failure : r.failure = some (.atEnd depth)) : Closes r := by
  by_cases inside : 0 < depth
  · have failed : r.failure = some .openEnd := by simpa [Cause.atEnd, inside] using failure
    exact .inside failed (by rw [failed]; rfl)
  · have failed : r.failure = some .endOfInput := by simpa [Cause.atEnd, inside] using failure
    exact .outside failed (by rw [failed]; rfl)

theorem broken_of_intrusion {i : Intrusion} (failure : r.failure = some (.intrusion i)) : Continues r :=
  .broken failure (by rw [failure]; rfl)

theorem cases_of_last {bytes : List UInt8} {u : Scan} {back : List (List UInt8)} {last : List Scan}
    (ended : policy.Last (.rest bytes) sink u back last r) (unlimited : sink.IsUnlimited) :
    (r.failure = none ∨ Continues r ∨ Closes r) ∧ ∃ left, r.input.tail = .rest left := by
  cases ended with
  | complete _ _ failure _ input => exact ⟨.inl failure, bytes, by rw [input]⟩
  | refused _ _ _ failure _ input => exact ⟨.inr (.inl (broken_of_intrusion failure)), bytes, by rw [input]⟩
  | @exhausted next log =>
    refine ⟨.inr ?_, [], by rw [Policy.input_finish]; rfl⟩
    rcases Policy.finish_cases bytes u next log with ⟨seen, t, -, ended⟩ |
      ⟨front, byte, back, seen, t, intrusion, -, -, -, stopped⟩
    · rw [ended]
      exact .inr (closes_of_atEnd rfl)
    · rw [stopped]
      exact .inl (broken_of_intrusion rfl)
  | unasked limited _ _ _ => contradiction

theorem continues_or_closes (unlimited : sink.IsUnlimited) {bytes : List UInt8}
    (tail : input.tail = .rest bytes) :
    let r := policy.read prompt sink input
    (Continues r ∨ Closes r) ∧ ∃ left, r.input.tail = .rest left := by
  intro r
  obtain ⟨front, back, ends, last, u, attempts, -⟩ := Policy.read_attempts policy prompt sink input
  have ended := attempts.last
  rw [tail] at ended
  refine (cases_of_last ended unlimited).imp ?_ id
  rintro (complete | other)
  · exact .inl (continues_of_complete complete)
  · exact other

theorem uses_of_resumable (unlimited : sink.IsUnlimited)
    (resumable : (policy.read prompt sink input).isResumable = true) :
    Uses input (policy.read prompt sink input).input := by
  obtain ⟨taken, conserves⟩ := Policy.read_conserves policy prompt input unlimited
  refine ⟨taken.flatten, conserves.flatten_ne_nil resumable, ?_⟩
  rw [← Input.flatten_physicalLines, ← Input.flatten_physicalLines, conserves.lines, List.flatten_append]

/-! ## The whole conversation -/

/-- The console goes on behind all episodes but the last, and each of them uses up some input. -/
structure Ends (sink : Sink) (input : Input) (earlier : List Reading) (last : Reading) : Prop where
  session : policy.session prompt sink input = earlier ++ [last]
  converses : Converses sink input (earlier ++ [last]) 0
  uses : (input :: earlier.map Reading.input).IsChain Uses
  each : ∀ r ∈ earlier, Continues r
  last : Closes last

theorem Ends.stop (reads : r = policy.read prompt sink.emptied input) (closes : Closes r) :
    Ends sink input [] r where
  session := by
    rw [Policy.session_eq, ← reads, closes.isResumable]
    rfl
  converses := .stop reads closes.exit
  uses := .singleton _
  each := List.forall_mem_nil _
  last := closes

theorem Ends.next {last : Reading} (reads : r = policy.read prompt sink.emptied input)
    (continues : Continues r) (uses : Uses input r.input) (rest : Ends r.sink r.input readings last) :
    Ends sink input (r :: readings) last where
  session := by
    rw [Policy.session_eq, ← reads, continues.isResumable, if_pos rfl, rest.session]
    rfl
  converses := .next reads continues.exit rest.converses
  uses := .cons_cons uses rest.uses
  each := List.forall_mem_cons.mpr ⟨continues, rest.each⟩
  last := rest.last

/-- The console comes to an end, since every episode behind which it goes on takes a line. -/
theorem exists_ends (unlimited : sink.IsUnlimited) {bytes : List UInt8} (tail : input.tail = .rest bytes) :
    ∃ earlier last, Ends sink input earlier last := by
  generalize size : input.size = n
  induction n using Nat.strongRecOn generalizing sink input bytes with
  | ind n ih =>
    have still := Sink.isUnlimited_emptied unlimited
    obtain ⟨continues | closes, left, tail'⟩ := continues_or_closes still tail
    · have resumable := continues.isResumable
      obtain ⟨earlier, last, rest⟩ := ih _ (size ▸ Policy.size_input_read resumable)
        (Policy.isUnlimited_read policy prompt input still) tail' rfl
      exact ⟨_, last, .next rfl continues (uses_of_resumable still resumable) rest⟩
    · exact ⟨[], _, .stop rfl closes⟩

theorem Ends.size_eq {earlier : List Reading} {last : Reading} (ends : Ends sink input earlier last)
    (unlimited : sink.IsUnlimited) (whole : ∀ r ∈ earlier, r.failure = none) :
    (earlier.map fun r => r.entry.text.size).sum + last.entry.text.size =
      (Separator.replace input.toBytes).bytes.length := by
  obtain ⟨portions, portioned, taken⟩ := Policy.session_portioned policy prompt unlimited input
  have clean : ∀ r ∈ policy.session prompt sink input, ∀ i, r.failure ≠ some (.intrusion i) := by
    intro r member i failed
    rw [ends.session] at member
    rcases List.mem_append.mp member with unit | final
    · cases (whole r unit).symm.trans failed
    · obtain rfl := List.mem_singleton.mp final
      rcases ends.last with ⟨failure, -⟩ | ⟨failure, -⟩ <;> cases failure.symm.trans failed
  have length := (portioned.joined clean).length_eq
  rw [taken, ends.session] at length
  simpa [List.length_flatMap, Reading.entry, Scan.entry] using length

theorem text_foldl (readings : List Reading) (t : Transcript) :
    (readings.foldl Transcript.add t).text.toList =
      t.text.toList ++ readings.flatMap fun r => (written r).toList := by
  induction readings generalizing t with
  | nil => simp
  | cons r readings ih => simp [ih, Transcript.add, written]

theorem Ends.run {earlier : List Reading} {last : Reading} (ends : Ends {} input earlier last) :
    (run input).exit = 0 ∧
      (run input).text.toList = (earlier ++ [last]).flatMap fun r => (written r).toList := by
  have whole : Console.run input = (earlier ++ [last]).foldl Transcript.add {} := by
    rw [Console.run, ends.session]
  constructor
  · rw [whole, List.foldl_append]
    simp [Transcript.add, ends.last.exit]
  · rw [whole, text_foldl]
    rfl

/-- Whatever the input is, the console stops with exit code zero. It goes on behind every episode but the last,
which meets the end of the input. Each of the others uses up some input, and is a unit, whose code is echoed
from its first byte to the end of a line, with the length of the whole text above it, or a broken literal. If
no literal is broken, these lengths and that of the text in the end add up to the length of the input, once
its separators are newlines. -/
theorem run_ends (text : List UInt8) :
    ∃ earlier last, Converses {} (Input.ofBytes text none) (earlier ++ [last]) 0 ∧
      (run (Input.ofBytes text none)).exit = 0 ∧
      (run (Input.ofBytes text none)).text.toList =
        ((earlier ++ [last]).flatMap fun r => (written r).toList) ∧
      (Input.ofBytes text none :: earlier.map Reading.input).IsChain Uses ∧
      (∀ r ∈ earlier, Continues r) ∧ Closes last ∧
      ((∀ r ∈ earlier, r.failure = none) →
        (earlier.map fun r => r.entry.text.size).sum + last.entry.text.size =
          (Separator.replace text).bytes.length) := by
  have unlimited : Sink.IsUnlimited {} := ⟨rfl, rfl⟩
  obtain ⟨earlier, last, ends⟩ : ∃ earlier last, Ends {} (Input.ofBytes text none) earlier last :=
    exists_ends unlimited rfl
  refine ⟨earlier, last, ends.converses, ends.run.1, ends.run.2, ends.uses, ends.each, ends.last,
    fun clean => ?_⟩
  rw [ends.size_eq unlimited clean, Input.toBytes_ofBytes]

example : run (.ofBytes [0x78, 0x0a] none) =
    ⟨bytes "readmore> // unit, 2 bytes\nx\nreadmore> \n", 0⟩ := by
  decide +kernel

end Linewise.Console
