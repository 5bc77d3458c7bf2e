import Mathlib.Data.List.TakeWhile
import Linewise.Proofs.Completion
import Linewise.Proofs.Pending

/-! A line with a reserved word at its end calls for another line. So a unit ends in a reserved word
only where, behind the word, every line but the last ended in a block comment
(`Policy.read_reserved`). -/

namespace Linewise

/-- The lines of an episode from the one on in which an offset lies. -/
def Reading.linesFrom (r : Reading) (offset : Nat) : List Report :=
  r.reports.dropWhile fun a => a.size ≤ offset

theorem lt_size_of_mem_dropWhile {reports : List Report} {offset : Nat} {a : Report}
    (ordered : reports.Pairwise fun a b => a.size ≤ b.size)
    (member : a ∈ reports.dropWhile fun a => a.size ≤ offset) : offset < a.size := by
  induction reports with
  | nil => simp at member
  | cons first reports ih =>
    obtain ⟨least, ordered⟩ := List.pairwise_cons.mp ordered
    by_cases before : first.size ≤ offset
    · rw [List.dropWhile_cons_of_pos (by simpa using before)] at member
      exact ih ordered member
    · rw [List.dropWhile_cons_of_neg (by simpa using before)] at member
      rcases List.mem_cons.mp member with rfl | later
      · omega
      · have := least a later
        omega

namespace Scan

variable {u t : Scan} {bytes : List UInt8} {seen : List Sighting} {extent : Extent}

/-- Code that ends on the line ends in the same word as the code of the line: a newline stands before the
line. -/
theorem lastWord_of_line (between : u.BetweenLines)
    (accepted : Accepts { u with lineStart := u.text.size } bytes seen t)
    (marked : t.extent = some extent) (here : u.text.size ≤ extent.last) :
    lastWord (t.text.extract extent.first (extent.last + 1)).toList = lastWord t.lineCode := by
  obtain ⟨ordered, -, filled⟩ := (between.sound.startLine.accepts accepted).marks extent marked
  have start : t.lineStart = u.text.size := accepted.lineStart_eq
  simp only [lineCode, marked, start]
  refine lastWord_cut (Nat.le_max_left ..) (Nat.max_le.mpr ⟨ordered, here⟩) (fun lt byte found => ?_)
    filled
  have cut : max extent.first u.text.size = u.text.size := by omega
  have ended : u.text[u.text.size - 1]? = some Byte.newline := by
    rw [← Array.back?_eq_getElem?]
    exact between.newline (by omega)
  have kept : t.text[u.text.size - 1]? = some Byte.newline := by
    have extended := Policy.extends_line between.sound between.settled accepted
    exact (getElem?_of_begins extended.text (by omega)).trans ended
  rw [cut, kept] at found
  cases found
  rfl

end Scan

namespace Policy

variable {p : Policy} {s t u : Scan} {body : List UInt8} {bodies front back : List (List UInt8)}
  {ends last : List Scan} {tail : Input.Tail} {sink : Sink} {seen : List Sighting} {extent : Extent}
  {r : Reading}

theorem Last.complete_of_unfailed (ended : p.Last tail sink u back last r) (failure : r.failure = none) :
    ∃ body seen t, Scan.Accepts { u with lineStart := u.text.size }
        (Separator.replace (Input.terminated body)).bytes seen t ∧
      t.closeLine.judgement p.settings p.vocabulary = .complete ∧ last = [t.closeLine] ∧
      r.scan = t.closeLine := by
  cases ended with
  | complete accepted complete _ scan _ => exact ⟨_, _, _, accepted, complete, rfl, scan⟩
  | refused _ _ _ failed _ _ => cases failure.symm.trans failed
  | exhausted => exact absurd failure (failure_finish _ _ _ _)
  | unasked _ failed _ _ => cases failure.symm.trans failed

/-- A line that leaves the unit open ends in a block comment, if no code comes between it and a line that
completes the unit. -/
theorem block_of_rests {closed final : Scan} (sound : (p.report closed).Sound)
    (unmet : closed.judgement p.settings p.vocabulary ≠ .complete)
    (complete : final.judgement p.settings p.vocabulary = .complete)
    (rests : (p.report closed).status.Rests final.toStatus) :
    (p.report closed).status.context = .block := by
  have resolved := (Scan.judgement_eq_complete_iff.mp complete).1
  have plain : final.context = .code := (Scan.isResolved_iff.mp resolved).2.2.1
  rcases sound.crosses with code | raw | block
  · have pending : (p.report closed).Pending := by
      cases judged : closed.judgement p.settings p.vocabulary with
      | complete => contradiction
      | unfinished => exact .inr ⟨judged, code⟩
      | dangling => exact .inl judged
    exact absurd (rests.holds (holds_of_pending pending)) (Scan.not_holds_of_resolved resolved)
  · rw [← rests.raw, plain] at raw
    cases raw
  · exact block

theorem early_of_reserved {word : List UInt8} (between : u.BetweenLines)
    (accepted : Scan.Accepts { u with lineStart := u.text.size }
      (Separator.replace (Input.terminated body)).bytes seen t)
    (complete : t.closeLine.judgement p.settings p.vocabulary = .complete)
    (marked : t.extent = some extent)
    (spelled : lastWord (t.text.extract extent.first (extent.last + 1)).toList = some word)
    (reserved : p.vocabulary.classify (spelling word) = .reserved) : extent.last < u.text.size := by
  by_contra here
  rw [Scan.lastWord_of_line between accepted marked (Nat.le_of_not_lt here)] at spelled
  have promised : p.vocabulary.promisesMore t.lineCode = true := by
    simp [Vocabulary.promisesMore, spelled, reserved, WordClass.promisesMore]
  have unpromised := (Scan.judgement_eq_complete_iff.mp complete).2
  exact absurd promised (Bool.eq_false_iff.mp unpromised)

theorem Attempts.block {closed final : Scan}
    (attempts : p.Attempts tail sink {} bodies front back ends [final] u r) (scan : r.scan = final)
    (complete : final.judgement p.settings p.vocabulary = .complete)
    (marked : final.extent = some extent) (member : closed ∈ ends)
    (behind : extent.last < (p.report closed).size) : (p.report closed).status.context = .block := by
  have succeed := attempts.succeed Scan.betweenLines_empty
  have listed : p.report closed ∈ (ends ++ [final]).map p.report :=
    List.mem_map_of_mem (List.mem_append_left _ member)
  have since := succeed.last _ listed
  rw [scan] at since
  refine block_of_rests (succeed.sound _ listed) (attempts.more closed member) complete
    (since.resolve_left ?_)
  rintro ⟨last, found, late⟩
  obtain rfl : extent.last = last := by simpa [Status.codeLast, marked] using found
  omega

/-- The last word of a unit is not reserved, unless all lines from that word on but the last ended in a block
comment. There are at least two of these lines: the word is not on the last one. -/
theorem read_reserved (p : Policy) (prompt : List UInt8) (sink : Sink) (input : Input)
    {extent : Extent} {word : List UInt8}
    (complete : (p.read prompt sink input).failure = none)
    (marked : (p.read prompt sink input).scan.extent = some extent)
    (spelled : lastWord ((p.read prompt sink input).scan.text.extract extent.first
      (extent.last + 1)).toList = some word)
    (reserved : p.vocabulary.classify (spelling word) = .reserved) :
    let lines := (p.read prompt sink input).linesFrom extent.last
    2 ≤ lines.length ∧ ∀ a ∈ lines.dropLast, a.status.context = .block := by
  intro lines
  obtain ⟨front, back, ends, last, u, attempts, reports⟩ := read_attempts p prompt sink input
  obtain ⟨body, seen, t, accepted, judged, rfl, scan⟩ := attempts.last.complete_of_unfailed complete
  rw [scan] at marked spelled
  have between := attempts.traverses.betweenLines Scan.betweenLines_empty
  have early : extent.last < u.text.size :=
    early_of_reserved between accepted judged marked spelled reserved
  have sizes := (attempts.succeed Scan.betweenLines_empty).pairs.imp And.left
  rw [List.map_append, List.pairwise_append] at sizes
  -- the word is behind an earlier line, so some line before the last is among those from it on
  have occupied : (ends.map p.report).dropWhile (fun a => a.size ≤ extent.last) ≠ [] := by
    obtain ⟨closed, here, behind⟩ :=
      (attempts.traverses.exists_behind early).resolve_left (Nat.not_lt_zero _)
    intro none
    have before : closed.text.size ≤ extent.last :=
      of_decide_eq_true (List.dropWhile_eq_nil_iff.mp none _ (List.mem_map_of_mem here))
    omega
  have cut : lines =
      (ends.map p.report).dropWhile (fun a => a.size ≤ extent.last) ++ [p.report t.closeLine] := by
    simp only [lines, Reading.linesFrom, reports, List.map_append, List.dropWhile_append]
    rw [if_neg (by simpa using occupied)]
    rfl
  rw [cut, List.dropLast_concat, List.length_append, List.length_singleton]
  refine ⟨Nat.succ_le_succ (List.length_pos_iff.mpr occupied), fun a member => ?_⟩
  have behind := lt_size_of_mem_dropWhile sizes.1 member
  obtain ⟨closed, here, rfl⟩ := List.mem_map.mp ((List.dropWhile_sublist _).mem member)
  exact attempts.block scan judged marked here behind

theorem read_reserved_comment :
    let r := read {} [] {} (Input.ofBytes [0x69, 0x66, 0x2f, 0x2a, 0x0a, 0x2a, 0x2f, 0x0a] none)
    r.failure = none ∧ r.scan.extent = some ⟨0, 1⟩ ∧
      lastWord (r.scan.text.extract 0 2).toList = some [0x69, 0x66] ∧
      Vocabulary.go.classify (spelling [0x69, 0x66]) = .reserved ∧
      2 ≤ (r.linesFrom 1).length ∧ ∀ a ∈ (r.linesFrom 1).dropLast, a.status.context = .block := by
  intro r
  have complete : r.failure = none := by decide +kernel
  have marked : r.scan.extent = some ⟨0, 1⟩ := by decide +kernel
  have spelled : lastWord (r.scan.text.extract 0 2).toList = some [0x69, 0x66] := by decide +kernel
  have reserved : Vocabulary.go.classify (spelling [0x69, 0x66]) = .reserved := by decide +kernel
  exact ⟨complete, marked, spelled, reserved,
    read_reserved {} [] {} _ complete marked spelled reserved⟩

end Policy

end Linewise
