import Linewise.Proofs.Asides
import Linewise.Proofs.Reachable

/-! A block comment closes at the first slash behind an odd run of stars, however its bytes are
divided into lines, and up to there nothing but the context changes (`Scan.moves_block`). -/

namespace Linewise.Scan

open Gap (Unclosed stars)

def Move.bytes : Move → List UInt8
  | .byte b => [b]
  | .line text => text
  | .closeLine | .judge _ _ | .openLine => []

variable {s t : Scan} {body more : List UInt8}

theorem Skips.run {context : Context} (skips : s.Skips more context) :
    (s.run more).intrusion = none ∧ (s.run more).scan.toStatus = { s.toStatus with context } := by
  obtain ⟨seen, t, accepted, status⟩ := skips
  rw [run_eq accepted]
  exact ⟨rfl, status⟩

theorem Skips.step {context : Context} {byte : UInt8} (skips : s.Skips [byte] context) :
    (s.step byte).toStatus = { s.toStatus with context } := by
  obtain ⟨seen, t, accepted, status⟩ := skips
  cases accepted with
  | cons one rest =>
    cases rest
    rw [Scan.step, one]
    exact status

/-! ## Moves inside a comment -/

theorem judgement_block (inside : s.context = blockAfter body) (settings : Settings)
    (vocabulary : Vocabulary) : s.judgement settings vocabulary = .unfinished := by
  have apart : s.context ≠ .code := inside ▸ (blockAfter_steady body).2.1
  rw [judgement_eq_unfinished_iff, isResolved]
  simp [apart]

/-- In a comment, a move changes nothing but the context, and this by its bytes only. -/
theorem status_move {m : Move} (level : s.Level) (inside : s.context = blockAfter body)
    (unclosed : Unclosed (body ++ m.bytes)) :
    (s.move m).toStatus = { s.toStatus with context := blockAfter (body ++ m.bytes) } := by
  have same : { s.toStatus with context := blockAfter (body ++ []) } = s.toStatus := by
    rw [List.append_nil, ← inside]
  have steady := blockAfter_steady body
  cases m with
  | byte byte => exact (skips_inside level inside unclosed).step
  | line bytes =>
    exact (skips_inside (s := { s with lineStart := s.text.size }) level inside unclosed).run.2
  | closeLine =>
    have apart : s.context ≠ .lineComment := inside ▸ steady.2.2
    exact (congrArg Scan.toStatus (closeLine_eq_self apart)).trans same.symm
  | judge settings vocabulary =>
    rw [move, judgement_block inside, conclude_of_ne (by decide)]
    exact same.symm
  | openLine =>
    have keeps : s.context.keepsExpectation = true := inside ▸ steady.1
    exact (congrArg Scan.toStatus (openLine_eq_self keeps)).trans same.symm

theorem status_moves {later : List Move} (level : s.Level) (inside : s.context = blockAfter body)
    (unclosed : Unclosed (body ++ later.flatMap Move.bytes)) :
    (s.moves later).toStatus =
      { s.toStatus with context := blockAfter (body ++ later.flatMap Move.bytes) } := by
  induction later generalizing s body with
  | nil => rw [List.flatMap_nil, List.append_nil, ← inside]; rfl
  | cons m later ih =>
    rw [List.flatMap_cons, ← List.append_assoc] at unclosed ⊢
    have moved := status_move level inside unclosed.of_append
    have rest := ih (level_of_status level moved) (congrArg Status.context moved) unclosed
    rw [show s.moves (m :: later) = (s.move m).moves later from rfl, rest, moved]

/-- Whatever was done before, and whatever is done in a block comment: as long as no slash in it comes behind
an odd run of stars, the comment stays open, no line is complete, and only the context has changed. A further
line is accepted up to the slash that closes the comment, and behind this slash all is as it was before but for
the context. -/
theorem moves_block (earlier later : List Move) :
    let s := moves {} earlier
    let t := s.moves later
    let body := later.flatMap Move.bytes
    s.context = .block → Unclosed body →
      (t.toStatus = { s.toStatus with context := blockAfter body } ∧
        ∀ settings vocabulary, t.judgement settings vocabulary = .unfinished) ∧
      ∀ part, Unclosed (body ++ part) →
        (t.line part).intrusion = none ∧
          (stars (body ++ part) % 2 = 1 →
            let r := t.line (part ++ [Byte.slash])
            r.intrusion = none ∧ r.scan.toStatus = { s.toStatus with context := .code }) := by
  intro s t body block unclosed
  have level : s.Level := fun expecting => ((sound_empty.moves earlier).expecting expecting).1
  have inside : s.context = blockAfter [] := block
  have status : t.toStatus = { s.toStatus with context := blockAfter body } :=
    status_moves level inside unclosed
  have here : t.context = blockAfter body := congrArg Status.context status
  refine ⟨⟨status, judgement_block here⟩, fun part longer => ?_⟩
  have skips : Skips { t with lineStart := t.text.size } part (blockAfter (body ++ part)) :=
    skips_inside (level_of_status level status) here longer
  refine ⟨skips.run.1, fun odd => ?_⟩
  obtain ⟨taken, closed⟩ := (skips.append fun u after =>
    skips_close (level_of_status (level_of_status level status) after) (congrArg Status.context after)
      odd).run
  exact ⟨taken, closed.trans (by rw [status])⟩

/-- A slash, two stars and the end of the line leave the comment open. With one more star the run is odd, and the
next slash closes the comment. -/
theorem moves_block_stars :
    let s := moves {} [.line [0x61, 0x28, 0x2f, 0x2a]]
    let later : List Move := [.line [0x2f, 0x2a, 0x2a], .closeLine, .openLine]
    let t := s.moves later
    s.context = .block ∧ Unclosed [0x2f, 0x2a, 0x2a, 0x2a] ∧ t.judgement {} .go = .unfinished ∧
      (t.line [0x2a, 0x2f]).scan.toStatus = ⟨.code, 1, false, some ⟨0, 1⟩⟩ := by
  intro s later t
  have block : s.context = .block := by decide +kernel
  have open_ : Unclosed [0x2f, 0x2a, 0x2a] :=
    ((Gap.unclosed_nil.concat 0x2f fun _ => rfl).concat 0x2a nofun).concat 0x2a nofun
  have longer : Unclosed [0x2f, 0x2a, 0x2a, 0x2a] := open_.concat 0x2a nofun
  obtain ⟨⟨-, unfinished⟩, ends⟩ := moves_block [.line [0x61, 0x28, 0x2f, 0x2a]] later block open_
  obtain ⟨-, closed⟩ := (ends [0x2a] longer).2 (by decide)
  exact ⟨block, longer, unfinished _ _, closed.trans (by decide +kernel)⟩

end Linewise.Scan
