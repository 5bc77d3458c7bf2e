import Mathlib.Data.List.Induction
import Linewise.Proofs.Blanks
import Linewise.Proofs.Gap
import Linewise.Proofs.Respelling

/-! Where a comment can begin, a closed block comment does what a space does there, and a line
comment what the end of the line does (`Scan.comment_as_blank`). -/

namespace Linewise

namespace Context

variable {context : Context}

/-- Where a comment can begin. Of an undecided slash the first slash of a comment would make another one. -/
def AdmitsComment (context : Context) : Prop :=
  context = code ∨ (∃ s, context = sign s) ∨ context = hash

theorem AdmitsComment.effects (admits : context.AdmitsComment) (nested : Bool) :
    ∃ effect : Effect, effect.context = code ∧
      context.effect .control nested = .ok effect ∧
      context.effect .slash nested = .ok { effect with context := slash } ∧
      context.effect .hash nested = .ok { effect with context := hash } := by
  rcases admits with rfl | ⟨s, rfl⟩ | rfl <;> exact ⟨_, rfl, rfl, rfl, rfl⟩

end Context

namespace Scan

open Gap (Unclosed OpensLine stars stars_concat)

variable {s t : Scan} {byte : UInt8} {effect : Effect} {context next : Context}
  {bytes more body opener note : List UInt8}

/-! ## Bytes that change the context only -/

/-- No bracket is open where more is expected. -/
def Level (s : Scan) : Prop := s.expecting = true → s.depth = 0

theorem level_apply (s : Scan) (byte : UInt8) (effect : Effect) : (s.apply byte effect).Level :=
  fun expecting => (expecting_apply expecting).1

/-- The bytes are taken, and the context is all that they change. -/
def Skips (s : Scan) (bytes : List UInt8) (context : Context) : Prop :=
  ∃ seen t, Accepts s bytes seen t ∧ t.toStatus = { s.toStatus with context }

theorem skips_single (shebang : Bool) (level : s.Level) (keeps : context.keepsExpectation = true)
    (accepted : s.effect byte = .ok { context, shebang }) : s.Skips [byte] context := by
  refine ⟨_, _, .single accepted, ?_⟩
  have held : (s.expecting && s.depth == 0) = s.expecting := by
    cases expecting : s.expecting with
    | false => rfl
    | true => simp [level expecting]
  simp [apply, Status.after, Nesting.apply, Expectation.apply, keeps, held]

theorem Skips.append (first : s.Skips bytes context)
    (second : ∀ t : Scan, t.toStatus = { s.toStatus with context } → t.Skips more next) :
    s.Skips (bytes ++ more) next := by
  obtain ⟨seen, t, left, status⟩ := first
  obtain ⟨later, u, right, after⟩ := second t status
  exact ⟨_, u, left.append right, by rw [after, status]⟩

theorem level_of_status (level : s.Level) (status : t.toStatus = { s.toStatus with context }) :
    t.Level := by
  intro expecting
  rw [status] at expecting ⊢
  exact level expecting

/-! ## Inside a comment -/

/-- The context in a block comment behind some of its bytes: a slash closes the comment exactly after an
odd run of stars. -/
def blockAfter (body : List UInt8) : Context := if stars body % 2 = 1 then .blockStar else .block

theorem blockAfter_steady (body : List UInt8) :
    (blockAfter body).keepsExpectation = true ∧ blockAfter body ≠ .code ∧
      blockAfter body ≠ .lineComment := by
  unfold blockAfter
  split <;> decide

theorem skips_inside (level : s.Level) (inside : s.context = blockAfter body)
    (unclosed : Unclosed (body ++ more)) : s.Skips more (blockAfter (body ++ more)) := by
  -- from the right, since the context is that behind all bytes of the comment so far
  induction more using List.reverseRecOn with
  | nil => exact ⟨[], s, .nil, by rw [List.append_nil, ← inside]⟩
  | append_singleton more byte ih =>
    rw [← List.append_assoc] at unclosed ⊢
    refine (ih unclosed.of_append).append fun t status => ?_
    have here : t.context = blockAfter (body ++ more) := congrArg Status.context status
    refine skips_single false (level_of_status level status) (blockAfter_steady _).1 ?_
    rw [effect_eq_ok_iff, here, blockAfter, blockAfter, stars_concat]
    by_cases odd : stars (body ++ more) % 2 = 1
    · have apart : Role.ofByte byte ≠ .slash := by
        intro slash
        rw [Role.ofByte_eq_slash_iff.mp slash] at unclosed
        have := unclosed (body ++ more) List.prefix_rfl
        omega
      have even : ¬ (if byte = Byte.star then stars (body ++ more) + 1 else 0) % 2 = 1 := by
        split <;> omega
      simp only [if_pos odd, if_neg even, Context.effect, if_neg apart]
    · by_cases star : byte = Byte.star
      · have odd' : (stars (body ++ more) + 1) % 2 = 1 := by omega
        simp only [if_neg odd, if_pos star, if_pos odd', Context.effect,
          if_pos (Role.ofByte_eq_star_iff.mpr star)]
      · simp only [if_neg odd, if_neg star, Context.effect,
          if_neg (mt Role.ofByte_eq_star_iff.mp star)]
        rfl

theorem skips_close (level : s.Level) (inside : s.context = blockAfter body) (odd : stars body % 2 = 1) :
    s.Skips [Byte.slash] .code := by
  refine skips_single false level rfl ?_
  rw [effect_eq_ok_iff, inside, blockAfter, if_pos odd]
  rfl

theorem skips_block (level : s.Level) (slash : s.context = .slash) (unclosed : Unclosed body)
    (even : stars body % 2 = 0) :
    s.Skips (Byte.star :: (body ++ [Byte.star, Byte.slash])) .code := by
  have odd : stars (body ++ [Byte.star]) % 2 = 1 := by
    rw [stars_concat, if_pos rfl]
    omega
  have longer : Unclosed (body ++ [Byte.star]) := unclosed.concat _ fun _ => even
  have opened : s.Skips [Byte.star] .block := by
    refine skips_single false level rfl ?_
    rw [effect_eq_ok_iff, slash]
    rfl
  have spelled : Byte.star :: (body ++ [Byte.star, Byte.slash]) =
      [Byte.star] ++ ((body ++ [Byte.star]) ++ [Byte.slash]) := by simp
  rw [spelled]
  refine opened.append fun t status => ?_
  have level' := level_of_status level status
  have block : t.context = blockAfter [] := congrArg Status.context status
  refine (skips_inside level' block longer).append fun u status' => ?_
  exact skips_close (level_of_status level' status') (congrArg Status.context status') odd

theorem skips_line (shebang : Bool) (level : s.Level)
    (opens : s.effect byte = .ok { context := .lineComment, shebang }) (note : List UInt8) :
    s.Skips (byte :: note) .lineComment := by
  have opened : s.Skips [byte] .lineComment := skips_single shebang level rfl opens
  refine opened.append fun t status => ?_
  have comment : t.context = .lineComment := congrArg Status.context status
  obtain ⟨seen, taken, -⟩ := accepts_comment (level_of_status level status) comment note
  exact ⟨seen, _, taken, by rw [← comment]⟩

/-! ## A comment as a blank -/

theorem toStatus_relabel {undecided : Context}
    (keeps : undecided.keepsExpectation = effect.context.keepsExpectation) (byte blank : UInt8) :
    (s.apply byte { effect with context := undecided }).toStatus =
      { (s.apply blank effect).toStatus with context := undecided } := by
  simp [apply, Status.after, keeps]

/-- The bytes of a comment leave the status that a blank leaves, when those behind the first change the
context only. -/
theorem run_as_blank {undecided : Context} (admits : s.context.AdmitsComment)
    (opens : undecided = .slash ∧ byte = Byte.slash ∨ undecided = .hash ∧ byte = Byte.hash)
    (rest : ∀ t : Scan, t.Level → t.context = undecided → t.Skips more next) (blank : UInt8)
    (isBlank : Byte.isBlank blank = true) :
    (s.run (byte :: more)).intrusion = none ∧ (s.run [blank]).intrusion = none ∧
      (s.run [blank]).scan.context = .code ∧
      (s.run (byte :: more)).scan.toStatus = { (s.run [blank]).scan.toStatus with context := next } := by
  obtain ⟨effect, plain, control, slash, hash⟩ := admits.effects (0 < s.depth)
  have accepted : s.effect blank = .ok effect :=
    effect_blank (effect_eq_ok_iff.mpr control) isBlank
  have first : s.effect byte = .ok { effect with context := undecided } := by
    rw [effect_eq_ok_iff]
    rcases opens with ⟨rfl, rfl⟩ | ⟨rfl, rfl⟩
    · exact slash
    · exact hash
  have keeps : undecided.keepsExpectation = effect.context.keepsExpectation := by
    rw [plain]
    rcases opens with ⟨rfl, -⟩ | ⟨rfl, -⟩ <;> rfl
  obtain ⟨seen, t, taken, status⟩ :=
    rest (s.apply byte { effect with context := undecided }) (level_apply s byte _) rfl
  rw [run_eq (.cons first taken), run_eq (.single accepted)]
  exact ⟨rfl, rfl, plain, by rw [status, toStatus_relabel keeps byte blank]⟩

/-- Any scan that stands where a comment can begin takes a comment, whatever its bytes are. A closed block
comment leaves the status that a space leaves, and a line comment up to the end of its line leaves the
status that the end of the line leaves: the same context, depth and expectation, and the same code. -/
theorem comment_as_blank (s : Scan) (admits : s.context.AdmitsComment) :
    (∀ body, Unclosed body → stars body % 2 = 0 →
      let r := s.run ([Byte.slash, Byte.star] ++ body ++ [Byte.star, Byte.slash])
      r.intrusion = none ∧ r.scan.toStatus = (s.run [0x20]).scan.toStatus) ∧
    ∀ opener note, OpensLine opener →
      let r := s.run (opener ++ note ++ [Byte.newline])
      r.intrusion = none ∧
        r.scan.closeLine.toStatus = (s.run [Byte.newline]).scan.closeLine.toStatus := by
  constructor
  · intro body unclosed even r
    obtain ⟨taken, -, plain, status⟩ := run_as_blank admits (.inl ⟨rfl, rfl⟩)
      (fun t level slash => skips_block level slash unclosed even) 0x20 rfl
    have spelled : [Byte.slash, Byte.star] ++ body ++ [Byte.star, Byte.slash] =
        Byte.slash :: Byte.star :: (body ++ [Byte.star, Byte.slash]) := by simp
    rw [← spelled] at taken status
    refine ⟨taken, ?_⟩
    rw [show r.scan.toStatus = _ from status, ← plain]
  · intro opener note opens r
    obtain ⟨taken, -, plain, status⟩ : r.intrusion = none ∧
        (s.run [Byte.newline]).intrusion = none ∧ (s.run [Byte.newline]).scan.context = .code ∧
        r.scan.toStatus = { (s.run [Byte.newline]).scan.toStatus with context := .lineComment } := by
      rcases opens with rfl | rfl
      · refine run_as_blank admits (.inl ⟨rfl, rfl⟩) (fun t level slash => ?_) Byte.newline rfl
        exact skips_line false level (by rw [effect_eq_ok_iff, slash]; rfl) _
      · refine run_as_blank admits (.inr ⟨rfl, rfl⟩) (fun t level hash => ?_) Byte.newline rfl
        exact skips_line true level (by rw [effect_eq_ok_iff, hash]; rfl) _
    refine ⟨taken, ?_⟩
    simp only [closeLine, status, plain, Context.atLineEnd]

/-- Behind `x+`, a block comment with a bracket and a line end in it, and a shebang with a quote in it. The
sign still asks for more. -/
theorem comment_as_blank_sign :
    let s := (run {} [0x78, 0x2b]).scan
    let expects : Status := ⟨.code, 0, true, some ⟨0, 1⟩⟩
    s.context.AdmitsComment ∧
      (s.run [0x2f, 0x2a, 0x28, 0x0a, 0x2a, 0x2f]).scan.toStatus = expects ∧
      (s.run [0x23, 0x21, 0x22, 0x0a]).scan.closeLine.toStatus = expects := by
  intro s expects
  have admits : s.context.AdmitsComment := .inr (.inl ⟨.plus, by decide +kernel⟩)
  obtain ⟨block, line⟩ := comment_as_blank s admits
  have unclosed : Unclosed [0x28, 0x0a] :=
    (Gap.unclosed_nil.concat 0x28 nofun).concat 0x0a nofun
  obtain ⟨-, closed⟩ := block [0x28, 0x0a] unclosed rfl
  obtain ⟨-, ended⟩ := line [0x23, 0x21] [0x22] (.inr rfl)
  exact ⟨admits, closed.trans (by decide +kernel), ended.trans (by decide +kernel)⟩

end Scan

end Linewise
