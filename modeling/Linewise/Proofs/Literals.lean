import Mathlib.Data.List.Induction
import Linewise.Proofs.Expecting
import Linewise.Proofs.Gap
import Linewise.Proofs.Reachable

/-! A quoted literal ends at its first delimiter behind an even run of backslashes, and admits no
control byte. A literal between backticks ends at the first backtick and admits every byte
(`Scan.run_literal`). -/

namespace Linewise

def Byte.backslash : UInt8 := 0x5c

def Byte.backtick : UInt8 := 0x60

namespace Literal

variable {l : Literal} {body : List UInt8} {byte : UInt8}

def delimiter : Literal → UInt8
  | rune => 0x27
  | string => 0x22

/-- A byte closes the literal behind its body: a delimiter that is not escaped. -/
def Closes (l : Literal) (body : List UInt8) (byte : UInt8) : Prop :=
  byte = l.delimiter ∧ Byte.runAtEnd Byte.backslash body % 2 = 0

/-- What can stand in a literal: no byte of it is a control byte, and none closes the literal. -/
def Open (l : Literal) (body : List UInt8) : Prop :=
  ∀ front byte, front ++ [byte] <+: body → Byte.isControl byte = false ∧ ¬ l.Closes front byte

/-- The context in a literal behind some of its bytes: the next one is escaped exactly behind an odd run of
backslashes. -/
def contextAfter (l : Literal) (body : List UInt8) : Context :=
  if Byte.runAtEnd Byte.backslash body % 2 = 1 then .escape l else .quoted l

theorem open_nil (l : Literal) : l.Open [] := by
  intro front byte before
  simp at before

theorem open_concat_iff :
    l.Open (body ++ [byte]) ↔ l.Open body ∧ Byte.isControl byte = false ∧ ¬ l.Closes body byte := by
  constructor
  · intro whole
    exact ⟨fun front one before => whole front one (before.trans (List.prefix_append _ _)),
      whole body byte List.prefix_rfl⟩
  · rintro ⟨inside, last⟩ front one before
    rcases List.prefix_concat_iff.mp before with same | earlier
    · obtain ⟨rfl, rfl⟩ := List.append_singleton_inj.mp same
      exact last
    · exact inside front one earlier

end Literal

namespace Role

theorem ofByte_eq_quote_iff {b : UInt8} {l : Literal} : ofByte b = quote l ↔ b = l.delimiter :=
  ⟨fun h => eq_of_only_ofByte (by rw [h]; cases l <;> rfl), by rintro rfl; cases l <;> rfl⟩

theorem ofByte_eq_backslash_iff {b : UInt8} : ofByte b = backslash ↔ b = Byte.backslash :=
  ⟨fun h => eq_of_only_ofByte (by rw [h]; rfl), by rintro rfl; rfl⟩

theorem ofByte_eq_backtick_iff {b : UInt8} : ofByte b = backtick ↔ b = Byte.backtick :=
  ⟨fun h => eq_of_only_ofByte (by rw [h]; rfl), by rintro rfl; rfl⟩

end Role

namespace Scan

variable {s t : Scan} {l : Literal} {byte : UInt8} {body bytes : List UInt8} {context next : Context}

/-! ## Bytes that are copied -/

/-- Some bytes went into the text and led to a context. No bracket was opened or closed by them, and nothing
more is expected. -/
structure Copied (s : Scan) (bytes : List UInt8) (context : Context) (t : Scan) : Prop where
  context : t.context = context
  depth : t.depth = s.depth
  calm : t.expecting = false
  text : t.text.toList = s.text.toList ++ bytes

theorem Copied.size (copied : s.Copied bytes context t) : t.text.size = s.text.size + bytes.length := by
  have length := congrArg List.length copied.text
  rwa [List.length_append, Array.length_toList, Array.length_toList] at length

theorem Copied.apply {counts : Bool} (copied : s.Copied bytes context t) :
    s.Copied (bytes ++ [byte]) next (t.apply byte { context := next, counts }) where
  context := rfl
  depth := copied.depth
  calm := by simp [Scan.apply, Status.after, Expectation.apply, copied.calm]
  text := by simp [Scan.apply, copied.text]

/-- The bytes are accepted, and all of them are copied. -/
def Copies (s : Scan) (bytes : List UInt8) (context : Context) : Prop :=
  ∃ seen t, Accepts s bytes seen t ∧ s.Copied bytes context t

theorem copies_nil (calm : s.expecting = false) : s.Copies [] s.context :=
  ⟨[], s, .nil, rfl, rfl, calm, by simp⟩

theorem Copies.concat {counts : Bool} (copies : s.Copies bytes context)
    (entry : ∀ nested, context.effect (Role.ofByte byte) nested = .ok { context := next, counts }) :
    s.Copies (bytes ++ [byte]) next := by
  obtain ⟨seen, t, accepted, copied⟩ := copies
  have one : t.effect byte = .ok { context := next, counts } := by
    rw [effect_eq_ok_iff, copied.context]
    exact entry _
  exact ⟨_, _, accepted.append (.single one), copied.apply⟩

theorem Copies.run (copies : s.Copies bytes context) :
    (s.run bytes).intrusion = none ∧ s.Copied bytes context (s.run bytes).scan := by
  obtain ⟨seen, t, accepted, copied⟩ := copies
  rw [run_eq accepted]
  exact ⟨rfl, copied⟩

theorem Copies.run_close (copies : s.Copies bytes context)
    (entry : ∀ nested, context.effect (Role.ofByte byte) nested = .ok { context := next, counts := true }) :
    let r := s.run (bytes ++ [byte])
    r.intrusion = none ∧ s.Copied (bytes ++ [byte]) next r.scan ∧
      r.scan.codeLast = some (s.text.size + bytes.length) := by
  obtain ⟨seen, t, accepted, copied⟩ := copies
  have one : t.effect byte = .ok { context := next, counts := true } := by
    rw [effect_eq_ok_iff, copied.context]
    exact entry _
  rw [run_eq (accepted.append (.single one))]
  refine ⟨rfl, copied.apply, ?_⟩
  rw [codeLast_apply, if_pos rfl, copied.size]

theorem Copies.run_refused (copies : s.Copies bytes context)
    (entry : ∀ nested, context.effect (Role.ofByte byte) nested = .error l) (rest : List UInt8) :
    s.run (bytes ++ byte :: rest) =
      ⟨(s.run bytes).scan.record byte, (s.run bytes).seen,
        some ⟨byte, l, s.text.size + bytes.length⟩⟩ := by
  obtain ⟨seen, t, accepted, copied⟩ := copies
  have refused : t.effect byte = .error ⟨byte, l, s.text.size + bytes.length⟩ := by
    rw [effect_eq_error_iff, copied.context, ← copied.size]
    exact ⟨l, entry _, rfl⟩
  rw [run_of_refused accepted refused, run_eq accepted]

/-! ## Inside a literal -/

theorem effect_content (content : Byte.isControl byte = false) (inside : ¬ l.Closes body byte)
    (nested : Bool) :
    (l.contextAfter body).effect (Role.ofByte byte) nested =
      .ok { context := l.contextAfter (body ++ [byte]), counts := !(Role.ofByte byte).isBlank } := by
  have apart : Role.ofByte byte ≠ .control := by simp [Role.ofByte_eq_control_iff, content]
  simp only [Literal.contextAfter, Byte.runAtEnd_concat]
  by_cases odd : Byte.runAtEnd Byte.backslash body % 2 = 1
  · -- the byte is escaped, and ends the run of backslashes or makes it even
    have even : ¬ (if byte = Byte.backslash then Byte.runAtEnd Byte.backslash body + 1 else 0) % 2 = 1 := by
      split <;> omega
    rw [if_pos odd, if_neg even, Context.effect_escape apart]
  · have open_ : Role.ofByte byte ≠ .quote l := fun quote =>
      inside ⟨Role.ofByte_eq_quote_iff.mp quote, by omega⟩
    rw [if_neg odd, Context.effect_quoted apart open_]
    by_cases backslash : byte = Byte.backslash
    · rw [if_pos (Role.ofByte_eq_backslash_iff.mpr backslash), if_pos backslash, if_pos (by omega)]
    · rw [if_neg (mt Role.ofByte_eq_backslash_iff.mp backslash), if_neg backslash, if_neg (by omega)]

theorem copies_quoted (calm : s.expecting = false) (quoted : s.context = .quoted l) (inside : l.Open body) :
    s.Copies body (l.contextAfter body) := by
  induction body using List.reverseRecOn with
  | nil =>
    rw [show l.contextAfter [] = s.context from quoted.symm]
    exact copies_nil calm
  | append_singleton body byte ih =>
    obtain ⟨shorter, content, last⟩ := Literal.open_concat_iff.mp inside
    exact (ih shorter).concat (effect_content content last)

theorem copies_raw (calm : s.expecting = false) (raw : s.context = .raw) (inside : Byte.backtick ∉ body) :
    s.Copies body .raw := by
  induction body using List.reverseRecOn with
  | nil =>
    rw [← raw]
    exact copies_nil calm
  | append_singleton body byte ih =>
    rw [List.mem_append, List.mem_singleton, not_or] at inside
    have apart : Role.ofByte byte ≠ .backtick := mt Role.ofByte_eq_backtick_iff.mp (Ne.symm inside.2)
    have entry (nested : Bool) : Context.raw.effect (Role.ofByte byte) nested =
        .ok { context := .raw, counts := !(Role.ofByte byte).isBlank } := by
      rw [Context.effect_raw, if_neg apart]
    exact (ih inside.1).concat entry

theorem Sound.calm (sound : s.Sound) (lapsed : s.context.keepsExpectation = false) :
    s.expecting = false := by
  by_contra expecting
  have kept := (sound.expecting (by simpa using expecting)).2
  rw [lapsed] at kept
  cases kept

/-- Whatever was done before, a quoted literal takes all bytes up to its delimiter or to a control byte. It
is left right behind the delimiter, which is its last byte of code, and the control byte is refused. A literal
between backticks takes every byte, and is left right behind the next backtick. -/
theorem run_literal (earlier : List Move) :
    let s := moves {} earlier
    (∀ l body, s.context = .quoted l → l.Open body →
      ((s.run body).intrusion = none ∧ s.Copied body (l.contextAfter body) (s.run body).scan) ∧
        (∀ byte rest, Byte.isControl byte = true →
          s.run (body ++ byte :: rest) =
            ⟨(s.run body).scan.record byte, (s.run body).seen,
              some ⟨byte, l, s.text.size + body.length⟩⟩) ∧
        ∀ byte, l.Closes body byte →
          let r := s.run (body ++ [byte])
          r.intrusion = none ∧ s.Copied (body ++ [byte]) .code r.scan ∧
            r.scan.codeLast = some (s.text.size + body.length)) ∧
      ∀ body, s.context = .raw → Byte.backtick ∉ body →
        ((s.run body).intrusion = none ∧ s.Copied body .raw (s.run body).scan) ∧
          let r := s.run (body ++ [Byte.backtick])
          r.intrusion = none ∧ s.Copied (body ++ [Byte.backtick]) .code r.scan ∧
            r.scan.codeLast = some (s.text.size + body.length) := by
  intro s
  have sound : s.Sound := sound_empty.moves earlier
  constructor
  · intro l body quoted inside
    have copies := copies_quoted (sound.calm (by rw [quoted]; rfl)) quoted inside
    refine ⟨copies.run, fun byte rest control => ?_, ?_⟩
    · refine copies.run_refused (fun nested => ?_) rest
      rw [Context.effect_eq_error_iff, Role.ofByte_eq_control_iff, Literal.contextAfter]
      exact ⟨control, by split <;> simp⟩
    · rintro byte ⟨rfl, even⟩
      refine copies.run_close fun nested => ?_
      rw [Literal.contextAfter, if_neg (by omega), Role.ofByte_eq_quote_iff.mpr rfl, Context.effect_delimiter]
  · intro body raw inside
    have copies := copies_raw (sound.calm (by rw [raw]; rfl)) raw inside
    exact ⟨copies.run, copies.run_close fun nested => Context.effect_raw ..⟩

/-- In a string inside a bracket, an escaped delimiter and a bracket are content. The string goes on to the
next delimiter, or to the end of the line. -/
theorem run_literal_escaped :
    let s := moves {} [.line [0x28, 0x22]]
    let body := [0x5c, 0x22, 0x29]
    let r := s.run (body ++ [0x22])
    s.context = .quoted .string ∧ Literal.string.Open body ∧
      (r.scan.context = .code ∧ r.scan.depth = 1 ∧ r.scan.codeLast = some 5) ∧
      (s.run (body ++ [0x0a])).intrusion = some ⟨0x0a, .string, 5⟩ ∧
      ((moves {} [.byte 0x60]).run [0x0a, 0x60]).scan.context = .code := by
  intro s body r
  have quoted : s.context = .quoted .string := by decide +kernel
  have inside : Literal.string.Open body := by
    have escape : Literal.string.Open [0x5c] := Literal.open_concat_iff.mpr
      ⟨Literal.string.open_nil, by decide, fun closes => absurd closes.1 (by decide)⟩
    have escaped : Literal.string.Open [0x5c, 0x22] := Literal.open_concat_iff.mpr
      ⟨escape, by decide, fun closes => absurd closes.2 (by decide)⟩
    exact Literal.open_concat_iff.mpr
      ⟨escaped, by decide, fun closes => absurd closes.1 (by decide)⟩
  obtain ⟨-, refused, ends⟩ := (run_literal [.line [0x28, 0x22]]).1 .string body quoted inside
  obtain ⟨-, closed, last⟩ := ends 0x22 ⟨rfl, by decide⟩
  have raw := (run_literal [.byte 0x60]).2 [0x0a] (by decide +kernel) (by decide)
  have depth : s.depth = 1 := by decide +kernel
  exact ⟨quoted, inside, ⟨closed.context, closed.depth.trans depth, last⟩,
    congrArg Run.intrusion (refused 0x0a [] (by decide)), raw.2.2.1.context⟩

end Scan

end Linewise
