import Linewise.Proofs.Operators
import Linewise.Proofs.Reserved

/-! Outside of brackets and in plain code, only an expectation holds a unit with code in it open. It
goes back to an operator, a reserved word, or a closing bracket or hash sign behind an older one
(`Policy.read_awaits_iff`). -/

namespace Linewise

def Byte.closers : List UInt8 := [0x29, 0x5d, 0x7d]

theorem Byte.foreign_of_closer {b : UInt8} (closer : b ∈ closers) :
    b ∉ operators ∧ isLower b = false := by
  simp only [closers, List.mem_cons, List.not_mem_nil, or_false] at closer
  rcases closer with rfl | rfl | rfl <;> decide

theorem Role.mem_closers_of_closer {b : UInt8} (closer : ofByte b = .closer) : b ∈ Byte.closers := by
  rw [ofByte_eq_ofMark (by rw [closer]; rfl)] at closer
  unfold ofMark at closer
  split at closer <;> first | decide | cases closer

/-- A byte of code behind which more may be expected: an operator asks for it, and a closing bracket or a hash
sign leaves what was expected before. -/
def Byte.Lingers (b : UInt8) : Prop := b ∈ operators ∨ b ∈ closers ∨ b = hash

namespace Scan

variable {s t u : Scan} {byte : UInt8} {effect : Effect} {vocabulary : Vocabulary} {last : Nat}

theorem codeLast_apply (s : Scan) (byte : UInt8) (effect : Effect) :
    (s.apply byte effect).codeLast =
      if effect.counts then some s.text.size
      else if effect.deferred then some (s.text.size - 1) else s.codeLast := by
  have mark (extent : Option Extent) (offset : Nat) :
      (Extent.mark extent offset).map Extent.last = some offset := by
    cases extent <;> rfl
  simp only [Status.codeLast, apply, Status.after]
  split
  · exact mark ..
  · split
    · exact mark ..
    · rfl

/-- More is expected, or a sign run is open, behind which more may be expected with the next byte. -/
def Waits (s : Scan) : Prop := s.expecting = true ∨ ∃ sign, s.context = .sign sign

/-- The last code calls for more, by its last byte or by a reserved word at its end. -/
def Calls (s : Scan) (vocabulary : Vocabulary) : Prop :=
  ∃ last, s.codeLast = some last ∧
    ((∃ byte, s.text[last]? = some byte ∧ Byte.Lingers byte) ∨
      vocabulary.promisesMore (s.text.extract 0 (last + 1)).toList = true)

/-- Where more is expected, the last code calls for it. -/
def Founded (s : Scan) (vocabulary : Vocabulary) : Prop := s.Waits → s.Calls vocabulary

/-! ## Bytes -/

theorem lt_of_codeLast (sound : s.Sound) (marked : s.codeLast = some last) : last < s.text.size := by
  obtain ⟨extent, found, rfl⟩ := Option.map_eq_some_iff.mp marked
  exact (sound.marks extent found).2.2.lt

theorem extract_apply (byte : UInt8) (effect : Effect) (inside : last < s.text.size) :
    (s.apply byte effect).text[last]? = some Byte.slash ∨
      (s.apply byte effect).text.extract 0 (last + 1) = s.text.extract 0 (last + 1) := by
  by_cases shebang : effect.shebang = true
  · rw [text_apply_of_shebang shebang]
    by_cases hash : last + 1 = s.text.size
    · left
      rw [Array.getElem?_push_lt (by simp; omega), ← Array.getElem?_eq_getElem, Array.getElem?_push,
        if_pos (by simp; omega)]
    · right
      have le : last + 1 ≤ s.text.pop.size := by simp; omega
      have grown : s.text.pop.toList <+: ((s.text.pop.push Byte.slash).push Byte.slash).toList := by
        simp
      have cut : s.text.pop.toList <+: s.text.toList := by simp [List.dropLast_prefix]
      exact (extract_of_begins grown le).trans (extract_of_begins cut le).symm
  · right
    rw [text_apply_of_not_shebang (by simpa using shebang)]
    exact extract_of_begins (by simp) inside

/-- Bytes without code leave the last code as it is, or make a slash of its last byte. -/
theorem Calls.apply (calls : s.Calls vocabulary) (sound : s.Sound) (uncounted : effect.counts = false)
    (undeferred : effect.deferred = false) : (s.apply byte effect).Calls vocabulary := by
  obtain ⟨last, marked, called⟩ := calls
  have inside := lt_of_codeLast sound marked
  refine ⟨last, by simp [codeLast_apply, uncounted, undeferred, marked], ?_⟩
  rcases called with ⟨old, found, lingers⟩ | promises
  · rcases getElem?_apply_of_lt byte effect inside with same | slash
    · exact .inl ⟨old, same.trans found, lingers⟩
    · exact .inl ⟨_, slash, .inl (by decide)⟩
  · rcases extract_apply byte effect inside with slash | same
    · exact .inl ⟨_, slash, .inl (by decide)⟩
    · exact .inr (by rw [same]; exact promises)

theorem calls_of_counts (sound : s.Sound) (accepted : s.effect byte = .ok effect)
    (counts : effect.counts = true) (waits : (s.apply byte effect).Waits) :
    (s.apply byte effect).Calls vocabulary := by
  have entry := effect_eq_ok_iff.mp accepted
  have shebang : effect.shebang = false := by
    refine Bool.eq_false_iff.mpr fun shebang => ?_
    obtain ⟨hash, bang⟩ := Context.hash_bang_of_shebang entry shebang
    rw [hash, bang, Context.effect_hash_bang] at entry
    cases entry
    cases counts
  have lingers : (Role.ofByte byte).isOperator = true ∨ Role.ofByte byte = .closer := by
    refine Context.operator_or_closer_of_counts entry (fun expecting => (sound.expecting expecting).2) counts ?_
    refine waits.imp (fun expecting => ?_) id
    simp only [apply, Status.after, Bool.and_eq_true, beq_iff_eq] at expecting
    refine ⟨expecting.1.1, fun deeper => ?_, expecting.2⟩
    simp [deeper, Nesting.apply] at expecting
  refine ⟨s.text.size, by simp [codeLast_apply, counts], .inl ⟨byte, ?_, ?_⟩⟩
  · rw [text_apply_of_not_shebang shebang, Array.getElem?_push_size]
  · exact lingers.imp Role.mem_operators_iff.mpr fun closer => .inl (Role.mem_closers_of_closer closer)

theorem calls_of_deferred (sound : s.Sound) (accepted : s.effect byte = .ok effect)
    (uncounted : effect.counts = false) (deferred : effect.deferred = true) :
    (s.apply byte effect).Calls vocabulary := by
  refine ⟨s.text.size - 1, by simp [codeLast_apply, uncounted, deferred], .inl ?_⟩
  have ended : ∃ old, s.text.back? = some old ∧ Byte.Lingers old := by
    rcases Context.undecided_of_deferred (effect_eq_ok_iff.mp accepted) deferred with slash | hash
    · exact ⟨_, sound.slash slash, .inl (by decide)⟩
    · exact ⟨_, sound.hash hash, .inr (.inr rfl)⟩
  obtain ⟨old, back, lingers⟩ := ended
  have pos := size_pos_of_back? back
  rw [Array.back?_eq_getElem?] at back
  rcases getElem?_apply_of_lt byte effect (show s.text.size - 1 < s.text.size by omega) with same | slash
  · exact ⟨old, same.trans back, lingers⟩
  · exact ⟨_, slash, .inl (by decide)⟩

theorem Founded.apply (founded : s.Founded vocabulary) (sound : s.Sound)
    (accepted : s.effect byte = .ok effect) : (s.apply byte effect).Founded vocabulary := by
  intro waits
  cases counts : effect.counts with
  | true => exact calls_of_counts sound accepted counts waits
  | false =>
    cases deferred : effect.deferred with
    | true => exact calls_of_deferred sound accepted counts deferred
    | false =>
      have before : s.Waits := by
        refine Context.expecting_of_uncounted (effect_eq_ok_iff.mp accepted) counts deferred ?_
        refine waits.imp (fun expecting => ?_) id
        simp only [Scan.apply, Status.after, Bool.and_eq_true] at expecting
        exact expecting.1.1
      exact (founded before).apply sound counts deferred

theorem Founded.accepts {bytes : List UInt8} {seen : List Sighting} (founded : s.Founded vocabulary)
    (sound : s.Sound) (accepted : Accepts s bytes seen t) : t.Founded vocabulary := by
  induction accepted with
  | nil => exact founded
  | cons one _ ih => exact ih (founded.apply sound one) (sound.apply one)

theorem Calls.word_or_operator_iff (calls : s.Calls vocabulary) (sound : s.Sound)
    (marked : s.codeLast = some last) :
    ∃ byte, s.text[last]? = some byte ∧
      ((byte ∈ Byte.operators ∨
          vocabulary.promisesMore (s.text.extract 0 (last + 1)).toList = true) ↔
        byte ∉ Byte.closers ∧ byte ≠ Byte.hash) := by
  obtain ⟨found, marked', called⟩ := calls
  obtain rfl : found = last := Option.some.inj (marked'.symm.trans marked)
  obtain ⟨extent, here, rfl⟩ := Option.map_eq_some_iff.mp marked
  obtain ⟨-, -, byte, here, solid⟩ := sound.marks extent here
  refine ⟨byte, here, ?_, ?_⟩
  · rintro (operator | promises)
    · refine ⟨fun closer => (Byte.foreign_of_closer closer).1 operator, ?_⟩
      rintro rfl
      exact absurd operator (by decide)
    · -- the last byte of a word is a letter
      have letter : Byte.isLower byte = true := by
        by_contra letterless
        have inside := lt_of_codeLast sound marked
        have ends : (s.text.extract 0 (extent.last + 1)).toList.getLast? = some byte := by
          rw [getLast?_extract (Nat.succ_pos _) inside]
          exact here
        have none := lastWord_of_getLast? ends solid (by simpa using letterless)
        rw [Vocabulary.promisesMore, none] at promises
        cases promises
      refine ⟨fun closer => ?_, ?_⟩
      · cases letter.symm.trans (Byte.foreign_of_closer closer).2
      · rintro rfl
        cases letter
  · rintro ⟨closer, hash⟩
    rcases called with ⟨same, found, lingers⟩ | promises
    · obtain rfl : same = byte := Option.some.inj (found.symm.trans here)
      exact .inl ((lingers.resolve_right (not_or.mpr ⟨closer, hash⟩)))
    · exact .inr promises

/-! ## Line ends -/

theorem Founded.closeLine (founded : s.Founded vocabulary) : s.closeLine.Founded vocabulary := by
  intro waits
  refine founded (waits.imp id ?_)
  rintro ⟨sign, run⟩
  refine ⟨sign, ?_⟩
  cases context : s.context <;> simp_all [Scan.closeLine, Context.atLineEnd]

theorem Founded.openLine (founded : s.Founded vocabulary) : s.openLine.Founded vocabulary := by
  intro waits
  refine founded (waits.imp id ?_)
  rintro ⟨sign, run⟩
  refine ⟨sign, ?_⟩
  cases context : s.context <;> simp_all [Scan.openLine, Context.atLineStart]

theorem lastWord_from_start {extent : Extent} (headed : s.Headed) (sound : s.Sound)
    (marked : s.extent = some extent) :
    lastWord (s.text.extract 0 (extent.last + 1)).toList =
      lastWord (s.text.extract extent.first (extent.last + 1)).toList := by
  obtain ⟨ordered, -, filled⟩ := sound.marks extent marked
  refine lastWord_cut (Nat.zero_le _) ordered (fun pos => ?_) filled
  exact headed extent.first (by simp [Scan.edge, marked]) pos

/-- A word at the end of the line that promises more does so at the end of the text up to it. -/
theorem promisesMore_from_start {bytes : List UInt8} {seen : List Sighting} {extent : Extent}
    (between : u.BetweenLines) (headed : t.Headed)
    (accepted : Accepts { u with lineStart := u.text.size } bytes seen t)
    (marked : t.extent = some extent) (promises : vocabulary.promisesMore t.lineCode = true) :
    vocabulary.promisesMore (t.text.extract 0 (extent.last + 1)).toList = true := by
  have here : u.text.size ≤ extent.last := by
    by_contra early
    have start : t.lineStart = u.text.size := accepted.lineStart_eq
    rw [lineCode_of_early marked (by omega)] at promises
    simp [Vocabulary.promisesMore, lastWord] at promises
  have sound := between.sound.startLine.accepts accepted
  have word := lastWord_of_line between accepted marked here
  rw [← lastWord_from_start headed sound marked] at word
  rw [Vocabulary.promisesMore, word]
  exact promises

end Scan

namespace Policy

open Scan (BetweenLines Headed Founded)

variable {p : Policy} {s t u : Scan} {body : List UInt8} {bodies front back : List (List UInt8)}
  {ends last : List Scan} {tail : Input.Tail} {sink : Sink} {seen : List Sighting} {r : Reading}

/-- A scan between two lines at which what is expected goes back to the code. -/
structure Rooted (p : Policy) (s : Scan) : Prop where
  between : s.BetweenLines
  headed : s.Headed
  founded : s.Founded p.vocabulary

theorem rooted_empty (p : Policy) : p.Rooted {} :=
  ⟨Scan.betweenLines_empty, Scan.headed_empty, by rintro (expecting | ⟨sign, run⟩) <;> contradiction⟩

theorem Rooted.line (rooted : p.Rooted s) (accepted : Scan.Accepts { s with lineStart := s.text.size }
      (Separator.replace (Input.terminated body)).bytes seen t) :
    t.Headed ∧ t.Sound ∧ t.closeLine.Founded p.vocabulary := by
  have sound := rooted.between.sound.startLine
  have started : Headed { s with lineStart := s.text.size } := rooted.headed
  have founded : Founded { s with lineStart := s.text.size } p.vocabulary := rooted.founded
  exact ⟨started.accepts sound accepted, sound.accepts accepted, (founded.accepts sound accepted).closeLine⟩

/-- A reserved word at the end of the line is the code to which a new expectation goes back. -/
theorem Rooted.reopen (rooted : p.Rooted s) (accepted : Scan.Accepts { s with lineStart := s.text.size }
      (Separator.replace (Input.terminated body)).bytes seen t) : p.Rooted (p.reopen t) := by
  obtain ⟨headed, sound, founded⟩ := rooted.line accepted
  refine ⟨betweenLines_reopen rooted.between.sound accepted, ?_, ?_⟩
  · exact Headed.openLine (headed.closeLine (Scan.back?_of_terminated accepted))
      (sound.closeLine.conclude p.settings p.vocabulary)
  · refine Founded.openLine ?_
    by_cases dangling : t.closeLine.judgement p.settings p.vocabulary = .dangling
    · intro _
      obtain ⟨extent, marked⟩ := Option.isSome_iff_exists.mp (Scan.isSome_of_dangling dangling)
      refine ⟨extent.last, by simp [Status.codeLast, Scan.conclude, marked], .inr ?_⟩
      have promises : p.vocabulary.promisesMore t.lineCode = true :=
        (Scan.judgement_eq_dangling_iff.mp dangling).2
      have word := Scan.promisesMore_from_start rooted.between headed accepted marked promises
      exact word
    · rw [Scan.conclude_of_ne dangling]
      exact founded

/-! ## The lines of an episode -/

/-- What is known of the scans at the ends of some lines, given the text in the end. -/
structure Tells (p : Policy) (s : Scan) (ends : List Scan) (final : Scan) : Prop where
  text : s.text.toList <+: final.text.toList
  each : ∀ closed ∈ ends, closed.Sound ∧ closed.Founded p.vocabulary ∧
    closed.text.toList <+: final.text.toList

theorem Tells.cons {final : Scan} (rooted : p.Rooted s)
    (accepted : Scan.Accepts { s with lineStart := s.text.size }
      (Separator.replace (Input.terminated body)).bytes seen t)
    (later : p.Tells (p.reopen t) ends final) : p.Tells s (t.closeLine :: ends) final := by
  obtain ⟨-, sound, founded⟩ := rooted.line accepted
  have longer := (extends_line rooted.between.sound rooted.between.settled accepted).text
  have whole : t.text.toList <+: final.text.toList := later.text
  exact ⟨longer.trans whole,
    List.forall_mem_cons.mpr ⟨⟨sound.closeLine, founded, whole⟩, later.each⟩⟩

theorem text_finish (between : u.BetweenLines) (tail : Input.Tail) (sink : Sink) (log : Array Event) :
    u.text.toList <+: (finish tail u sink log).scan.text.toList := by
  cases tail with
  | cut outage => exact List.prefix_rfl
  | rest bytes =>
    rcases finish_cases bytes u sink log with ⟨seen, t, accepted, ended⟩ |
      ⟨front, byte, back, seen, t, intrusion, -, accepted, -, stopped⟩
    · rw [ended]
      exact (extends_line between.sound between.settled accepted).text
    · rw [stopped]
      refine (extends_line between.sound between.settled accepted).text.trans ?_
      simp [Scan.record]

theorem Last.tells (ended : p.Last tail sink u back last r) (rooted : p.Rooted u) :
    p.Tells u last r.scan := by
  have between := rooted.between
  cases ended with
  | complete accepted _ _ scan _ =>
    refine .cons rooted accepted ⟨?_, List.forall_mem_nil _⟩
    rw [scan]
    exact List.prefix_rfl
  | refused _ accepted _ _ scan _ =>
    refine ⟨(extends_line between.sound between.settled accepted).text.trans ?_, List.forall_mem_nil _⟩
    simp [scan, Scan.record]
  | exhausted => exact ⟨text_finish between .., List.forall_mem_nil _⟩
  | unasked _ _ scan _ =>
    rw [scan]
    exact ⟨List.prefix_rfl, List.forall_mem_nil _⟩

theorem Attempts.tells (attempts : p.Attempts tail sink s bodies front back ends last u r)
    (rooted : p.Rooted s) : p.Tells s (ends ++ last) r.scan := by
  obtain ⟨-, traverses, -, ended⟩ := attempts
  induction traverses with
  | nil => exact ended.tells rooted
  | cons accepted _ ih => exact .cons rooted accepted (ih (rooted.reopen accepted) ended)

/-- A line that is left open in plain code and outside of brackets ends in code that calls for more: in an
operator or a reserved word, unless its last byte of code is a closing bracket or a hash sign. -/
theorem read_awaits_iff (p : Policy) (prompt : List UInt8) (sink : Sink) (input : Input) {a : Report}
    {last : Nat} (member : a ∈ (p.read prompt sink input).reports) (unfinished : a.judgement = .unfinished)
    (code : a.status.context = .code) (level : a.status.depth = 0)
    (marked : a.status.codeLast = some last) :
    let text := (p.read prompt sink input).scan.text
    ∃ byte, text[last]? = some byte ∧
      ((byte ∈ Byte.operators ∨
          p.vocabulary.promisesMore (text.extract 0 (last + 1)).toList = true) ↔
        byte ∉ Byte.closers ∧ byte ≠ Byte.hash) := by
  intro text
  obtain ⟨front, back, ends, ended, u, attempts, reports⟩ := read_attempts p prompt sink input
  rw [reports] at member
  obtain ⟨closed, listed, rfl⟩ := List.mem_map.mp member
  obtain ⟨sound, founded, extended⟩ := (attempts.tells (rooted_empty p)).each closed listed
  have judged : closed.judgement p.settings p.vocabulary = .unfinished := unfinished
  rw [status_report (by simp [judged])] at code level marked
  have occupied : closed.extent.isSome = true := by
    have found := congrArg Option.isSome marked
    simpa [Status.codeLast] using found
  have expecting := (Scan.unfinished_iff_expecting code level occupied _ _).mp judged
  obtain ⟨byte, here, ends⟩ := (founded (.inl expecting)).word_or_operator_iff sound marked
  have inside := Scan.lt_of_codeLast sound marked
  refine ⟨byte, (getElem?_of_begins extended inside).trans here, ?_⟩
  rw [show text.extract 0 (last + 1) = _ from extract_of_begins extended inside]
  exact ends

theorem read_awaits_closer :
    let r := read {} [] {} (.ofBytes [0x61, 0x3d, 0x29, 0x0a, 0x62, 0x0a] none)
    let a : Report := ⟨.unfinished, ⟨.code, 0, true, some ⟨0, 2⟩⟩, 4⟩
    a ∈ r.reports ∧ r.scan.text[2]? = some 0x29 ∧
      ¬ (0x29 ∈ Byte.operators ∨ Vocabulary.go.promisesMore (r.scan.text.extract 0 3).toList = true) := by
  intro r a
  have member : a ∈ r.reports := by decide +kernel
  obtain ⟨byte, here, ends⟩ := read_awaits_iff {} [] {} _ member rfl rfl rfl rfl
  have closer : r.scan.text[2]? = some 0x29 := by decide +kernel
  obtain rfl : 0x29 = byte := Option.some.inj (closer.symm.trans here)
  exact ⟨member, closer, fun calls => (ends.mp calls).1 (by decide)⟩

end Policy

end Linewise
