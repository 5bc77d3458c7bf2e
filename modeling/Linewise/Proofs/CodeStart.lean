import Linewise.Proofs.Gap
import Linewise.Proofs.Lines
import Linewise.Proofs.Reachable

/-! Of the bytes that an episode took, those before its first byte of code are a gap, and that byte
begins code. So an entry is cut in two at the right place (`Policy.entry_starts_at_code`).
Separators are left out here, since the newlines they become do not end a line comment. -/

namespace Linewise

open Shebang (Rewritten bangs)

namespace Scan

open Gap (Upto BeginsCode)

variable {s t : Scan} {byte : UInt8} {effect : Effect} {bytes source : List UInt8}
  {seen : List Sighting}

/-- What was scanned for a scan, and its text, in which shebangs are rewritten, hold no code before the
first byte of code. -/
structure Led (s : Scan) (source : List UInt8) : Prop where
  size : source.length = s.text.size
  blank : s.extent = none → Upto s.context source ∧ Upto s.context s.text.toList
  code : ∀ extent ∈ s.extent, Gap (source.take extent.first) ∧
    BeginsCode (source.drop extent.first) ∧ Gap (s.text.toList.take extent.first)

theorem led_empty : Led {} [] where
  size := rfl
  blank := fun _ => ⟨.code .nil, .code .nil⟩
  code := nofun

theorem take_text_apply {offset : Nat} (inside : offset < s.text.size) :
    (s.apply byte effect).text.toList.take offset = s.text.toList.take offset := by
  by_cases shebang : effect.shebang = true
  · rw [text_apply_of_shebang shebang]
    simp only [Array.toList_push, Array.toList_pop, List.append_assoc]
    rw [List.take_append_of_le_length (by simp; omega), List.dropLast_eq_take, List.take_take,
      Nat.min_eq_left (by simp; omega)]
  · rw [text_apply_of_not_shebang (by simpa using shebang), Array.toList_push,
      List.take_append_of_le_length (by simp; omega)]

theorem upto_text_apply (upto : Upto s.context s.text.toList)
    (accepted : s.effect byte = .ok effect) (uncounted : effect.counts = false)
    (undeferred : effect.deferred = false) (apart : s.context = .lineComment → byte ≠ Byte.newline) :
    Upto effect.context (s.apply byte effect).text.toList := by
  have entry := effect_eq_ok_iff.mp accepted
  by_cases shebang : effect.shebang = true
  · obtain ⟨hash, bang⟩ := Context.hash_bang_of_shebang entry shebang
    rw [hash, bang, Context.effect_hash_bang] at entry
    cases entry
    have closed := (hash ▸ upto).shebang
    rw [text_apply_of_shebang rfl]
    simpa using closed
  · rw [text_apply_of_not_shebang (by simpa using shebang), Array.toList_push]
    exact upto.step entry uncounted undeferred apart

theorem Led.apply_of_code {extent : Extent} (led : s.Led source) (sound : s.Sound)
    (accepted : s.effect byte = .ok effect) (marked : s.extent = some extent) :
    (s.apply byte effect).Led (source ++ [byte]) := by
  obtain ⟨gap, begins, text⟩ := led.code extent marked
  obtain ⟨ordered, -, last⟩ := sound.marks extent marked
  have inside := last.lt
  have size := led.size
  refine ⟨by simp [size_apply sound accepted, size], fun blank => ?_, fun next marked' => ?_⟩
  · obtain ⟨y, found, -, -⟩ := grows_apply sound byte effect extent marked
    rw [blank] at found
    cases found
  · obtain ⟨y, found, first, -⟩ := grows_apply sound byte effect extent marked
    obtain rfl : next = y := Option.some.inj (marked'.symm.trans found)
    rw [first, List.take_append_of_le_length (by omega), List.drop_append_of_le_length (by omega),
      take_text_apply (by omega)]
    exact ⟨gap, begins.append _, text⟩

theorem undecided_gap (upto : Upto s.context source) (accepted : s.effect byte = .ok effect)
    (deferred : effect.deferred = true) :
    ∃ front last, source = front ++ [last] ∧ Gap front ∧ BeginsCode [last, byte] := by
  have entry := effect_eq_ok_iff.mp accepted
  generalize s.context = context at upto entry
  cases upto with
  | slash gap =>
    obtain ⟨slash, star⟩ := Context.plain_of_slash entry deferred
    exact ⟨_, _, rfl, gap, Gap.beginsCode_slash (mt Role.ofByte_eq_slash_iff.mpr slash)
      (mt Role.ofByte_eq_star_iff.mpr star)⟩
  | hash gap =>
    have bang := Context.plain_of_hash entry deferred
    exact ⟨_, _, rfl, gap, Gap.beginsCode_hash (mt Role.ofByte_eq_bang_iff.mpr bang)⟩
  | code | lineComment | block | blockStar =>
    rcases Context.undecided_of_deferred entry deferred with h | h <;> cases h

theorem Led.apply_of_deferred (led : s.Led source) (sound : s.Sound)
    (accepted : s.effect byte = .ok effect) (blank : s.extent = none)
    (deferred : effect.deferred = true) : (s.apply byte effect).Led (source ++ [byte]) := by
  obtain ⟨upto, upto'⟩ := led.blank blank
  obtain ⟨front, last, rfl, gap, begins⟩ := undecided_gap upto accepted deferred
  obtain ⟨front', last', text, gap', -⟩ := undecided_gap upto' accepted deferred
  have first : ∀ extent ∈ (s.apply byte effect).extent, extent.first = s.text.size - 1 := by
    intro extent marked
    simp only [apply, Status.after, blank, deferred, if_true] at marked
    split at marked <;> cases marked <;> rfl
  have size : front.length + 1 = s.text.size := by simpa using led.size
  have size' : front'.length + 1 = s.text.size := by simpa using (congrArg List.length text).symm
  refine ⟨by simp [size_apply sound accepted, ← size], fun none => ?_, fun extent marked => ?_⟩
  · simp only [apply, Status.after, blank, deferred, if_true] at none
    split at none <;> cases none
  · rw [first extent marked, take_text_apply (by omega), text, ← size, Nat.add_sub_cancel]
    have same : front'.length = front.length := by omega
    simpa [← same] using ⟨gap, begins, gap'⟩

theorem Led.apply_of_counts (led : s.Led source) (sound : s.Sound)
    (accepted : s.effect byte = .ok effect) (blank : s.extent = none)
    (undeferred : effect.deferred = false) (counts : effect.counts = true) :
    (s.apply byte effect).Led (source ++ [byte]) := by
  have entry := effect_eq_ok_iff.mp accepted
  have solid := Context.isBlank_of_counts entry counts
  obtain ⟨upto, upto'⟩ := led.blank blank
  rw [Context.code_of_counts entry (sound.blank blank).2.2 counts undeferred] at upto upto' entry
  obtain ⟨slash, hash, shebang⟩ := Context.decided_of_counts entry counts
  have extent : (s.apply byte effect).extent = some ⟨s.text.size, s.text.size⟩ := by
    simp [apply, Status.after, blank, undeferred, counts, Extent.mark]
  refine ⟨by simp [size_apply sound accepted, led.size], fun none => ?_, fun next marked => ?_⟩
  · cases extent.symm.trans none
  · obtain rfl := Option.some.inj (extent.symm.trans marked)
    have begins : BeginsCode [byte] := ⟨Role.isBlank_ofByte byte ▸ solid,
      mt Role.ofByte_eq_slash_iff.mpr slash, mt Role.ofByte_eq_hash_iff.mpr hash⟩
    rw [text_apply_of_not_shebang shebang]
    simpa [← led.size] using ⟨upto.gap, begins, upto'.gap⟩

/-- Every byte keeps the gap in front of the code, except that the end of a line comment is not seen. -/
theorem Led.apply (led : s.Led source) (sound : s.Sound) (accepted : s.effect byte = .ok effect)
    (apart : s.context = .lineComment → byte ≠ Byte.newline) :
    (s.apply byte effect).Led (source ++ [byte]) := by
  cases marked : s.extent with
  | some extent => exact led.apply_of_code sound accepted marked
  | none =>
    cases deferred : effect.deferred with
    | true => exact led.apply_of_deferred sound accepted marked deferred
    | false =>
      cases counts : effect.counts with
      | true => exact led.apply_of_counts sound accepted marked deferred counts
      | false =>
        obtain ⟨upto, upto'⟩ := led.blank marked
        refine ⟨by simp [size_apply sound accepted, led.size], fun _ => ⟨?_, ?_⟩, fun x now => ?_⟩
        · exact upto.step (effect_eq_ok_iff.mp accepted) counts deferred apart
        · exact upto_text_apply upto' accepted counts deferred apart
        · simp [Scan.apply, Status.after, marked, deferred, counts] at now

theorem Led.entry_cases (led : s.Led source) (plain : s.context = .code) :
    Gap s.entry.comments.toList ∧
      match s.entry.start with
      | none => Gap source
      | some start => Gap (source.take start) ∧ (∃ byte, source[start]? = some byte ∧ 0x20 < byte) ∧
          ∀ opener ∈ Gap.openers, ¬ opener <+: source.drop start := by
  cases marked : s.extent with
  | none =>
    obtain ⟨upto, upto'⟩ := led.blank marked
    rw [plain] at upto upto'
    have start : s.codeStart = none := by simp [Status.codeStart, marked]
    have entryStart : s.entry.start = none := start
    refine ⟨?_, ?_⟩
    · simpa [Entry.comments, entry, start] using upto'.gap
    · rw [entryStart]
      exact upto.gap
  | some extent =>
    obtain ⟨gap, begins, text⟩ := led.code extent marked
    have start : s.codeStart = some extent.first := by simp [Status.codeStart, marked]
    have entryStart : s.entry.start = some extent.first := start
    refine ⟨?_, ?_⟩
    · simpa [Entry.comments, entry, start] using text
    · rw [entryStart]
      obtain ⟨byte, head, solid⟩ := begins.solid
      rw [List.head?_drop] at head
      exact ⟨gap, ⟨byte, head, solid⟩, begins.not_prefix⟩

/-! ## Lines -/

theorem Led.startLine (led : s.Led source) : Led { s with lineStart := s.text.size } source :=
  ⟨led.size, led.blank, led.code⟩

theorem Led.accepts (led : s.Led source) (sound : s.Sound) (inside : Byte.newline ∉ bytes)
    (accepted : Accepts s bytes seen t) : t.Led (source ++ bytes) := by
  induction accepted generalizing source with
  | nil => simpa using led
  | @cons s t byte effect bytes seen one _ ih =>
    have first : byte ≠ Byte.newline := Ne.symm (List.ne_of_not_mem_cons inside)
    have next := led.apply sound one fun _ => first
    simpa using ih next (sound.apply one) (List.not_mem_of_not_mem_cons inside)

theorem Led.relabel {context : Context} (led : s.Led source)
    (blank : s.extent = none → Upto context source ∧ Upto context s.text.toList) :
    Led { s with context := context } source :=
  ⟨led.size, blank, led.code⟩

theorem Led.newline (led : s.Led source) (sound : s.Sound)
    (accepted : s.effect Byte.newline = .ok effect) :
    (s.apply Byte.newline effect).closeLine.Led (source ++ [Byte.newline]) := by
  have entry := effect_eq_ok_iff.mp accepted
  by_cases comment : s.context = .lineComment
  · rw [comment] at entry
    cases entry
    cases marked : s.extent with
    | some extent =>
      have next := led.apply_of_code sound accepted marked
      refine next.relabel fun blank => ?_
      simp [Scan.apply, Status.after, marked] at blank
    | none =>
      obtain ⟨upto, upto'⟩ := led.blank marked
      rw [comment] at upto upto'
      refine ⟨by simp [closeLine, size_apply sound accepted, led.size], fun _ => ?_, fun x now => ?_⟩
      · have text := @text_apply_of_not_shebang s Byte.newline { context := .lineComment } rfl
        show Upto .code _ ∧ Upto .code (s.apply Byte.newline _).text.toList
        rw [text, Array.toList_push]
        exact ⟨.code upto.newline, .code upto'.newline⟩
      · simp [closeLine, Scan.apply, Status.after, marked] at now
  · have next := led.apply sound accepted fun h => absurd h comment
    rw [closeLine_eq_self]
    · exact next
    · intro opened
      rcases Context.opens_of_lineComment entry opened with h | h | h
      · exact comment h
      · exact absurd h (by decide)
      · exact absurd h (by decide)

theorem Led.line {body : List UInt8} (led : s.Led source) (sound : s.Sound)
    (closed : Byte.newline ∉ body) (accepted : Accepts s (Input.terminated body) seen t) :
    t.closeLine.Led (source ++ Input.terminated body) := by
  obtain ⟨first, last, u, -, front, ended⟩ := accepted.split
  cases ended with
  | cons one none =>
    cases none
    have led' := led.accepts sound closed front
    simpa [Input.terminated] using led'.newline (sound.accepts front) one

theorem Led.openLine (led : s.Led source) (sound : s.Sound) : s.openLine.Led source := by
  refine led.relabel fun blank => ?_
  have same : s.context.atLineStart = s.context :=
    congrArg (fun s : Scan => s.context) (openLine_eq_self (sound.blank blank).2.2)
  rw [same]
  exact led.blank blank

theorem Led.conclude (led : s.Led source) (judgement : Judgement) : (s.conclude judgement).Led source :=
  ⟨led.size, led.blank, led.code⟩

end Scan

/-! ## Texts without separators -/

namespace Input

variable {bodies : List (List UInt8)}

/-- The bytes between two newlines, none of which becomes a newline. -/
structure IsPlain (body : List UInt8) : Prop where
  closed : Byte.newline ∉ body
  apart : ¬ Separator.bytes <:+: body

theorem isPlain_of_mem_split {text body : List UInt8} (plain : ¬ Separator.bytes <:+: text)
    (member : body ∈ (split text).1) : IsPlain body :=
  ⟨(newline_not_mem_split text).1 body member,
    fun inside => plain (inside.trans (infix_of_mem_split member))⟩

theorem IsPlain.replace {body : List UInt8} (plain : IsPlain body) :
    (Separator.replace (terminated body)).bytes = terminated body := by
  rw [Separator.replace_terminated, Separator.replace_of_not_infix plain.apart]
  rfl

theorem replace_of_isPlain (plain : ∀ body ∈ bodies, IsPlain body) :
    (Separator.replace (bodies.map terminated).flatten).bytes = (bodies.map terminated).flatten := by
  induction bodies with
  | nil => rfl
  | cons body bodies ih =>
    obtain ⟨first, later⟩ := List.forall_mem_cons.mp plain
    rw [List.map_cons, List.flatten_cons, Separator.replace_terminated_append, first.replace, ih later]

end Input

namespace Policy

variable {p : Policy} {s t u : Scan} {bodies : List (List UInt8)} {seen : List Sighting}
  {source : List UInt8}

theorem led_reopen (led : t.closeLine.Led source) (sound : t.Sound) : (p.reopen t).Led source :=
  (led.conclude _).openLine (sound.closeLine.conclude p.settings p.vocabulary)

theorem StaysOpen.led (opened : p.StaysOpen s bodies seen u) (led : s.Led source) (sound : s.Sound)
    (plain : ∀ body ∈ bodies, Input.IsPlain body) :
    u.Led (source ++ (bodies.map Input.terminated).flatten) := by
  induction opened generalizing source with
  | nil => simpa using led
  | cons accepted _ _ ih =>
    obtain ⟨first, later⟩ := List.forall_mem_cons.mp plain
    rw [first.replace] at accepted
    have line := led.startLine.line sound.startLine first.closed accepted
    have sound' := sound.startLine.accepts accepted
    simpa using ih (led_reopen line sound') (sound_reopen sound' p) later

theorem StaysOpen.rewritten {body : List UInt8} {last : List Sighting}
    (opened : p.StaysOpen {} bodies seen u)
    (accepted : Scan.Accepts { u with lineStart := u.text.size }
      (Separator.replace (Input.terminated body)).bytes last t)
    (plain : ∀ other ∈ bodies ++ [body], Input.IsPlain other) :
    Rewritten (bangs (seen ++ last)) ((bodies ++ [body]).map Input.terminated).flatten
      t.text.toList := by
  obtain ⟨told, bytes⟩ := opened.told accepted
  obtain ⟨before, here⟩ := List.forall_mem_append.mp plain
  have text := told.text
  rw [bytes, Input.replace_of_isPlain before, (here body List.mem_cons_self).replace] at text
  simpa using text

theorem StaysOpen.led_line {body : List UInt8} {last : List Sighting}
    (opened : p.StaysOpen {} bodies seen u)
    (accepted : Scan.Accepts { u with lineStart := u.text.size }
      (Separator.replace (Input.terminated body)).bytes last t)
    (plain : ∀ other ∈ bodies ++ [body], Input.IsPlain other) :
    t.closeLine.Led ((bodies ++ [body]).map Input.terminated).flatten := by
  obtain ⟨before, here⟩ := List.forall_mem_append.mp plain
  have now := here body List.mem_cons_self
  have led := opened.led Scan.led_empty Scan.sound_empty before
  rw [now.replace] at accepted
  simpa using led.startLine.line (opened.sound Scan.sound_empty).startLine now.closed accepted

/-- The bytes taken for an entry are a gap, up to its first byte of code if there is one, and there
code begins. The entry is cut there. -/
theorem entry_starts_at_code (p : Policy) (prompt : List UInt8) (sink : Sink) (text : List UInt8)
    (outage : Option Outage) (plain : ¬ Separator.bytes <:+: text)
    (complete : (p.read prompt sink (Input.ofBytes text outage)).failure = none) :
    let r := p.read prompt sink (Input.ofBytes text outage)
    ∃ taken rest, text = taken ++ rest ∧ r.input = Input.ofBytes rest outage ∧
      Rewritten (bangs r.sightings) taken r.scan.text.toList ∧ Gap r.entry.comments.toList ∧
      match r.entry.start with
      | none => Gap taken ∧ r.entry.code = none ∧ r.entry.comments = r.entry.text
      | some start => Gap (taken.take start) ∧ (∃ byte, taken[start]? = some byte ∧ 0x20 < byte) ∧
          (∀ opener ∈ Gap.openers, ¬ opener <+: taken.drop start) ∧
          r.entry.code = some (r.entry.text.extract start r.entry.text.size) ∧
          r.entry.comments ++ r.entry.text.extract start r.entry.text.size = r.entry.text := by
  intro r
  obtain ⟨front, body, rest, seen, last, u, t, enters⟩ := read_enters complete
  have lines : ∀ line ∈ front ++ [body], Input.IsPlain line := fun line member =>
    Input.isPlain_of_mem_split plain (enters.lines line member)
  have led := enters.opened.led_line enters.accepted lines
  obtain ⟨comments, cut⟩ := led.entry_cases (Scan.isResolved_iff.mp enters.resolved).2.2.1
  have entry : r.entry = t.closeLine.entry := congrArg Scan.entry enters.scan
  have rewritten : Rewritten (bangs r.sightings) ((front ++ [body]).map Input.terminated).flatten
      r.scan.text.toList := by
    have text := enters.opened.rewritten enters.accepted lines
    rw [enters.sightings, enters.scan]
    exact text
  rw [← entry] at comments cut
  refine ⟨_, rest, enters.whole, enters.input, rewritten, comments, ?_⟩
  cases begins : r.entry.start with
  | none =>
    rw [begins] at cut
    exact ⟨cut, Entry.code_of_blank begins, Entry.comments_of_blank begins⟩
  | some start =>
    rw [begins] at cut
    obtain ⟨gap, ⟨byte, found, solid⟩, plain⟩ := cut
    have inside : start ≤ r.entry.text.size := by
      have before := (List.getElem?_eq_some_iff.mp found).1
      rw [← rewritten.length_eq, Array.length_toList] at before
      exact Nat.le_of_lt before
    have code := Entry.code_of_start begins
    exact ⟨gap, ⟨byte, found, solid⟩, plain, code, Entry.comments_append_code begins inside code⟩

/-- A shebang line and a block comment come before a quotient that begins with its slash. -/
theorem entry_starts_at_slash :
    let text : List UInt8 := [0x23, 0x21, 0x0a, 0x2f, 0x2a, 0x2a, 0x2f, 0x2f, 0x61, 0x0a]
    let r := read ⟨⟨2⟩, .go⟩ [] {} (Input.ofBytes text none)
    ¬ Separator.bytes <:+: text ∧ r.failure = none ∧ r.entry.start = some 7 ∧ Gap (text.take 7) ∧
      Gap r.entry.comments.toList ∧ r.entry.code = some #[0x2f, 0x61, 0x0a] := by
  intro text r
  have plain : ¬ Separator.bytes <:+: text := by decide
  have complete : r.failure = none := by decide +kernel
  have start : r.entry.start = some 7 := by decide +kernel
  have size : r.scan.text.toList.length = 10 := by decide +kernel
  obtain ⟨taken, rest, whole, -, rewritten, comments, code⟩ :=
    @entry_starts_at_code ⟨⟨2⟩, .go⟩ [] {} text none plain complete
  have all : text = taken := by
    have length := congrArg List.length whole
    rw [List.length_append, ← rewritten.length_eq, size] at length
    obtain rfl : rest = [] := List.eq_nil_of_length_eq_zero (by simpa [text] using length)
    simpa using whole
  rw [start] at code
  obtain ⟨gap, -, -, found, -⟩ := code
  have shown : r.entry.text.extract 7 r.entry.text.size = #[0x2f, 0x61, 0x0a] := by decide +kernel
  exact ⟨plain, complete, start, all ▸ gap, comments, found.trans (congrArg some shown)⟩

end Policy

end Linewise
