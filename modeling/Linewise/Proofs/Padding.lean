import Linewise.Proofs.Alike
import Linewise.Proofs.Blanks

/-! Blanks before the newline of a line change nothing but the text (`Policy.session_padded`). So it
does not matter whether lines end in a newline alone, or in a carriage return and a newline. -/

namespace Linewise

def IsPad (pad : List UInt8) : Prop := ∀ byte ∈ pad, Byte.isBlank byte = true ∧ byte ≠ Byte.newline

/-- A line as it stands in one of two texts, and what the other has more before its newline. -/
structure PaddedLine where
  body : List UInt8
  pad : List UInt8

def PaddedLine.full (line : PaddedLine) : List UInt8 := line.body ++ line.pad

theorem PaddedLine.newline_not_mem_full {line : PaddedLine} (blank : IsPad line.pad)
    (closed : Byte.newline ∉ line.body) : Byte.newline ∉ line.full :=
  List.not_mem_append closed fun inside => (blank _ inside).2 rfl

namespace Separator

theorem replace_append_blanks (body : List UInt8) {blanks : List UInt8}
    (blank : ∀ byte ∈ blanks, Byte.isBlank byte = true) :
    (replace (body ++ blanks)).bytes = (replace body).bytes ++ blanks := by
  have absent (rest : List UInt8) (within : ∀ byte ∈ rest, byte ∈ blanks) : ¬ bytes <:+: rest := by
    intro inside
    have member : (0xe2 : UInt8) ∈ blanks := within _ (inside.subset (by decide))
    exact absurd (blank _ member) (by decide)
  cases blanks with
  | nil => simp
  | cons byte blanks =>
    rw [replace_append_cons (blank_foreign (blank byte List.mem_cons_self)),
      replace_of_not_infix (absent blanks fun _ member => List.mem_cons_of_mem _ member)]

end Separator

namespace Scan

variable {s s' t z z' : Scan} {byte : UInt8} {effect : Effect} {bytes body pad : List UInt8}
  {seen : List Sighting} {literal : Literal}

/-! ## The marks of one line -/

def Bounded (s : Scan) : Prop :=
  ∀ extent ∈ s.extent, extent.first < s.text.size ∧ extent.last < s.text.size

theorem bounded_mark {extent : Option Extent} {offset size : Nat}
    (before : ∀ x ∈ extent, x.first < size ∧ x.last < size) (here : offset < size) :
    ∀ x ∈ Extent.mark extent offset, x.first < size ∧ x.last < size := by
  intro x marked
  obtain ⟨last, ⟨-, first⟩ | ⟨old, rfl, first⟩⟩ := Extent.mark_eq_some marked
  · exact ⟨first ▸ here, last ▸ here⟩
  · exact ⟨first ▸ (before old rfl).1, last ▸ here⟩

theorem Bounded.apply (bounded : s.Bounded) (grounded : s.Grounded)
    (accepted : s.effect byte = .ok effect) : (s.apply byte effect).Bounded := by
  have size := size_apply_of_grounded grounded accepted
  have old : ∀ x ∈ s.extent, x.first < (s.apply byte effect).text.size ∧
      x.last < (s.apply byte effect).text.size := by
    intro x marked
    have := bounded x marked
    omega
  have late : ∀ x ∈ (if effect.deferred then Extent.mark s.extent (s.text.size - 1) else s.extent),
      x.first < (s.apply byte effect).text.size ∧ x.last < (s.apply byte effect).text.size := by
    split
    · exact bounded_mark old (by omega)
    · exact old
  intro x marked
  simp only [Scan.apply, Status.after] at marked
  split at marked
  · exact bounded_mark late (by omega) x marked
  · exact late x marked

theorem Accepts.bounded (accepted : Accepts s bytes seen t) (grounded : s.Grounded)
    (bounded : s.Bounded) :
    t.Grounded ∧ t.Bounded ∧ t.text.size = s.text.size + bytes.length := by
  induction accepted with
  | nil => exact ⟨grounded, bounded, rfl⟩
  | cons one _ ih =>
    obtain ⟨still, inside, size⟩ := ih (grounded_apply _ _ _) (bounded.apply grounded one)
    refine ⟨still, inside, ?_⟩
    rw [size, size_apply_of_grounded grounded one, List.length_cons]
    omega

theorem bounded_newline (bounded : s.Bounded) (grounded : s.Grounded)
    (accepted : s.effect Byte.newline = .ok effect) :
    ∀ x ∈ (s.apply Byte.newline effect).extent, x.first < s.text.size ∧ x.last < s.text.size := by
  rw [extent_newline accepted]
  split
  · next undecided =>
    have := grounded undecided
    exact bounded_mark bounded (by omega)
  · exact bounded

/-! ## One line with a pad -/

/-- Scans behind a line, alike but for a pad in the text of the second. All marks lie before it. -/
structure PadsTo (length : Nat) (pad : List UInt8) (z z' : Scan) : Prop where
  status : z'.toStatus = z.toStatus
  texts : ∃ front : Array UInt8, front.size = length ∧ z.text = front.push Byte.newline ∧
    z'.text = (front ++ pad).push Byte.newline
  inside : ∀ extent ∈ z.extent, extent.first < length ∧ extent.last < length

theorem PadsTo.codeBehind {length : Nat} (pads : PadsTo length pad z z') (started : Bool) :
    z'.codeBehind started = z.codeBehind started := by
  obtain ⟨front, size, text, text'⟩ := pads.texts
  have extent : z'.extent = z.extent := congrArg Status.extent pads.status
  cases marked : z.extent with
  | none => simp only [Scan.codeBehind, extent, marked]
  | some stretch =>
    have inside : stretch.last + 1 ≤ front.size := by
      have := (pads.inside stretch marked).2
      omega
    have plain : z.text = front ++ #[Byte.newline] := text
    have padded : z'.text = front ++ (pad ++ [Byte.newline]).toArray :=
      text'.trans (Array.ext' (by simp))
    simp only [Scan.codeBehind, extent, marked, plain, padded, extract_front _ _ inside]

theorem Accepts.of_bare (settled : s.Settled) (accepted : Accepts s.bare bytes seen z) :
    ∃ seen', Accepts s bytes seen' (s.behind z) :=
  ⟨_, behind_bare s ▸ accepted.behind s settled.grounded_bare⟩

theorem Refuses.behind {base : Scan} (grounded : s.Grounded) (refuses : s.Refuses bytes literal) :
    (base.behind s).Refuses bytes literal := by
  obtain ⟨intrusion, stopped, same⟩ := refuses
  rcases run_cases s bytes with ⟨seen, t, -, run⟩ |
    ⟨front, byte, back, seen, t, intrusion', rfl, accepted, refused, run⟩
  · rw [run] at stopped
    cases stopped
  · rw [run] at stopped
    cases stopped
    exact same ▸ (accepted.behind base grounded).refuses (refuses_of_error (refused_behind base refused) back)

theorem Refuses.of_bare (settled : s.Settled) (refuses : s.bare.Refuses bytes literal) :
    s.Refuses bytes literal :=
  behind_bare s ▸ refuses.behind settled.grounded_bare

theorem bare_line_padded (grounded : s.Grounded) (fresh : s.text = #[] ∧ s.extent = none)
    (body : List UInt8) (blank : IsPad pad) :
    (∃ literal, s.Refuses (Separator.replace (Input.terminated body)).bytes literal ∧
      s.Refuses (Separator.replace (Input.terminated (body ++ pad))).bytes literal) ∨
    ∃ z z' seen seen', Accepts s (Separator.replace (Input.terminated body)).bytes seen z ∧
      Accepts s (Separator.replace (Input.terminated (body ++ pad))).bytes seen' z' ∧
      PadsTo (Separator.replace body).bytes.length pad z z' := by
  have blanks : ∀ byte ∈ pad, Byte.isBlank byte = true := fun byte member => (blank byte member).1
  rw [Separator.replace_terminated, Separator.replace_terminated,
    Separator.replace_append_blanks body blanks, List.append_assoc]
  rcases run_cases s (Separator.replace body).bytes with ⟨seen, y, accepted, -⟩ |
    ⟨front, byte, back, seen, y, intrusion, spelled, accepted, refused, -⟩
  · cases entry : y.effect Byte.newline with
    | error intrusion =>
      exact .inl ⟨intrusion.literal, accepted.refuses (refuses_of_error entry []),
        accepted.refuses (refuses_blanks entry blanks)⟩
    | ok effect =>
      obtain ⟨later, padded⟩ := accepts_blanks entry blanks
      have bounded : s.Bounded := by
        intro extent marked
        rw [fresh.2] at marked
        cases marked
      obtain ⟨ground, inside, size⟩ := accepted.bounded grounded bounded
      refine .inr ⟨_, _, _, _, accepted.append (.single entry), accepted.append padded, rfl, ?_, ?_⟩
      · exact ⟨y.text, by simp [size, fresh.1], text_apply_newline entry _, rfl⟩
      · have marks := bounded_newline inside ground entry
        rw [size, fresh.1] at marks
        simpa using marks
  · rw [spelled]
    refine .inl ⟨intrusion.literal, ?_, ?_⟩
    · rw [List.append_assoc, List.cons_append]
      exact accepted.refuses (refuses_of_error refused _)
    · rw [List.append_assoc, List.cons_append]
      exact accepted.refuses (refuses_of_error refused _)

/-- Like scans refuse a line with a pad and without, or accept it in both forms. -/
theorem Alike.line_padded (alike : Alike s s') (body : List UInt8) (blank : IsPad pad) :
    (∃ literal, s.Refuses (Separator.replace (Input.terminated body)).bytes literal ∧
      s'.Refuses (Separator.replace (Input.terminated (body ++ pad))).bytes literal) ∨
    ∃ z z' seen seen', Accepts s (Separator.replace (Input.terminated body)).bytes seen (s.behind z) ∧
      Accepts s' (Separator.replace (Input.terminated (body ++ pad))).bytes seen' (s'.behind z') ∧
      PadsTo (Separator.replace body).bytes.length pad z z' := by
  rcases bare_line_padded alike.settled.grounded_bare ⟨rfl, rfl⟩ body blank with
    ⟨literal, refuses, refuses'⟩ | ⟨z, z', _, _, accepted, accepted', pads⟩
  · refine .inl ⟨literal, refuses.of_bare alike.settled, ?_⟩
    rw [← alike.bare] at refuses'
    exact refuses'.of_bare alike.settled'
  · obtain ⟨seen, taken⟩ := accepted.of_bare alike.settled
    rw [← alike.bare] at accepted'
    obtain ⟨seen', taken'⟩ := accepted'.of_bare alike.settled'
    exact .inr ⟨z, z', seen, seen', taken, taken', pads⟩

theorem Alike.run (alike : Alike s s') (bytes : List UInt8) :
    (∃ literal, s.Refuses bytes literal ∧ s'.Refuses bytes literal) ∨
    ∃ z seen seen', Accepts s bytes seen (s.behind z) ∧ Accepts s' bytes seen' (s'.behind z) := by
  rcases run_cases s.bare bytes with ⟨seen, z, accepted, -⟩ |
    ⟨front, byte, back, seen, z, intrusion, rfl, accepted, refused, -⟩
  · obtain ⟨seen, taken⟩ := accepted.of_bare alike.settled
    rw [← alike.bare] at accepted
    obtain ⟨seen', taken'⟩ := accepted.of_bare alike.settled'
    exact .inr ⟨z, seen, seen', taken, taken'⟩
  · have refuses : s.bare.Refuses (front ++ byte :: back) intrusion.literal :=
      accepted.refuses (refuses_of_error refused back)
    refine .inl ⟨intrusion.literal, refuses.of_bare alike.settled, ?_⟩
    rw [← alike.bare] at refuses
    exact refuses.of_bare alike.settled'

end Scan

/-! ## Entries and outcomes of padded lines -/

/-- Two entries made up of the same lines, without pads and with them. Each line adds its bytes, separators
replaced and shebangs rewritten, and the same first byte of code, if it has any. -/
inductive Entry.Padded : List PaddedLine → Entry → Entry → Prop where
  | empty : Padded [] {} {}
  | line {lines : List PaddedLine} {e e' : Entry} {line : PaddedLine} {front : Array UInt8}
      {start : Option Nat} (before : Padded lines e e')
      (length : front.size = (Separator.replace line.body).bytes.length)
      (inside : ∀ offset ∈ start, offset < front.size) :
      Padded (lines ++ [line]) (e.append ⟨front.push Byte.newline, start⟩)
        (e'.append ⟨(front ++ line.pad).push Byte.newline, start⟩)

/-- Two episodes take the same lines, without pads and with them, and leave the same lines behind. -/
inductive Outcome.Padded (taken more : List PaddedLine) : Outcome → Outcome → Prop where
  | complete {e e' : Entry} {tail : Input.Tail} (entries : Entry.Padded taken e e') :
      Padded taken more ⟨e, none, ⟨more.map PaddedLine.body, tail⟩⟩
        ⟨e', none, ⟨more.map PaddedLine.full, tail⟩⟩
  | refused {e e' : Entry} {i i' : Intrusion} {tail : Input.Tail} (literal : i'.literal = i.literal) :
      Padded taken more ⟨e, some (.intrusion i), ⟨more.map PaddedLine.body, tail⟩⟩
        ⟨e', some (.intrusion i'), ⟨more.map PaddedLine.full, tail⟩⟩
  | exhausted {e e' rest : Entry} {cause : Cause} {tail : Input.Tail} (last : more = [])
      (entries : Entry.Padded taken e e') (other : ∀ i, cause ≠ .intrusion i) :
      Padded taken more ⟨e.append rest, some cause, ⟨[], tail⟩⟩
        ⟨e'.append rest, some cause, ⟨[], tail⟩⟩

inductive Outcome.PaddedAll : List PaddedLine → List Outcome → List Outcome → Prop where
  | nil : PaddedAll [] [] []
  | cons {taken more : List PaddedLine} {o o' : Outcome} {all all' : List Outcome}
      (first : Padded taken more o o') (rest : PaddedAll more all all') :
      PaddedAll (taken ++ more) (o :: all) (o' :: all')

namespace Policy

variable {p : Policy} {s s' z z' : Scan} {bytes body body' : List UInt8} {tail : Input.Tail}
  {line : PaddedLine} {lines done taken : List PaddedLine} {sink sink' : Sink} {literal : Literal}

theorem line_of_refuses
    (refuses : Scan.Refuses { s with lineStart := s.text.size }
      (Separator.replace (Input.terminated body)).bytes literal) :
    ∃ intrusion, (p.line s body).outcome = .error intrusion ∧ intrusion.literal = literal := by
  obtain ⟨intrusion, stopped, same⟩ := refuses
  exact ⟨intrusion, by simp only [Policy.line, Scan.line, stopped], same⟩

/-- The first episode goes on where `done` lines were taken before, and others follow it. -/
def PaddedFrom (done lines : List PaddedLine) (outcomes outcomes' : List Outcome) : Prop :=
  ∃ taken more first first' rest rest', lines = taken ++ more ∧ outcomes = first :: rest ∧
    outcomes' = first' :: rest' ∧ Outcome.Padded (done ++ taken) more first first' ∧
    Outcome.PaddedAll more rest rest'

theorem PaddedFrom.all {outcomes outcomes' : List Outcome}
    (padded : PaddedFrom [] lines outcomes outcomes') : Outcome.PaddedAll lines outcomes outcomes' := by
  obtain ⟨taken, more, first, first', rest, rest', rfl, rfl, rfl, same, others⟩ := padded
  exact .cons same others

theorem PaddedFrom.cons {outcomes outcomes' : List Outcome}
    (padded : PaddedFrom (done ++ [line]) lines outcomes outcomes') :
    PaddedFrom done (line :: lines) outcomes outcomes' := by
  obtain ⟨taken, more, first, first', rest, rest', rfl, cut, cut', same, others⟩ := padded
  rw [List.append_assoc] at same
  exact ⟨line :: taken, more, first, first', rest, rest', rfl, cut, cut', same, others⟩

theorem closing_of_accepts {bytes : List UInt8} {seen : List Sighting} {t : Scan}
    (accepted : Scan.Accepts { s with lineStart := s.text.size } (Separator.replace bytes).bytes seen
      t) :
    closing (.rest bytes) s = [⟨t.entry, some (.atEnd t.depth), ⟨[], .rest []⟩⟩] := by
  have ended : finish (.rest bytes) s {} #[] =
      { scan := t.closeLine, failure := some (.atEnd t.depth), input := ⟨[], .rest []⟩, sink := {},
        log := (#[] : Array Event) ++ seen.map Event.sighting } := by
    simp only [finish, Scan.line, Scan.run_eq accepted, Input.spent, Scan.closeLine]
  simp only [closing, ended, Reading.isResumable, Option.all_some, Cause.isRecoverable_atEnd]
  rfl

theorem closing_of_refuses {bytes : List UInt8}
    (refuses : Scan.Refuses { s with lineStart := s.text.size } (Separator.replace bytes).bytes
      literal) :
    ∃ entry intrusion, intrusion.literal = literal ∧ closing (.rest bytes) s =
      [⟨entry, some (.intrusion intrusion), ⟨[], .rest []⟩⟩, ⟨{}, some .endOfInput, ⟨[], .rest []⟩⟩] := by
  obtain ⟨intrusion, stopped, same⟩ := refuses
  have ended : (finish (.rest bytes) s {} #[]).outcome =
      ⟨(finish (.rest bytes) s {} #[]).entry, some (.intrusion intrusion), ⟨[], .rest []⟩⟩ := by
    simp only [finish, Scan.line, stopped, Reading.outcome, Input.spent]
  have resumable : (finish (.rest bytes) s {} #[]).isResumable = true :=
    congrArg (fun o : Outcome => o.failure.all Cause.isRecoverable) ended
  refine ⟨(finish (.rest bytes) s {} #[]).entry, intrusion, same, ?_⟩
  simp only [closing, ended, resumable, if_true]
  rfl

theorem closing_padded (alike : s.Alike s') (entries : Entry.Padded done s.entry s'.entry)
    (tail : Input.Tail) : PaddedFrom done [] (closing tail s) (closing tail s') := by
  cases tail with
  | cut outage =>
    have other (i : Intrusion) : Cause.outage outage ≠ .intrusion i := Cause.noConfusion
    have ended := @Outcome.Padded.exhausted _ _ _ _ {} _ (.cut outage) rfl entries other
    rw [Entry.append_empty, Entry.append_empty, ← List.append_nil done] at ended
    exact ⟨[], [], _, _, [], [], rfl, rfl, rfl, ended, .nil⟩
  | rest bytes =>
    rcases alike.startLine.run (Separator.replace bytes).bytes with
      ⟨literal, refuses, refuses'⟩ | ⟨z, seen, seen', accepted, accepted'⟩
    · obtain ⟨entry, i, rfl, closes⟩ := closing_of_refuses refuses
      obtain ⟨entry', i', same, closes'⟩ := closing_of_refuses refuses'
      have last := @Outcome.Padded.exhausted [] [] {} {} {} .endOfInput (.rest []) rfl .empty
        (fun _ => Cause.noConfusion)
      rw [closes, closes']
      exact ⟨[], [], _, _, _, _, rfl, rfl, rfl, .refused same, .cons last .nil⟩
    · have ended := @Outcome.Padded.exhausted _ _ _ _ z.entry _ (.rest []) rfl entries
        (Cause.atEnd_ne_intrusion z.depth)
      rw [← List.append_nil done] at ended
      rw [closing_of_accepts accepted, closing_of_accepts accepted', Scan.entry_behind,
        Scan.entry_behind]
      exact ⟨[], [], _, _, [], [], rfl, rfl, rfl, ended, .nil⟩

theorem padded_of_padsTo (entries : Entry.Padded done s.entry s'.entry)
    (pads : Scan.PadsTo (Separator.replace line.body).bytes.length line.pad z z') :
    Entry.Padded (done ++ [line]) (s.entry.append z.entry) (s'.entry.append z'.entry) := by
  obtain ⟨front, length, text, text'⟩ := pads.texts
  have extent : z'.extent = z.extent := congrArg Status.extent pads.status
  have entry : z.entry = ⟨front.push Byte.newline, z.codeStart⟩ := by rw [Scan.entry, text]
  have entry' : z'.entry = ⟨(front ++ line.pad).push Byte.newline, z.codeStart⟩ := by
    rw [Scan.entry, text', Status.codeStart, extent]
    rfl
  rw [entry, entry']
  refine entries.line length fun offset member => ?_
  obtain ⟨stretch, marked, rfl⟩ := Option.map_eq_some_iff.mp member
  exact length ▸ (pads.inside stretch marked).1

theorem outcomes_padded (blank : ∀ line ∈ lines, IsPad line.pad) (alike : s.Alike s')
    (entries : Entry.Padded done s.entry s'.entry) (tail : Input.Tail) :
    PaddedFrom done lines (p.outcomes tail (lines.map PaddedLine.body) s)
      (p.outcomes tail (lines.map PaddedLine.full) s') := by
  induction lines generalizing s s' done with
  | nil => exact closing_padded alike entries tail
  | cons line lines ih =>
    have blanks : ∀ line ∈ lines, IsPad line.pad := fun other member =>
      blank other (List.mem_cons_of_mem _ member)
    -- where an episode ends, both sessions begin the next with an empty scan
    have afresh := (ih blanks (Scan.alike_self Scan.sound_empty Scan.settled_empty) .empty).all
    rcases alike.startLine.line_padded line.body (blank line List.mem_cons_self) with
      ⟨literal, refuses, refuses'⟩ | ⟨z, z', seen, seen', accepted, accepted', pads⟩
    · obtain ⟨i, refused, rfl⟩ := line_of_refuses refuses
      obtain ⟨i', refused', same⟩ := line_of_refuses (p := p) refuses'
      exact ⟨[line], lines, _, _, _, _, rfl, outcomes_of_refused refused,
        outcomes_of_refused refused', .refused same, afresh⟩
    · have judged := line_of_accepts p accepted
      have judged' := line_of_accepts p accepted'
      have equal := @Scan.Alike.judgement _ _ _ _ p.settings p.vocabulary alike.startLine rfl rfl
        pads.status pads.codeBehind
      have next := padded_of_padsTo entries pads
      let closed := (Scan.behind { s with lineStart := s.text.size } z).closeLine
      rw [← Scan.entry_behind, ← Scan.entry_behind] at next
      by_cases complete : closed.judgement p.settings p.vocabulary = .complete
      · exact ⟨[line], lines, _, _, _, _, rfl, outcomes_of_complete judged complete,
          outcomes_of_complete judged' (equal.trans complete), .complete next, afresh⟩
      · have like := alike_reopen alike.startLine.code pads.status equal
          (alike.startLine.sound.accepts accepted) (alike.startLine.sound'.accepts accepted')
          (settled_reopen accepted p)
        have goes := @outcomes_of_open p s (lines.map PaddedLine.body) tail _ _ _ judged complete
        have goes' := @outcomes_of_open p s' (lines.map PaddedLine.full) tail _ _ _ judged'
          (equal ▸ complete)
        rw [List.map_cons, List.map_cons, goes, PaddedLine.full, goes']
        exact (ih blanks like next).cons

/-- Whatever blanks stand before the newlines of a text, a session has the same episodes. Each takes the
same lines and is complete, or refuses a byte of the same kind of literal, or ends with the input in the
same way. Its text has the pads of the lines it took, and its code starts at the same byte. -/
theorem session_padded (p : Policy) (prompt prompt' : List UInt8) {sink sink' : Sink}
    (unlimited : sink.IsUnlimited) (unlimited' : sink'.IsUnlimited) (text : List UInt8)
    (outage : Option Outage) (pads : Nat → List UInt8) (blank : ∀ i, IsPad (pads i)) :
    let lines := (Input.split text).1.mapIdx fun i body => PaddedLine.mk body (pads i)
    let padded := (lines.map fun line => Input.terminated line.full).flatten ++ (Input.split text).2
    Outcome.PaddedAll lines
      ((p.session prompt sink (Input.ofBytes text outage)).map Reading.outcome)
      ((p.session prompt' sink' (Input.ofBytes padded outage)).map Reading.outcome) := by
  intro lines padded
  have bodies : lines.map PaddedLine.body = (Input.split text).1 := by
    simp [lines, Function.comp_def, List.mapIdx_eq_zipIdx_map]
  have pads' : ∀ line ∈ lines, IsPad line.pad := by
    intro line member
    obtain ⟨i, inside, rfl⟩ := List.mem_mapIdx.mp member
    exact blank i
  have closed : ∀ body ∈ lines.map PaddedLine.full, Byte.newline ∉ body := by
    intro body member
    obtain ⟨line, among, rfl⟩ := List.mem_map.mp member
    have own : line.body ∈ (Input.split text).1 := bodies ▸ List.mem_map_of_mem among
    exact PaddedLine.newline_not_mem_full (pads' line among) ((Input.newline_not_mem_split text).1 _ own)
  have cut : Input.split padded = (lines.map PaddedLine.full, (Input.split text).2) := by
    have whole := Input.split_lines_tail closed (Input.newline_not_mem_split text).2
    rwa [List.map_map] at whole
  have input : Input.ofBytes padded outage =
      ⟨lines.map PaddedLine.full, (Input.ofBytes text outage).tail⟩ := by
    simp only [Input.ofBytes, cut]
  have input' : Input.ofBytes text outage =
      ⟨lines.map PaddedLine.body, (Input.ofBytes text outage).tail⟩ := by
    rw [bodies]
    rfl
  rw [session_outcomes p prompt unlimited, session_outcomes p prompt' unlimited', input, input']
  exact (outcomes_padded pads' (Scan.alike_self Scan.sound_empty Scan.settled_empty) .empty _).all

/-- A line with a trailing operator, its operand, and an unclosed rune literal, with carriage returns. -/
theorem session_padded_crlf :
    let text : List UInt8 := [0x78, 0x2b, 0x0a, 0x79, 0x0a, 0x27, 0x0a]
    let crlf : List UInt8 := [0x78, 0x2b, 0x0d, 0x0a, 0x79, 0x0d, 0x0a, 0x27, 0x0d, 0x0a]
    let lines : List PaddedLine := [⟨[0x78, 0x2b], [0x0d]⟩, ⟨[0x79], [0x0d]⟩, ⟨[0x27], [0x0d]⟩]
    Outcome.PaddedAll lines ((session {} [] {} (Input.ofBytes text none)).map Reading.outcome)
      ((session {} [] {} (Input.ofBytes crlf none)).map Reading.outcome) := by
  intro text crlf lines
  have pad : IsPad [0x0d] := by
    intro byte member
    obtain rfl := List.mem_singleton.mp member
    decide
  have cut : Input.split text = ([[0x78, 0x2b], [0x79], [0x27]], []) := by decide
  have unlimited : Sink.IsUnlimited {} := ⟨rfl, rfl⟩
  have all := session_padded {} [] [] unlimited unlimited text none (fun _ => [0x0d]) fun _ => pad
  rw [cut] at all
  exact all

end Policy

end Linewise
