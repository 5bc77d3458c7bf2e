import Linewise.Proofs.Lines
import Linewise.Proofs.Respelling

/-! The text of an entry, read as an input of its own, is the same entry again, unless a shebang
right after an undecided slash on the last line made a comment of code (`Policy.read_again_iff`). -/

namespace Linewise

open Shebang (bangs Merges)

/-! ## Respelled lines -/

namespace Scan

variable {body again : List UInt8}

theorem replace_respelled {front back : List UInt8} (front' : ¬ Separator.bytes <:+: front)
    (back' : ¬ Separator.bytes <:+: back) :
    (Separator.replace (front ++ Byte.slash :: Byte.slash :: back)).bytes =
      front ++ Byte.slash :: Byte.slash :: back := by
  have second := Separator.replace_append_cons Separator.slash_foreign [] back
  rw [List.nil_append] at second
  rw [Separator.replace_append_cons Separator.slash_foreign, second,
    Separator.replace_of_not_infix front', Separator.replace_of_not_infix back']
  rfl

theorem body_of_shebang {front back : List UInt8}
    (spelled : Input.terminated body = front ++ Byte.hash :: Byte.bang :: back) :
    ∃ rest, back = Input.terminated rest ∧ body = front ++ Byte.hash :: Byte.bang :: rest := by
  rcases List.eq_nil_or_concat back with rfl | ⟨rest, last, rfl⟩
  · have ends := congrArg List.getLast? spelled
    simp [Input.terminated] at ends
    exact absurd ends (by decide)
  · have ended : body ++ [Byte.newline] =
        (front ++ Byte.hash :: Byte.bang :: rest) ++ [last] := by
      simpa [Input.terminated] using spelled
    obtain ⟨same, newline⟩ := List.append_inj' ended rfl
    obtain rfl : Byte.newline = last := by simpa using newline
    exact ⟨rest, by simp [Input.terminated], same⟩

theorem Respells.terminated (respells : Respells (Input.terminated body) again)
    (closed : Byte.newline ∉ body) (plain : ¬ Separator.bytes <:+: body) :
    ∃ line, again = Input.terminated line ∧ Byte.newline ∉ line ∧
      (Separator.replace (Input.terminated line)).bytes = Input.terminated line := by
  generalize spelled : Input.terminated body = bytes at respells
  cases respells with
  | same =>
    refine ⟨body, spelled.symm, closed, ?_⟩
    rw [Separator.replace_terminated, Separator.replace_of_not_infix plain]
    rfl
  | shebang front back =>
    obtain ⟨rest, rfl, rfl⟩ := body_of_shebang spelled
    have foreign : Byte.newline ≠ Byte.slash := by decide
    refine ⟨front ++ Byte.slash :: Byte.slash :: rest, by simp [Input.terminated], ?_, ?_⟩
    · simp only [List.mem_append, List.mem_cons, not_or] at closed ⊢
      exact ⟨closed.1, foreign, foreign, closed.2.2.2⟩
    · rw [Separator.replace_terminated, replace_respelled]
      · rfl
      · exact fun inside => plain (inside.trans (List.infix_append' [] front _))
      · exact fun inside => plain (inside.trans ⟨front ++ [Byte.hash, Byte.bang], [], by simp⟩)

/-! ## Judging a line again -/

variable {t : Scan} {seen : List Sighting} {next : Option Extent} {p : Policy}

/-- On the line, a shebang follows an undecided slash, and without that slash there is no code, or the
code ends in a keyword. -/
def LosesSlash (p : Policy) (t : Scan) (seen : List Sighting) : Prop :=
  ∃ x, Merges seen x ∧ t.lineStart ≤ x.offset ∧ (x.after.extent = none ∨
    p.vocabulary.promisesMore (t.withExtent x.after.extent).lineCode = true)

/-- A line that ends in a slash does not end in a keyword. -/
theorem lastWord_of_merged {x : Sighting} (sound : t.Sound) (here : t.lineStart ≤ x.offset)
    (slash : t.text[x.offset]? = some Byte.slash) {before : Option Extent}
    (marked : t.extent = Extent.mark before x.offset) : lastWord t.lineCode = none := by
  obtain ⟨extent, found⟩ : ∃ extent, t.extent = some extent := by
    rw [marked]; cases before <;> exact ⟨_, rfl⟩
  obtain ⟨last, -⟩ := Extent.mark_eq_some (marked.symm.trans found)
  obtain ⟨ordered, -, filled⟩ := sound.marks extent found
  have inside := filled.lt
  have ends : t.lineCode.getLast? = some Byte.slash := by
    simp only [lineCode, found]
    rw [getLast?_extract (by omega) (by omega), Nat.add_sub_cancel, last, slash]
  exact lastWord_of_getLast? ends (by decide) (by decide)

theorem complete_withExtent_iff (complete : t.judgement p.settings p.vocabulary = .complete)
    (start : next.map Extent.first = t.extent.map Extent.first) :
    (t.withExtent next).judgement p.settings p.vocabulary = .complete ↔
      p.vocabulary.promisesMore (t.withExtent next).lineCode = false := by
  have resolved : (t.withExtent next).isResolved p.settings = true := by
    rw [isResolved_withExtent (Extent.isSome_of_first start)]
    exact (judgement_eq_complete_iff.mp complete).1
  rw [judgement_eq_complete_iff, resolved]
  simp

/-- A line that completes a unit does so again, with the code starting in the same place, unless it
loses a slash. -/
theorem Again.complete_iff (again : Again t seen next)
    (complete : t.closeLine.judgement p.settings p.vocabulary = .complete) :
    ((t.closeLine.withExtent next).judgement p.settings p.vocabulary = .complete ∧
      next.map Extent.first = t.extent.map Extent.first) ↔ ¬ LosesSlash p t.closeLine seen := by
  cases again with
  | alike apart alike =>
    have same := judgement_withExtent (s := t.closeLine) alike p.settings p.vocabulary
    refine iff_of_true ⟨same.trans complete, alike.first⟩ ?_
    rintro ⟨x, merges, -⟩
    exact apart x merges
  | merged x merges only comment here slash marked alike =>
    cases before : x.after.extent with
    | none =>
      rw [before] at marked alike
      have nothing : next = none := by
        have blank := alike.isSome
        simpa using blank
      refine iff_of_false ?_ (not_not_intro ⟨x, merges, here, .inl before⟩)
      rintro ⟨-, start⟩
      simp [nothing, marked, Extent.mark] at start
    -- without the slash, the line is judged by the word that the code before it ends in
    | some early =>
      rw [before] at marked alike
      have start : next.map Extent.first = t.extent.map Extent.first := by
        rw [alike.first, marked]; rfl
      have code : (t.closeLine.withExtent next).lineCode =
          (t.closeLine.withExtent (some early)).lineCode :=
        lineCode_withExtent (s := t.closeLine.withExtent (some early)) alike
      rw [complete_withExtent_iff complete start, code]
      constructor
      · rintro ⟨silent, -⟩ ⟨y, merges', -, blank | promised⟩
        · rw [only y merges', before] at blank
          contradiction
        · rw [only y merges', before, silent] at promised
          contradiction
      · intro kept
        refine ⟨Bool.eq_false_iff.mpr fun promised => kept ⟨x, merges, here, .inr ?_⟩, start⟩
        rw [before]
        exact promised

theorem unresolved_of_merged {x : Sighting} (sound : t.Sound) (here : t.lineStart ≤ x.offset)
    (slash : t.text[x.offset]? = some Byte.slash) {before : Option Extent}
    (marked : t.extent = Extent.mark before x.offset)
    (more : t.judgement p.settings p.vocabulary ≠ .complete) : t.isResolved p.settings = false := by
  have silent : p.vocabulary.promisesMore t.lineCode = false := by
    simp [Vocabulary.promisesMore, lastWord_of_merged sound here slash marked]
  exact Bool.eq_false_iff.mpr fun resolved =>
    more (judgement_eq_complete_iff.mpr ⟨resolved, silent⟩)

theorem Again.open_of_open (again : Again t seen next) (sound : t.Sound)
    (sound' : (t.withExtent next).Sound)
    (more : t.closeLine.judgement p.settings p.vocabulary ≠ .complete) :
    (t.closeLine.withExtent next).judgement p.settings p.vocabulary =
        t.closeLine.judgement p.settings p.vocabulary ∧
      next.map Extent.first = t.extent.map Extent.first := by
  cases again with
  | alike apart alike => exact ⟨judgement_withExtent (s := t.closeLine) alike _ _, alike.first⟩
  | merged x merges only comment here slash marked alike =>
    have unresolved : t.closeLine.isResolved p.settings = false :=
      unresolved_of_merged sound.closeLine here slash marked more
    have start : next.map Extent.first = t.extent.map Extent.first := by
      cases before : x.after.extent with
      | some early => rw [alike.first, marked, before]; rfl
      | none =>
        -- without code but for the slash, nothing could leave the unit open
        have nothing : next = none := by
          have blank := alike.isSome
          simpa [before] using blank
        obtain ⟨level, silent, -⟩ := sound'.blank nothing
        have plain : t.closeLine.context = .code := by simp [closeLine, comment, Context.atLineEnd]
        have code : t.extent.isSome = true := by rw [marked, before]; rfl
        have resolved := (@isResolved_iff t.closeLine p.settings).mpr
          ⟨level, silent, plain, .inl code⟩
        simp [unresolved] at resolved
    refine ⟨?_, start⟩
    have same : next.isSome = t.closeLine.extent.isSome := Extent.isSome_of_first start
    rw [judgement_eq_unfinished_iff.mpr unresolved, judgement_eq_unfinished_iff,
      isResolved_withExtent same, unresolved]

theorem entry_withExtent_eq_iff :
    (t.withExtent next).entry = t.entry ↔ next.map Extent.first = t.extent.map Extent.first := by
  simp [entry, Status.codeStart, withExtent]

theorem losesSlash_append_iff {earlier : List Sighting}
    (before : ∀ x ∈ earlier, x.offset < t.lineStart) :
    LosesSlash p t (earlier ++ seen) ↔ LosesSlash p t seen := by
  have bang {offset : Nat} (member : offset ∈ bangs earlier) : offset < t.lineStart := by
    obtain ⟨x, listed, rfl⟩ := List.mem_map.mp member
    exact before x (List.mem_filter.mp listed).1
  constructor
  · rintro ⟨x, ⟨member, slash, shebang⟩, here, lost⟩
    rw [Shebang.bangs_append] at shebang
    refine ⟨x, ⟨?_, slash, ?_⟩, here, lost⟩
    · rcases List.mem_append.mp member with old | now
      · have := before x old
        omega
      · exact now
    · rcases List.mem_append.mp shebang with old | now
      · have := bang old
        omega
      · exact now
  · rintro ⟨x, ⟨member, slash, shebang⟩, here, lost⟩
    refine ⟨x, ⟨List.mem_append_right _ member, slash, ?_⟩, here, lost⟩
    rw [Shebang.bangs_append]
    exact List.mem_append_right _ shebang

end Scan

/-! ## Reading an entry again -/

/-- Another reading gives the same entry, and leaves nothing to read. -/
structure Reading.Repeats (r again : Reading) : Prop where
  complete : again.failure = none
  entry : again.entry = r.entry
  input : again.input = ⟨[], .rest []⟩

namespace Policy

variable {p : Policy} {s t : Scan} {body line : List UInt8} {bodies : List (List UInt8)}
  {tail : Input.Tail} {sink : Sink} {log : Array Event} {extent next : Option Extent}
  {seen : List Sighting}

theorem read_of_complete {prompt : List UInt8} {input : Input}
    (complete : (p.read prompt sink input).failure = none) :
    ∃ next, p.read prompt sink input = p.follow input.tail input.lines {} next #[] :=
  read_of_clean (Reading.clean_of_complete complete)

theorem repeats_single {r : Reading} (unlimited : sink.IsUnlimited)
    (judged : p.line s line = p.judge seen t) :
    r.Repeats (p.follow (.rest []) [line] s sink log) ↔
      t.judgement p.settings p.vocabulary = .complete ∧ t.entry = r.entry := by
  have outcome : (p.line s line).outcome = .ok (t.judgement p.settings p.vocabulary) := by
    rw [judged]; rfl
  by_cases complete : t.judgement p.settings p.vocabulary = .complete
  · have scan : (p.line s line).scan = t := by
      rw [judged, judge, Scan.conclude_of_ne (by simp [complete])]
    rw [follow_complete (complete ▸ outcome), scan]
    constructor
    · exact fun repeats => ⟨complete, repeats.entry⟩
    · rintro ⟨-, entry⟩
      exact ⟨rfl, entry, rfl⟩
  · obtain ⟨next, -, goes⟩ := follow_unfinished outcome complete unlimited
    rw [goes]
    refine iff_of_false (fun repeats => ?_) fun both => complete both.1
    exact failure_finish _ _ _ _ repeats.complete

/-- The line that was handed out for one that took a scan `s` to `t`: read again from other marks, it
leads to `t` with other marks. -/
structure LineAgain (p : Policy) (s t : Scan) (seen : List Sighting) (extent : Option Extent)
    (line : List UInt8) (next : Option Extent) : Prop where
  closed : Byte.newline ∉ line
  text : t.text.toList = s.text.toList ++ Input.terminated line
  judged : ∃ seen', p.line (s.withExtent extent) line = p.judge seen' (t.closeLine.withExtent next)
  sound : (t.withExtent next).Sound
  again : Scan.Again t seen next

theorem line_again (p : Policy) (sound : s.Sound) (sound' : (s.withExtent extent).Sound)
    (start : extent.map Extent.first = s.extent.map Extent.first) (settled : s.Settled)
    (closed : Byte.newline ∉ body) (plain : ¬ Separator.bytes <:+: body)
    (accepted : Scan.Accepts { s with lineStart := s.text.size }
      (Separator.replace (Input.terminated body)).bytes seen t) :
    ∃ line next, LineAgain p s t seen extent line next := by
  have replaced : (Separator.replace (Input.terminated body)).bytes = Input.terminated body := by
    rw [Separator.replace_terminated, Separator.replace_of_not_infix plain]
    rfl
  have alike := Scan.alike_of_codeStart sound sound' start
  obtain ⟨bytes, seen', next, respells, text, reached, again⟩ :=
    Scan.scanned_again sound.startLine rfl ⟨settled.hash, settled.slash⟩ alike accepted
  obtain ⟨line, rfl, closed', replaced'⟩ := (replaced ▸ respells).terminated closed plain
  refine ⟨line, next, closed', text, ⟨seen', ?_⟩, sound'.startLine.accepts reached, again⟩
  have run : (s.withExtent extent).line (Input.terminated line) =
      ⟨t.withExtent next, seen', none⟩ := Scan.run_eq reached
  simp only [Policy.line, replaced', run, judge]
  rfl

/-- The lines that were handed out for an episode from a scan `s` on: read again from other marks,
they give its entry again, unless a slash is lost. -/
structure LinesAgain (p : Policy) (r : Reading) (s : Scan) (extent : Option Extent)
    (again : List (List UInt8)) : Prop where
  text : r.scan.text.toList = s.text.toList ++ (again.map Input.terminated).flatten
  closed : ∀ line ∈ again, Byte.newline ∉ line
  repeats : ∀ (sink : Sink) (log : Array Event), sink.IsUnlimited →
    (r.Repeats (p.follow (.rest []) again (s.withExtent extent) sink log) ↔
      ¬ Scan.LosesSlash p r.scan r.sightings)

theorem LineAgain.last {done : List (List UInt8)} (recorded : Recorded done s log)
    (accepted : Scan.Accepts { s with lineStart := s.text.size }
      (Separator.replace (Input.terminated body)).bytes seen t)
    (judged : p.line s body = p.judge seen t.closeLine)
    (complete : t.closeLine.judgement p.settings p.vocabulary = .complete)
    (found : LineAgain p s t seen extent line next) :
    LinesAgain p (p.follow tail (body :: bodies) s sink log) s extent [line] := by
  have sightings : (p.follow tail (body :: bodies) s sink log).sightings =
      sightingsOf log ++ seen := by
    rw [follow_completed judged complete]
    exact sightingsOf_judge log p seen t.closeLine
  have scan : (p.follow tail (body :: bodies) s sink log).scan = t.closeLine := by
    rw [follow_completed judged complete]
  have entry : (p.follow tail (body :: bodies) s sink log).entry = t.closeLine.entry :=
    congrArg Scan.entry scan
  have text : t.closeLine.text.toList = s.text.toList ++ Input.terminated line := found.text
  have earlier : ∀ x ∈ sightingsOf log, x.offset < t.closeLine.lineStart := by
    intro x member
    have lineStart : t.closeLine.lineStart = s.text.size := accepted.lineStart_eq
    have listed := List.mem_map_of_mem (f := Sighting.offset) member
    rw [recorded.told.offsets, List.mem_range] at listed
    rwa [lineStart]
  obtain ⟨seen', judged'⟩ := found.judged
  refine ⟨by simpa [scan] using text, by simpa using found.closed, fun sink' log' free => ?_⟩
  rw [repeats_single free judged', sightings, scan, Scan.losesSlash_append_iff earlier,
    ← found.again.complete_iff complete, entry, Scan.entry_withExtent_eq_iff]
  rfl

theorem LineAgain.cons {r : Reading} {lines : List (List UInt8)}
    (more : t.closeLine.judgement p.settings p.vocabulary ≠ .complete)
    (same : (t.closeLine.withExtent next).judgement p.settings p.vocabulary =
      t.closeLine.judgement p.settings p.vocabulary)
    (found : LineAgain p s t seen extent line next)
    (later : LinesAgain p r (p.judge seen t.closeLine).scan.openLine next lines) :
    LinesAgain p r s extent (line :: lines) := by
  obtain ⟨seen', judged'⟩ := found.judged
  have outcome : (p.line (s.withExtent extent) line).outcome =
      .ok (t.closeLine.judgement p.settings p.vocabulary) := by rw [judged', ← same]; rfl
  have reached : (p.line (s.withExtent extent) line).scan.openLine =
      (p.judge seen t.closeLine).scan.openLine.withExtent next := by
    rw [judged']
    simp only [judge, same]
    rfl
  refine ⟨?_, List.forall_mem_cons.mpr ⟨found.closed, later.closed⟩, fun sink log free => ?_⟩
  · rw [later.text, List.map_cons, List.flatten_cons, ← List.append_assoc, ← found.text]
    rfl
  · obtain ⟨next, free', goes⟩ := follow_unfinished outcome more free
    rw [goes, reached]
    exact later.repeats next _ free'

/-- The lines of an episode can be read again from a scan that differs only in where the code ends. -/
theorem follow_again {done : List (List UInt8)} (recorded : Recorded done s log)
    (sound : (s.withExtent extent).Sound)
    (start : extent.map Extent.first = s.extent.map Extent.first) (settled : s.Settled)
    (plain : ∀ body ∈ bodies, Byte.newline ∉ body ∧ ¬ Separator.bytes <:+: body)
    (complete : (p.follow tail bodies s sink log).failure = none) :
    ∃ again, LinesAgain p (p.follow tail bodies s sink log) s extent again := by
  induction bodies generalizing s sink log done extent with
  | nil => exact absurd complete (failure_finish _ _ _ _)
  | cons body bodies ih =>
    obtain ⟨⟨closed, apart⟩, later⟩ := List.forall_mem_cons.mp plain
    rcases line_cases p s body with ⟨seen, t, accepted, judged⟩ |
      ⟨front, byte, back, seen, t, intrusion, spelled, accepted, refused, stopped⟩
    · have outcome : (p.line s body).outcome =
          .ok (t.closeLine.judgement p.settings p.vocabulary) := by rw [judged]; rfl
      obtain ⟨line, next, found⟩ :=
        line_again p recorded.sound sound start settled closed apart accepted
      by_cases whole : t.closeLine.judgement p.settings p.vocabulary = .complete
      · exact ⟨[line], found.last recorded accepted judged whole⟩
      · -- only the end of the code may have moved, so the line leaves the unit open again
        obtain ⟨sink', goes⟩ := follow_of_open outcome whole (Reading.clean_of_complete complete)
        obtain ⟨same, start'⟩ :=
          found.again.open_of_open (recorded.accepts accepted).1 found.sound whole
        have reopened : ((p.judge seen t.closeLine).scan.openLine.withExtent next).Sound := by
          have concluded := (found.sound.closeLine.conclude p.settings p.vocabulary).openLine
          have closing : (t.withExtent next).closeLine = t.closeLine.withExtent next := rfl
          rw [closing, same] at concluded
          exact concluded
        have ended := (Scan.settled_of_terminated accepted).nextLine
        rw [goes] at complete ⊢
        rw [judged] at complete ⊢
        obtain ⟨lines, again⟩ := ih (recorded.next accepted p) reopened start'
          ⟨ended.hash, ended.slash⟩ later complete
        exact ⟨line :: lines, found.cons whole same again⟩
    · rw [follow_refused (by rw [stopped])] at complete
      contradiction

/-- The text of an entry from an input without separators, read as an input of its own, is the same
entry with nothing left to read, unless its last line loses a slash before a shebang. -/
theorem read_again_iff (p : Policy) (prompt prompt' : List UInt8) {sink sink' : Sink}
    (unlimited : sink'.IsUnlimited) {text : List UInt8} (outage : Option Outage)
    (plain : ¬ Separator.bytes <:+: text)
    (complete : (p.read prompt sink (Input.ofBytes text outage)).failure = none) :
    let r := p.read prompt sink (Input.ofBytes text outage)
    r.Repeats (p.read prompt' sink' (Input.ofBytes r.scan.text.toList none)) ↔
      ¬ Scan.LosesSlash p r.scan r.sightings := by
  intro r
  obtain ⟨next, follows⟩ := read_of_complete complete
  have lines : ∀ body ∈ (Input.ofBytes text outage).lines,
      Byte.newline ∉ body ∧ ¬ Separator.bytes <:+: body := fun body member =>
    ⟨(Input.newline_not_mem_split text).1 body member,
      fun inside => plain (inside.trans (Input.infix_of_mem_split member))⟩
  obtain ⟨again, found⟩ := @follow_again p {} _ _ next #[] none [] recorded_empty
    Scan.sound_empty rfl ⟨nofun, nofun⟩ lines (follows ▸ complete)
  rw [← follows] at found
  have whole : r.scan.text.toList = (again.map Input.terminated).flatten := found.text
  have input : Input.ofBytes r.scan.text.toList none = ⟨again, .rest []⟩ := by
    rw [whole, Input.ofBytes, Input.split_lines found.closed]
    rfl
  obtain ⟨next', free, follows'⟩ := read_eq_follow p prompt' ⟨again, .rest []⟩ unlimited
  rw [input, follows']
  exact found.repeats next' #[] free

/-- A line with a shebang and the name after it are read again. A slash right before a shebang is code,
but not when it is read again. -/
theorem read_again_two_shebangs :
    let shebang := read ⟨⟨2⟩, .go⟩ [] {} (Input.ofBytes [0x23, 0x21, 0x0a, 0x78, 0x0a] none)
    let slash := read {} [] {} (Input.ofBytes [0x2f, 0x23, 0x21, 0x0a] none)
    shebang.Repeats (read ⟨⟨2⟩, .go⟩ [] {} (Input.ofBytes shebang.scan.text.toList none)) ∧
      ¬ slash.Repeats (read {} [] {} (Input.ofBytes slash.scan.text.toList none)) := by
  intro shebang slash
  constructor
  · refine (@read_again_iff ⟨⟨2⟩, .go⟩ [] [] {} {} ⟨rfl, rfl⟩ _ none (by decide)
      (by decide +kernel)).mpr ?_
    rintro ⟨x, merges, -⟩
    have apart : ∀ x ∈ shebang.sightings, x.after.context ≠ .slash := by decide +kernel
    exact apart x merges.member merges.slash
  · refine (not_congr (@read_again_iff {} [] [] {} {} ⟨rfl, rfl⟩ _ none (by decide)
      (by decide +kernel))).mpr (not_not_intro ?_)
    have first : (⟨0, Byte.slash, .code, { context := .slash }⟩ : Sighting) ∈ slash.sightings := by
      decide +kernel
    exact ⟨_, ⟨first, rfl, by decide +kernel⟩, by decide +kernel, .inl rfl⟩

end Policy

end Linewise
