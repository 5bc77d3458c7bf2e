import Linewise.Proofs.Alike
import Linewise.Proofs.Blanks
import Linewise.Proofs.Pieces

/-! Inside brackets a line may be broken at any blank that is not in a line comment or a quoted
literal: the brackets hold the unit open, and the line that closes them is judged by the same last
word. So the entry is the same but for the bytes that are newlines now (`Policy.read_broken`). -/

namespace Linewise

/-- A blank can give way to a newline here: the newline would not end a comment, nor be refused. -/
def Context.AllowsBreak (context : Context) : Prop :=
  context ≠ .lineComment ∧ ∀ l, context ≠ .quoted l ∧ context ≠ .escape l

/-- The entries differ only in a byte that is a newline in the second. -/
structure Entry.BrokenAt (place : Nat) (e e' : Entry) : Prop where
  text : e'.text.toList = e.text.toList.set place Byte.newline
  start : e'.start = e.start
  inside : place < e.text.size

theorem Entry.BrokenAt.append {place : Nat} {e e' : Entry} (broken : BrokenAt place e e')
    (more : Entry) : BrokenAt place (e.append more) (e'.append more) := by
  have size : e'.text.size = e.text.size := by
    simpa using congrArg List.length broken.text
  refine ⟨?_, ?_, ?_⟩
  · simp only [Entry.append, Array.toList_append, broken.text]
    rw [List.set_append_left _ _ (by simpa using broken.inside)]
  · simp only [Entry.append, broken.start, size]
  · have := broken.inside
    simp only [Entry.append, Array.size_append]
    omega

theorem Separator.replace_terminated_cons {byte : UInt8} (blank : Byte.isBlank byte = true)
    (left right : List UInt8) :
    (replace (Input.terminated (left ++ byte :: right))).bytes =
      (replace left).bytes ++ byte :: (replace (Input.terminated right)).bytes := by
  rw [Input.terminated, List.append_assoc, List.cons_append]
  exact congrArg Replaced.bytes (replace_append_cons (blank_foreign blank) left _)

namespace Scan

variable {s t u w w' z : Scan} {byte : UInt8} {effect : Effect} {bytes : List UInt8}
  {seen : List Sighting} {extent later : Extent}

theorem effect_newline_of_allowsBreak (allows : s.context.AllowsBreak)
    (blank : Byte.isBlank byte = true) (accepted : s.effect byte = .ok effect) :
    s.effect Byte.newline = .ok effect := by
  cases entry : s.effect Byte.newline with
  | ok found =>
    have same := (effect_blank entry blank).symm.trans accepted
    cases same
    rfl
  | error intrusion =>
    obtain ⟨-, -, -, inside | inside⟩ := intrusion_of_error entry
    · exact absurd inside (allows.2 _).1
    · exact absurd inside (allows.2 _).2

theorem beginsLine_of_blank (allows : s.context.AllowsBreak)
    (accepted : s.effect Byte.newline = .ok effect) :
    effect.context.BeginsLine ∧ effect.context ≠ .hash ∧ effect.context ≠ .slash := by
  have entry := effect_eq_ok_iff.mp accepted
  refine ⟨Context.beginsLine_of_ne (fun comment => ?_) (fun sign => ?_), fun hash => ?_, fun slash => ?_⟩
  · rcases Context.opens_of_lineComment entry comment with old | slash | bang
    · exact allows.1 old
    · exact absurd slash (by decide)
    · exact absurd bang (by decide)
  · exact Context.ne_sign_of_isBlank entry rfl
  · exact absurd (Context.role_of_undecided entry (congrArg Context.undecided? hash)).1 (by decide)
  · exact absurd (Context.role_of_undecided entry (congrArg Context.undecided? slash)).1 (by decide)

/-- Brackets count as code, so the depth cannot change without a mark. -/
theorem Accepts.depth_of_unmarked (accepted : Accepts s bytes seen t) (blank : t.extent = none) :
    s.extent = none ∧ t.depth = s.depth := by
  induction accepted with
  | nil => exact ⟨blank, rfl⟩
  | @cons s t byte effect bytes seen one _ ih =>
    obtain ⟨none, level⟩ := ih blank
    obtain ⟨before, uncounted, -⟩ := uncounted_of_unmarked none
    have same := Context.same_of_uncounted (effect_eq_ok_iff.mp one) uncounted
    refine ⟨before, level.trans ?_⟩
    simp [apply, Status.after, same, Nesting.apply]

theorem Accepts.around {front back : List UInt8} {x : Sighting}
    (accepted : Accepts s (front ++ byte :: back) seen t) (here : seen[front.length]? = some x) :
    ∃ first y effect rest, seen = first ++ y.sighting byte effect :: rest ∧
      x = y.sighting byte effect ∧ Accepts s front first y ∧ y.effect byte = .ok effect ∧
      Accepts (y.apply byte effect) back rest t := by
  obtain ⟨first, _, y, rfl, before, behind⟩ := accepted.split
  have length : first.length = front.length := by
    simpa using congrArg List.length before.map_byte
  cases behind with
  | cons one rest =>
    rw [← length, List.getElem?_append_right (Nat.le_refl _), Nat.sub_self] at here
    exact ⟨first, y, _, _, rfl, (Option.some.inj here).symm, before, one, rest⟩

theorem lineCode_append (sound : w.Sound) (early : w.lineStart ≤ w.text.size)
    (code : w.extent = some extent) (marked : z.extent = some later) :
    (w.behind z).lineCode =
      (w.text.extract (max extent.first w.lineStart) w.text.size).toList ++ z.codeBehind true := by
  have before : max extent.first w.lineStart ≤ w.text.size :=
    Nat.max_le.mpr ⟨Nat.le_of_lt (sound.marks extent code).2.1.lt, early⟩
  have cut := @extract_across w.text z.text _ later.last before
  simp only [lineCode, codeBehind, behind, code, marked, Option.map_some, Extent.join, Extent.shift,
    if_true, cut, Array.toList_append]

theorem solid_codeBehind (whole : (w.behind z).Sound) (marked : z.extent = some later) :
    ∃ byte ∈ z.codeBehind true, Byte.isBlank byte = false := by
  obtain ⟨stretch, joined, last⟩ : ∃ stretch, (w.behind z).extent = some stretch ∧
      stretch.last = later.last + w.text.size := by
    simp only [behind, marked, Option.map_some]
    cases w.extent <;> exact ⟨_, rfl, rfl⟩
  obtain ⟨-, -, byte, found, solid⟩ := whole.marks stretch joined
  have inside : z.text[later.last]? = some byte := by
    simpa [behind, last, Array.getElem?_append_right] using found
  have bound := (Array.getElem?_eq_some_iff.mp inside).1
  refine ⟨byte, ?_, solid⟩
  simp only [codeBehind, marked, if_true]
  refine Array.mem_toList_iff.mpr (Array.mem_of_getElem? (i := later.last) ?_)
  rw [Array.getElem?_extract, if_pos (by omega), Nat.zero_add]
  exact inside

theorem lastWord_behind_blank (sound : w.Sound) (early : w.lineStart < w.text.size)
    (last : w.text.back? = some byte) (blank : Byte.isBlank byte = true)
    (code : w.extent = some extent) (whole : (w.behind z).Sound) (marked : z.extent = some later) :
    lastWord (w.behind z).lineCode = lastWord (z.codeBehind true) := by
  have before : max extent.first w.lineStart < w.text.size :=
    Nat.max_lt.mpr ⟨(sound.marks extent code).2.1.lt, early⟩
  rw [lineCode_append sound (Nat.le_of_lt early) code marked]
  refine lastWord_append ?_ (solid_codeBehind whole marked)
  rw [getLast?_extract before (Nat.le_refl _), ← Array.back?_eq_getElem?, last]
  intro other same
  cases same
  exact isLower_eq_false_of_isBlank blank

theorem judgement_behind_blank {settings : Settings} {vocabulary : Vocabulary}
    (alike : Alike w w') (early : w.lineStart < w.text.size) (start' : w'.lineStart = w'.text.size)
    (last : w.text.back? = some byte) (blank : Byte.isBlank byte = true) (deep : 0 < w.depth)
    (taken : Accepts w.bare bytes seen z) (whole : (w.behind z).Sound) :
    (w'.behind z).closeLine.judgement settings vocabulary =
      (w.behind z).closeLine.judgement settings vocabulary := by
  have isSome : (w'.behind z).extent.isSome = (w.behind z).extent.isSome := by
    simp only [behind, Extent.isSome_join, Option.isSome_map, alike.code]
  refine judgement_congr rfl rfl rfl isSome fun resolved => ?_
  have level : z.depth = 0 := (isResolved_iff.mp resolved).1
  cases code : w.extent with
  | none => exact absurd (alike.sound.blank code).1 (Nat.ne_of_gt deep)
  | some extent =>
    cases marked : z.extent with
    | none =>
      have same : z.depth = w.depth := (taken.depth_of_unmarked marked).2
      omega
    | some later =>
      have word := lastWord_behind_blank alike.sound early last blank code whole marked
      have word' : (w'.behind z).lineCode = z.codeBehind true := by
        rw [lineCode_behind alike.sound' start', alike.code, code]
        rfl
      exact (congrArg lastWord word').trans word.symm

theorem alike_behind_blank (sound : s.Sound) (allows : s.context.AllowsBreak)
    (blank : Byte.isBlank byte = true) (accepted : s.effect Byte.newline = .ok effect) :
    Alike (s.apply byte effect)
      { s.apply Byte.newline effect with lineStart := (s.apply Byte.newline effect).text.size } where
  bare := rfl
  code := rfl
  sound := sound.apply (effect_blank accepted blank)
  sound' := (sound.apply accepted).startLine
  settled :=
    have ⟨_, hash, slash⟩ := beginsLine_of_blank allows accepted
    ⟨hash, slash⟩

theorem brokenAt_blank (accepted : s.effect Byte.newline = .ok effect) (byte : UInt8) :
    Entry.BrokenAt s.text.size (s.apply byte effect).entry (s.apply Byte.newline effect).entry where
  text := by simp [Scan.entry, text_apply_newline accepted]
  start := rfl
  inside := by simp [Scan.entry, text_apply_newline accepted]

end Scan

namespace Policy

variable {p : Policy} {s t u : Scan} {byte : UInt8} {left right : List UInt8}
  {later : List (List UInt8)} {seen : List Sighting} {x : Sighting}

theorem reopen_of_deep (p : Policy) (begins : t.context.BeginsLine) (deep : 0 < t.depth) :
    t.closeLine.judgement p.settings p.vocabulary ≠ .complete ∧ p.reopen t = t := by
  have unfinished : t.closeLine.judgement p.settings p.vocabulary = .unfinished := by
    refine Scan.judgement_eq_unfinished_iff.mpr (Bool.eq_false_iff.mpr fun resolved => ?_)
    have level : t.depth = 0 := (Scan.isResolved_iff.mp resolved).1
    omega
  refine ⟨by simp [unfinished], ?_⟩
  rw [reopen, unfinished, Scan.conclude_of_ne (by decide)]
  exact Scan.nextLine_eq_self begins

/-- A line is broken in two, with the scan `m` behind the first, and `t'` behind the second where `t` was
behind the whole line. -/
structure BreaksLine (p : Policy) (s : Scan) (left right : List UInt8) (place : Nat)
    (seen : List Sighting) (t : Scan) (first second : List Sighting) (m t' : Scan) : Prop where
  left : Scan.Accepts { s with lineStart := s.text.size }
    (Separator.replace (Input.terminated left)).bytes first m
  opened : m.closeLine.judgement p.settings p.vocabulary ≠ .complete
  right : Scan.Accepts { p.reopen m with lineStart := (p.reopen m).text.size }
    (Separator.replace (Input.terminated right)).bytes second t'
  stances : (first ++ second).map Sighting.stance = seen.map Sighting.stance
  entry : Entry.BrokenAt place t.entry t'.entry
  judged : t'.closeLine.judgement p.settings p.vocabulary =
    t.closeLine.judgement p.settings p.vocabulary
  alike : Scan.Alike (p.reopen t) (p.reopen t')

theorem breaksLine_of_accepts (p : Policy) (sound : s.Sound) (blank : Byte.isBlank byte = true)
    (accepted : Scan.Accepts { s with lineStart := s.text.size }
      (Separator.replace (Input.terminated (left ++ byte :: right))).bytes seen t)
    (here : seen[(Separator.replace left).bytes.length]? = some x) (deep : 0 < x.after.depth)
    (allows : x.before.AllowsBreak) :
    ∃ first second m t', p.BreaksLine s left right
      (s.text.size + (Separator.replace left).bytes.length) seen t first second m t' := by
  have settled := settled_reopen accepted p
  have whole := sound.startLine.accepts accepted
  rw [Separator.replace_terminated_cons blank] at accepted
  -- `y` is the scan in front of the blank; from there one line goes on and the other is broken
  obtain ⟨front, y, effect, rest, rfl, rfl, before, one, others⟩ := accepted.around here
  have newline := Scan.effect_newline_of_allowsBreak allows blank one
  have soundY := sound.startLine.accepts before
  have size := before.size sound.startLine
  change y.text.size = s.text.size + (Separator.replace left).bytes.length at size
  obtain ⟨opened, again⟩ := @reopen_of_deep (y.apply Byte.newline effect) p
    (Scan.beginsLine_of_blank allows newline).1 deep
  have alike := Scan.alike_behind_blank soundY allows blank newline
  obtain ⟨z, told, taken, rfl, rfl, broken⟩ := alike.accepts others
  have early : (y.apply byte effect).lineStart < (y.apply byte effect).text.size := by
    have start : y.lineStart = s.text.size := before.lineStart_eq
    have grown := Scan.size_apply soundY one
    simp only [Scan.apply] at grown ⊢
    omega
  have last := @Scan.back?_apply y byte effect (Scan.not_shebang_of_newline newline)
  have judged := @Scan.judgement_behind_blank _ _ _ _ _ _ p.settings p.vocabulary alike early rfl
    last blank deep taken whole
  have like := alike_reopen alike.code rfl judged whole (alike.sound'.accepts broken) settled
  refine ⟨front ++ [y.sighting Byte.newline effect], _, y.apply Byte.newline effect, _, ?_, opened,
    again.symm ▸ broken, ?_, ?_, judged, like⟩
  · rw [Separator.replace_terminated]
    exact before.append (.single newline)
  · simp only [List.append_assoc, List.singleton_append, List.map_append, List.map_cons,
      Scan.map_stance_behind]
    rfl
  · rw [← size, Scan.entry_behind, Scan.entry_behind]
    exact (Scan.brokenAt_blank newline byte).append _

theorem Completes.broken_head
    (completes : p.Completes s ((left ++ byte :: right) :: later) seen u) (sound : s.Sound)
    (blank : Byte.isBlank byte = true)
    (here : seen[(Separator.replace left).bytes.length]? = some x) (deep : 0 < x.after.depth)
    (allows : x.before.AllowsBreak) :
    ∃ seen' u', p.Completes s (left :: right :: later) seen' u' ∧
      Entry.BrokenAt (s.text.size + (Separator.replace left).bytes.length) u.entry u'.entry ∧
      seen'.map Sighting.stance = seen.map Sighting.stance := by
  cases completes with
  | last accepted complete =>
    obtain ⟨first, second, m, t', breaks⟩ := breaksLine_of_accepts p sound blank accepted here deep allows
    exact ⟨_, _, .cons breaks.left breaks.opened (.last breaks.right (breaks.judged.trans complete)),
      breaks.entry, breaks.stances⟩
  | @cons _ t _ _ _ seen later' accepted more rest =>
    have within : (Separator.replace left).bytes.length < seen.length := by
      have all := congrArg List.length accepted.map_byte
      rw [Separator.replace_terminated_cons blank, List.length_map, List.length_append,
        List.length_cons] at all
      omega
    rw [List.getElem?_append_left within] at here
    obtain ⟨first, second, m, t', breaks⟩ := breaksLine_of_accepts p sound blank accepted here deep allows
    obtain ⟨others, u', e, rest', entry, entry', stances⟩ := rest.alike breaks.alike
    refine ⟨_, _, .cons breaks.left breaks.opened (.cons breaks.right ?_ rest'), ?_, ?_⟩
    · rw [breaks.judged]
      exact more
    · rw [entry, entry']
      exact breaks.entry.append e
    · have both := breaks.stances
      rw [List.map_append] at both
      rw [List.map_append, List.map_append, List.map_append, stances, ← both, List.append_assoc]

theorem Completes.broken {front : List (List UInt8)}
    (completes : p.Completes {} (front ++ (left ++ byte :: right) :: later) seen u)
    (blank : Byte.isBlank byte = true)
    (here : seen[(Separator.replace ((front.map Input.terminated).flatten ++ left)).bytes.length]? =
      some x)
    (deep : 0 < x.after.depth) (allows : x.before.AllowsBreak) :
    ∃ seen' u', p.Completes {} (front ++ left :: right :: later) seen' u' ∧
      Entry.BrokenAt (Separator.replace ((front.map Input.terminated).flatten ++ left)).bytes.length
        u.entry u'.entry ∧
      seen'.map Sighting.stance = seen.map Sighting.stance := by
  obtain ⟨first, last, m, rfl, opened, rest⟩ := completes.split (List.cons_ne_nil _ _)
  have size := opened.size
  have length : first.length = m.text.size := by
    have bytes := (opened.told (.nil (s := { m with lineStart := m.text.size }))).2
    rw [size, ← List.append_nil (Separator.replace _).bytes, ← bytes, List.append_nil, List.length_map]
  rw [Separator.replace_lines_append, List.length_append, ← size, ← length] at here ⊢
  rw [List.getElem?_append_right (Nat.le_add_right _ _), Nat.add_sub_cancel_left] at here
  obtain ⟨last', u', rest', broken, stances⟩ :=
    rest.broken_head (opened.sound Scan.sound_empty) blank here deep allows
  refine ⟨first ++ last', u', opened.completes rest', length ▸ broken, ?_⟩
  rw [List.map_append, List.map_append, stances]

end Policy

/-! ## Breaks in a text -/

/-- Where a byte of the input stands in the text of the entry. -/
def Input.place (text : List UInt8) (i : Nat) : Nat := (Separator.replace (text.take i)).bytes.length

/-- A blank of the input that the reading took inside brackets, and that can give way to a newline. -/
def Reading.Breakable (r : Reading) (text : List UInt8) (i : Nat) : Prop :=
  ∃ byte x, text[i]? = some byte ∧ Byte.isBlank byte = true ∧ byte ≠ Byte.newline ∧
    r.sightings[Input.place text i]? = some x ∧ 0 < x.after.depth ∧ x.before.AllowsBreak

def breakAt (places : List Nat) (bytes : List UInt8) : List UInt8 :=
  bytes.mapIdx fun i byte => if i ∈ places then Byte.newline else byte

section

variable {places : List Nat} {bytes text : List UInt8} {i : Nat}

theorem breakAt_nil (bytes : List UInt8) : breakAt [] bytes = bytes := by
  simp [breakAt, List.mapIdx_eq_zipIdx_map]

theorem getElem?_breakAt (places : List Nat) (bytes : List UInt8) (i : Nat) :
    (breakAt places bytes)[i]? =
      bytes[i]?.map fun byte => if i ∈ places then Byte.newline else byte := by
  simp [breakAt]

theorem breakAt_cons (i : Nat) (places : List Nat) (bytes : List UInt8) :
    breakAt (i :: places) bytes = (breakAt places bytes).set i Byte.newline := by
  have length : (breakAt places bytes).length = bytes.length := List.length_mapIdx
  refine List.ext_getElem? fun j => ?_
  rw [List.getElem?_set, getElem?_breakAt, getElem?_breakAt, length]
  by_cases here : i = j
  · subst here
    by_cases inside : i < bytes.length
    · simp [inside]
    · simp [inside]
  · have same : j ∈ i :: places ↔ j ∈ places :=
      ⟨fun member => (List.mem_cons.mp member).resolve_left (Ne.symm here), List.mem_cons_of_mem i⟩
    simp only [if_neg here, same]

theorem breakAt_cons_of_mem (again : i ∈ places) (bytes : List UInt8) :
    breakAt (i :: places) bytes = breakAt places bytes := by
  have same (j : Nat) : j ∈ i :: places ↔ j ∈ places :=
    ⟨fun member => (List.mem_cons.mp member).elim (fun here => here ▸ again) id,
      List.mem_cons_of_mem i⟩
  simp only [breakAt, same]

theorem Separator.length_replace_set (blank : ∀ byte ∈ bytes[i]?, Byte.isBlank byte = true) :
    (replace (bytes.set i Byte.newline)).bytes.length = (replace bytes).bytes.length := by
  by_cases inside : i < bytes.length
  · have whole : bytes = bytes.take i ++ bytes[i] :: bytes.drop (i + 1) := by
      rw [← List.drop_eq_getElem_cons inside, List.take_append_drop]
    have foreign := blank_foreign (blank bytes[i] (List.getElem?_eq_getElem inside))
    have plain := congrArg (fun text => (replace text).bytes.length) whole
    rw [List.set_eq_take_append_cons_drop, if_pos inside, replace_append_cons newline_foreign]
    simp only [replace_append_cons foreign] at plain
    simp only [plain, List.length_append, List.length_cons]
  · rw [List.set_eq_of_length_le (Nat.le_of_not_lt inside)]

theorem place_breakAt (blank : ∀ i ∈ places, ∀ byte ∈ text[i]?, Byte.isBlank byte = true) (j : Nat) :
    Input.place (breakAt places text) j = Input.place text j := by
  induction places with
  | nil => rw [breakAt_nil]
  | cons i places ih =>
    obtain ⟨first, others⟩ := List.forall_mem_cons.mp blank
    rw [← ih others, breakAt_cons, Input.place, List.take_set, Separator.length_replace_set, Input.place]
    intro byte found
    have bound : i < j := by
      have := (List.getElem?_eq_some_iff.mp found).1
      rw [List.length_take] at this
      omega
    rw [List.getElem?_take_of_lt bound, getElem?_breakAt] at found
    obtain ⟨old, was, rfl⟩ := Option.map_eq_some_iff.mp found
    split
    · rfl
    · exact first old was

end

namespace Input

variable {front back : List UInt8} {byte : UInt8}

theorem split_around (other : byte ≠ Byte.newline) (front back : List UInt8) :
    (split (front ++ byte :: back)).1 = (split front).1 ∨
      ∃ right more, (split (front ++ byte :: back)).1 =
          (split front).1 ++ ((split front).2 ++ byte :: right) :: more ∧
        (split (front ++ Byte.newline :: back)).1 =
          (split front).1 ++ (split front).2 :: right :: more ∧
        (split (front ++ Byte.newline :: back)).2 = (split (front ++ byte :: back)).2 := by
  have left := (newline_not_mem_split front).2
  obtain ⟨closed, open'⟩ := newline_not_mem_split back
  have whole := flatten_split back
  cases lines : (split back).1 with
  -- the byte is in the tail, which a newline would divide, but the lines stay as they are
  | nil =>
    rw [lines] at whole
    have absent : Byte.newline ∉ (split front).2 ++ byte :: back := by
      have rest : Byte.newline ∉ back := by
        rw [← whole]
        simpa using open'
      simp [left, other.symm, rest]
    left
    rw [split_append, split_of_not_mem absent, List.append_nil]
  | cons right more =>
    rw [lines] at whole closed
    have inner : Byte.newline ∉ right := closed right List.mem_cons_self
    have joined : Byte.newline ∉ (split front).2 ++ byte :: right := by
      simp [left, other.symm, inner]
    let rest := (more.map terminated).flatten ++ (split back).2
    have spelled : back = terminated right ++ rest := by
      rw [← whole, List.map_cons, List.flatten_cons, List.append_assoc]
    have line : (split front).2 ++ byte :: back =
        terminated ((split front).2 ++ byte :: right) ++ rest := by
      simp [spelled, terminated]
    have two : (split front).2 ++ Byte.newline :: back =
        terminated (split front).2 ++ (terminated right ++ rest) := by
      simp [spelled, terminated]
    right
    refine ⟨right, (split rest).1, ?_, ?_, ?_⟩
    · rw [split_append, line, split_append_terminated joined]
    · rw [split_append, two, split_append_terminated left, split_append_terminated inner]
    · rw [split_append, split_append front (byte :: back), line, two, split_append_terminated joined,
        split_append_terminated left, split_append_terminated inner]

end Input

namespace Policy

variable {p : Policy} {s u : Scan} {text prompt : List UInt8} {outage : Option Outage}
  {sink sink' : Sink} {bodies : List (List UInt8)} {seen : List Sighting} {i : Nat}

theorem Completes.length_le (completes : p.Completes s bodies seen u) (more : List (List UInt8))
    (rest : List UInt8) : seen.length ≤
      (Separator.replace (((bodies ++ more).map Input.terminated).flatten ++ rest)).bytes.length := by
  have all := congrArg List.length completes.map_byte
  rw [List.length_map] at all
  rw [List.map_append, List.flatten_append, List.append_assoc, Separator.replace_lines_append,
    List.length_append, ← all]
  omega

/-- A byte that was seen on the lines of an entry stands in one of them, which breaks in two there. -/
theorem Completes.lines_around {front after : List UInt8} {byte : UInt8}
    {back : List (List UInt8)} (completes : p.Completes s bodies seen u)
    (other : byte ≠ Byte.newline) (cut : (Input.split (front ++ byte :: after)).1 = bodies ++ back)
    (within : (Separator.replace front).bytes.length < seen.length) :
    ∃ right later,
      bodies = (Input.split front).1 ++ ((Input.split front).2 ++ byte :: right) :: later ∧
      (Input.split (front ++ Byte.newline :: after)).1 =
        ((Input.split front).1 ++ (Input.split front).2 :: right :: later) ++ back ∧
      (Input.split (front ++ Byte.newline :: after)).2 = (Input.split (front ++ byte :: after)).2 := by
  -- the lines do not end before the byte
  have beyond (more : List (List UInt8)) : (Input.split front).1 ≠ bodies ++ more := by
    intro early
    have bound := completes.length_le more (Input.split front).2
    rw [← early, Input.flatten_split] at bound
    exact Nat.not_lt_of_le bound within
  rcases Input.split_around other front after with same | ⟨right, more, line, two, rest⟩
  · exact absurd (same.symm.trans cut) (beyond back)
  · rw [cut] at line
    rcases List.append_eq_append_iff.mp line with ⟨ahead, early, -⟩ | ⟨taken, found, left⟩
    · exact absurd early (beyond ahead)
    · cases taken with
      | nil => exact absurd (found.trans (List.append_nil _)).symm (by simpa using beyond [])
      | cons body later =>
        rw [List.cons_append] at left
        obtain ⟨rfl, rfl⟩ := List.cons.inj left
        exact ⟨right, later, found, by simp [two], rest⟩

theorem read_broken_once (prompt' : List UInt8) (unlimited : sink'.IsUnlimited)
    (complete : (p.read prompt sink (Input.ofBytes text outage)).failure = none)
    (breakable : (p.read prompt sink (Input.ofBytes text outage)).Breakable text i) :
    let r := p.read prompt sink (Input.ofBytes text outage)
    let r' := p.read prompt' sink' (Input.ofBytes (text.set i Byte.newline) outage)
    r'.failure = none ∧ r'.input = r.input ∧ Entry.BrokenAt (Input.place text i) r.entry r'.entry ∧
      r'.sightings.map Sighting.stance = r.sightings.map Sighting.stance := by
  intro r r'
  obtain ⟨byte, x, found, blank, other, here, deep, allows⟩ := breakable
  obtain ⟨bodies, back, cut, completes, input⟩ := read_completes complete
  obtain ⟨inside, here'⟩ := List.getElem?_eq_some_iff.mp found
  have whole : text.take i ++ byte :: text.drop (i + 1) = text := by
    rw [← here', ← List.drop_eq_getElem_cons inside, List.take_append_drop]
  have broken : text.set i Byte.newline = text.take i ++ Byte.newline :: text.drop (i + 1) := by
    rw [List.set_eq_take_append_cons_drop, if_pos inside]
  obtain ⟨right, later, rfl, lines, rest⟩ :=
    completes.lines_around other (whole.symm ▸ cut) (List.getElem?_eq_some_iff.mp here).1
  rw [Input.place, ← Input.flatten_split (text.take i)] at here
  obtain ⟨seen', u', completes', entry, stances⟩ := completes.broken blank here deep allows
  have spelled : Input.ofBytes (text.set i Byte.newline) outage =
      ⟨((Input.split (text.take i)).1 ++ (Input.split (text.take i)).2 :: right :: later) ++ back,
        (Input.ofBytes text outage).tail⟩ := by
    rw [whole] at rest
    simp only [broken, Input.ofBytes, lines, rest]
  obtain ⟨none, scan, input', told⟩ := read_of_completes prompt' unlimited completes' back
    (Input.ofBytes text outage).tail
  rw [← spelled] at none scan input' told
  rw [Input.flatten_split] at entry
  have entry' : r'.entry = u'.entry := congrArg Scan.entry scan
  exact ⟨none, input'.trans input.symm, entry' ▸ entry, told.symm ▸ stances⟩

theorem read_alike (prompt' : List UInt8) (unlimited : sink'.IsUnlimited)
    (complete : (p.read prompt sink (Input.ofBytes text outage)).failure = none) :
    let r := p.read prompt sink (Input.ofBytes text outage)
    let r' := p.read prompt' sink' (Input.ofBytes text outage)
    r'.failure = none ∧ r'.input = r.input ∧ r'.entry = r.entry ∧ r'.sightings = r.sightings := by
  intro r r'
  obtain ⟨bodies, back, cut, completes, input⟩ := read_completes complete
  obtain ⟨none, scan, left, told⟩ := read_of_completes prompt' unlimited completes back
    (Input.ofBytes text outage).tail
  have same : Input.ofBytes text outage = ⟨bodies ++ back, (Input.ofBytes text outage).tail⟩ := by
    rw [← cut]
  rw [← same] at none scan left told
  exact ⟨none, left.trans input.symm, congrArg Scan.entry scan, told⟩

theorem breakable_breakAt {r r' : Reading} {places : List Nat} (breakable : r.Breakable text i)
    (stances : r'.sightings.map Sighting.stance = r.sightings.map Sighting.stance)
    (same : Input.place (breakAt places text) i = Input.place text i) (other : i ∉ places) :
    r'.Breakable (breakAt places text) i := by
  obtain ⟨byte, x, found, blank, plain, here, deep, allows⟩ := breakable
  obtain ⟨x', here', stance⟩ :
      ∃ x', r'.sightings[Input.place text i]? = some x' ∧ x'.stance = x.stance := by
    have alike := congrArg (fun stances => stances[Input.place text i]?) stances
    simp only [List.getElem?_map, here, Option.map_some] at alike
    exact Option.map_eq_some_iff.mp alike
  obtain ⟨before, after⟩ := Prod.mk.inj stance
  refine ⟨byte, x', ?_, blank, plain, same ▸ here', after ▸ deep, before ▸ allows⟩
  rw [getElem?_breakAt, found, Option.map_some, if_neg other]

/-- Blanks inside brackets can be newlines, any number of them: the entry is the same but for these
bytes, it starts its code where it did, and the rest of the input is left. Each byte meets the context and
leaves the depth that it did. -/
theorem read_broken (p : Policy) (prompt prompt' : List UInt8) {sink sink' : Sink}
    (unlimited : sink'.IsUnlimited) (text : List UInt8) (outage : Option Outage) (breaks : List Nat)
    (complete : (p.read prompt sink (Input.ofBytes text outage)).failure = none)
    (breakable : ∀ i ∈ breaks, (p.read prompt sink (Input.ofBytes text outage)).Breakable text i) :
    let r := p.read prompt sink (Input.ofBytes text outage)
    let r' := p.read prompt' sink' (Input.ofBytes (breakAt breaks text) outage)
    r'.failure = none ∧ r'.input = r.input ∧
      r'.entry.text.toList = breakAt (breaks.map (Input.place text)) r.entry.text.toList ∧
      r'.entry.start = r.entry.start ∧
      r'.sightings.map Sighting.stance = r.sightings.map Sighting.stance := by
  intro r
  induction breaks with
  | nil =>
    rw [List.map_nil, breakAt_nil, breakAt_nil]
    obtain ⟨none, left, entry, told⟩ := read_alike prompt' unlimited complete
    exact ⟨none, left, congrArg (Array.toList ∘ Entry.text) entry, congrArg Entry.start entry,
      congrArg _ told⟩
  | cons i rest ih =>
    intro r'
    obtain ⟨first, others⟩ := List.forall_mem_cons.mp breakable
    obtain ⟨none, input, entry, start, stances⟩ := ih others
    by_cases again : i ∈ rest
    · have places : Input.place text i ∈ rest.map (Input.place text) := List.mem_map_of_mem again
      have same : r' = p.read prompt' sink' (Input.ofBytes (breakAt rest text) outage) := by
        rw [← breakAt_cons_of_mem again]
      rw [same, List.map_cons, breakAt_cons_of_mem places]
      exact ⟨none, input, entry, start, stances⟩
    · have blanks : ∀ j ∈ rest, ∀ byte ∈ text[j]?, Byte.isBlank byte = true := by
        intro j member byte found
        obtain ⟨old, -, was, blank, -⟩ := others j member
        cases was.symm.trans found
        exact blank
      have same := place_breakAt blanks i
      have breakable' := breakable_breakAt first stances same again
      obtain ⟨none', input', broken, stances'⟩ := read_broken_once prompt' unlimited none breakable'
      rw [← breakAt_cons] at none' input' broken stances'
      refine ⟨none', input'.trans input, ?_, broken.start.trans start, stances'.trans stances⟩
      rw [broken.text, entry, same, List.map_cons, breakAt_cons]

/-- A call on one line becomes the same call on three lines. -/
theorem read_broken_call :
    let text : List UInt8 := [0x66, 0x28, 0x20, 0x78, 0x20, 0x29, 0x0a]
    let lines : List UInt8 := [0x66, 0x28, 0x0a, 0x78, 0x0a, 0x29, 0x0a]
    let r := read {} [] {} (Input.ofBytes text none)
    let r' := read {} [] {} (Input.ofBytes lines none)
    r.failure = none ∧ r.entry.text.toList = text ∧ r'.failure = none ∧ r'.entry.text.toList = lines ∧
      r'.entry.start = r.entry.start ∧ r'.input = r.input := by
  intro text lines r r'
  have complete : r.failure = none := by decide +kernel
  have whole : r.entry.text.toList = text := by decide +kernel
  have breakable : ∀ i ∈ [2, 4], r.Breakable text i := by
    intro i member
    have allows : Context.code.AllowsBreak := ⟨nofun, fun _ => ⟨nofun, nofun⟩⟩
    rcases List.mem_pair.mp member with rfl | rfl
    · exact ⟨0x20, ⟨2, 0x20, .code, ⟨.code, 1, false, some ⟨0, 1⟩⟩⟩, rfl, rfl, by decide,
        by decide +kernel, by decide, allows⟩
    · exact ⟨0x20, ⟨4, 0x20, .code, ⟨.code, 1, false, some ⟨0, 3⟩⟩⟩, rfl, rfl, by decide,
        by decide +kernel, by decide, allows⟩
  have unlimited : Sink.IsUnlimited {} := ⟨rfl, rfl⟩
  obtain ⟨none, input, broken, start, -⟩ :=
    read_broken {} [] [] unlimited text none [2, 4] complete breakable
  have places : [2, 4].map (Input.place text) = [2, 4] := by decide
  exact ⟨complete, whole, none, broken.trans (by rw [places, whole]; rfl), start, input⟩

end Policy

end Linewise
