import Linewise.Proofs.Completion
import Linewise.Proofs.Marks
import Linewise.Proofs.Outcome

/-! At the start of a line, the text so far matters only by what the scan keeps of it. Scans that
agree on that (`Scan.Alike`) take the same lines, judge them alike, and are alike again. -/

namespace Linewise

theorem Entry.append_empty (lead : Entry) : lead.append {} = lead := by
  obtain ⟨text, start⟩ := lead
  cases start <;> simp [append]

/-- What a sighting tells apart from its place: the context before the byte and the depth behind it. -/
def Sighting.stance (x : Sighting) : Context × Nat := (x.before, x.after.depth)

namespace Scan

variable {s s' t base base' y z z' : Scan} {bytes body body' : List UInt8} {seen seen' : List Sighting}
  {settings : Settings} {vocabulary : Vocabulary}

theorem map_stance_behind (base : Scan) (seen : List Sighting) :
    (seen.map (Sighting.behind base)).map Sighting.stance = seen.map Sighting.stance := by
  simp [Sighting.stance, Sighting.behind]

theorem entry_behind (base z : Scan) : (base.behind z).entry = base.entry.append z.entry := by
  simp only [Scan.entry, Entry.append, Status.codeStart, behind]
  cases base.extent <;> cases z.extent <;> rfl

/-- Two scans at the start of a line differ only in text that is decided. -/
structure Alike (s s' : Scan) : Prop where
  bare : s'.bare = s.bare
  code : s'.extent.isSome = s.extent.isSome
  sound : s.Sound
  sound' : s'.Sound
  settled : s.Settled

theorem Alike.settled' (alike : Alike s s') : s'.Settled := by
  have context : s'.context = s.context := congrArg (fun s => s.context) alike.bare
  exact ⟨context ▸ alike.settled.hash, context ▸ alike.settled.slash⟩

theorem alike_self (sound : s.Sound) (settled : s.Settled) : Alike s s :=
  ⟨rfl, rfl, sound, sound, settled⟩

theorem Alike.startLine (alike : Alike s s') :
    Alike { s with lineStart := s.text.size } { s' with lineStart := s'.text.size } where
  bare := alike.bare
  code := alike.code
  sound := alike.sound.startLine
  sound' := alike.sound'.startLine
  settled := ⟨alike.settled.hash, alike.settled.slash⟩

theorem Alike.accepts (alike : Alike s s') (accepted : Accepts s bytes seen t) :
    ∃ z seen', Accepts s.bare bytes seen' z ∧ t = s.behind z ∧
      seen = seen'.map (Sighting.behind s) ∧
      Accepts s' bytes (seen'.map (Sighting.behind s')) (s'.behind z) := by
  obtain ⟨z, seen', taken, whole, told⟩ := accepted.bare alike.settled
  refine ⟨z, seen', taken, whole, told, ?_⟩
  have again := taken.behind s' alike.settled.grounded_bare
  rwa [← alike.bare, behind_bare] at again

/-! ## Judging like scans -/

theorem judgement_congr (context : t.context = s.context) (depth : t.depth = s.depth)
    (expecting : t.expecting = s.expecting) (code : t.extent.isSome = s.extent.isSome)
    (word : s.isResolved settings = true → lastWord t.lineCode = lastWord s.lineCode) :
    t.judgement settings vocabulary = s.judgement settings vocabulary := by
  have resolved : t.isResolved settings = s.isResolved settings := by
    simp only [isResolved, context, depth, expecting, code]
  cases yes : s.isResolved settings with
  | false => simp [judgement, resolved, yes]
  | true =>
    have same : vocabulary.promisesMore t.lineCode = vocabulary.promisesMore s.lineCode := by
      rw [Vocabulary.promisesMore, Vocabulary.promisesMore, word yes]
    simp only [judgement, resolved, yes, same]

/-- The code of a line as the bare scan shows it, behind code on earlier lines or not. -/
def codeBehind (z : Scan) (started : Bool) : List UInt8 :=
  match z.extent with
  | none => []
  | some extent => (z.text.extract (if started then 0 else extent.first) (extent.last + 1)).toList

theorem extract_front (front more : Array UInt8) {start stop : Nat} (inside : stop ≤ front.size) :
    (front ++ more).extract start stop = front.extract start stop := by
  rw [Array.extract_append, Nat.sub_eq_zero_of_le inside,
    Array.extract_empty_of_stop_le_start (Nat.zero_le _), Array.append_empty]

theorem extract_across (front more : Array UInt8) {start last : Nat} (before : start ≤ front.size) :
    (front ++ more).extract start (last + front.size + 1) =
      front.extract start front.size ++ more.extract 0 (last + 1) := by
  have shift : last + front.size + 1 - front.size = last + 1 := by omega
  have rest : front.extract start (last + front.size + 1) = front.extract start front.size :=
    Array.extract_eq_extract_right.mpr (by omega)
  rw [Array.extract_append, rest, Nat.sub_eq_zero_of_le before, shift]

theorem lineCode_behind (sound : base.Sound) (start : base.lineStart = base.text.size) (z : Scan) :
    (base.behind z).lineCode = z.codeBehind base.extent.isSome := by
  cases old : base.extent with
  | none =>
    cases now : z.extent with
    | none => simp [lineCode, codeBehind, behind, old, now, Extent.join]
    | some extent =>
      simp only [lineCode, codeBehind, behind, old, now, Extent.join, Extent.shift, Option.map_some,
        Option.isSome_none, start]
      rw [Nat.max_eq_left (Nat.le_add_left _ _), extract_lead]
      rfl
  | some early =>
    obtain ⟨-, first, last⟩ := sound.marks early old
    cases now : z.extent with
    | none =>
      have marked : (base.behind z).extent = some early := by simp [behind, old, now, Extent.join]
      have before : early.last < (base.behind z).lineStart := start ▸ last.lt
      rw [lineCode_of_early marked before, codeBehind, now]
    | some extent =>
      have inside := first.lt
      simp only [lineCode, codeBehind, behind, old, now, Extent.join, Extent.shift, Option.map_some,
        Option.isSome_some, start]
      have whole := extract_lead base.text z.text 0 extent.last
      rw [Nat.zero_add] at whole
      rw [Nat.max_eq_right (Nat.le_of_lt inside), whole]
      rfl

/-- Like scans judge the same line alike, also if blanks behind its code differ. -/
theorem Alike.judgement (alike : Alike base base') (start : base.lineStart = base.text.size)
    (start' : base'.lineStart = base'.text.size) (status : z'.toStatus = z.toStatus)
    (code : ∀ started, z'.codeBehind started = z.codeBehind started) :
    (base'.behind z').closeLine.judgement settings vocabulary =
      (base.behind z).closeLine.judgement settings vocabulary := by
  have isSome : (base'.behind z').extent.isSome = (base.behind z).extent.isSome := by
    simp only [behind, Extent.isSome_join, Option.isSome_map, status, alike.code]
  have context : z'.context.atLineEnd = z.context.atLineEnd :=
    congrArg (fun status => status.context.atLineEnd) status
  have depth : z'.depth = z.depth := congrArg Status.depth status
  have expecting : z'.expecting = z.expecting := congrArg Status.expecting status
  refine judgement_congr context depth expecting isSome ?_
  · intro _
    have lineCode : (base'.behind z').lineCode = (base.behind z).lineCode := by
      rw [lineCode_behind alike.sound' start', lineCode_behind alike.sound start, alike.code, code]
    exact congrArg lastWord lineCode

end Scan

namespace Policy

variable {p : Policy} {s s' t t' u base base' z z' : Scan} {body body' : List UInt8}
  {bodies : List (List UInt8)} {seen seen' : List Sighting}

theorem entry_reopen (p : Policy) (t : Scan) : (p.reopen t).entry = t.entry := rfl

theorem bare_reopen (p : Policy) (t : Scan) : (p.reopen t).bare =
    { context := t.context.atLineEnd.atLineStart
      depth := t.depth
      expecting := t.expecting ||
        t.closeLine.judgement p.settings p.vocabulary == .dangling } := rfl

theorem alike_reopen (code : base'.extent.isSome = base.extent.isSome)
    (status : z'.toStatus = z.toStatus)
    (judged : (base'.behind z').closeLine.judgement p.settings p.vocabulary =
      (base.behind z).closeLine.judgement p.settings p.vocabulary)
    (sound : (base.behind z).Sound) (sound' : (base'.behind z').Sound)
    (settled : (p.reopen (base.behind z)).Settled) :
    Scan.Alike (p.reopen (base.behind z)) (p.reopen (base'.behind z')) where
  bare := by
    rw [bare_reopen, bare_reopen, judged]
    simp only [Scan.behind, status]
  code := by
    have same : (base'.behind z').extent.isSome = (base.behind z).extent.isSome := by
      simp only [Scan.behind, Extent.isSome_join, Option.isSome_map, status, code]
    exact same
  sound := sound_reopen sound p
  sound' := sound_reopen sound' p
  settled := settled

/-- Like scans take lines that leave the unit open, or complete it, with the same additions to their
entries. -/
theorem Completes.alike (completes : p.Completes s bodies seen u) (like : Scan.Alike s s') :
    ∃ seen' u' e, p.Completes s' bodies seen' u' ∧ u.entry = s.entry.append e ∧
      u'.entry = s'.entry.append e ∧ seen'.map Sighting.stance = seen.map Sighting.stance := by
  induction completes generalizing s' with
  | @last s t body seen accepted complete =>
    obtain ⟨z, told, -, rfl, rfl, again⟩ := like.startLine.accepts accepted
    refine ⟨_, _, z.entry, .last again ?_, Scan.entry_behind _ z, Scan.entry_behind _ z, ?_⟩
    · exact (like.startLine.judgement rfl rfl rfl fun _ => rfl).trans complete
    · rw [Scan.map_stance_behind, Scan.map_stance_behind]
  | @cons s t u body bodies seen later accepted more _ ih =>
    obtain ⟨z, told, -, rfl, rfl, again⟩ := like.startLine.accepts accepted
    have judged := @Scan.Alike.judgement _ _ z z p.settings p.vocabulary like.startLine rfl rfl rfl
      fun _ => rfl
    have next := alike_reopen like.startLine.code rfl judged (like.startLine.sound.accepts accepted)
      (like.startLine.sound'.accepts again) (settled_reopen accepted p)
    obtain ⟨seen', u', e, rest, entry, entry', stances⟩ := ih next
    refine ⟨_, u', z.entry.append e, .cons again (judged ▸ more) rest, ?_, ?_, ?_⟩
    · rw [entry, entry_reopen, Scan.entry_behind, Entry.append_assoc]
      rfl
    · rw [entry', entry_reopen, Scan.entry_behind, Entry.append_assoc]
      rfl
    · rw [List.map_append, List.map_append, stances, Scan.map_stance_behind, Scan.map_stance_behind]

end Policy

end Linewise
