import Linewise.Proofs.Outcome

/-! Unless they are collected, lines of comments are entries of their own.
Collecting them puts every run of entries without code in front of the outcome that
follows it (`Policy.session_glued`). -/

namespace Linewise

namespace Outcome

def isComments (o : Outcome) : Bool := o.failure.isNone && o.entry.start.isNone

/-- Puts an entry in front of the first outcome. -/
def lead (e : Entry) : List Outcome → List Outcome
  | [] => []
  | o :: outcomes => o.after e :: outcomes

/-- Puts every run of entries without code in front of the outcome that follows it. -/
def glue : List Outcome → List Outcome
  | [] => []
  | o :: outcomes =>
    if o.isComments then
      match glue outcomes with
      | [] => [o]
      | joined => lead o.entry joined
    else o :: glue outcomes

theorem lead_empty (outcomes : List Outcome) : lead {} outcomes = outcomes := by
  cases outcomes <;> simp [lead, after_empty]

theorem lead_lead (a b : Entry) (outcomes : List Outcome) :
    lead a (lead b outcomes) = lead (a.append b) outcomes := by
  cases outcomes <;> simp [lead, after_after]

theorem glue_ne_nil {outcomes : List Outcome} (h : outcomes ≠ []) : glue outcomes ≠ [] := by
  cases outcomes with
  | nil => contradiction
  | cons o outcomes =>
    unfold glue
    split
    · cases glue outcomes <;> simp [lead]
    · simp

theorem glue_of_comments {o : Outcome} {outcomes : List Outcome} (comments : o.isComments = true)
    (more : outcomes ≠ []) : glue (o :: outcomes) = lead o.entry (glue outcomes) := by
  have occupied := glue_ne_nil more
  rw [glue, if_pos comments]
  split
  · next none => exact absurd none occupied
  · rfl

theorem glue_of_not_comments {o : Outcome} {outcomes : List Outcome} (code : o.isComments = false) :
    glue (o :: outcomes) = o :: glue outcomes := by
  rw [glue, if_neg (by simp [code])]

theorem glue_of_failed {outcomes : List Outcome} (failed : ∀ o ∈ outcomes, o.failure ≠ none) :
    glue outcomes = outcomes := by
  induction outcomes with
  | nil => rfl
  | cons o outcomes ih =>
    have first := failed o List.mem_cons_self
    rw [glue_of_not_comments, ih fun other member => failed other (List.mem_cons_of_mem _ member)]
    cases failure : o.failure with
    | none => exact absurd failure first
    | some cause => simp [isComments, failure]

end Outcome

namespace Policy

open Outcome (glue lead)

variable {p q : Policy} {tail : Input.Tail} {bodies : List (List UInt8)} {s t : Scan}
  {text : Array UInt8}

theorem failed_closing (scan : Scan) : ∀ o ∈ closing tail scan, o.failure ≠ none := by
  intro o member
  rcases List.mem_cons.mp member with rfl | later
  · exact failure_finish _ _ _ _
  · split at later
    · rw [List.mem_singleton.mp later]; exact failure_finish _ _ _ _
    · cases later

theorem judgement_of_blank (blank : s.extent = none) (settings : Settings) (vocabulary : Vocabulary) :
    s.judgement settings vocabulary =
      if s.isResolved settings then .complete else .unfinished := by
  simp [Scan.judgement, Scan.lineCode_of_blank blank, Vocabulary.promisesMore, lastWord]

theorem isResolved_of_code (follows : Scan.Follows text none s t) (code : s.extent.isSome = true)
    (a b : Settings) : t.isResolved a = s.isResolved b := by
  have code' : t.extent.isSome = true := by rw [Scan.isSome_extent follows, code]; rfl
  simp only [Scan.isResolved, follows.depth, follows.silent rfl, follows.context, code, code',
    Bool.true_or]

theorem judgement_of_code (same : q.vocabulary = p.vocabulary)
    (follows : Scan.Follows text none s t) (lineStart : t.lineStart = s.lineStart + text.size)
    (code : s.extent.isSome = true) :
    t.judgement q.settings q.vocabulary = s.judgement p.settings p.vocabulary := by
  unfold Scan.judgement
  rw [isResolved_of_code follows code q.settings p.settings, same,
    Scan.lineCode_of_blank_lead follows lineStart]

theorem complete_of_blank (apart : p.settings.collectsComments = false) (sound : s.Sound)
    (blank : s.extent = none) :
    s.judgement p.settings p.vocabulary = .complete ↔ s.context = .code := by
  obtain ⟨level, silent, -⟩ := sound.blank blank
  rw [judgement_of_blank blank]
  simp [Scan.isResolved, level, silent, apart]

theorem unfinished_of_blank_of_ne (blank : s.extent = none)
    (more : s.judgement p.settings p.vocabulary ≠ .complete) :
    s.judgement p.settings p.vocabulary = .unfinished := by
  cases judged : s.judgement p.settings p.vocabulary with
  | complete => contradiction
  | unfinished => rfl
  | dangling =>
    have code := Scan.isSome_of_dangling judged
    simp [blank] at code

theorem isComments_of_code (code : s.extent.isSome = true) (rest : Input) :
    Outcome.isComments ⟨s.entry, none, rest⟩ = false := by
  obtain ⟨extent, marked⟩ := Option.isSome_iff_exists.mp code
  simp [Outcome.isComments, Scan.entry, Status.codeStart, marked]

theorem isComments_of_blank (blank : s.extent = none) (rest : Input) :
    Outcome.isComments ⟨s.entry, none, rest⟩ = true := by
  simp [Outcome.isComments, Scan.entry, Status.codeStart, blank]

theorem unfinished_of_blank (together : q.settings.collectsComments = true) (blank : t.extent = none) :
    t.judgement q.settings q.vocabulary = .unfinished := by
  rw [judgement_of_blank blank]
  simp [Scan.isResolved, blank, together]

/-- Behind a lead without code, the outcomes with comments collected are those without, glued. -/
theorem outcomes_glued (apart : p.settings.collectsComments = false)
    (together : q.settings.collectsComments = true) (same : q.vocabulary = p.vocabulary)
    (sound : s.Sound) (sound' : t.Sound) (follows : Scan.Follows text none s t) :
    q.outcomes tail bodies t = lead ⟨text, none⟩ (glue (p.outcomes tail bodies s)) := by
  -- on the lines that are left; `text` is the comments that still wait for an outcome to precede
  induction bodies generalizing s t text with
  | nil =>
    obtain ⟨first, rest, left, right⟩ := closing_follows sound follows tail
    simp only [outcomes]
    rw [Outcome.glue_of_failed (failed_closing s), left, right]
    rfl
  | cons body bodies ih =>
    have afresh : q.outcomes tail bodies {} = glue (p.outcomes tail bodies {}) := by
      rw [ih Scan.sound_empty Scan.sound_empty (Scan.follows_self {})]
      exact Outcome.lead_empty _
    rcases line_follows p q sound sound' follows body with ⟨intrusion, left, right, after⟩ |
      ⟨c, d, found⟩
    · rw [outcomes_of_refused left, outcomes_of_refused right, afresh, after.entry,
        Outcome.glue_of_not_comments rfl]
      rfl
    · obtain ⟨⟨seen, left⟩, ⟨seen', right⟩, closed, closed', -, after, lineStart⟩ := found
      have next (j : Judgement) := (after.conclude (j := j) .inl fun _ => rfl).openLine
      by_cases code : c.extent.isSome = true
      · have agreed := judgement_of_code same after lineStart code
        by_cases complete : c.judgement p.settings p.vocabulary = .complete
        · rw [outcomes_of_complete left complete,
            outcomes_of_complete right (agreed.trans complete), afresh, after.entry,
            Outcome.glue_of_not_comments (isComments_of_code code _)]
          rfl
        · rw [outcomes_of_open left complete, outcomes_of_open right (agreed ▸ complete), agreed]
          exact ih (closed.conclude _ _).openLine (agreed ▸ (closed'.conclude _ _).openLine)
            (next _)
      · have blank : c.extent = none := by simpa using code
        have blank' : d.extent = none := by rw [after.extent, blank]; rfl
        have unfinished := unfinished_of_blank (q := q) together blank'
        rw [outcomes_of_open right (by rw [unfinished]; decide), unfinished]
        by_cases complete : c.judgement p.settings p.vocabulary = .complete
        · -- the lines before are an entry of their own, and here they join the lead
          have plain := after.context.trans ((complete_of_blank apart closed blank).mp complete)
          have fresh := Scan.follows_fresh closed' plain (closed'.blank blank').1 (.inl blank')
          rw [blank'] at fresh
          rw [Scan.conclude_of_ne (by decide), Scan.openLine_of_code plain,
            ih Scan.sound_empty closed' fresh, outcomes_of_complete left complete,
            Outcome.glue_of_comments (isComments_of_blank blank _) (outcomes_ne_nil _ _ _ _),
            Outcome.lead_lead, after.text, Scan.entry, Status.codeStart, blank]
          rfl
        · have unfinished' := unfinished_of_blank_of_ne blank complete
          rw [outcomes_of_open left complete, unfinished']
          exact ih (unfinished' ▸ (closed.conclude _ _).openLine)
            (unfinished ▸ (closed'.conclude _ _).openLine) (next .unfinished)

theorem start_of_collected (together : q.settings.collectsComments = true) :
    ∀ o ∈ q.outcomes tail bodies t, o.failure = none → o.entry.start.isSome = true := by
  induction bodies generalizing t with
  | nil => exact fun o member complete => absurd complete (failed_closing t o member)
  | cons body bodies ih =>
    rcases line_cases q t body with ⟨seen, t', accepted, judged⟩ |
      ⟨front, byte, back, seen, t', intrusion, spelled, accepted, refused, stopped⟩
    · by_cases complete : t'.closeLine.judgement q.settings q.vocabulary = .complete
      · rw [outcomes_of_complete judged complete]
        rintro o (_ | ⟨_, later⟩) done
        · have resolved := (Scan.judgement_eq_complete_iff.mp complete).1
          simpa [Scan.isResolved, together, Scan.entry, Status.codeStart] using
            (Scan.isResolved_iff.mp resolved).2.2.2
        · exact ih o later done
      · rw [outcomes_of_open judged complete]
        exact ih
    · rw [outcomes_of_refused (by rw [stopped])]
      rintro o (_ | ⟨_, later⟩) done
      · cases done
      · exact ih o later done

/-- Collecting comments glues every run of entries without code to the outcome that follows it, and
nothing else. So every entry it gives has code. -/
theorem session_glued {sink sink' : Sink} (prompt prompt' : List UInt8)
    (unlimited : sink.IsUnlimited) (unlimited' : sink'.IsUnlimited)
    (apart : p.settings.collectsComments = false) (together : q.settings.collectsComments = true)
    (same : q.vocabulary = p.vocabulary) (input : Input) :
    (q.session prompt' sink' input).map Reading.outcome =
        glue ((p.session prompt sink input).map Reading.outcome) ∧
      ∀ o ∈ (q.session prompt' sink' input).map Reading.outcome,
        o.failure = none → o.entry.start.isSome = true := by
  rw [session_outcomes p prompt unlimited input, session_outcomes q prompt' unlimited' input]
  refine ⟨?_, start_of_collected together⟩
  rw [outcomes_glued apart together same Scan.sound_empty Scan.sound_empty (Scan.follows_self {})]
  exact Outcome.lead_empty _

theorem session_glued_two_comments :
    (⟨0⟩ : Settings).collectsComments = false ∧ (⟨2⟩ : Settings).collectsComments = true ∧
    (session ⟨⟨2⟩, .go⟩ [] {} (Input.ofBytes [0x2f, 0x2f, 0x0a, 0x0a, 0x78, 0x0a] none)).map
        Reading.outcome =
      glue [⟨⟨#[0x2f, 0x2f, 0x0a], none⟩, none, ⟨[[], [0x78]], .rest []⟩⟩,
        ⟨⟨#[0x0a], none⟩, none, ⟨[[0x78]], .rest []⟩⟩,
        ⟨⟨#[0x78, 0x0a], some 0⟩, none, ⟨[], .rest []⟩⟩, ⟨{}, some .endOfInput, ⟨[], .rest []⟩⟩] := by
  refine ⟨by decide, by decide, ?_⟩
  have glued := @session_glued ⟨⟨0⟩, .go⟩ ⟨⟨2⟩, .go⟩ {} {} [] [] ⟨rfl, rfl⟩ ⟨rfl, rfl⟩ (by decide)
    (by decide) rfl (Input.ofBytes [0x2f, 0x2f, 0x0a, 0x0a, 0x78, 0x0a] none)
  refine glued.1.trans (congrArg glue ?_)
  rw [session_outcomes _ [] ⟨rfl, rfl⟩]
  decide +kernel

end Policy

end Linewise
