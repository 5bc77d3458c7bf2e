import Linewise.Proofs.Outcome

/-! A larger vocabulary of reserved words makes more lines dangle, and that is all: it joins entries
of a session to longer ones, and never cuts one elsewhere or moves an error
(`Policy.session_joined`). -/

namespace Linewise

namespace Outcome

/-- The second outcomes are the first with entries joined to what follows them. The entries that are
held back already come as a lead. -/
inductive Joined : Entry → List Outcome → List Outcome → Prop where
  | last (lead : Entry) (o : Outcome) : Joined lead [o] [o.after lead]
  | next (lead : Entry) (o : Outcome) {outcomes joined : List Outcome}
      (rest : Joined {} outcomes joined) : Joined lead (o :: outcomes) (o.after lead :: joined)
  | hold {lead : Entry} {o : Outcome} {outcomes joined : List Outcome} (complete : o.failure = none)
      (rest : Joined (lead.append o.entry) outcomes joined) : Joined lead (o :: outcomes) joined

/-- The refused byte, if that ended the episode. -/
def intrusion? (o : Outcome) : Option Intrusion :=
  match o.failure with
  | some (.intrusion i) => some i
  | _ => none

/-- The refused bytes of a session, each with its offset in the joined text of the whole session. -/
def intrusions : List Outcome → List Intrusion
  | [] => []
  | o :: outcomes =>
    o.intrusion?.toList ++ (intrusions outcomes).map (Intrusion.shift o.entry.text.size)

def texts (outcomes : List Outcome) : List UInt8 := outcomes.flatMap fun o => o.entry.text.toList

variable {lead : Entry} {outcomes joined : List Outcome}

theorem intrusion?_after (lead : Entry) (o : Outcome) :
    (o.after lead).intrusion? = o.intrusion?.map (Intrusion.shift lead.text.size) := by
  obtain ⟨entry, failure, rest⟩ := o
  rcases failure with _ | cause
  · rfl
  · cases cause <;> rfl

theorem map_shift_map_shift (a b : Nat) (found : List Intrusion) :
    (found.map (Intrusion.shift a)).map (Intrusion.shift b) = found.map (Intrusion.shift (b + a)) := by
  simp only [List.map_map, List.map_inj_left, Function.comp_apply, Intrusion.shift, Nat.add_assoc,
    Nat.add_comm a b, implies_true]

theorem map_shift_zero (found : List Intrusion) : found.map (Intrusion.shift 0) = found :=
  List.map_id'' (fun _ => rfl) found

theorem joined_self (occupied : outcomes ≠ []) : Joined {} outcomes outcomes := by
  induction outcomes with
  | nil => contradiction
  | cons o outcomes ih =>
    cases outcomes with
    | nil => simpa only [after_empty] using Joined.last {} o
    | cons other outcomes => simpa only [after_empty] using Joined.next {} o (ih (by simp))

theorem Joined.ends (h : Joined lead outcomes joined) :
    ∀ o ∈ joined, o.failure = none → ∃ o' ∈ outcomes, o'.failure = none ∧ o'.rest = o.rest := by
  induction h with
  | last lead o =>
    intro other member complete
    obtain rfl := List.mem_singleton.mp member
    exact ⟨o, by simp, by simpa [after] using complete, rfl⟩
  | next lead o _ ih =>
    intro other member complete
    rcases List.mem_cons.mp member with rfl | later
    · exact ⟨o, by simp, by simpa [after] using complete, rfl⟩
    · obtain ⟨o', member', found⟩ := ih other later complete
      exact ⟨o', List.mem_cons_of_mem _ member', found⟩
  | hold _ _ ih =>
    intro other member complete
    obtain ⟨o', member', found⟩ := ih other member complete
    exact ⟨o', List.mem_cons_of_mem _ member', found⟩

theorem Joined.texts_eq (h : Joined lead outcomes joined) :
    texts joined = lead.text.toList ++ texts outcomes := by
  induction h with
  | last lead o => simp [texts, after, Entry.append]
  | next lead o _ ih =>
    simp only [texts] at ih
    simp [texts, after, Entry.append, ih]
  | hold _ _ ih =>
    simp only [texts] at ih
    simp [texts, Entry.append, ih]

theorem Joined.intrusions_eq (h : Joined lead outcomes joined) :
    intrusions joined = (intrusions outcomes).map (Intrusion.shift lead.text.size) := by
  induction h with
  | last lead o =>
    simp only [intrusions, intrusion?_after, List.map_nil, List.append_nil]
    cases o.intrusion? <;> rfl
  | next lead o _ ih =>
    have size : (o.after lead).entry.text.size = lead.text.size + o.entry.text.size := by
      simp [after, Entry.append]
    have first : (o.after lead).intrusion?.toList =
        o.intrusion?.toList.map (Intrusion.shift lead.text.size) := by
      rw [intrusion?_after]
      cases o.intrusion? <;> rfl
    simp only [intrusions, ih, size, first, List.map_append, map_shift_map_shift]
    rfl
  | @hold lead o _ _ complete _ ih =>
    have size : (lead.append o.entry).text.size = lead.text.size + o.entry.text.size := by
      simp [Entry.append]
    have silent : o.intrusion? = none := by simp [intrusion?, complete]
    simp only [intrusions, silent, Option.toList_none, List.nil_append, ih, size,
      map_shift_map_shift]

end Outcome

namespace Scan

variable {lead : Array UInt8} {before : Option Extent} {s t : Scan} {p q : Policy}

theorem Follows.resolved (follows : Follows lead before s t)
    (same : q.settings.collectsComments = p.settings.collectsComments)
    (resolved : t.isResolved q.settings = true) : s.isResolved p.settings = true := by
  obtain ⟨level, silent, plain, code⟩ := isResolved_iff.mp resolved
  refine isResolved_iff.mpr ⟨follows.depth ▸ level, ?_, follows.context ▸ plain, ?_⟩
  · refine Bool.eq_false_iff.mpr fun expecting => ?_
    exact absurd silent (by simp [follows.expecting expecting])
  · refine code.imp (fun occupied => ?_) fun apart => same ▸ apart
    rw [isSome_extent follows] at occupied
    cases marked : s.extent with
    | some extent => rfl
    | none =>
      rcases follows.held marked with nothing | expecting
      · simp [nothing, marked] at occupied
      · exact absurd silent (by simp [expecting])

/-- Only an expectation can leave a scan with a lead unresolved when the scan without is resolved. -/
theorem Follows.unresolved (follows : Follows lead before s t)
    (same : q.settings.collectsComments = p.settings.collectsComments)
    (resolved : s.isResolved p.settings = true) (open_ : t.isResolved q.settings = false) :
    t.expecting = true := by
  obtain ⟨level, -, plain, code⟩ := isResolved_iff.mp resolved
  have code' : t.extent.isSome = true ∨ q.settings.collectsComments = false := by
    refine code.imp (fun occupied => ?_) fun apart => same.trans apart
    rw [isSome_extent follows, occupied, Bool.or_true]
  cases silent : t.expecting with
  | true => rfl
  | false =>
    have resolved' : t.isResolved q.settings = true := isResolved_iff.mpr
      ⟨follows.depth.trans level, silent, follows.context.trans plain, code'⟩
    exact absurd resolved' (by simp [open_])

end Scan

namespace Policy

open Outcome (Joined joined_self texts intrusions)

variable {p q : Policy} {tail : Input.Tail} {bodies : List (List UInt8)} {lead : Array UInt8}
  {before : Option Extent} {s t : Scan}

/-- Every word reserved in the first vocabulary is reserved in the second. -/
def Reserves (p q : Policy) : Prop :=
  ∀ word, p.vocabulary.classify word = .reserved → q.vocabulary.classify word = .reserved

theorem promisesMore_mono {v w : Vocabulary} {code code' : List UInt8}
    (more : ∀ word, v.classify word = .reserved → w.classify word = .reserved)
    (same : lastWord code' = lastWord code) (promised : v.promisesMore code = true) :
    w.promisesMore code' = true := by
  simp only [Vocabulary.promisesMore, same] at promised ⊢
  cases found : lastWord code with
  | none => simp [found] at promised
  | some word =>
    have reserved : v.classify (spelling word) = .reserved := by
      cases kind : v.classify (spelling word) <;>
        simp [found, kind, WordClass.promisesMore] at promised ⊢
    simp [more _ reserved, WordClass.promisesMore]

section

variable (more : Reserves p q) (same : q.settings.collectsComments = p.settings.collectsComments)
  (follows : Scan.Follows lead before s t) (word : lastWord t.lineCode = lastWord s.lineCode)

include more same follows word

theorem complete_of_complete (complete : t.judgement q.settings q.vocabulary = .complete) :
    s.judgement p.settings p.vocabulary = .complete := by
  obtain ⟨resolved, silent⟩ := Scan.judgement_eq_complete_iff.mp complete
  refine Scan.judgement_eq_complete_iff.mpr ⟨follows.resolved same resolved, ?_⟩
  refine Bool.eq_false_iff.mpr fun promised => ?_
  exact absurd (promisesMore_mono more word promised) (by simp [silent])

/-- A keyword that dangles without the lead dangles with it, unless more was expected anyway. -/
theorem dangling_of_dangling (dangling : s.judgement p.settings p.vocabulary = .dangling) :
    t.judgement q.settings q.vocabulary = .dangling ∨ t.expecting = true := by
  obtain ⟨resolved, promised⟩ := Scan.judgement_eq_dangling_iff.mp dangling
  cases resolved' : t.isResolved q.settings with
  | false => exact .inr (follows.unresolved same resolved resolved')
  | true =>
    have promised' := promisesMore_mono more word promised
    exact .inl (Scan.judgement_eq_dangling_iff.mpr ⟨resolved', promised'⟩)

theorem judgement_of_blank_lead (blank : before = none)
    (open_ : s.judgement p.settings p.vocabulary ≠ .complete)
    (open' : t.judgement q.settings q.vocabulary ≠ .complete) :
    s.judgement p.settings p.vocabulary = t.judgement q.settings q.vocabulary := by
  cases judged : s.judgement p.settings p.vocabulary with
  | complete => contradiction
  | dangling =>
    have resolved := (Scan.judgement_eq_dangling_iff.mp judged).1
    rcases dangling_of_dangling more same follows word judged with dangling | expecting
    · exact dangling.symm
    · rw [follows.silent blank, (Scan.isResolved_iff.mp resolved).2.1] at expecting
      contradiction
  | unfinished =>
    cases judged' : t.judgement q.settings q.vocabulary with
    | complete => contradiction
    | unfinished => rfl
    | dangling =>
      have resolved := follows.resolved same (Scan.judgement_eq_dangling_iff.mp judged').1
      simp [Scan.judgement_eq_unfinished_iff.mp judged] at resolved

end

theorem expecting_of_open (follows : Scan.Follows lead before s t)
    (same : q.settings.collectsComments = p.settings.collectsComments)
    (resolved : s.isResolved p.settings = true)
    (open_ : t.judgement q.settings q.vocabulary ≠ .complete) :
    (t.conclude (t.judgement q.settings q.vocabulary)).expecting = true := by
  cases judged : t.judgement q.settings q.vocabulary with
  | complete => contradiction
  | dangling => simp [Scan.conclude]
  | unfinished =>
    have unresolved := Scan.judgement_eq_unfinished_iff.mp judged
    simp [Scan.conclude, follows.unresolved same resolved unresolved]

theorem outcomes_joined (more : Reserves p q)
    (same : q.settings.collectsComments = p.settings.collectsComments) (sound : s.Sound)
    (sound' : t.Sound) (headed : s.Headed) (follows : Scan.Follows lead before s t) :
    Joined ⟨lead, before.map Extent.first⟩ (p.outcomes tail bodies s) (q.outcomes tail bodies t) := by
  induction bodies generalizing s t lead before with
  | nil =>
    obtain ⟨first, rest, left, right⟩ := closing_follows sound follows tail
    simp only [outcomes, left, right]
    cases rest with
    | nil => exact .last _ first
    | cons o rest => exact .next _ first (joined_self (by simp))
  | cons body bodies ih =>
    have afresh : Joined {} (p.outcomes tail bodies {}) (q.outcomes tail bodies {}) :=
      ih Scan.sound_empty Scan.sound_empty Scan.headed_empty (Scan.follows_self {})
    rcases line_follows p q sound sound' follows body with ⟨intrusion, left, right, after⟩ |
      ⟨c, d, found⟩
    · rw [outcomes_of_refused left, outcomes_of_refused right, after.entry]
      exact .next _ ⟨_, some (.intrusion intrusion), _⟩ afresh
    · obtain ⟨⟨seen, left⟩, ⟨seen', right⟩, closed, closed', headed', after, lineStart⟩ := found
      have word : lastWord d.lineCode = lastWord c.lineCode :=
        Scan.lastWord_lineCode (headed' headed) closed after lineStart
      by_cases complete' : d.judgement q.settings q.vocabulary = .complete
      · have complete := complete_of_complete more same after word complete'
        rw [outcomes_of_complete left complete, outcomes_of_complete right complete', after.entry]
        exact .next _ ⟨_, none, _⟩ afresh
      · rw [outcomes_of_open right complete']
        by_cases complete : c.judgement p.settings p.vocabulary = .complete
        · -- the first session starts afresh behind what the second holds open
          rw [outcomes_of_complete left complete]
          refine .hold rfl ?_
          rw [← after.entry]
          have resolved := (Scan.judgement_eq_complete_iff.mp complete).1
          obtain ⟨level, -, plain, -⟩ := Scan.isResolved_iff.mp resolved
          have held := expecting_of_open after same resolved complete'
          have fresh := Scan.follows_fresh (closed'.conclude q.settings q.vocabulary)
            (after.context.trans plain) (after.depth.trans level) (.inr held)
          rw [Scan.openLine_of_code fresh.context]
          exact ih Scan.sound_empty (closed'.conclude _ _) Scan.headed_empty fresh
        · rw [outcomes_of_open left complete]
          refine ih (closed.conclude _ _).openLine (closed'.conclude _ _).openLine ?_ ?_
          · exact Scan.Headed.openLine (headed' headed) (closed.conclude _ _)
          · refine (after.conclude (fun dangling => ?_) fun blank => ?_).openLine
            · exact dangling_of_dangling more same after word dangling
            · exact judgement_of_blank_lead more same after word blank complete complete'

/-- Reserving more words only joins entries of a session to longer ones. So an entry ends where one
ended before, the text of the session is the same, and the same bytes of it are refused. -/
theorem session_joined {sink sink' : Sink} (prompt prompt' : List UInt8)
    (unlimited : sink.IsUnlimited) (unlimited' : sink'.IsUnlimited) (more : Reserves p q)
    (same : q.settings.collectsComments = p.settings.collectsComments) (input : Input) :
    let first := (p.session prompt sink input).map Reading.outcome
    let second := (q.session prompt' sink' input).map Reading.outcome
    Joined {} first second ∧
      (∀ o ∈ second, o.failure = none → ∃ o' ∈ first, o'.failure = none ∧ o'.rest = o.rest) ∧
      texts second = texts first ∧ intrusions second = intrusions first := by
  intro first second
  have joined : Joined {} first second := by
    simp only [first, second]
    rw [session_outcomes p prompt unlimited input, session_outcomes q prompt' unlimited' input]
    exact outcomes_joined more same Scan.sound_empty Scan.sound_empty Scan.headed_empty
      (Scan.follows_self {})
  refine ⟨joined, joined.ends, joined.texts_eq, ?_⟩
  rw [joined.intrusions_eq]
  exact Outcome.map_shift_zero _

theorem session_joined_if :
    Reserves ⟨{}, .empty⟩ ⟨{}, .go⟩ ∧
    Joined {} [⟨⟨#[0x69, 0x66, 0x0a], some 0⟩, none, ⟨[[0x78]], .rest []⟩⟩,
        ⟨⟨#[0x78, 0x0a], some 0⟩, none, ⟨[], .rest []⟩⟩, ⟨{}, some .endOfInput, ⟨[], .rest []⟩⟩]
      [⟨⟨#[0x69, 0x66, 0x0a, 0x78, 0x0a], some 0⟩, none, ⟨[], .rest []⟩⟩,
        ⟨{}, some .endOfInput, ⟨[], .rest []⟩⟩] := by
  have more : Reserves ⟨{}, .empty⟩ ⟨{}, .go⟩ := nofun
  refine ⟨more, ?_⟩
  have joined := (@session_joined ⟨{}, .empty⟩ ⟨{}, .go⟩ {} {} [] [] ⟨rfl, rfl⟩ ⟨rfl, rfl⟩ more rfl
    (Input.ofBytes [0x69, 0x66, 0x0a, 0x78, 0x0a] none)).1
  rw [session_outcomes _ [] ⟨rfl, rfl⟩, session_outcomes _ [] ⟨rfl, rfl⟩] at joined
  have first : outcomes ⟨{}, .empty⟩ (.rest []) [[0x69, 0x66], [0x78]] {} =
      [⟨⟨#[0x69, 0x66, 0x0a], some 0⟩, none, ⟨[[0x78]], .rest []⟩⟩,
        ⟨⟨#[0x78, 0x0a], some 0⟩, none, ⟨[], .rest []⟩⟩, ⟨{}, some .endOfInput, ⟨[], .rest []⟩⟩] := by
    decide +kernel
  have second : outcomes ⟨{}, .go⟩ (.rest []) [[0x69, 0x66], [0x78]] {} =
      [⟨⟨#[0x69, 0x66, 0x0a, 0x78, 0x0a], some 0⟩, none, ⟨[], .rest []⟩⟩,
        ⟨{}, some .endOfInput, ⟨[], .rest []⟩⟩] := by
    decide +kernel
  rw [← first, ← second]
  exact joined

end Policy

end Linewise
