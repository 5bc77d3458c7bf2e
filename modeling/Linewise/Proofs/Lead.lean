import Linewise.Proofs.Episode
import Linewise.Proofs.Soundness

/-! A scan with a lead reads on where another starts afresh. As long as the two agree on context and
depth, they take the same bytes, and all that the lead changes are offsets (`Scan.Follows`). -/

namespace Linewise

namespace Extent

def shift (distance : Nat) (extent : Extent) : Extent :=
  ⟨extent.first + distance, extent.last + distance⟩

/-- From the first code of one stretch to the last of the next. -/
def join : Option Extent → Option Extent → Option Extent
  | before, none => before
  | none, after => after
  | some before, some after => some ⟨before.first, after.last⟩

theorem join_mark (before extent : Option Extent) (distance offset : Nat) :
    join before ((mark extent offset).map (shift distance)) =
      mark (join before (extent.map (shift distance))) (offset + distance) := by
  cases before <;> cases extent <;> rfl

theorem isSome_join (before after : Option Extent) :
    (join before after).isSome = (before.isSome || after.isSome) := by
  cases before <;> cases after <;> rfl

end Extent

def Intrusion.shift (distance : Nat) (i : Intrusion) : Intrusion :=
  { i with offset := i.offset + distance }

namespace Scan

/-- The scan `t` reads as `s` does, with a lead in front. Code in the lead, if there is any, may only
make it expect more; before code comes after the lead it has to. -/
structure Follows (lead : Array UInt8) (before : Option Extent) (s t : Scan) : Prop where
  context : t.context = s.context
  depth : t.depth = s.depth
  text : t.text = lead ++ s.text
  extent : t.extent = Extent.join before (s.extent.map (Extent.shift lead.size))
  inside : ∀ extent ∈ before, extent.first ≤ extent.last ∧ extent.last < lead.size
  expecting : s.expecting = true → t.expecting = true
  silent : before = none → t.expecting = s.expecting
  held : s.extent = none → before = none ∨ t.expecting = true

variable {lead : Array UInt8} {before : Option Extent} {s t : Scan} {byte : UInt8} {effect : Effect}

theorem follows_self (s : Scan) : Follows #[] none s s where
  context := rfl
  depth := rfl
  text := by simp
  extent := by cases s.extent <;> rfl
  inside := nofun
  expecting := id
  silent := fun _ => rfl
  held := fun _ => .inl rfl

/-- Starting afresh at the end of a resolved scan leaves its text behind as the lead. -/
theorem follows_fresh (sound : t.Sound) (context : t.context = .code)
    (depth : t.depth = 0) (held : t.extent = none ∨ t.expecting = true) :
    Follows t.text t.extent {} t where
  context := context
  depth := depth
  text := by simp
  extent := by cases t.extent <;> rfl
  inside := fun extent marked =>
    ⟨(sound.marks extent marked).1, (sound.marks extent marked).2.2.lt⟩
  expecting := nofun
  silent := fun blank => (sound.blank blank).2.1
  held := fun _ => held

theorem Follows.size (follows : Follows lead before s t) :
    t.text.size = s.text.size + lead.size := by
  rw [follows.text, Array.size_append, Nat.add_comm]

theorem Follows.accepted (follows : Follows lead before s t) (accepted : s.effect byte = .ok effect) :
    t.effect byte = .ok effect := by
  rw [effect_eq_ok_iff] at accepted ⊢
  rw [follows.context, follows.depth, accepted]

theorem Follows.refused {intrusion : Intrusion} (follows : Follows lead before s t)
    (refused : s.effect byte = .error intrusion) :
    t.effect byte = .error (intrusion.shift lead.size) := by
  obtain ⟨literal, entry, rfl⟩ := effect_eq_error_iff.mp refused
  refine effect_eq_error_iff.mpr ⟨literal, ?_, ?_⟩
  · rw [follows.context, follows.depth, entry]
  · rw [follows.size]
    rfl

theorem text_follows_apply (sound : s.Sound) (follows : Follows lead before s t)
    (accepted : s.effect byte = .ok effect) :
    (t.apply byte effect).text = lead ++ (s.apply byte effect).text := by
  by_cases shebang : effect.shebang = true
  · have pos := size_pos_of_back? (back?_of_shebang sound accepted shebang).1
    have occupied : s.text ≠ #[] := Array.ne_empty_of_size_pos pos
    rw [text_apply_of_shebang shebang, text_apply_of_shebang shebang, follows.text,
      Array.pop_append_of_ne_empty occupied, Array.push_append, Array.push_append]
  · have plain : effect.shebang = false := by simpa using shebang
    rw [text_apply_of_not_shebang plain, text_apply_of_not_shebang plain, follows.text,
      Array.push_append]

theorem extent_follows_apply (sound : s.Sound) (follows : Follows lead before s t)
    (accepted : s.effect byte = .ok effect) :
    (t.apply byte effect).extent =
      Extent.join before ((s.apply byte effect).extent.map (Extent.shift lead.size)) := by
  have size := follows.size
  have deferred : effect.deferred = true → t.text.size - 1 = s.text.size - 1 + lead.size := by
    intro deferred
    have undecided := Context.undecided_of_deferred (effect_eq_ok_iff.mp accepted) deferred
    have := (filled_of_undecided sound undecided).lt
    omega
  simp only [apply, Status.after]
  cases late : effect.deferred <;> cases counts : effect.counts <;>
    simp_all [follows.extent, Extent.join_mark]

/-- An expectation never arises in one of two like scans alone. -/
theorem expecting_apply_mono (depth : t.depth = s.depth)
    (expecting : s.expecting = true → t.expecting = true)
    (h : (s.apply byte effect).expecting = true) : (t.apply byte effect).expecting = true := by
  simp only [apply, Status.after, depth] at h ⊢
  cases kind : effect.expectation <;> simp_all [Expectation.apply]

theorem Follows.apply (sound : s.Sound) (follows : Follows lead before s t)
    (accepted : s.effect byte = .ok effect) :
    Follows lead before (s.apply byte effect) (t.apply byte effect) where
  context := rfl
  depth := by simp [Scan.apply, Status.after, follows.depth]
  text := text_follows_apply sound follows accepted
  extent := extent_follows_apply sound follows accepted
  inside := follows.inside
  expecting := expecting_apply_mono follows.depth follows.expecting
  silent := fun blank => by
    have same := follows.silent blank
    simp only [Scan.apply, Status.after, follows.depth, same]
  held := fun blank => by
    obtain ⟨old, same, keep, outside⟩ := silent_of_blank sound accepted blank
    refine (follows.held old).imp id fun expecting => ?_
    have level : t.depth = 0 := follows.depth.trans (sound.blank old).1
    simp [Scan.apply, Status.after, same, keep, Nesting.apply, Expectation.apply, level, expecting,
      outside]

theorem Follows.accepts {bytes : List UInt8} {seen : List Sighting} {s' : Scan} (sound : s.Sound)
    (follows : Follows lead before s t) (accepted : Accepts s bytes seen s') :
    ∃ seen' t', Accepts t bytes seen' t' ∧ Follows lead before s' t' := by
  induction accepted generalizing t with
  | nil => exact ⟨[], t, .nil, follows⟩
  | cons one _ ih =>
    obtain ⟨seen', t', rest, after⟩ := ih (sound.apply one) (follows.apply sound one)
    exact ⟨_, t', .cons (follows.accepted one) rest, after⟩

/-! ## Line ends behind a lead -/

theorem Follows.startLine (follows : Follows lead before s t) (a b : Nat) :
    Follows lead before { s with lineStart := a } { t with lineStart := b } :=
  ⟨follows.context, follows.depth, follows.text, follows.extent, follows.inside, follows.expecting,
    follows.silent, follows.held⟩

theorem Follows.closeLine (follows : Follows lead before s t) :
    Follows lead before s.closeLine t.closeLine :=
  ⟨congrArg Context.atLineEnd follows.context, follows.depth, follows.text, follows.extent,
    follows.inside, follows.expecting, follows.silent, follows.held⟩

theorem Follows.openLine (follows : Follows lead before s t) :
    Follows lead before s.openLine t.openLine :=
  ⟨congrArg Context.atLineStart follows.context, follows.depth, follows.text, follows.extent,
    follows.inside, follows.expecting, follows.silent, follows.held⟩

theorem Follows.record (follows : Follows lead before s t) (byte : UInt8) :
    Follows lead before (s.record byte) (t.record byte) :=
  ⟨follows.context, follows.depth, by simp [Scan.record, follows.text, Array.push_append],
    follows.extent, follows.inside, follows.expecting, follows.silent, follows.held⟩

theorem Follows.conclude {j k : Judgement} (follows : Follows lead before s t)
    (expecting : j = .dangling → k = .dangling ∨ t.expecting = true)
    (silent : before = none → j = k) : Follows lead before (s.conclude j) (t.conclude k) where
  context := follows.context
  depth := follows.depth
  text := follows.text
  extent := follows.extent
  inside := follows.inside
  expecting := by
    have old := follows.expecting
    simp only [Scan.conclude, Bool.or_eq_true, beq_iff_eq]
    rintro (still | dangling)
    · exact .inl (old still)
    · exact (expecting dangling).symm
  silent := fun blank => by
    simp only [Scan.conclude, follows.silent blank, silent blank]
  held := fun blank => (follows.held blank).imp id fun still => by
    simp only [Scan.conclude, still, Bool.true_or]

theorem extract_lead (lead text : Array UInt8) (start stop : Nat) :
    (lead ++ text).extract (start + lead.size) (stop + lead.size + 1) =
      text.extract start (stop + 1) := by
  rw [Nat.add_right_comm, Array.extract_append, Nat.add_sub_cancel, Nat.add_sub_cancel]
  simp

theorem lineCode_of_blank_lead (follows : Follows lead none s t)
    (lineStart : t.lineStart = s.lineStart + lead.size) : t.lineCode = s.lineCode := by
  have extent := follows.extent
  cases marked : s.extent with
  | none => simp [lineCode, extent, marked, Extent.join]
  | some stretch =>
    simp only [lineCode, extent, marked, Option.map_some, Extent.join, Extent.shift, follows.text,
      lineStart]
    rw [Nat.add_max_add_right, extract_lead]

theorem isSome_extent (follows : Follows lead before s t) :
    t.extent.isSome = (before.isSome || s.extent.isSome) := by
  rw [follows.extent, Extent.isSome_join, Option.isSome_map]

end Scan

end Linewise
