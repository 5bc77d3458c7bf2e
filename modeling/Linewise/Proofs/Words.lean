import Mathlib.Data.List.TakeWhile
import Linewise.Proofs.Lead

/-! Code never begins in the middle of a word: before its first byte there is nothing, a blank, or
the end of a comment. So the last word of a line is the same from there as from the beginning of the
line. -/

namespace Linewise

theorem isLower_eq_false_of_isBlank {byte : UInt8} (blank : Byte.isBlank byte = true) :
    Byte.isLower byte = false := by
  simp only [Byte.isBlank, Byte.isLower, decide_eq_true_eq, Bool.and_eq_false_iff,
    decide_eq_false_iff_not, UInt8.le_iff_toNat_le] at blank ⊢
  have low : (0x20 : UInt8).toNat = 32 := rfl
  have first : (0x61 : UInt8).toNat = 97 := rfl
  omega

theorem takeWhile_append_of_head {keep : UInt8 → Bool} {front back : List UInt8}
    (stop : ∀ byte ∈ back.head?, keep byte = false) :
    (front ++ back).takeWhile keep = front.takeWhile keep := by
  have none : back.takeWhile keep = [] := by cases back <;> simp_all
  rw [List.takeWhile_append, none, List.append_nil]
  split
  · next whole => exact ((List.takeWhile_prefix keep).eq_of_length whole).symm
  · rfl

theorem dropWhile_append_of_mem {drop : UInt8 → Bool} {front back : List UInt8}
    (solid : ∃ byte ∈ front, drop byte = false) :
    (front ++ back).dropWhile drop = front.dropWhile drop ++ back := by
  have left : (front.dropWhile drop).isEmpty = false := by
    simpa [List.isEmpty_eq_false_iff, List.dropWhile_eq_nil_iff] using solid
  rw [List.dropWhile_append, left, if_neg Bool.false_ne_true]

/-- What comes before does not change the last word, unless it ends in a letter itself. -/
theorem lastWord_append {front back : List UInt8}
    (stop : ∀ byte ∈ front.getLast?, Byte.isLower byte = false)
    (solid : ∃ byte ∈ back, Byte.isBlank byte = false) :
    lastWord (front ++ back) = lastWord back := by
  have turned : ∃ byte ∈ back.reverse, Byte.isBlank byte = false := by simpa using solid
  have first : ∀ byte ∈ front.reverse.head?, Byte.isLower byte = false := by simpa using stop
  simp only [lastWord, List.reverse_append, dropWhile_append_of_mem turned,
    takeWhile_append_of_head first]

theorem lastWord_of_getLast? {code : List UInt8} {byte : UInt8} (last : code.getLast? = some byte)
    (solid : Byte.isBlank byte = false) (letterless : Byte.isLower byte = false) :
    lastWord code = none := by
  obtain ⟨front, rfl⟩ := List.getLast?_eq_some_iff.mp last
  simp [lastWord, solid, letterless]

namespace Scan

/-- Where the code begins, or would begin with the next byte. -/
def edge (s : Scan) : Option Nat :=
  match s.extent with
  | some extent => some extent.first
  | none =>
    match s.context with
    | .code => some s.text.size
    | .slash | .hash => some (s.text.size - 1)
    | _ => none

/-- No letter stands right before the code. -/
def Headed (s : Scan) : Prop :=
  ∀ edge ∈ s.edge, 0 < edge → ∀ byte, s.text[edge - 1]? = some byte → Byte.isLower byte = false

variable {s t : Scan} {byte : UInt8} {effect : Effect}

theorem headed_empty : Headed {} := by
  intro edge member pos
  obtain rfl : 0 = edge := by simpa [Scan.edge] using member
  exact absurd pos (Nat.lt_irrefl 0)

theorem edge_le_size (sound : s.Sound) {edge : Nat} (member : edge ∈ s.edge) :
    edge ≤ s.text.size := by
  unfold Scan.edge at member
  split at member
  · next extent marked =>
    cases member
    have := (sound.marks extent marked).2.1.lt
    omega
  · split at member <;> cases member <;> omega

theorem edge_apply_of_code {extent : Extent} (marked : s.extent = some extent) :
    (s.apply byte effect).edge = s.edge := by
  simp only [Scan.edge, Scan.apply, Status.after, marked]
  cases effect.deferred <;> cases effect.counts <;> rfl

theorem edge_apply_of_deferred (blank : s.extent = none) (accepted : s.effect byte = .ok effect)
    (deferred : effect.deferred = true) : (s.apply byte effect).edge = s.edge := by
  have first : (s.apply byte effect).edge = some (s.text.size - 1) := by
    simp only [Scan.edge, Scan.apply, Status.after, blank, deferred]
    cases effect.counts <;> rfl
  rw [first]
  rcases Context.undecided_of_deferred (effect_eq_ok_iff.mp accepted) deferred with slash | hash
  · simp [Scan.edge, blank, slash]
  · simp [Scan.edge, blank, hash]

theorem edge_apply_of_counts (sound : s.Sound) (blank : s.extent = none)
    (accepted : s.effect byte = .ok effect) (undeferred : effect.deferred = false)
    (counts : effect.counts = true) : (s.apply byte effect).edge = s.edge := by
  have plain := Context.code_of_counts (effect_eq_ok_iff.mp accepted) (sound.blank blank).2.2 counts
    undeferred
  simp [Scan.edge, Scan.apply, Status.after, blank, undeferred, counts, plain, Extent.mark]

theorem letterless_of_code (sound : s.Sound) (blank : s.extent = none)
    (accepted : s.effect byte = .ok effect) (undeferred : effect.deferred = false)
    (uncounted : effect.counts = false) (plain : effect.context = .code) :
    effect.shebang = false ∧ Byte.isLower byte = false := by
  have entry := effect_eq_ok_iff.mp accepted
  constructor
  · refine Bool.eq_false_iff.mpr fun shebang => ?_
    obtain ⟨hash, bang⟩ := Context.hash_bang_of_shebang entry shebang
    rw [hash, bang, Context.effect_hash_bang] at entry
    cases entry
    cases plain
  · rcases Context.blank_or_slash_of_code entry (sound.blank blank).2.2 uncounted undeferred
      plain with blank | slash
    · exact isLower_eq_false_of_isBlank (Role.isBlank_ofByte byte ▸ blank)
    · rw [Role.ofByte_eq_slash_iff.mp slash]; rfl

theorem edge_apply_of_blank (sound : s.Sound) (blank : s.extent = none)
    (accepted : s.effect byte = .ok effect) (undeferred : effect.deferred = false)
    (uncounted : effect.counts = false) {edge : Nat} (member : edge ∈ (s.apply byte effect).edge) :
    edge ∈ s.edge ∨ (edge = s.text.size + 1 ∧ effect.context = .code) := by
  have size := size_apply sound accepted
  have undecided (h : effect.context = .slash ∨ effect.context = .hash) : s.context = .code :=
    Context.code_of_undecided (effect_eq_ok_iff.mp accepted) (sound.blank blank).2.2 undeferred h
  have still : (s.apply byte effect).extent = none := by
    simp [Scan.apply, Status.after, blank, undeferred, uncounted]
  simp only [Scan.edge, still] at member
  split at member
  · next plain =>
    cases member
    exact .inr ⟨size, plain⟩
  · next slash =>
    cases member
    exact .inl (by simp [Scan.edge, blank, undecided (.inl slash), size])
  · next hash =>
    cases member
    exact .inl (by simp [Scan.edge, blank, undecided (.inr hash), size])
  · cases member

/-- The edge moves only over blanks and comments. -/
theorem edge_apply (sound : s.Sound) (accepted : s.effect byte = .ok effect) {edge : Nat}
    (member : edge ∈ (s.apply byte effect).edge) :
    edge ∈ s.edge ∨ (edge = s.text.size + 1 ∧ effect.shebang = false ∧
      Byte.isLower byte = false) := by
  cases old : s.extent with
  | some extent => exact .inl (edge_apply_of_code old ▸ member)
  | none =>
    cases late : effect.deferred with
    | true => exact .inl (edge_apply_of_deferred old accepted late ▸ member)
    | false =>
      cases counts : effect.counts with
      | true => exact .inl (edge_apply_of_counts sound old accepted late counts ▸ member)
      | false =>
        refine (edge_apply_of_blank sound old accepted late counts member).imp id ?_
        rintro ⟨here, plain⟩
        exact ⟨here, letterless_of_code sound old accepted late counts plain⟩

theorem Headed.apply (headed : s.Headed) (sound : s.Sound)
    (accepted : s.effect byte = .ok effect) : (s.apply byte effect).Headed := by
  intro edge member pos old now
  rcases edge_apply sound accepted member with same | ⟨rfl, plain, letterless⟩
  · have bound := edge_le_size sound same
    rcases getElem?_apply_of_lt byte effect (show edge - 1 < s.text.size by omega) with kept | slash
    · exact headed edge same pos old (kept.symm.trans now)
    · rw [slash] at now
      cases now
      rfl
  · rw [text_apply_of_not_shebang plain, Nat.add_sub_cancel, Array.getElem?_push_size] at now
    cases now
    exact letterless

theorem Headed.accepts {bytes : List UInt8} {seen : List Sighting} (headed : s.Headed)
    (sound : s.Sound) (accepted : Accepts s bytes seen t) : t.Headed := by
  induction accepted with
  | nil => exact headed
  | cons one _ ih => exact ih (headed.apply sound one) (sound.apply one)

theorem Headed.closeLine (headed : s.Headed) (ended : s.text.back? = some Byte.newline) :
    s.closeLine.Headed := by
  by_cases comment : s.context = .lineComment
  · intro edge member pos old now
    cases marked : s.extent with
    | some extent =>
      have before : edge ∈ s.edge := by simpa [Scan.edge, Scan.closeLine, marked] using member
      exact headed edge before pos old now
    | none =>
      obtain rfl : s.text.size = edge := by
        simpa [Scan.edge, Scan.closeLine, marked, comment, Context.atLineEnd] using member
      rw [Array.back?_eq_getElem?] at ended
      cases ended.symm.trans now
      rfl
  · rw [closeLine_eq_self comment]
    exact headed

theorem Headed.openLine (headed : s.Headed) (sound : s.Sound) : s.openLine.Headed := by
  intro edge member
  refine headed edge ?_
  cases marked : s.extent with
  | some extent => simpa [Scan.edge, Scan.openLine, marked] using member
  | none =>
    have outside := (sound.blank marked).2.2
    have same : s.context.atLineStart = s.context := by
      cases context : s.context <;> first | rfl | simp [context, Context.keepsExpectation] at outside
    simpa only [Scan.edge, Scan.openLine, same] using member

/-! ## The code of a line behind a lead -/

variable {lead : Array UInt8} {before : Option Extent}

theorem getLast?_extract {text : Array UInt8} {start stop : Nat} (lt : start < stop)
    (inside : stop ≤ text.size) : (text.extract start stop).toList.getLast? = text[stop - 1]? := by
  rw [Array.getLast?_toList, Array.back?_eq_getElem?, Array.getElem?_extract]
  have size : (text.extract start stop).size = stop - start := by simp; omega
  rw [size, if_pos (by omega)]
  congr 1
  omega

/-- A stretch that ends in code has the same last word when it is cut, unless it is cut behind a letter. -/
theorem lastWord_cut {text : Array UInt8} {start cut last : Nat} (le : start ≤ cut) (le' : cut ≤ last)
    (letterless : start < cut → ∀ byte ∈ text[cut - 1]?, Byte.isLower byte = false)
    (solid : ∃ byte, text[last]? = some byte ∧ Byte.isBlank byte = false) :
    lastWord (text.extract start (last + 1)).toList = lastWord (text.extract cut (last + 1)).toList := by
  obtain ⟨byte, found, solid⟩ := solid
  have inside := (Array.getElem?_eq_some_iff.mp found).1
  have parts : text.extract start (last + 1) =
      text.extract start cut ++ text.extract cut (last + 1) := by
    rw [Array.extract_append_extract, Nat.min_eq_left (by omega), Nat.max_eq_right (by omega)]
  rw [parts, Array.toList_append]
  refine lastWord_append ?_ ⟨byte, ?_, solid⟩
  · rcases Nat.lt_or_eq_of_le le with lt | rfl
    · rw [getLast?_extract lt (by omega)]
      exact letterless lt
    · simp
  · refine Array.mem_toList_iff.mpr (Array.mem_of_getElem? (i := last - cut) ?_)
    rw [Array.getElem?_extract, if_pos (by omega), Nat.add_sub_cancel' le']
    exact found

theorem lastWord_from_lineStart {extent : Extent} (headed : s.Headed) (sound : s.Sound)
    (marked : s.extent = some extent) :
    lastWord (s.text.extract s.lineStart (extent.last + 1)).toList = lastWord s.lineCode := by
  by_cases early : extent.first ≤ s.lineStart
  · simp only [lineCode, marked, Nat.max_eq_right early]
  · obtain ⟨ordered, -, filled⟩ := sound.marks extent marked
    simp only [lineCode, marked]
    rw [Nat.max_eq_left (by omega)]
    refine lastWord_cut (by omega) ordered (fun later => ?_) filled
    exact headed extent.first (by simp [Scan.edge, marked]) (by omega)

/-- No lead changes the last word of a line. -/
theorem lastWord_lineCode (headed : s.Headed) (sound : s.Sound) (follows : Follows lead before s t)
    (lineStart : t.lineStart = s.lineStart + lead.size) :
    lastWord t.lineCode = lastWord s.lineCode := by
  cases old : before with
  | none =>
    subst old
    rw [lineCode_of_blank_lead follows lineStart]
  | some earlier =>
    have extent := follows.extent
    have inside := follows.inside earlier (by simp [old])
    cases marked : s.extent with
    | none =>
      have nothing : t.lineCode = [] := by
        simp only [lineCode, extent, marked, old, Option.map_none, Extent.join]
        simp
        omega
      rw [nothing, lineCode_of_blank marked]
    | some stretch =>
      rw [← lastWord_from_lineStart headed sound marked]
      simp only [lineCode, extent, marked, old, Option.map_some, Extent.join, Extent.shift,
        follows.text, lineStart]
      rw [Nat.max_eq_right (by omega), extract_lead]

end Scan

end Linewise
