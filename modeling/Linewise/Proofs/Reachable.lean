import Linewise.Proofs.Soundness

/-! A scan can be taken byte by byte or by lines, also past a refused byte, and it can be judged,
closed and opened at any time. Whatever is done to an empty scan, in any order, it stays sound
(`Scan.sound_of_moves`). -/

namespace Linewise

namespace Extent

/-- The start of the code stays, and its end does not move back. -/
def Grows (a b : Option Extent) : Prop := ∀ x ∈ a, ∃ y ∈ b, y.first = x.first ∧ x.last ≤ y.last

variable {a b c : Option Extent}

theorem grows_self (a : Option Extent) : Grows a a := fun x marked => ⟨x, marked, rfl, Nat.le_refl _⟩

theorem Grows.trans (one : Grows a b) (two : Grows b c) : Grows a c := by
  intro x marked
  obtain ⟨y, middle, first, last⟩ := one x marked
  obtain ⟨z, done, first', last'⟩ := two y middle
  exact ⟨z, done, first'.trans first, Nat.le_trans last last'⟩

theorem Grows.mark (grows : Grows a b) {offset : Nat} (behind : ∀ y ∈ b, y.last ≤ offset) :
    Grows a (mark b offset) := by
  intro x marked
  obtain ⟨y, rfl, first, last⟩ := grows x marked
  exact ⟨_, rfl, first, Nat.le_trans last (behind y rfl)⟩

end Extent

namespace Scan

open Extent (Grows grows_self)

/-- What can be done to a scan. -/
inductive Move where
  | byte (byte : UInt8)
  | line (bytes : List UInt8)
  | closeLine
  | judge (settings : Settings) (vocabulary : Vocabulary)
  | openLine

def move (s : Scan) : Move → Scan
  | .byte byte => s.step byte
  | .line bytes => (s.line bytes).scan
  | .closeLine => s.closeLine
  | .judge settings vocabulary => s.conclude (s.judgement settings vocabulary)
  | .openLine => s.openLine

def moves (s : Scan) (all : List Move) : Scan := all.foldl move s

variable {s t : Scan} {byte : UInt8} {effect : Effect} {bytes : List UInt8} {seen : List Sighting}

/-! ## Bytes -/

/-- A refused byte stands inside a literal, so no byte is undecided there. -/
theorem Sound.record {intrusion : Intrusion} (sound : s.Sound)
    (refused : s.effect byte = .error intrusion) : (s.record byte).Sound := by
  have kept {offset : Nat} (filled : s.Filled offset) : (s.record byte).Filled offset := by
    obtain ⟨old, found, solid⟩ := filled
    refine ⟨old, ?_, solid⟩
    have bound := (Array.getElem?_eq_some_iff.mp found).1
    simp only [Scan.record, Array.getElem?_push_lt bound]
    rw [← Array.getElem?_eq_getElem bound, found]
  obtain ⟨-, -, -, inside⟩ := intrusion_of_error refused
  exact {
    marks := fun extent marked => by
      obtain ⟨ordered, first, last⟩ := sound.marks extent marked
      exact ⟨ordered, kept first, kept last⟩
    lineStart := by simpa [Scan.record] using Nat.le_succ_of_le sound.lineStart
    depth := by simpa [Scan.record] using Nat.le_succ_of_le sound.depth
    expecting := sound.expecting
    sign := sound.sign
    slash := fun slash => by rcases inside with h | h <;> cases slash.symm.trans h
    hash := fun hash => by rcases inside with h | h <;> cases hash.symm.trans h
    blank := sound.blank }

theorem Sound.step (sound : s.Sound) (byte : UInt8) : (s.step byte).Sound := by
  unfold Scan.step
  split
  · next accepted => exact sound.apply accepted
  · next refused => exact sound.record refused

theorem grows_apply (sound : s.Sound) (byte : UInt8) (effect : Effect) :
    Grows s.extent (s.apply byte effect).extent := by
  have behind : ∀ x ∈ s.extent, x.last < s.text.size := fun x marked => (sound.marks x marked).2.2.lt
  have deferred : Grows s.extent
      (if effect.deferred then Extent.mark s.extent (s.text.size - 1) else s.extent) := by
    split
    · exact (grows_self _).mark fun x marked => Nat.le_sub_one_of_lt (behind x marked)
    · exact grows_self _
  have behind' : ∀ x ∈ (if effect.deferred then Extent.mark s.extent (s.text.size - 1)
      else s.extent), x.last ≤ s.text.size := by
    intro x marked
    split at marked
    · have last := (Extent.mark_eq_some marked).1
      omega
    · exact Nat.le_of_lt (behind x marked)
  simp only [apply, Status.after]
  split
  · exact deferred.mark behind'
  · exact deferred

theorem grows_step (sound : s.Sound) (byte : UInt8) : Grows s.extent (s.step byte).extent := by
  unfold Scan.step
  split
  · exact grows_apply sound _ _
  · exact grows_self _

/-! ## Lines -/

theorem grows_accepts (sound : s.Sound) (accepted : Accepts s bytes seen t) :
    Grows s.extent t.extent := by
  induction accepted with
  | nil => exact grows_self _
  | cons one _ ih => exact (grows_apply sound _ _).trans (ih (sound.apply one))

theorem line_reaches (s : Scan) (bytes : List UInt8) :
    ∃ front seen t, Accepts { s with lineStart := s.text.size } front seen t ∧
      ((s.line bytes).scan = t ∨
        ∃ byte intrusion, t.effect byte = .error intrusion ∧ (s.line bytes).scan = t.record byte) := by
  rcases run_cases { s with lineStart := s.text.size } bytes with
    ⟨seen, t, accepted, run⟩ | ⟨front, byte, back, seen, t, intrusion, -, accepted, refused, run⟩
  · exact ⟨bytes, seen, t, accepted, .inl (congrArg Run.scan run)⟩
  · exact ⟨front, seen, t, accepted, .inr ⟨byte, intrusion, refused, congrArg Run.scan run⟩⟩

theorem Sound.line (sound : s.Sound) (bytes : List UInt8) : (s.line bytes).scan.Sound := by
  obtain ⟨front, seen, t, accepted, whole | ⟨byte, intrusion, refused, stopped⟩⟩ :=
    line_reaches s bytes
  · exact whole ▸ sound.startLine.accepts accepted
  · exact stopped ▸ (sound.startLine.accepts accepted).record refused

theorem grows_line (sound : s.Sound) (bytes : List UInt8) :
    Grows s.extent (s.line bytes).scan.extent := by
  obtain ⟨front, seen, t, accepted, reached⟩ := line_reaches s bytes
  have grown := grows_accepts sound.startLine accepted
  rcases reached with whole | ⟨byte, intrusion, -, stopped⟩
  · rw [whole]
    exact grown
  · rw [stopped]
    exact grown

/-! ## Any order of moves -/

theorem Sound.move (sound : s.Sound) (m : Move) : (s.move m).Sound := by
  cases m with
  | byte byte => exact sound.step byte
  | line bytes => exact sound.line bytes
  | closeLine => exact sound.closeLine
  | judge settings vocabulary => exact sound.conclude settings vocabulary
  | openLine => exact sound.openLine

theorem grows_move (sound : s.Sound) (m : Move) : Grows s.extent (s.move m).extent := by
  cases m with
  | byte byte => exact grows_step sound byte
  | line bytes => exact grows_line sound bytes
  | closeLine | judge _ _ | openLine => exact grows_self _

theorem Sound.moves (sound : s.Sound) (all : List Move) : (s.moves all).Sound := by
  induction all generalizing s with
  | nil => exact sound
  | cons m all ih => exact ih (sound.move m)

theorem grows_moves (sound : s.Sound) (all : List Move) : Grows s.extent (s.moves all).extent := by
  induction all generalizing s with
  | nil => exact grows_self _
  | cons m all ih => exact (grows_move sound m).trans (ih (sound.move m))

/-- What the next byte relies on: a byte that is marked after the fact is the last of the text and was
undecided, and a shebang is rewritten where it is spelled. -/
structure Poised (s : Scan) : Prop where
  deferred : ∀ byte effect, s.effect byte = .ok effect → effect.deferred = true →
    ∃ front : Array UInt8, s.text = front.push Byte.slash ∨ s.text = front.push Byte.hash
  shebang : ∀ byte effect, s.effect byte = .ok effect → effect.shebang = true →
    ∃ front : Array UInt8, s.text = front.push Byte.hash ∧ byte = Byte.bang ∧
      (s.apply byte effect).text = (front.push Byte.slash).push Byte.slash

theorem Sound.poised (sound : s.Sound) : s.Poised where
  deferred := by
    intro byte effect accepted deferred
    rcases Context.undecided_of_deferred (effect_eq_ok_iff.mp accepted) deferred with slash | hash
    · obtain ⟨front, text⟩ := Array.back?_eq_some_iff.mp (sound.slash slash)
      exact ⟨front, .inl text⟩
    · obtain ⟨front, text⟩ := Array.back?_eq_some_iff.mp (sound.hash hash)
      exact ⟨front, .inr text⟩
  shebang := by
    intro byte effect accepted shebang
    obtain ⟨last, bang⟩ := back?_of_shebang sound accepted shebang
    obtain ⟨front, text⟩ := Array.back?_eq_some_iff.mp last
    refine ⟨front, text, bang, ?_⟩
    rw [text_apply_of_shebang shebang, text, Array.pop_push]

theorem Sound.codeStart_cases (sound : s.Sound) :
    (s.codeStart = none ∧ s.codeLast = none) ∨
      ∃ first last, s.codeStart = some first ∧ s.codeLast = some last ∧ first ≤ last ∧
        last < s.text.size := by
  cases marked : s.extent with
  | none => exact .inl ⟨by simp [Status.codeStart, marked], by simp [Status.codeLast, marked]⟩
  | some extent =>
    obtain ⟨ordered, -, last⟩ := sound.marks extent marked
    exact .inr ⟨extent.first, extent.last, by simp [Status.codeStart, marked],
      by simp [Status.codeLast, marked], ordered, last.lt⟩

/-- Whatever is done to an empty scan: the scan reached is sound, with its marks in place and ready for
any byte, and whatever is done to it afterwards keeps the start of its code and does not move the end
back. -/
theorem sound_of_moves (earlier later : List Move) :
    let s := moves {} earlier
    let t := s.moves later
    ((s.codeStart = none ∧ s.codeLast = none) ∨
        ∃ first last, s.codeStart = some first ∧ s.codeLast = some last ∧ first ≤ last ∧
          last < s.text.size) ∧
      s.Sound ∧ s.Poised ∧ Grows s.extent t.extent := by
  intro s t
  have sound : s.Sound := sound_empty.moves earlier
  exact ⟨sound.codeStart_cases, sound, sound.poised, grows_moves sound later⟩

end Scan

end Linewise
