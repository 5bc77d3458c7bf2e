import Linewise.Proofs.Words

/-! A text ends in at most one whole word with nothing but blanks behind it, and `lastWord` finds it
(`lastWord_eq_some_iff`), whatever stands in front that does not end in a letter
(`endsIn_lastWord`). -/

namespace Linewise

/-- A text ends in a word, blanks behind it aside. The word is whole: no further letter comes before it. -/
structure EndsIn (text word : List UInt8) : Prop where
  nonempty : word ≠ []
  letters : ∀ byte ∈ word, Byte.isLower byte = true
  whole : ∃ front back, text = front ++ word ++ back ∧
    (∀ byte ∈ back, Byte.isBlank byte = true) ∧ ∀ byte ∈ front.getLast?, Byte.isLower byte = false

variable {text word other back : List UInt8} {v : Vocabulary}

theorem isBlank_eq_false_of_isLower {byte : UInt8} (letter : Byte.isLower byte = true) :
    Byte.isBlank byte = false := by
  refine Bool.eq_false_iff.mpr fun blank => ?_
  rw [isLower_eq_false_of_isBlank blank] at letter
  cases letter

/-- Looked at from the end, the last word is the letters behind the blanks. -/
theorem lastWord_eq_some_iff_takeWhile :
    lastWord text = some word ↔ word ≠ [] ∧
      (text.reverse.dropWhile Byte.isBlank).takeWhile Byte.isLower = word.reverse := by
  rw [← List.reverse_eq_iff, lastWord]
  split
  · next none => simp [none, eq_comm]
  · next _ some =>
    constructor
    · rintro ⟨⟩
      exact ⟨some, rfl⟩
    · rintro ⟨-, rfl⟩
      rfl

theorem endsIn_of_lastWord (found : lastWord text = some word) : EndsIn text word := by
  obtain ⟨nonempty, taken⟩ := lastWord_eq_some_iff_takeWhile.mp found
  let solid := text.reverse.dropWhile Byte.isBlank
  have letters : ∀ byte ∈ solid.takeWhile Byte.isLower, Byte.isLower byte = true :=
    List.all_eq_true.mp List.all_takeWhile
  have turned : text.reverse = text.reverse.takeWhile Byte.isBlank ++
      (word.reverse ++ solid.dropWhile Byte.isLower) := by
    rw [← taken, List.takeWhile_append_dropWhile, List.takeWhile_append_dropWhile]
  refine ⟨nonempty, fun byte member => letters byte ?_, (solid.dropWhile Byte.isLower).reverse,
    (text.reverse.takeWhile Byte.isBlank).reverse, ?_, fun byte member => ?_, fun byte last => ?_⟩
  · rw [taken]
    exact List.mem_reverse.mpr member
  · simpa using congrArg List.reverse turned
  · exact List.all_eq_true.mp List.all_takeWhile byte (List.mem_reverse.mp member)
  · have stop := List.head?_dropWhile_not Byte.isLower solid
    rw [List.getLast?_reverse] at last
    rw [last] at stop
    simpa using stop

theorem lastWord_of_endsIn (ends : EndsIn text word) : lastWord text = some word := by
  obtain ⟨nonempty, letters, front, back, rfl, blank, stop⟩ := ends
  refine lastWord_eq_some_iff_takeWhile.mpr ⟨nonempty, ?_⟩
  have blank' : ∀ byte ∈ back.reverse, Byte.isBlank byte = true := by simpa using blank
  have letters' : ∀ byte ∈ word.reverse, Byte.isLower byte = true := by simpa using letters
  have stop' : ∀ byte ∈ front.reverse.head?, Byte.isLower byte = false := by simpa using stop
  have solid : (word.reverse ++ front.reverse).dropWhile Byte.isBlank =
      word.reverse ++ front.reverse := by
    cases spelled : word.reverse with
    | nil => exact absurd (List.reverse_eq_nil_iff.mp spelled) nonempty
    | cons last more =>
      have first := isBlank_eq_false_of_isLower (letters' last (by simp [spelled]))
      simp [first]
  calc ((front ++ word ++ back).reverse.dropWhile Byte.isBlank).takeWhile Byte.isLower
      = ((back.reverse ++ (word.reverse ++ front.reverse)).dropWhile Byte.isBlank).takeWhile
          Byte.isLower := by simp
    _ = (word.reverse ++ front.reverse).takeWhile Byte.isLower := by
        rw [List.dropWhile_append_of_pos blank', solid]
    _ = word.reverse.takeWhile Byte.isLower := takeWhile_append_of_head stop'
    _ = word.reverse := List.takeWhile_eq_self_iff.mpr letters'

theorem lastWord_eq_some_iff : lastWord text = some word ↔ EndsIn text word :=
  ⟨endsIn_of_lastWord, lastWord_of_endsIn⟩

theorem EndsIn.unique (one : EndsIn text word) (two : EndsIn text other) : word = other :=
  Option.some.inj ((lastWord_of_endsIn one).symm.trans (lastWord_of_endsIn two))

theorem lastWord_eq_none_iff : lastWord text = none ↔ ∀ word, ¬ EndsIn text word := by
  simp only [Option.eq_none_iff_forall_ne_some, ne_eq, lastWord_eq_some_iff]

theorem lastWord_append_blanks (blank : ∀ byte ∈ back, Byte.isBlank byte = true) :
    lastWord (text ++ back) = lastWord text := by
  have turned : ∀ byte ∈ back.reverse, Byte.isBlank byte = true := by simpa using blank
  simp only [lastWord, List.reverse_append, List.dropWhile_append_of_pos turned]

theorem WordClass.promisesMore_iff {kind : WordClass} : kind.promisesMore = true ↔ kind = .reserved := by
  cases kind <;> simp [WordClass.promisesMore]

theorem Vocabulary.promisesMore_iff :
    v.promisesMore text = true ↔
      ∃ word, EndsIn text word ∧ v.classify (spelling word) = .reserved := by
  simp only [promisesMore, Option.any_eq_true, lastWord_eq_some_iff, WordClass.promisesMore_iff]

/-- The last word of a text is the one it ends in, and there is none if it does not end in one. A text calls
for another line if it ends in a reserved word. More blanks behind it do not change that, nor does anything
in front of it that ends in a byte other than a letter, unless the text is blank. -/
theorem endsIn_lastWord (v : Vocabulary) (text : List UInt8) :
    (∀ word, lastWord text = some word ↔ EndsIn text word) ∧
    (∀ word other, EndsIn text word → EndsIn text other → word = other) ∧
    (lastWord text = none ↔ ∀ word, ¬ EndsIn text word) ∧
    (v.promisesMore text = true ↔
      ∃ word, EndsIn text word ∧ v.classify (spelling word) = .reserved) ∧
    (∀ blanks, (∀ byte ∈ blanks, Byte.isBlank byte = true) →
      v.promisesMore (text ++ blanks) = v.promisesMore text) ∧
    (∀ front stop, Byte.isLower stop = false → (∃ byte ∈ text, 0x20 < byte) →
      v.promisesMore (front ++ stop :: text) = v.promisesMore text) := by
  refine ⟨fun word => lastWord_eq_some_iff, fun word other => EndsIn.unique, lastWord_eq_none_iff,
    Vocabulary.promisesMore_iff, fun blanks blank => ?_, fun front stop foreign solid => ?_⟩
  · rw [Vocabulary.promisesMore, lastWord_append_blanks blank, Vocabulary.promisesMore]
  · obtain ⟨byte, member, above⟩ := solid
    have last : ∀ byte ∈ (front ++ [stop]).getLast?, Byte.isLower byte = false := by simpa using foreign
    have same := lastWord_append last ⟨byte, member, Byte.isBlank_eq_false_iff.mpr above⟩
    rw [List.append_assoc, List.singleton_append] at same
    rw [Vocabulary.promisesMore, same, Vocabulary.promisesMore]

/-- A closing brace and a keyword, with more blanks behind them and more code in front. -/
theorem endsIn_lastWord_else :
    let text : List UInt8 := [0x7d, 0x20, 0x65, 0x6c, 0x73, 0x65]
    EndsIn text [0x65, 0x6c, 0x73, 0x65] ∧
      Vocabulary.go.promisesMore (text ++ [0x20, 0x09]) = true ∧
      Vocabulary.go.promisesMore ([0x69, 0x66] ++ 0x7b :: text) = true := by
  intro text
  obtain ⟨found, -, -, promises, behind, before⟩ := endsIn_lastWord .go text
  have ends : EndsIn text [0x65, 0x6c, 0x73, 0x65] := (found _).mp (by decide)
  have promised : Vocabulary.go.promisesMore text = true := promises.mpr ⟨_, ends, by decide⟩
  refine ⟨ends, ?_, ?_⟩
  · rw [behind [0x20, 0x09] (List.all_eq_true.mp (by decide)), promised]
  · rw [before [0x69, 0x66] 0x7b (by decide) ⟨0x7d, by decide, by decide⟩, promised]

end Linewise
