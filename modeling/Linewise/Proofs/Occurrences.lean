import Mathlib.Data.List.Infix
import Linewise.Proofs.Conservation

/-! `Separator.replace` works from the right, and comes to the same as replacing the leftmost
separator, then the leftmost of those behind it, and so on: what is left over of a separator is
never completed across a newline put in. So a text can be replaced line by line
(`Separator.replace_line_by_line`). -/

namespace Linewise.Separator

/-- Puts a newline in place of the leftmost separator, and goes on behind it. -/
def leftmost : List UInt8 → List UInt8
  | 0xe2 :: 0x80 :: 0xa9 :: text => Byte.newline :: leftmost text
  | byte :: text => byte :: leftmost text
  | [] => []

/-- The number of places at which a separator begins. -/
def occurrences (text : List UInt8) : Nat := text.tails.countP bytes.isPrefixOf

variable {byte : UInt8} {text rest : List UInt8}

theorem isPrefix_iff : bytes <+: byte :: text ↔ byte = 0xe2 ∧ ∃ rest, text = 0x80 :: 0xa9 :: rest := by
  constructor
  · rintro ⟨rest, spelled⟩
    obtain ⟨rfl, rfl⟩ := List.cons.inj spelled
    exact ⟨rfl, rest, rfl⟩
  · rintro ⟨rfl, rest, rfl⟩
    exact ⟨rest, rfl⟩

theorem not_isPrefix_of_ne (other : byte ≠ 0xe2) (text : List UInt8) : ¬ bytes <+: byte :: text :=
  fun matched => other (isPrefix_iff.mp matched).1

theorem eq_cons_of_replace (spelled : (replace text).bytes = byte :: rest)
    (kept : byte ≠ Byte.newline) : ∃ more, text = byte :: more ∧ (replace more).bytes = rest := by
  cases text with
  | nil => cases spelled
  | cons first more =>
    rw [replace_cons, Replaced.cons] at spelled
    split at spelled
    · exact absurd (List.cons.inj spelled).1.symm kept
    · obtain ⟨rfl, same⟩ := List.cons.inj spelled
      exact ⟨more, rfl, same⟩

/-- No separator comes about by replacing those behind a byte. -/
theorem isPrefix_of_replace (matched : bytes <+: byte :: (replace text).bytes) :
    bytes <+: byte :: text := by
  obtain ⟨first, rest, spelled⟩ := isPrefix_iff.mp matched
  obtain ⟨behind, second, spelled⟩ := eq_cons_of_replace spelled (by decide)
  obtain ⟨more, third, -⟩ := eq_cons_of_replace spelled (by decide)
  exact isPrefix_iff.mpr ⟨first, more, by rw [second, third]⟩

/-! ## From the left -/

theorem replace_cons_of_not_isPrefix (unmatched : ¬ bytes <+: byte :: text) :
    replace (byte :: text) = { replace text with bytes := byte :: (replace text).bytes } := by
  have still : ¬ bytes.isPrefixOf (byte :: (replace text).bytes) = true :=
    fun matched => unmatched (isPrefix_of_replace (List.isPrefixOf_iff_prefix.mp matched))
  rw [replace_cons, Replaced.cons, if_neg still]

theorem replace_separator (text : List UInt8) :
    replace (0xe2 :: 0x80 :: 0xa9 :: text) = ⟨Byte.newline :: (replace text).bytes, true⟩ := by
  have last : ¬ bytes <+: 0xa9 :: text := not_isPrefix_of_ne (by decide) text
  have middle : ¬ bytes <+: 0x80 :: 0xa9 :: text := not_isPrefix_of_ne (by decide) (0xa9 :: text)
  rw [replace_cons, replace_cons_of_not_isPrefix middle, replace_cons_of_not_isPrefix last]
  rfl

theorem not_isPrefix_of_passed
    (passed : ∀ rest, byte = 0xe2 → text = 0x80 :: 0xa9 :: rest → False) :
    ¬ bytes <+: byte :: text := by
  intro matched
  obtain ⟨first, rest, spelled⟩ := isPrefix_iff.mp matched
  exact passed rest first spelled

theorem replace_eq_leftmost (text : List UInt8) : (replace text).bytes = leftmost text := by
  fun_induction leftmost text with
  | case1 text ih => rw [replace_separator, ih]
  | case2 byte text passed ih =>
    rw [replace_cons_of_not_isPrefix (not_isPrefix_of_passed passed), ih]
  | case3 => rfl

/-! ## What is replaced -/

theorem occurrences_cons_of_not_isPrefix (unmatched : ¬ bytes <+: byte :: text) :
    occurrences (byte :: text) = occurrences text := by
  have plain : ¬ bytes.isPrefixOf (byte :: text) = true := mt List.isPrefixOf_iff_prefix.mp unmatched
  rw [occurrences, List.tails_cons, List.countP_cons_of_neg plain, occurrences]

theorem occurrences_separator (text : List UInt8) :
    occurrences (0xe2 :: 0x80 :: 0xa9 :: text) = occurrences text + 1 := by
  have matched : bytes.isPrefixOf (0xe2 :: 0x80 :: 0xa9 :: text) = true :=
    List.isPrefixOf_iff_prefix.mpr ⟨text, rfl⟩
  rw [occurrences, List.tails_cons, List.countP_cons_of_pos matched, ← occurrences,
    occurrences_cons_of_not_isPrefix (not_isPrefix_of_ne (by decide) _),
    occurrences_cons_of_not_isPrefix (not_isPrefix_of_ne (by decide) _)]

theorem length_leftmost (text : List UInt8) :
    (leftmost text).length + 2 * occurrences text = text.length := by
  fun_induction leftmost text with
  | case1 text ih =>
    rw [occurrences_separator]
    simp only [List.length_cons]
    omega
  | case2 byte text passed ih =>
    rw [occurrences_cons_of_not_isPrefix (not_isPrefix_of_passed passed)]
    simp only [List.length_cons]
    omega
  | case3 => rfl

theorem not_infix_leftmost (text : List UInt8) : ¬ bytes <:+: leftmost text := by
  fun_induction leftmost text with
  | case1 text ih =>
    rw [List.infix_cons_iff]
    rintro (front | inside)
    · exact not_isPrefix_of_ne (by decide) _ front
    · exact ih inside
  | case2 byte text passed ih =>
    rw [List.infix_cons_iff]
    rintro (front | inside)
    · rw [← replace_eq_leftmost] at front
      exact not_isPrefix_of_passed passed (isPrefix_of_replace front)
    · exact ih inside
  | case3 => decide

theorem found_replace_iff (text : List UInt8) : (replace text).found = true ↔ bytes <:+: text := by
  induction text using leftmost.induct with
  | case1 text ih =>
    have inside : bytes <:+: 0xe2 :: 0x80 :: 0xa9 :: text := List.IsPrefix.isInfix ⟨text, rfl⟩
    simp only [replace_separator, inside]
  | case2 byte text passed ih =>
    have unmatched := not_isPrefix_of_passed passed
    rw [replace_cons_of_not_isPrefix unmatched, List.infix_cons_iff, or_iff_right unmatched]
    exact ih
  | case3 => decide

theorem replace_physicalLines (input : Input) :
    (input.physicalLines.flatMap fun line => (replace line).bytes) = (replace input.toBytes).bytes := by
  obtain ⟨lines, tail⟩ := input
  induction lines with
  | nil =>
    simp only [Input.physicalLines, Input.toBytes, List.map_nil, List.flatten_nil, List.nil_append]
    cases tail with
    | cut outage => rfl
    | rest bytes => cases bytes <;> simp
  | cons body lines ih =>
    have whole : Input.toBytes ⟨body :: lines, tail⟩ =
        Input.terminated body ++ Input.toBytes ⟨lines, tail⟩ := by
      simp [Input.toBytes]
    rw [Input.physicalLines_cons, List.flatMap_cons, ih, whole, replace_terminated_append]

/-- The separators of a text are replaced from the left, or line by line, with the same result. No separator
is left in it, so a second replacement finds nothing to do. It is two bytes shorter for every separator in
the text, and a replacement is reported exactly if there is any. -/
theorem replace_line_by_line (text : List UInt8) :
    (replace text).bytes = leftmost text ∧
    ((Input.ofBytes text none).physicalLines.flatMap fun line => (replace line).bytes) =
      (replace text).bytes ∧
    ¬ bytes <:+: (replace text).bytes ∧
    replace (replace text).bytes = ⟨(replace text).bytes, false⟩ ∧
    (replace text).bytes.length + 2 * occurrences text = text.length ∧
    ((replace text).found = true ↔ bytes <:+: text) := by
  have absent : ¬ bytes <:+: (replace text).bytes := replace_eq_leftmost text ▸ not_infix_leftmost text
  refine ⟨replace_eq_leftmost text, ?_, absent, replace_of_not_infix absent, ?_, found_replace_iff text⟩
  · rw [replace_physicalLines, Input.toBytes_ofBytes]
  · rw [replace_eq_leftmost, length_leftmost]

end Linewise.Separator
