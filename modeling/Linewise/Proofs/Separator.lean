import Linewise.Input
import Linewise.Separator

/-! No separator reaches over a byte that is not one of its own, in particular not over a newline.
So a text can be replaced line by line, and a text without separators stays as it is. -/

namespace Linewise.Separator

theorem isPrefixOf_append_cons {word : List UInt8} {stop : UInt8} (foreign : stop ∉ word)
    (left right : List UInt8) :
    word.isPrefixOf (left ++ stop :: right) = word.isPrefixOf left := by
  induction word generalizing left with
  | nil => simp
  | cons byte word ih =>
    have different := List.ne_of_not_mem_cons foreign
    have rest := List.not_mem_of_not_mem_cons foreign
    cases left with
    | nil => simp [List.isPrefixOf, Ne.symm different]
    | cons first left => simp [List.isPrefixOf, ih rest left]

/-- A replacement can be done on both sides of a foreign byte alone. -/
theorem replace_append_cons {stop : UInt8} (foreign : stop ∉ bytes) (left right : List UInt8) :
    replace (left ++ stop :: right) =
      ⟨(replace left).bytes ++ stop :: (replace right).bytes,
        (replace left).found || (replace right).found⟩ := by
  induction left with
  | nil =>
    have apart : bytes.isPrefixOf (stop :: (replace right).bytes) = false := by
      simpa [bytes] using isPrefixOf_append_cons foreign [] (replace right).bytes
    simp [replace_cons, Replaced.cons, apart]
  | cons byte left ih =>
    have same := isPrefixOf_append_cons foreign (byte :: (replace left).bytes) (replace right).bytes
    rw [List.cons_append, replace_cons, ih, replace_cons]
    simp only [List.cons_append] at same
    simp only [Replaced.cons, same]
    split
    · next matched =>
      -- a match takes two bytes from the left part, so the cut lies behind it
      obtain ⟨rest, spelled⟩ := List.isPrefixOf_iff_prefix.mp matched
      obtain ⟨-, tail⟩ := List.cons.inj spelled
      simp [← tail]
    · rfl

theorem newline_foreign : Byte.newline ∉ bytes := by decide

theorem slash_foreign : Byte.slash ∉ bytes := by decide

theorem replace_terminated_append (body text : List UInt8) :
    (replace (Input.terminated body ++ text)).bytes =
      (replace (Input.terminated body)).bytes ++ (replace text).bytes := by
  have whole := replace_append_cons newline_foreign body text
  have line := replace_append_cons newline_foreign body []
  simp only [Input.terminated, List.append_assoc, List.singleton_append] at *
  simp [whole, line]

theorem replace_terminated (body : List UInt8) :
    (replace (Input.terminated body)).bytes = (replace body).bytes ++ [Byte.newline] := by
  have line := replace_append_cons newline_foreign body []
  simpa [Input.terminated] using congrArg Replaced.bytes line

theorem replace_lines_append (bodies : List (List UInt8)) (text : List UInt8) :
    (replace ((bodies.map Input.terminated).flatten ++ text)).bytes =
      (replace (bodies.map Input.terminated).flatten).bytes ++ (replace text).bytes := by
  induction bodies with
  | nil => rfl
  | cons body bodies ih =>
    simp only [List.map_cons, List.flatten_cons, List.append_assoc, replace_terminated_append, ih]

theorem replace_of_not_infix {text : List UInt8} (absent : ¬ bytes <:+: text) :
    replace text = ⟨text, false⟩ := by
  induction text with
  | nil => rfl
  | cons byte text ih =>
    obtain ⟨front, inside⟩ := not_or.mp (mt List.infix_cons_iff.mpr absent)
    have unmatched : bytes.isPrefixOf (byte :: text) = false := by
      simpa [← List.isPrefixOf_iff_prefix] using front
    simp [replace_cons, ih inside, Replaced.cons, unmatched]

end Linewise.Separator
