import Linewise.Input

/-! `Input.split` cuts a text behind every newline. Lines without newlines inside are found again,
and what follows the first lines of a text is cut in the same way as before. -/

namespace Linewise

namespace Input

variable {text body : List UInt8} {bodies : List (List UInt8)}

theorem split_append_terminated (closed : Byte.newline ∉ body) (text : List UInt8) :
    split (terminated body ++ text) = (body :: (split text).1, (split text).2) := by
  induction body with
  | nil => rfl
  | cons byte body ih =>
    have other := List.ne_of_not_mem_cons closed
    have inner := List.not_mem_of_not_mem_cons closed
    show consByte byte (split (terminated body ++ text)) = _
    rw [ih inner, consByte, if_neg (Ne.symm other)]

theorem newline_not_mem_split (text : List UInt8) :
    (∀ body ∈ (split text).1, Byte.newline ∉ body) ∧ Byte.newline ∉ (split text).2 := by
  induction text with
  | nil => simp [split]
  | cons byte text ih =>
    show (∀ body ∈ (consByte byte (split text)).1, _) ∧ Byte.newline ∉ (consByte byte (split text)).2
    generalize split text = pieces at ih ⊢
    obtain ⟨lines, rest⟩ := pieces
    obtain ⟨whole, partly⟩ := ih
    simp only [consByte]
    split
    · exact ⟨List.forall_mem_cons.mpr ⟨by simp, whole⟩, partly⟩
    · next other =>
      have apart := Ne.symm other
      cases lines with
      | nil => simp [apart, partly]
      | cons line lines =>
        obtain ⟨first, later⟩ := List.forall_mem_cons.mp whole
        exact ⟨List.forall_mem_cons.mpr ⟨by simp [apart, first], later⟩, partly⟩

theorem split_lines_append (closed : ∀ body ∈ bodies, Byte.newline ∉ body) (text : List UInt8) :
    split ((bodies.map terminated).flatten ++ text) = (bodies ++ (split text).1, (split text).2) := by
  induction bodies with
  | nil => rfl
  | cons body bodies ih =>
    obtain ⟨first, later⟩ := List.forall_mem_cons.mp closed
    rw [List.map_cons, List.flatten_cons, List.append_assoc, split_append_terminated first, ih later]
    rfl

theorem split_of_not_mem (absent : Byte.newline ∉ text) : split text = ([], text) := by
  induction text with
  | nil => rfl
  | cons byte text ih =>
    have other := List.ne_of_not_mem_cons absent
    show consByte byte (split text) = _
    rw [ih (List.not_mem_of_not_mem_cons absent), consByte, if_neg (Ne.symm other)]

theorem split_lines_tail (closed : ∀ body ∈ bodies, Byte.newline ∉ body)
    (partly : Byte.newline ∉ text) :
    split ((bodies.map terminated).flatten ++ text) = (bodies, text) := by
  rw [split_lines_append closed, split_of_not_mem partly, List.append_nil]

theorem split_lines (closed : ∀ body ∈ bodies, Byte.newline ∉ body) :
    split (bodies.map terminated).flatten = (bodies, []) := by
  have whole := split_lines_tail closed (List.not_mem_nil (a := Byte.newline))
  rwa [List.append_nil] at whole

/-- Text goes on where the last line of what comes before it broke off. -/
theorem split_append (front text : List UInt8) :
    split (front ++ text) =
      ((split front).1 ++ (split ((split front).2 ++ text)).1,
        (split ((split front).2 ++ text)).2) := by
  have whole := split_lines_append (newline_not_mem_split front).1 ((split front).2 ++ text)
  rwa [← List.append_assoc, flatten_split] at whole

/-- What follows the first lines of an input is an input that delivers the rest of its text. -/
theorem ofBytes_suffix {front back : List (List UInt8)}
    (lines : (split text).1 = front ++ back) (outage : Option Outage) :
    ∃ rest, text = (front.map terminated).flatten ++ rest ∧
      ⟨back, (ofBytes text outage).tail⟩ = ofBytes rest outage := by
  obtain ⟨closed, partly⟩ := newline_not_mem_split text
  have whole := flatten_split text
  have later : ∀ body ∈ back, Byte.newline ∉ body := fun body member =>
    closed body (lines ▸ List.mem_append_right _ member)
  have split := split_lines_tail later partly
  refine ⟨(back.map terminated).flatten ++ (Input.split text).2, ?_, ?_⟩
  · rw [lines, List.map_append, List.flatten_append, List.append_assoc] at whole
    exact whole.symm
  · simp only [ofBytes, split]

theorem split_terminated (text : List UInt8) :
    split (terminated text) = ((split text).1 ++ [(split text).2], []) := by
  obtain ⟨closed, partly⟩ := newline_not_mem_split text
  have whole : (((split text).1 ++ [(split text).2]).map terminated).flatten = terminated text := by
    simp only [List.map_append, List.flatten_append, List.map_cons, List.map_nil, List.flatten_cons,
      List.flatten_nil, List.append_nil]
    show _ ++ ((split text).2 ++ [Byte.newline]) = text ++ [Byte.newline]
    rw [← List.append_assoc, flatten_split]
  rw [← whole, split_lines]
  exact List.forall_mem_append.mpr ⟨closed, List.forall_mem_singleton.mpr partly⟩

theorem infix_of_mem_split (member : body ∈ (split text).1) : body <:+: text := by
  obtain ⟨front, back, spelled⟩ := List.append_of_mem member
  have whole := flatten_split text
  rw [spelled] at whole
  refine ⟨(front.map terminated).flatten,
    Byte.newline :: ((back.map terminated).flatten ++ (split text).2), Eq.trans ?_ whole⟩
  simp [terminated]

end Input

end Linewise
