import Mathlib.Data.List.Induction
import Linewise.Proofs.Blanks
import Linewise.Proofs.Words

/-! Outside of brackets a sign behind an equal one cancels it, and behind any other it begins a new
run. So the last block of equal signs decides: behind an odd number of them an operand is yet to
come (`Scan.signs_decide`). -/

namespace Linewise

namespace Sign

def byte : Sign → UInt8
  | plus => 0x2b
  | minus => 0x2d

theorem ofByte_byte (sign : Sign) : Role.ofByte sign.byte = .sign sign := by
  cases sign <;> rfl

/-- The length of the last block of equal signs. -/
def lastBlock (signs : List Sign) : Nat :=
  (signs.reverse.takeWhile fun sign => some sign = signs.getLast?).length

theorem lastBlock_concat (signs : List Sign) (next : Sign) :
    lastBlock (signs ++ [next]) =
      if signs.getLast? = some next then lastBlock signs + 1 else 1 := by
  simp only [lastBlock, List.reverse_append, List.reverse_singleton, List.singleton_append,
    List.getLast?_concat, List.takeWhile_cons, decide_true, if_true, List.length_cons]
  split
  · next same => simp only [same]
  · next other =>
    rw [← List.head?_reverse] at other
    cases turned : signs.reverse with
    | nil => rfl
    | cons first rest =>
      have apart : first ≠ next := by simpa [turned] using other
      simp [apart]

end Sign

namespace Context

/-- Where some signs lead in plain code. -/
def afterSigns (signs : List Sign) : Context :=
  signs.getLast?.elim code fun last => if Sign.lastBlock signs % 2 = 1 then sign last else code

theorem afterSigns_eq_sign_iff {signs : List Sign} {last : Sign} :
    afterSigns signs = sign last ↔ signs.getLast? = some last ∧ Sign.lastBlock signs % 2 = 1 := by
  unfold afterSigns
  rcases Option.eq_none_or_eq_some signs.getLast? with none | ⟨other, found⟩
  · simp [none]
  · simp only [found, Option.elim_some, Option.some.injEq]
    split
    · next odd => simp [odd]
    · next even => simp [even]

theorem afterSigns_concat (signs : List Sign) (next : Sign) :
    afterSigns (signs ++ [next]) = if afterSigns signs = sign next then code else sign next := by
  have block : afterSigns (signs ++ [next]) =
      if Sign.lastBlock (signs ++ [next]) % 2 = 1 then sign next else code := by
    unfold afterSigns
    rw [List.getLast?_concat, Option.elim_some]
  rw [block, Sign.lastBlock_concat]
  simp only [afterSigns_eq_sign_iff]
  by_cases same : signs.getLast? = some next
  · by_cases odd : Sign.lastBlock signs % 2 = 1
    · have even : ¬ (Sign.lastBlock signs + 1) % 2 = 1 := by omega
      simp [same, odd, even]
    · have odd' : (Sign.lastBlock signs + 1) % 2 = 1 := by omega
      simp [same, odd, odd']
  · simp [same]

theorem afterSigns_cases (signs : List Sign) :
    afterSigns signs = code ∨ ∃ last, afterSigns signs = sign last := by
  unfold afterSigns
  cases signs.getLast? with
  | none => exact .inl rfl
  | some last =>
    rw [Option.elim_some]
    split
    · exact .inr ⟨last, rfl⟩
    · exact .inl rfl

end Context

namespace Scan

variable {s t : Scan} {effect : Effect} {signs : List Sign} {next : Sign}

/-- Behind the signs nothing is expected so far, and the last code is the last of them. -/
structure Signed (signs : List Sign) (t : Scan) : Prop where
  context : t.context = Context.afterSigns signs
  depth : t.depth = 0
  calm : t.expecting = false
  last : ∃ first sign, t.extent = some ⟨first, t.text.size - 1⟩ ∧ t.text.back? = some (Sign.byte sign)

theorem signed_apply (level : s.depth = 0) (calm : effect.expectation.apply s.expecting = false)
    (next : Sign) (same : effect.nesting = .same) (counts : effect.counts = true)
    (shebang : effect.shebang = false) (context : effect.context = Context.afterSigns signs) :
    (s.apply next.byte effect).Signed signs where
  context := context
  depth := by simp [apply, Status.after, same, Nesting.apply, level]
  calm := by simp [apply, Status.after, calm]
  last := by
    rw [text_apply_of_not_shebang shebang, Array.back?_push, Array.size_push, Nat.add_sub_cancel]
    simp only [apply, Status.after, counts, if_true]
    generalize (if effect.deferred = true then _ else _ : Option Extent) = extent
    cases extent with
    | none => exact ⟨_, next, rfl, rfl⟩
    | some extent => exact ⟨_, next, rfl, rfl⟩

theorem accepts_sign (level : s.depth = 0) (context : s.context = Context.afterSigns signs)
    (calm : s.context ≠ .code → s.expecting = false) (next : Sign) :
    ∃ effect, s.effect next.byte = .ok effect ∧ (s.apply next.byte effect).Signed (signs ++ [next]) := by
  have after := Context.afterSigns_concat signs next
  rw [← context] at after
  rcases Context.afterSigns_cases signs with code | ⟨last, run⟩
  · rw [← context] at code
    refine ⟨{ context := .sign next, expectation := .drop, counts := true }, ?_, ?_⟩
    · rw [effect_eq_ok_iff, code, Sign.ofByte_byte, level]
      rfl
    · exact signed_apply level rfl next rfl rfl rfl (by simp [after, code])
  · rw [← context] at run
    refine ⟨{ context := if next = last then .code else .sign next, counts := true }, ?_, ?_⟩
    · rw [effect_eq_ok_iff, run, Sign.ofByte_byte]
      rfl
    · refine signed_apply level ?_ next rfl rfl rfl ?_
      · exact calm (by simp [run])
      simp only [after, run, Context.sign.injEq, eq_comm]

theorem accepts_signs (code : s.context = .code) (level : s.depth = 0) (occupied : signs ≠ []) :
    ∃ seen t, Accepts s (signs.map Sign.byte) seen t ∧ t.Signed signs := by
  induction signs using List.reverseRecOn with
  | nil => contradiction
  | append_singleton signs next ih =>
    rw [List.map_append]
    by_cases first : signs = []
    · subst first
      have none : s.context = Context.afterSigns [] := code
      obtain ⟨effect, one, signed⟩ := accepts_sign level none (absurd code) next
      exact ⟨_, _, .single one, signed⟩
    · obtain ⟨seen, t, accepted, before⟩ := ih first
      obtain ⟨effect, one, signed⟩ := accepts_sign before.depth before.context (fun _ => before.calm) next
      exact ⟨_, _, accepted.append (.single one), signed⟩

/-- The end of the line raises an expectation behind an open run, and nowhere else. -/
theorem Signed.newline (signed : t.Signed signs) :
    ∃ effect, t.effect Byte.newline = .ok effect ∧
      let u := t.apply Byte.newline effect
      u.context = .code ∧ u.depth = 0 ∧ (u.expecting = true ↔ t.context ≠ .code) ∧
        u.extent = t.extent ∧ u.text = t.text.push Byte.newline := by
  have context := Context.afterSigns_cases signs
  rw [← signed.context] at context
  have settled : ¬ (t.context = .slash ∨ t.context = .hash) := by
    rcases context with code | ⟨last, run⟩ <;> simp [*]
  obtain ⟨expectation, accepted, raised⟩ : ∃ expectation : Expectation,
      t.effect Byte.newline = .ok { context := .code, expectation } ∧
        (expectation.apply false = true ↔ t.context ≠ .code) := by
    rcases context with code | ⟨last, run⟩
    · exact ⟨.keep, effect_eq_ok_iff.mpr (by rw [code]; rfl), by simp [code, Expectation.apply]⟩
    · exact ⟨.raise, effect_eq_ok_iff.mpr (by rw [run]; rfl), by simp [run, Expectation.apply]⟩
  refine ⟨_, accepted, rfl, ?_, ?_, ?_, text_apply_newline accepted _⟩
  · simp [apply, Status.after, Nesting.apply, signed.depth]
  · simpa [apply, Status.after, Nesting.apply, signed.depth, signed.calm,
      Context.keepsExpectation] using raised
  · rw [extent_newline accepted, if_neg settled]

theorem Signed.promisesMore {u : Scan} (signed : t.Signed signs) (extent : u.extent = t.extent)
    (text : u.text = t.text.push Byte.newline) (vocabulary : Vocabulary) :
    vocabulary.promisesMore u.lineCode = false := by
  obtain ⟨first, sign, marked, last⟩ := signed.last
  have pos := size_pos_of_back? last
  have none : lastWord u.lineCode = none := by
    simp only [lineCode, extent, marked]
    by_cases inside : max first u.lineStart < t.text.size - 1 + 1
    · have here : u.text[t.text.size - 1]? = some sign.byte := by
        rw [text, Array.getElem?_push_lt (by omega), ← Array.getElem?_eq_getElem,
          ← Array.back?_eq_getElem?, last]
      have ends : (u.text.extract (max first u.lineStart) (t.text.size - 1 + 1)).toList.getLast? =
          some sign.byte := by
        rw [getLast?_extract inside (by simp [text]), Nat.add_sub_cancel, here]
      exact lastWord_of_getLast? ends (by cases sign <;> rfl) (by cases sign <;> rfl)
    · rw [Array.extract_empty_of_stop_le_start (by omega)]
      rfl
  simp [Vocabulary.promisesMore, none]

/-- Some signs, outside of brackets and in plain code. Behind them the scan stands in a run of the last sign
if its block is odd, and in plain code if it is even. At the end of the line more is expected in the first
case, and the unit is complete in the second, whatever was expected before. -/
theorem signs_decide (s : Scan) (code : s.context = .code) (level : s.depth = 0) {signs : List Sign}
    {last : Sign} (ends : signs.getLast? = some last) :
    let odd := Sign.lastBlock signs % 2 = 1
    let r := s.run (signs.map Sign.byte)
    let t := s.run (signs.map Sign.byte ++ [Byte.newline])
    let closed := t.scan.closeLine
    r.intrusion = none ∧ r.scan.context = (if odd then .sign last else .code) ∧
      t.intrusion = none ∧ closed.context = .code ∧ (closed.expecting = true ↔ odd) ∧
      ∀ settings vocabulary, closed.judgement settings vocabulary =
        if odd then .unfinished else .complete := by
  intro odd r t closed
  have occupied : signs ≠ [] := by
    rintro rfl
    cases ends
  obtain ⟨seen, u, accepted, signed⟩ := accepts_signs code level occupied
  obtain ⟨effect, one, plain, level', raised, extent, text⟩ := signed.newline
  have context : u.context = if odd then .sign last else .code := by
    rw [signed.context, Context.afterSigns, ends]
    rfl
  -- the newline decides the last sign, so closing the line has nothing left to change
  have first : r = ⟨u, seen, none⟩ := run_eq accepted
  have second : t = ⟨u.apply Byte.newline effect, _, none⟩ := run_eq (accepted.append (.single one))
  have whole : closed = u.apply Byte.newline effect := by
    simp only [closed, second]
    exact closeLine_eq_self (by simp [plain])
  have expecting : closed.expecting = true ↔ odd := by
    rw [whole, raised, context]
    split <;> simp [*]
  have plain' : closed.context = .code := by rw [whole, plain]
  have outside : closed.depth = 0 := by rw [whole, level']
  have marked : closed.extent.isSome = true := by
    obtain ⟨first, sign, found, -⟩ := signed.last
    rw [whole, extent, found]
    rfl
  refine ⟨by rw [first], by rw [first]; exact context, by rw [second], plain', expecting,
    fun settings vocabulary => ?_⟩
  split
  · next odd => exact (unfinished_iff_expecting plain' outside marked ..).mpr (expecting.mpr odd)
  · next even =>
    have calm : closed.expecting = false := by simpa using mt expecting.mp even
    refine judgement_eq_complete_iff.mpr ⟨isResolved_iff.mpr ⟨outside, calm, plain', .inl marked⟩, ?_⟩
    rw [whole]
    exact signed.promisesMore extent text vocabulary

/-- Behind `x =`, three signs of which the last two are equal. The equality sign expects nothing any more. -/
theorem signs_decide_pair :
    let s := (run {} [0x78, 0x3d]).scan
    let signs := [Sign.plus, .minus, .minus]
    s.context = .code ∧ s.depth = 0 ∧ s.expecting = true ∧ signs.getLast? = some .minus ∧
      (s.run (signs.map Sign.byte)).scan.context = .code ∧
      (s.run (signs.map Sign.byte ++ [Byte.newline])).scan.closeLine.judgement {} .go = .complete := by
  intro s signs
  have code : s.context = .code := by decide +kernel
  have level : s.depth = 0 := by decide +kernel
  have ends : signs.getLast? = some .minus := rfl
  obtain ⟨-, context, -, -, -, judged⟩ := signs_decide s code level ends
  have even : ¬ Sign.lastBlock signs % 2 = 1 := by decide
  rw [if_neg even] at context
  exact ⟨code, level, by decide +kernel, ends, context, (judged {} .go).trans (if_neg even)⟩

end Scan

end Linewise
