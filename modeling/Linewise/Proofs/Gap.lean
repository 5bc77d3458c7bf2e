import Linewise.Proofs.Effect

/-! A gap is text without code: blanks, line comments and closed block comments, described here
without any scanning. `Gap.Upto` says where such a text leaves a context, and `Gap.Upto.step` that
the table agrees. -/

namespace Linewise

def Byte.star : UInt8 := 0x2a

/-- The length of the run of a byte at the end of a text. -/
def Byte.runAtEnd (byte : UInt8) (text : List UInt8) : Nat :=
  (text.reverse.takeWhile (· == byte)).length

theorem Byte.runAtEnd_concat (byte : UInt8) (text : List UInt8) (next : UInt8) :
    runAtEnd byte (text ++ [next]) = if next = byte then runAtEnd byte text + 1 else 0 := by
  simp only [runAtEnd, List.reverse_append, List.reverse_cons, List.reverse_nil, List.nil_append,
    List.singleton_append, List.takeWhile_cons, beq_iff_eq]
  split <;> simp

theorem Role.ofByte_eq_star_iff {b : UInt8} : ofByte b = star ↔ b = Byte.star :=
  ⟨fun h => eq_of_only_ofByte (by rw [h]; rfl), by rintro rfl; rfl⟩

namespace Gap

def stars (text : List UInt8) : Nat := Byte.runAtEnd Byte.star text

/-- No slash in the text closes a block comment: each comes after an even run of stars. -/
def Unclosed (body : List UInt8) : Prop :=
  ∀ front, front ++ [Byte.slash] <+: body → stars front % 2 = 0

/-- The two ways to open a comment up to the end of the line. -/
def OpensLine (opener : List UInt8) : Prop :=
  opener = [Byte.slash, Byte.slash] ∨ opener = [Byte.hash, Byte.bang]

inductive Piece : List UInt8 → Prop where
  | blank {byte : UInt8} (blank : Byte.isBlank byte = true) : Piece [byte]
  | line {opener note : List UInt8} (opens : OpensLine opener) (inside : Byte.newline ∉ note) :
      Piece (opener ++ note ++ [Byte.newline])
  /-- A block comment ends at the first slash that comes after an odd run of stars. -/
  | block {body : List UInt8} (unclosed : Unclosed body) (odd : stars body % 2 = 1) :
      Piece (Byte.slash :: Byte.star :: body ++ [Byte.slash])

end Gap

/-- Text without code. -/
def Gap (text : List UInt8) : Prop :=
  ∃ pieces : List (List UInt8), (∀ piece ∈ pieces, Gap.Piece piece) ∧ text = pieces.flatten

namespace Gap

variable {text front body note opener more : List UInt8} {byte : UInt8}

theorem nil : Gap [] := ⟨[], by simp, rfl⟩

theorem concat (gap : Gap front) (piece : Piece more) : Gap (front ++ more) := by
  obtain ⟨pieces, each, rfl⟩ := gap
  refine ⟨pieces ++ [more], ?_, by simp⟩
  intro other member
  rcases List.mem_append.mp member with old | new
  · exact each other old
  · exact List.mem_singleton.mp new ▸ piece

theorem stars_concat (text : List UInt8) (byte : UInt8) :
    stars (text ++ [byte]) = if byte = Byte.star then stars text + 1 else 0 :=
  Byte.runAtEnd_concat Byte.star text byte

theorem unclosed_nil : Unclosed [] := by
  intro front closes
  simp at closes

theorem Unclosed.of_append (unclosed : Unclosed (body ++ more)) : Unclosed body :=
  fun front closes => unclosed front (closes.trans (List.prefix_append _ _))

theorem Unclosed.concat (unclosed : Unclosed body) (byte : UInt8)
    (even : byte = Byte.slash → stars body % 2 = 0) : Unclosed (body ++ [byte]) := by
  intro front closes
  rcases List.prefix_concat_iff.mp closes with whole | before
  · obtain ⟨rfl, last⟩ := List.append_inj' whole rfl
    exact even (List.singleton_inj.mp last).symm
  · exact unclosed front before

/-- A text without code up to a context: behind a gap there is nothing yet, a byte that is not decided,
or the part of a comment. -/
inductive Upto : Context → List UInt8 → Prop where
  | code {text : List UInt8} (gap : Gap text) : Upto .code text
  | slash {front : List UInt8} (gap : Gap front) : Upto .slash (front ++ [Byte.slash])
  | hash {front : List UInt8} (gap : Gap front) : Upto .hash (front ++ [Byte.hash])
  | lineComment {front opener note : List UInt8} (gap : Gap front) (opens : OpensLine opener)
      (inside : Byte.newline ∉ note) : Upto .lineComment (front ++ (opener ++ note))
  | block {front body : List UInt8} (gap : Gap front) (unclosed : Unclosed body)
      (even : stars body % 2 = 0) : Upto .block (front ++ Byte.slash :: Byte.star :: body)
  | blockStar {front body : List UInt8} (gap : Gap front) (unclosed : Unclosed body)
      (odd : stars body % 2 = 1) : Upto .blockStar (front ++ Byte.slash :: Byte.star :: body)

namespace Upto

variable {context : Context} {nested : Bool} {effect : Effect}

theorem opened (gap : Gap front) (opens : OpensLine opener) : Upto .lineComment (front ++ opener) := by
  simpa using Upto.lineComment gap opens List.not_mem_nil

theorem block_concat (front body : List UInt8) (byte : UInt8) :
    front ++ Byte.slash :: Byte.star :: body ++ [byte] =
      front ++ Byte.slash :: Byte.star :: (body ++ [byte]) := by
  simp

theorem ofBlock (gap : Gap front) (unclosed : Unclosed body) (even : stars body % 2 = 0)
    (byte : UInt8) :
    Upto (if Role.ofByte byte = .star then .blockStar else .block)
      (front ++ Byte.slash :: Byte.star :: body ++ [byte]) := by
  have longer := unclosed.concat byte fun _ => even
  have count := stars_concat body byte
  rw [block_concat]
  split
  · next star =>
    rw [if_pos (Role.ofByte_eq_star_iff.mp star)] at count
    exact .blockStar gap longer (by omega)
  · next other =>
    rw [if_neg (mt Role.ofByte_eq_star_iff.mpr other)] at count
    exact .block gap longer (by omega)

theorem ofBlockStar (gap : Gap front) (unclosed : Unclosed body) (odd : stars body % 2 = 1)
    (byte : UInt8) :
    Upto (if Role.ofByte byte = .slash then .code else .block)
      (front ++ Byte.slash :: Byte.star :: body ++ [byte]) := by
  rw [block_concat]
  split
  · next slash =>
    rw [Role.ofByte_eq_slash_iff.mp slash]
    exact .code (gap.concat (.block unclosed odd))
  · next other =>
    have apart := mt Role.ofByte_eq_slash_iff.mpr other
    have longer := unclosed.concat byte fun slash => absurd slash apart
    have count := stars_concat body byte
    refine .block gap longer ?_
    split at count <;> omega

/-- A byte that is not code leads on, unless it ends a line comment. -/
theorem step (upto : Upto context text)
    (entry : context.effect (Role.ofByte byte) nested = .ok effect)
    (uncounted : effect.counts = false) (undeferred : effect.deferred = false)
    (apart : context = .lineComment → byte ≠ Byte.newline) : Upto effect.context (text ++ [byte]) := by
  cases upto with
  | code gap =>
    rcases Context.silent_of_code entry uncounted with ⟨blank, next⟩ | ⟨slash, next⟩ | ⟨hash, next⟩
    · rw [next]
      exact .code (gap.concat (.blank (Role.isBlank_ofByte byte ▸ blank)))
    · rw [next, Role.ofByte_eq_slash_iff.mp slash]
      exact .slash gap
    · rw [next, Role.ofByte_eq_hash_iff.mp hash]
      exact .hash gap
  | slash gap =>
    rw [List.append_assoc]
    rcases Context.opens_of_slash entry undeferred with ⟨slash, next⟩ | ⟨star, next⟩
    · rw [next, Role.ofByte_eq_slash_iff.mp slash]
      exact opened gap (.inl rfl)
    · rw [next, Role.ofByte_eq_star_iff.mp star]
      exact .block gap unclosed_nil rfl
  | hash gap =>
    rw [List.append_assoc]
    obtain ⟨bang, next⟩ := Context.opens_of_hash entry undeferred
    rw [next, Role.ofByte_eq_bang_iff.mp bang]
    exact opened gap (.inr rfl)
  | lineComment gap opens inside =>
    cases entry
    rw [List.append_assoc, List.append_assoc]
    refine .lineComment gap opens ?_
    simp only [List.mem_append, List.mem_singleton, not_or]
    exact ⟨inside, Ne.symm (apart rfl)⟩
  | block gap unclosed even =>
    cases entry
    exact ofBlock gap unclosed even byte
  | blockStar gap unclosed odd =>
    cases entry
    exact ofBlockStar gap unclosed odd byte

theorem shebang (upto : Upto .hash text) :
    Upto .lineComment (text.dropLast ++ [Byte.slash, Byte.slash]) := by
  cases upto with
  | hash gap =>
    rw [List.dropLast_concat]
    exact opened gap (.inl rfl)

theorem newline (upto : Upto .lineComment text) : Gap (text ++ [Byte.newline]) := by
  cases upto with
  | lineComment gap opens inside =>
    rw [List.append_assoc]
    exact gap.concat (.line opens inside)

theorem gap (upto : Upto .code text) : Gap text := by
  cases upto with
  | code gap => exact gap

end Upto

/-! ## Where code begins -/

def openers : List (List UInt8) :=
  [[Byte.slash, Byte.slash], [Byte.slash, Byte.star], [Byte.hash, Byte.bang]]

/-- The text begins with code, whatever follows it: its first byte is no blank, and does not open a
comment together with the next. -/
def BeginsCode : List UInt8 → Prop
  | [] => False
  | [byte] => Byte.isBlank byte = false ∧ byte ≠ Byte.slash ∧ byte ≠ Byte.hash
  | byte :: next :: _ => Byte.isBlank byte = false ∧ [byte, next] ∉ openers

theorem beginsCode_slash (slash : byte ≠ Byte.slash) (star : byte ≠ Byte.star) :
    BeginsCode [Byte.slash, byte] := by
  have distinct : Byte.slash ≠ Byte.hash := by decide
  exact ⟨by decide, by simp [openers, slash, star, distinct]⟩

theorem beginsCode_hash (bang : byte ≠ Byte.bang) : BeginsCode [Byte.hash, byte] := by
  have distinct : Byte.hash ≠ Byte.slash := by decide
  exact ⟨by decide, by simp [openers, bang, distinct]⟩

theorem BeginsCode.append (begins : BeginsCode text) (more : List UInt8) :
    BeginsCode (text ++ more) := by
  match text, more, begins with
  | [byte], [], begins => exact begins
  | [byte], next :: more, ⟨solid, slash, hash⟩ =>
    refine ⟨solid, ?_⟩
    simp [openers, slash, hash]
  | byte :: next :: rest, more, begins => exact begins

theorem BeginsCode.solid (begins : BeginsCode text) : ∃ byte, text.head? = some byte ∧ 0x20 < byte := by
  match text, begins with
  | [byte], ⟨solid, _⟩ => exact ⟨byte, rfl, Byte.isBlank_eq_false_iff.mp solid⟩
  | byte :: next :: rest, ⟨solid, _⟩ => exact ⟨byte, rfl, Byte.isBlank_eq_false_iff.mp solid⟩

theorem BeginsCode.not_prefix (begins : BeginsCode text) : ∀ opener ∈ openers, ¬ opener <+: text := by
  intro opener member opens
  match text, begins with
  | [byte], ⟨_, slash, hash⟩ =>
    have short := opens.length_le
    have two : opener.length = 2 := by
      simp only [openers, List.mem_cons, List.not_mem_nil, or_false] at member
      rcases member with rfl | rfl | rfl <;> rfl
    simp only [two, List.length_singleton] at short
    omega
  | byte :: next :: rest, ⟨_, apart⟩ =>
    have same : opener = [byte, next] := by
      simp only [openers, List.mem_cons, List.not_mem_nil, or_false] at member
      rcases member with rfl | rfl | rfl <;> simpa [List.cons_prefix_cons] using opens
    exact apart (same ▸ member)

end Gap

end Linewise
