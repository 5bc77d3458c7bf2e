import Linewise.Proofs.Asides

/-! Behind an operator a statement goes on, whatever blanks and comments fill the
rest of its line. Only where a shebang follows a slash at once, nothing is asked
for (`Scan.trailing_operator_iff`). -/

namespace Linewise

/-- The operators `! % & * + , - . / < = > ^ |`. -/
def Byte.operators : List UInt8 :=
  [0x21, 0x25, 0x26, 0x2a, 0x2b, 0x2c, 0x2d, 0x2e, 0x2f, 0x3c, 0x3d, 0x3e, 0x5e, 0x7c]

namespace Role

theorem ofByte_eq_ofMark {b : UInt8} (solid : (ofByte b).isBlank = false) : ofByte b = ofMark b := by
  unfold ofByte at solid ⊢
  split at solid
  · cases solid
  · split at solid
    · cases solid
    · simp [*]

theorem mem_operators_iff {b : UInt8} : b ∈ Byte.operators ↔ (ofByte b).isOperator = true := by
  constructor
  · intro member
    simp only [Byte.operators, List.mem_cons, List.not_mem_nil, or_false] at member
    rcases member with rfl | rfl | rfl | rfl | rfl | rfl | rfl | rfl | rfl | rfl | rfl | rfl | rfl | rfl
    all_goals rfl
  · intro operator
    have solid : (ofByte b).isBlank = false := by
      cases role : ofByte b <;> simp_all [isOperator, isBlank]
    rw [ofByte_eq_ofMark solid] at operator
    unfold ofMark at operator
    split at operator <;> first | decide | cases operator

end Role

namespace Gap

/-- What may stand behind an operator up to the end of the line: blanks and closed block comments, and a line
comment behind them if there is one. -/
inductive Trail : List UInt8 → Prop where
  | nil : Trail []
  | blank {byte : UInt8} {rest : List UInt8} (blank : Byte.isBlank byte = true) (trail : Trail rest) :
      Trail (byte :: rest)
  | block {body rest : List UInt8} (unclosed : Unclosed body) (even : stars body % 2 = 0)
      (trail : Trail rest) :
      Trail (Byte.slash :: Byte.star :: (body ++ [Byte.star, Byte.slash]) ++ rest)
  | line {opener note : List UInt8} (opens : OpensLine opener) : Trail (opener ++ note)

def Begins (byte : UInt8) (context : Context) : Prop :=
  (Byte.isBlank byte = true ∧ context = .code) ∨ (byte = Byte.slash ∧ context = .slash) ∨
    (byte = Byte.hash ∧ context = .hash)

theorem Begins.keeps {byte : UInt8} {context : Context} (begins : Begins byte context) :
    context.keepsExpectation = true := by
  rcases begins with ⟨-, rfl⟩ | ⟨-, rfl⟩ | ⟨-, rfl⟩ <;> rfl

end Gap

namespace Scan

open Gap (Trail Begins OpensLine)

variable {s t : Scan} {byte operator : UInt8} {context next : Context} {rest more : List UInt8}

theorem skips_of_begins (level : s.Level) (code : s.context = .code) (begins : Begins byte context) :
    s.Skips [byte] context := by
  refine skips_single false level begins.keeps ?_
  rw [effect_eq_ok_iff, code]
  rcases begins with ⟨blank, rfl⟩ | ⟨rfl, rfl⟩ | ⟨rfl, rfl⟩
  · exact @Context.effect_blank _ _ (0 < s.depth) _ _ rfl ((Role.isBlank_ofByte byte).trans blank)
  · rfl
  · rfl

/-- Whatever fills the rest of a line, behind its first byte only the context changes, and the end of the
line leads back to plain code. -/
structure Fills (byte : UInt8) (context : Context) (more : List UInt8) (next : Context) : Prop where
  begins : Begins byte context
  skips : ∀ t : Scan, t.Level → t.context = context → t.Skips more next
  ends : next.atLineEnd = .code

theorem Fills.skips_from_code (fills : Fills byte context more next) (level : s.Level)
    (code : s.context = .code) : s.Skips (byte :: more) next :=
  (skips_of_begins level code fills.begins).append fun t status =>
    fills.skips t (level_of_status level status) (congrArg Status.context status)

theorem fills_of_trail (trail : Trail rest) :
    ∃ byte context more next, rest ++ [Byte.newline] = byte :: more ∧ Fills byte context more next := by
  induction trail with
  | nil =>
    refine ⟨Byte.newline, .code, [], .code, rfl, .inl ⟨rfl, rfl⟩, fun t level code => ?_, rfl⟩
    exact ⟨[], t, .nil, by rw [← code]⟩
  | @blank byte rest blank _ ih =>
    obtain ⟨first, context, more, next, spelled, fills⟩ := ih
    refine ⟨byte, .code, first :: more, next, by rw [List.cons_append, spelled], .inl ⟨blank, rfl⟩,
      fun t level code => fills.skips_from_code level code, fills.ends⟩
  | @block body rest unclosed even _ ih =>
    obtain ⟨first, context, more, next, spelled, fills⟩ := ih
    refine ⟨Byte.slash, .slash, Byte.star :: (body ++ [Byte.star, Byte.slash]) ++ first :: more, next,
      ?_, .inr (.inl ⟨rfl, rfl⟩), fun t level slash => ?_, fills.ends⟩
    · rw [← spelled]
      simp
    · exact (skips_block level slash unclosed even).append fun u status =>
        fills.skips_from_code (level_of_status level status) (congrArg Status.context status)
  | @line opener note opens =>
    rcases opens with rfl | rfl
    · refine ⟨Byte.slash, .slash, Byte.slash :: (note ++ [Byte.newline]), .lineComment, rfl,
        .inr (.inl ⟨rfl, rfl⟩), fun t level slash => ?_, rfl⟩
      exact skips_line false level (by rw [effect_eq_ok_iff, slash]; rfl) _
    · refine ⟨Byte.hash, .hash, Byte.bang :: (note ++ [Byte.newline]), .lineComment, rfl,
        .inr (.inr ⟨rfl, rfl⟩), fun t level hash => ?_, rfl⟩
      exact skips_line true level (by rw [effect_eq_ok_iff, hash]; rfl) _

theorem accepts_operator (code : s.context = .code) (level : s.depth = 0)
    (member : operator ∈ Byte.operators) (begins : Begins byte context)
    (apart : ¬ (operator = Byte.slash ∧ byte = Byte.slash)) :
    ∃ seen t, Accepts s [operator, byte] seen t ∧ t.context = context ∧ t.depth = 0 ∧
      t.extent.isSome = true ∧
      (t.expecting = true ↔ ¬ (operator = Byte.slash ∧ byte = Byte.hash) ∨ s.expecting = true) := by
  have roles : ((Role.ofByte byte).isBlank = true ∧ context = .code) ∨
      (Role.ofByte byte = .slash ∧ context = .slash) ∨ (Role.ofByte byte = .hash ∧ context = .hash) := by
    rw [Role.isBlank_ofByte, Role.ofByte_eq_slash_iff, Role.ofByte_eq_hash_iff]
    exact begins
  obtain ⟨first, second, one, two, rfl, same, same', counted, asks⟩ :=
    Context.effect_operator (Role.mem_operators_iff.mp member) roles
      (by simpa only [Role.ofByte_eq_slash_iff] using apart)
  simp only [Role.ofByte_eq_slash_iff, Role.ofByte_eq_hash_iff] at asks
  have keeps := begins.keeps
  have level' : (s.apply operator first).depth = 0 := by
    simp [apply, Status.after, same, Nesting.apply, level]
  have accepted : s.effect operator = .ok first := by
    rw [effect_eq_ok_iff, code, level]
    exact one
  have accepted' : (s.apply operator first).effect byte = .ok second := by
    rw [effect_eq_ok_iff, level']
    exact two
  refine ⟨_, _, .cons accepted (.single accepted'), rfl, ?_, ?_, ?_⟩
  · simp [apply, Status.after, same, same', Nesting.apply, level]
  · refine Option.isSome_iff_ne_none.mpr fun unmarked => ?_
    obtain ⟨unmarked', -, undeferred⟩ := uncounted_of_unmarked unmarked
    have uncounted := (uncounted_of_unmarked unmarked').2.1
    simp [uncounted, undeferred] at counted
  · rw [← asks]
    simp [apply, Status.after, same, same', Nesting.apply, level, keeps]

/-- An operator in plain code outside of brackets, with blanks, closed comments and perhaps a line comment
behind it up to the end of the line. More is expected then and the line is not complete, except where a slash
is followed by a shebang at once: there it depends on what was expected before. -/
theorem trailing_operator_iff (s : Scan) (code : s.context = .code) (level : s.depth = 0)
    (member : operator ∈ Byte.operators) (trail : Trail rest)
    (apart : ∀ next ∈ rest.head?, [operator, next] ∉ Gap.openers) :
    let r := s.run (operator :: rest ++ [Byte.newline])
    let closed := r.scan.closeLine
    r.intrusion = none ∧ closed.context = .code ∧
      (closed.expecting = true ↔
        ¬ (operator = Byte.slash ∧ rest.head? = some Byte.hash) ∨ s.expecting = true) ∧
      ∀ settings vocabulary,
        closed.judgement settings vocabulary = .unfinished ↔ closed.expecting = true := by
  intro r closed
  obtain ⟨byte, context, more, next, spelled, fills⟩ := fills_of_trail trail
  have head (other : UInt8) (inner : other ≠ Byte.newline) : rest.head? = some other ↔ byte = other := by
    cases rest with
    | nil =>
      cases spelled
      simpa using inner.symm
    | cons first rest =>
      cases spelled
      simp
  have apart' : ¬ (operator = Byte.slash ∧ byte = Byte.slash) := by
    rintro ⟨rfl, slash⟩
    exact apart Byte.slash ((head _ (by decide)).mpr slash) (by decide)
  obtain ⟨seen, t, two, here, level', marked, expecting⟩ :=
    accepts_operator code level member fills.begins apart'
  obtain ⟨later, u, others, status⟩ := fills.skips t (fun _ => level') here
  have whole : r = ⟨u, seen ++ later, none⟩ := by
    refine run_eq ?_
    rw [List.cons_append, spelled]
    exact two.append others
  have ended : closed.toStatus = { t.toStatus with context := .code } := by
    simp only [closed, whole, closeLine, status, fills.ends]
  have context' : closed.context = .code := congrArg Status.context ended
  have raised : closed.expecting = t.expecting := by rw [ended]
  refine ⟨congrArg Run.intrusion whole, context', ?_, unfinished_iff_expecting context' ?_ ?_⟩
  · rw [raised, expecting, head _ (by decide)]
  · rw [ended, level']
  · rw [ended, marked]

/-- Behind `a /`, a shebang. Nothing is expected, and the line is not left open. -/
theorem trailing_operator_shebang :
    let s := (run {} [0x61]).scan
    let rest := [Byte.hash, Byte.bang, 0x62]
    let closed := (s.run (Byte.slash :: rest ++ [Byte.newline])).scan.closeLine
    s.context = .code ∧ s.depth = 0 ∧ Byte.slash ∈ Byte.operators ∧ Trail rest ∧
      (∀ next ∈ rest.head?, [Byte.slash, next] ∉ Gap.openers) ∧
      closed.expecting = false ∧ closed.judgement {} .go ≠ .unfinished := by
  intro s rest closed
  have code : s.context = .code := by decide +kernel
  have level : s.depth = 0 := by decide +kernel
  have member : Byte.slash ∈ Byte.operators := by decide
  have trail : Trail rest := @Trail.line _ [0x62] (.inr rfl)
  have apart : ∀ next ∈ rest.head?, [Byte.slash, next] ∉ Gap.openers := by
    rintro next ⟨⟩
    decide
  obtain ⟨-, -, asks, judged⟩ := trailing_operator_iff s code level member trail apart
  have calm : ¬ closed.expecting = true := by
    rw [asks, not_or, not_not]
    exact ⟨⟨rfl, rfl⟩, by decide +kernel⟩
  exact ⟨code, level, member, trail, apart, by simpa using calm, mt (judged {} .go).mp calm⟩

example : (run {} [0x61, 0x2f, 0x20, 0x23, 0x21, 0x0a]).scan.closeLine.judgement {} .go =
    .unfinished := by
  decide +kernel

end Scan

end Linewise
