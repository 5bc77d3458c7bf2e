import Linewise.Effect

/-! What an entry of the table tells about the context and the byte it belongs to. The table is
looked through here only: everything later rests on these facts. -/

namespace Linewise

namespace Role

/-- The byte of a role that one byte alone has. -/
def only : Role → Option UInt8
  | space => some 0x20
  | quote .rune => some 0x27
  | quote .string => some 0x22
  | backtick => some 0x60
  | backslash => some 0x5c
  | slash => some Byte.slash
  | hash => some Byte.hash
  | tilde => some 0x7e
  | bang => some Byte.bang
  | star => some 0x2a
  | sign .plus => some 0x2b
  | sign .minus => some 0x2d
  | control | opener | closer | operator | plain => none

theorem eq_of_only_ofMark {b c : UInt8} (h : (ofMark b).only = some c) : b = c := by
  unfold ofMark at h
  split at h <;> first | exact Option.some.inj h | simp [only] at h

theorem eq_of_only_ofByte {b c : UInt8} (h : (ofByte b).only = some c) : b = c := by
  unfold ofByte at h
  split at h
  · simp [only] at h
  · split at h
    · next space => exact space.trans (Option.some.inj h)
    · exact eq_of_only_ofMark h

theorem ofByte_eq_slash_iff {b : UInt8} : ofByte b = slash ↔ b = Byte.slash :=
  ⟨fun h => eq_of_only_ofByte (by rw [h]; rfl), by rintro rfl; rfl⟩

theorem ofByte_eq_hash_iff {b : UInt8} : ofByte b = hash ↔ b = Byte.hash :=
  ⟨fun h => eq_of_only_ofByte (by rw [h]; rfl), by rintro rfl; rfl⟩

theorem ofByte_eq_bang_iff {b : UInt8} : ofByte b = bang ↔ b = Byte.bang :=
  ⟨fun h => eq_of_only_ofByte (by rw [h]; rfl), by rintro rfl; rfl⟩

def nesting : Role → Nesting
  | opener => .deeper
  | closer => .shallower
  | _ => .same

def isOperator : Role → Bool
  | bang | star | operator | slash | sign _ => true
  | _ => false

end Role

namespace Context

/-- In these contexts brackets count: in plain code, also behind a sign run or an undecided byte. -/
def countsBrackets : Context → Bool
  | code | sign _ | slash | hash => true
  | _ => false

/-- The role of the byte that is not decided yet. -/
def undecided? : Context → Option Role
  | slash => some .slash
  | hash => some .hash
  | _ => none

attribute [local grind =] Effect.inCode Effect.afterSign Effect.afterSlash Effect.afterHash

variable {context : Context} {role : Role} {nested : Bool} {effect : Effect}

theorem isBlank_of_counts (entry : context.effect role nested = .ok effect)
    (counts : effect.counts = true) : role.isBlank = false := by
  cases context <;> cases role <;> cases entry <;> grind [Role.isBlank]

theorem undecided_of_deferred (entry : context.effect role nested = .ok effect)
    (deferred : effect.deferred = true) : context = slash ∨ context = hash := by
  cases context <;> cases role <;> cases entry <;> grind

theorem deferred_iff_of_isBlank (entry : context.effect role nested = .ok effect)
    (blank : role.isBlank = true) : effect.deferred = true ↔ context = slash ∨ context = hash := by
  cases context <;> cases role <;> cases entry <;> grind [Role.isBlank]

theorem hash_bang_of_shebang (entry : context.effect role nested = .ok effect)
    (shebang : effect.shebang = true) : context = hash ∧ role = .bang := by
  cases context <;> cases role <;> cases entry <;> grind

theorem effect_hash_bang (nested : Bool) :
    hash.effect .bang nested = .ok { context := .lineComment, shebang := true } := rfl

theorem role_of_undecided {mark : Role} (entry : context.effect role nested = .ok effect)
    (undecided : effect.context.undecided? = some mark) : role = mark ∧ effect.shebang = false := by
  cases context <;> cases role <;> cases entry <;> grind [undecided?]

/-- Nothing but a bracket changes the depth, and only where brackets count. -/
theorem nesting_of_entry (entry : context.effect role nested = .ok effect) :
    effect.nesting = if context.countsBrackets then role.nesting else .same := by
  cases context <;> cases role <;> cases entry <;> grind [countsBrackets, Role.nesting]

theorem effect_quoted {l : Literal} (content : role ≠ .control) (open_ : role ≠ .quote l) (nested : Bool) :
    (quoted l).effect role nested =
      .ok { context := if role = .backslash then escape l else quoted l, counts := !role.isBlank } := by
  cases role <;> simp_all [Context.effect, Role.isBlank]

theorem effect_escape {l : Literal} (content : role ≠ .control) (nested : Bool) :
    (escape l).effect role nested = .ok { context := quoted l, counts := !role.isBlank } := by
  cases role <;> simp_all [Context.effect, Role.isBlank]

theorem effect_delimiter (l : Literal) (nested : Bool) :
    (quoted l).effect (.quote l) nested = .ok { context := code, counts := true } := by
  simp [Context.effect]

theorem effect_raw (role : Role) (nested : Bool) :
    raw.effect role nested =
      .ok { context := if role = .backtick then code else raw, counts := !role.isBlank } := by
  cases role <;> rfl

theorem same_of_uncounted (entry : context.effect role nested = .ok effect)
    (uncounted : effect.counts = false) : effect.nesting = .same := by
  cases context <;> cases role <;> cases entry <;> grind

theorem same_of_sign {s : Sign} (entry : context.effect role nested = .ok effect)
    (run : effect.context = sign s) :
    effect.nesting = .same ∧ (nested = false ∨ ∃ t, context = sign t) := by
  cases context <;> cases role <;> cases entry <;> grind

theorem ne_sign_of_isBlank {s : Sign} (entry : context.effect role nested = .ok effect)
    (blank : role.isBlank = true) : effect.context ≠ sign s := by
  cases context <;> cases role <;> cases entry <;> grind [Role.isBlank]

/-- A blank that is not refused does the same as any other blank there. -/
theorem effect_blank {nested' : Bool} (entry : context.effect .control nested = .ok effect)
    (blank : role.isBlank = true) : context.effect role nested' = .ok effect := by
  cases context <;> cases role <;> simp_all [Context.effect, Effect.inCode, Effect.afterSign,
    Effect.afterSlash, Effect.afterHash, Role.isBlank]

/-- Behind a blank, another has no effect. -/
theorem effect_blank_again {nested' : Bool} (entry : context.effect .control nested = .ok effect) :
    effect.context.effect .control nested' = .ok { context := effect.context } := by
  cases context <;> cases entry <;> rfl

theorem effect_blank_quoted {nested' : Bool} {l : Literal}
    (refused : context.effect .control nested = .error l) (blank : role.isBlank = true) :
    context.effect role nested' = .error l ∨
      context.effect role nested' = .ok { context := .quoted l } := by
  cases context <;> cases role <;> simp_all [Context.effect, Role.isBlank]

/-- What may come before the first byte of code, and between two of them: blanks, comments, and an
undecided byte. None of them has an effect on the continuation, and none leads into a literal between
backticks or out of one. -/
theorem silent_of_uncounted (entry : context.effect role nested = .ok effect)
    (steady : context.keepsExpectation = true ∨ context = raw) (uncounted : effect.counts = false)
    (undeferred : effect.deferred = false) :
    effect.nesting = .same ∧ effect.expectation = .keep ∧
      effect.context.keepsExpectation = context.keepsExpectation ∧
      (effect.context = raw ↔ context = raw) := by
  cases context <;> cases role <;> cases entry <;> grind [keepsExpectation]

theorem code_of_counts (entry : context.effect role nested = .ok effect)
    (outside : context.keepsExpectation = true) (counts : effect.counts = true)
    (undeferred : effect.deferred = false) : context = code := by
  cases context <;> cases role <;> cases entry <;> grind [keepsExpectation]

theorem code_of_undecided (entry : context.effect role nested = .ok effect)
    (outside : context.keepsExpectation = true) (undeferred : effect.deferred = false)
    (undecided : effect.context = slash ∨ effect.context = hash) : context = code := by
  cases context <;> cases role <;> cases entry <;> grind [keepsExpectation]

/-- Without any code, only a blank or the end of a comment leads to plain code. -/
theorem blank_or_slash_of_code (entry : context.effect role nested = .ok effect)
    (outside : context.keepsExpectation = true) (uncounted : effect.counts = false)
    (undeferred : effect.deferred = false) (plain : effect.context = code) :
    role.isBlank = true ∨ role = .slash := by
  cases context <;> cases role <;> cases entry <;> grind [Role.isBlank, keepsExpectation]

/-- In plain code, all that is not code is a blank or an undecided byte. -/
theorem silent_of_code (entry : code.effect role nested = .ok effect)
    (uncounted : effect.counts = false) :
    (role.isBlank = true ∧ effect.context = code) ∨ (role = .slash ∧ effect.context = slash) ∨
      (role = .hash ∧ effect.context = hash) := by
  cases role <;> cases entry <;> grind [Role.isBlank]

theorem decided_of_counts (entry : code.effect role nested = .ok effect)
    (counts : effect.counts = true) : role ≠ .slash ∧ role ≠ .hash ∧ effect.shebang = false := by
  cases role <;> cases entry <;> grind

theorem opens_of_slash (entry : slash.effect role nested = .ok effect)
    (undeferred : effect.deferred = false) :
    (role = .slash ∧ effect.context = lineComment) ∨ (role = .star ∧ effect.context = block) := by
  cases role <;> cases entry <;> grind

theorem opens_of_hash (entry : hash.effect role nested = .ok effect)
    (undeferred : effect.deferred = false) : role = .bang ∧ effect.context = lineComment := by
  cases role <;> cases entry <;> grind

theorem plain_of_slash (entry : slash.effect role nested = .ok effect)
    (deferred : effect.deferred = true) : role ≠ .slash ∧ role ≠ .star := by
  cases role <;> cases entry <;> grind

theorem plain_of_hash (entry : hash.effect role nested = .ok effect)
    (deferred : effect.deferred = true) : role ≠ .bang := by
  cases role <;> cases entry <;> grind

theorem opens_of_lineComment (entry : context.effect role nested = .ok effect)
    (comment : effect.context = lineComment) :
    context = lineComment ∨ role = .slash ∨ role = .bang := by
  cases context <;> cases role <;> cases entry <;> grind

/-- Where a hash sign is undecided a slash is, too, except right after another slash. -/
theorem slash_of_hash (entry : context.effect .hash nested = .ok effect)
    (undecided : effect.context = hash) :
    (context = slash ∧ effect = { context := hash, deferred := true }) ∨
      (context ≠ slash ∧ effect.shebang = false ∧
        context.effect .slash nested = .ok { effect with context := slash }) := by
  cases context <;> cases entry <;> simp_all [Context.effect, Effect.inCode, Effect.afterSign,
    Effect.afterSlash, Effect.afterHash]

/-! ## What raises an expectation -/

attribute [local simp] Effect.inCode Effect.afterSign Effect.afterSlash Effect.afterHash Expectation.apply

variable {expecting : Bool}

/-- An operator in plain code and the byte behind it, if that is no code and opens no comment with a slash
before it. The operator counts as code, at once or with the next byte, and the two ask for more. Only a hash
sign behind a slash leaves open whether more is asked for. -/
theorem effect_operator {next : Role} (operator : role.isOperator = true)
    (begins : (next.isBlank = true ∧ context = code) ∨ (next = .slash ∧ context = slash) ∨
      (next = .hash ∧ context = hash))
    (apart : ¬ (role = .slash ∧ next = .slash)) :
    ∃ first second : Effect, code.effect role false = .ok first ∧
      first.context.effect next false = .ok second ∧ second.context = context ∧
      first.nesting = .same ∧ second.nesting = .same ∧
      (first.counts = true ∨ second.deferred = true) ∧
      ∀ expecting, (second.expectation.apply
          (first.expectation.apply expecting && first.context.keepsExpectation) = true ↔
        ¬ (role = .slash ∧ next = .hash) ∨ expecting = true) := by
  rcases begins with ⟨blank, rfl⟩ | ⟨rfl, rfl⟩ | ⟨rfl, rfl⟩
  · have blanks : next = .control ∨ next = .space := by
      cases next <;> first | exact .inl rfl | exact .inr rfl | cases blank
    rcases blanks with rfl | rfl <;> cases role <;> cases operator <;>
      exact ⟨_, _, rfl, rfl, rfl, rfl, rfl, by simp, by simp [keepsExpectation]⟩
  · cases role <;> cases operator
    case inr.inl.slash.refl => exact absurd ⟨rfl, rfl⟩ apart
    all_goals exact ⟨_, _, rfl, rfl, rfl, rfl, rfl, by simp, by simp [keepsExpectation]⟩
  · cases role <;> cases operator <;>
      exact ⟨_, _, rfl, rfl, rfl, rfl, rfl, by simp, by simp [keepsExpectation]⟩

/-- Code behind which more is expected, or which begins a sign run, is an operator, or a closing bracket. -/
theorem operator_or_closer_of_counts (entry : context.effect role nested = .ok effect)
    (outside : expecting = true → context.keepsExpectation = true) (counts : effect.counts = true)
    (waits : (effect.expectation.apply expecting = true ∧ effect.nesting ≠ .deeper ∧
        effect.context.keepsExpectation = true) ∨ ∃ s, effect.context = sign s) :
    role.isOperator = true ∨ role = .closer := by
  cases context <;> cases role <;> cases entry <;> simp_all [Role.isOperator, keepsExpectation]
  case quoted.quote.refl =>
    obtain ⟨s, run⟩ := waits
    split at run <;> cases run

theorem expecting_of_uncounted (entry : context.effect role nested = .ok effect)
    (uncounted : effect.counts = false) (undeferred : effect.deferred = false)
    (waits : effect.expectation.apply expecting = true ∨ ∃ s, effect.context = sign s) :
    expecting = true ∨ ∃ s, context = sign s := by
  cases context <;> cases role <;> cases entry <;> simp_all

end Context

end Linewise
