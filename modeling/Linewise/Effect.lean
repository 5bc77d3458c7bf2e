import Linewise.Role

/-! The table of the scanner: what a byte does, by the context, the role of the byte and whether a
bracket is open. Effects are data; the scan carries them out. -/

namespace Linewise

inductive Nesting where
  | same
  | deeper
  | shallower
  deriving DecidableEq, Repr

/-- A closing bracket without an opening one leaves the depth at zero: it is for a parser to
report. -/
def Nesting.apply : Nesting → Nat → Nat
  | .same, depth => depth
  | .deeper, depth => depth + 1
  | .shallower, depth => depth - 1

def Nesting.delta : Nesting → Int
  | .same => 0
  | .deeper => 1
  | .shallower => -1

inductive Expectation where
  | keep
  | raise
  | drop
  deriving DecidableEq, Repr

def Expectation.apply : Expectation → Bool → Bool
  | .keep, expecting => expecting
  | .raise, _ => true
  | .drop, _ => false

structure Effect where
  context : Context
  nesting : Nesting := .same
  expectation : Expectation := .keep
  counts : Bool := false
  /-- The slash or hash sign right before the byte turns out to count as code. -/
  deferred : Bool := false
  /-- The hash sign right before and this bang open a shebang, which is a line comment. -/
  shebang : Bool := false
  deriving DecidableEq, Repr

namespace Effect

/-- The effect of a byte in plain code. Inside brackets an operator promises nothing, since the
brackets themselves hold the unit open. -/
def inCode (role : Role) (nested : Bool) : Effect :=
  match role with
  | .control | .space => { context := .code }
  | .opener => { context := .code, nesting := .deeper, counts := true }
  | .closer => { context := .code, nesting := .shallower, counts := true }
  | .quote l => { context := .quoted l, counts := true }
  | .backtick => { context := .raw, counts := true }
  | .slash => { context := .slash }
  | .hash => { context := .hash }
  | .tilde => { context := .tilde, counts := true }
  | .bang | .star | .operator =>
    { context := .code, expectation := if nested then .drop else .raise, counts := true }
  | .sign s =>
    { context := if nested then .code else .sign s, expectation := .drop, counts := true }
  | .backslash | .plain => { context := .code, expectation := .drop, counts := true }

/-- After an odd run of the sign `s`: the same sign completes a doubled operator, and a blank shows
that the operand is yet to come. -/
def afterSign (s : Sign) (role : Role) (nested : Bool) : Effect :=
  match role with
  | .sign t => { context := if t = s then .code else .sign t, counts := true }
  | .control | .space => { context := .code, expectation := .raise }
  | _ =>
    let effect := inCode role nested
    match effect.expectation with
    | .keep => { effect with expectation := .raise }
    | _ => effect

def afterSlash (role : Role) (nested : Bool) : Effect :=
  match role with
  | .slash => { context := .lineComment }
  | .star => { context := .block }
  | .control | .space => { context := .code, expectation := .raise, deferred := true }
  | _ => { inCode role nested with deferred := true }

def afterHash (role : Role) (nested : Bool) : Effect :=
  match role with
  | .bang => { context := .lineComment, shebang := true }
  | _ => { inCode role nested with deferred := true }

end Effect

def Context.effect (context : Context) (role : Role) (nested : Bool) : Except Literal Effect :=
  match context with
  | code => .ok (Effect.inCode role nested)
  | sign s => .ok (Effect.afterSign s role nested)
  | quoted l =>
    match role with
    | .control => .error l
    | .space => .ok { context := quoted l }
    | .backslash => .ok { context := escape l, counts := true }
    | .quote q => .ok { context := if q = l then code else quoted l, counts := true }
    | _ => .ok { context := quoted l, counts := true }
  | escape l =>
    match role with
    | .control => .error l
    | .space => .ok { context := quoted l }
    | _ => .ok { context := quoted l, counts := true }
  | raw =>
    match role with
    | .backtick => .ok { context := code, counts := true }
    | _ => .ok { context := raw, counts := !role.isBlank }
  | slash => .ok (Effect.afterSlash role nested)
  | hash => .ok (Effect.afterHash role nested)
  | lineComment => .ok { context := lineComment }
  | block => .ok { context := if role = .star then blockStar else block }
  | blockStar => .ok { context := if role = .slash then code else block }
  | tilde => .ok { context := code, counts := !role.isBlank }

theorem Context.effect_eq_error_iff {context : Context} {role : Role} {nested : Bool} {l : Literal} :
    context.effect role nested = .error l ↔
      role = .control ∧ (context = quoted l ∨ context = escape l) := by
  cases context <;> cases role <;> simp [Context.effect]

end Linewise
