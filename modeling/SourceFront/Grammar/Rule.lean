import SourceFront.Problem
import SourceFront.Token.Basic

/-!
Grammar rules. A rule reads a phrase from the tokens ahead, or fails with a
problem; either way it leaves the tokens it has read behind it.
-/

namespace SourceFront

/-- A place between tokens. The end of the source is not among the tokens ahead:
it is what follows them. -/
structure State where
  /-- The range of the token read last. -/
  last : Span
  ahead : List Token
  /-- The range of the end. -/
  stop : Span
  /-- The syntax problems reported so far, in the order of reporting. -/
  problems : List Problem
  deriving Repr

namespace State

/-- The first token ahead, or the end. -/
def current (state : State) : Token :=
  state.ahead.headD (.eof state.stop)

/-- The end is never passed. -/
def advance (state : State) : State :=
  { state with
    last := if state.ahead.isEmpty then state.last else state.current.span
    ahead := state.ahead.tail }

/-- The state before the first of `tokens`. If the end of the source is not their
last, it follows where the last one stops. -/
def ofTokens (tokens : List Token) : State :=
  let first := (tokens.head?.map (·.span)).getD ⟨0, 0, 0⟩
  match tokens.getLast? with
  | none => ⟨first, [], ⟨0, 0, 0⟩, []⟩
  | some token =>
      if token.isEof then ⟨first, tokens.dropLast, token.span, []⟩
      else ⟨first, tokens, ⟨token.span.stop, token.span.stop, token.span.fileId⟩, []⟩

end State

/-- A reader of a phrase. It also keeps the state in which it fails. -/
abbrev Rule := EStateM Problem State

/-- What a round of a repetition leads to: another round, or the end of it. -/
inductive Round (σ : Type) where
  | more (value : σ)
  | last (value : σ)

namespace Rule

variable {α σ : Type}

/-- The token that comes next, which is not read. -/
def current : Rule Token := do
  return (← get).current

/-- Reads one token, whatever it is. -/
def advance : Rule Token := do
  let token ← current
  modify State.advance
  return token

/-- Whether the current token is of this kind. -/
def isAt (kind : TokenKind) : Rule Bool := do
  return (← current).kind = kind

/-- Whether the current token is `close` or the end. -/
def isAtClose (close : Symbol) : Rule Bool := do
  let token ← current
  return token.kind = .symbol close || token.isEof

/-- Reads the current token if it is of this kind, and tells whether it was. -/
def take? (kind : TokenKind) : Rule Bool := do
  if ← isAt kind then
    let _ ← advance
    return true
  else return false

/-- Fails at the current token. -/
def failWith (cause : Token → Cause) : Rule α := do
  let token ← current
  throw ⟨cause token, token.span⟩

/-- Fails because the current token is not what was expected. -/
def failExpecting (expected : String) : Rule α :=
  failWith fun token => .unexpectedToken expected token.describe

/-- Reads the symbol, which must come next. -/
def expect (symbol : Symbol) : Rule Token := do
  if ← isAt (.symbol symbol) then advance
  else failExpecting ("`" ++ symbol.spelling ++ "`")

/-- The range from `start` through the token read last. -/
def spanFrom (start : Span) : Rule Span := do
  return start.merge (← get).last

/-- Repeats `step` until it tells that a round was the last one. A round that
reads no token is the last one in any case. -/
def iterate (step : σ → Rule (Round σ)) (value : σ) (state : State) :
    EStateM.Result Problem State σ :=
  match step value state with
  | .error problem state' => .error problem state'
  | .ok (.last value') state' => .ok value' state'
  | .ok (.more value') state' =>
      if state'.ahead.length < state.ahead.length then iterate step value' state'
      else .ok value' state'
termination_by state.ahead.length

theorem iterate_ne_error {step : σ → Rule (Round σ)}
    (h : ∀ value state problem state', step value state ≠ .error problem state')
    (value : σ) (state : State) (problem : Problem) (state' : State) :
    iterate step value state ≠ .error problem state' := by
  fun_induction iterate step value state with
  | case1 value state _ _ failed => exact absurd failed (h value state _ _)
  | case2 => simp
  | case3 value state value' state'' _ _ ih => exact ih
  | case4 => simp

/-- Phrases with commas between them, up to `close`. A comma may follow the last
of them. -/
def commaList (close : Symbol) (element : Rule α) : Rule (List α) :=
  iterate (fun read => do
    if ← isAtClose close then return .last read
    let read := read ++ [← element]
    if ← take? (.symbol .comma) then return .more read
    else return .last read) []

/-- Parameters up to the closing parenthesis, and whether an ellipsis stands in
the place of the last one. -/
def paramList (param : Rule α) : Rule (List α × Bool) :=
  iterate (fun (read, _) => do
    if ← isAtClose .rightParen then return .last (read, false)
    if ← take? (.symbol .ellipsis) then return .last (read, true)
    let read := read ++ [← param]
    if ← take? (.symbol .comma) then return .more (read, false)
    else return .last (read, false)) ([], false)

end Rule

end SourceFront
