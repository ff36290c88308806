import SourceFront.Grammar.Expression
import SourceFront.Grammar.Recovery

/-!
The rules for statements. A rule named for a keyword begins with it, and is used
only where that keyword comes next.
-/

namespace SourceFront.Rule

/-- A `let` or `const` statement. -/
def binding (inner : Level) : Rule (Binding Span) := do
  let start := (← advance).span
  let name ← name
  let type ← typeAnnotation? inner
  let _ ← expect .assign
  let value ← inner.freeExpr
  let _ ← expect .semicolon
  return ⟨name, type, value, ← spanFrom start⟩

/-- A `return` statement: its value and its range. -/
def return_ (inner : Level) : Rule (Option (Expr Span) × Span) := do
  let start := (← advance).span
  let value ← do
    if ← isAt (.symbol .semicolon) then pure none
    else pure (some (← inner.freeExpr))
  let _ ← expect .semicolon
  return (value, ← spanFrom start)

/-- The range of a `break` or `continue` statement. -/
def jump : Rule Span := do
  let start := (← advance).span
  let _ ← expect .semicolon
  spanFrom start

/-- An `if` statement with its branches. -/
def branch (inner : Level) : Rule (IfStmt Span) := do
  let start := (← advance).span
  let cond ← inner.condition
  let thenBlock ← inner.block
  let otherwise ← do
    if ← take? (.keyword .else_) then
      if ← isAt (.keyword .if_) then pure (some (ElseBranch.if_ (← inner.branch)))
      else pure (some (ElseBranch.block (← inner.block)))
    else pure none
  return ⟨cond, thenBlock, otherwise, ← spanFrom start⟩

/-- What a `for` statement begins with, through the first semicolon. -/
def forInit (inner : Level) : Rule (ForInit Span) := do
  if ← isAt (.keyword .let_) then return .let_ (← binding inner)
  else
    let value ← inner.freeExpr
    let _ ← expect .semicolon
    return .expr value

/-- A `for` loop. Its header ends at the brace of its body. -/
def for_ (inner : Level) : Rule (Stmt Span) := do
  let start := (← advance).span
  let init ← forInit inner
  let cond ← inner.condition
  let _ ← expect .semicolon
  let step ← inner.condition
  let body ← inner.block
  return .for_ init cond step body (start.merge body.note)

/-- The names behind the first one of a path. -/
def pathTail (first : Name Span) : Rule (List (Name Span)) :=
  iterate (fun read => do
    if ← take? (.symbol .dot) then return .more (read ++ [← name])
    else if ← take? (.symbol .colonColon) then return .more (read ++ [← name])
    else return .last read) [first]

/-- A number, a character, a path or the wildcard. -/
def pattern : Rule (Pattern Span) := do
  let token ← current
  match token.kind with
  | .number =>
      let _ ← advance
      return .number token.text token.span
  | .char value =>
      let _ ← advance
      return .char value token.span
  | .ident text =>
      let name ← name
      if text = "_" then return .wildcard token.span
      else
        let segments ← pathTail name
        return .path segments (← spanFrom token.span)
  | _ => failWith fun token => .expectedPattern token.describe

/-- Patterns with bars between them. -/
def patterns : Rule (List (Pattern Span)) := do
  iterate (fun read => do
    if ← take? (.symbol .pipe) then return .more (read ++ [← pattern])
    else return .last read) [← pattern]

/-- What a match arm leads to. A bare expression ends with a comma. -/
def armBody (inner : Level) : Rule (ArmBody Span) := do
  match (← current).kind with
  | .symbol .leftBrace => return .block (← inner.block)
  | .keyword .return_ =>
      let (value, span) ← return_ inner
      return .return_ value span
  | .keyword .match_ => return .match_ (← inner.choice)
  | .keyword .break_ => return .break_ (← jump)
  | .keyword .continue_ => return .continue_ (← jump)
  | _ =>
      let value ← inner.freeExpr
      let _ ← expect .comma
      return .expr value

/-- Patterns, an arrow and a body. -/
def arm (inner : Level) : Rule (MatchArm Span) := do
  let start := (← current).span
  let patterns ← patterns
  let _ ← expect .fatArrow
  let body ← armBody inner
  return ⟨patterns, body, ← spanFrom start⟩

/-- The arms up to the closing brace. -/
def arms (inner : Level) : Rule (List (MatchArm Span)) :=
  iterate (fun read => do
    if ← isAtClose .rightBrace then return .last read
    else return .more (read ++ [← arm inner])) []

/-- A `match` statement with its arms. -/
def choice (inner : Level) : Rule (MatchStmt Span) := do
  let start := (← advance).span
  let subject ← inner.condition
  let _ ← expect .leftBrace
  let arms ← arms inner
  let _ ← expect .rightBrace
  return ⟨subject, arms, ← spanFrom start⟩

/-- A statement by the token that it begins with. -/
def statement (inner : Level) : Rule (Stmt Span) := do
  match (← current).kind with
  | .keyword .let_ => return .let_ (← binding inner)
  | .keyword .const => return .const (← binding inner)
  | .symbol .leftBrace => return .block (← inner.block)
  | .keyword .return_ =>
      let (value, span) ← return_ inner
      return .return_ value span
  | .keyword .if_ => return .if_ (← branch inner)
  | .keyword .loop =>
      let start := (← advance).span
      let body ← inner.block
      return .loop body (start.merge body.note)
  | .keyword .while_ =>
      let start := (← advance).span
      let cond ← inner.condition
      let body ← inner.block
      return .while_ cond body (start.merge body.note)
  | .keyword .for_ => for_ inner
  | .keyword .match_ => return .match_ (← choice inner)
  | .keyword .break_ => return .break_ (← jump)
  | .keyword .continue_ => return .continue_ (← jump)
  | _ =>
      let value ← inner.freeExpr
      let _ ← expect .semicolon
      return .expr value (← spanFrom value.note)

/-- Whether a block ends before a token: at its closing brace, at the end of the
source, and at a keyword that can begin only an item. -/
def endsBlock (token : Token) : Bool :=
  token.kind = .symbol .rightBrace || token.isEof || token.kind.beginsItemOnly

/-- One statement of a block behind those that are `read`, if the block goes on.
One that fails is left out. -/
def blockRound (inner : Level) (read : List (Stmt Span)) :
    Rule (Round (List (Stmt Span))) := do
  if endsBlock (← current) then return .last read
  else
    let stmt ← recover (statement inner) State.skipStatement
    return .more (read ++ stmt.toList)

/-- Statements in braces. Those that fail are passed over. -/
def block (inner : Level) : Rule (Block Span) := do
  let start := (← expect .leftBrace).span
  let stmts ← iterate (blockRound inner) []
  let _ ← expect .rightBrace
  return ⟨stmts, ← spanFrom start⟩

end SourceFront.Rule

namespace SourceFront.Level

/-- The level above `inner`. -/
def above (inner : Level) : Level where
  expr := Rule.expression inner
  operand := Rule.operand inner
  typeExpr := Rule.typeExpr inner
  block := Rule.block inner
  branch := Rule.branch inner
  choice := Rule.choice inner

/-- The level that allows `n` phrases nested in one another. -/
def allowing : (n : Nat) → Level
  | 0 => lowest
  | n + 1 => (allowing n).above

/-- The level at which an item is read. -/
def outermost : Level :=
  allowing limit

end SourceFront.Level
