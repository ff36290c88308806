import SourceFront.Grammar.Level

/-!
The rules for names and types.
-/

namespace SourceFront.Rule

/-- An identifier, with its place. -/
def name : Rule (Name Span) := do
  let token ← current
  match token.kind with
  | .ident text =>
      let _ ← advance
      return ⟨text, token.span⟩
  | _ => failExpecting "identifier"

/-- The stars before a type. -/
def stars : Rule Nat :=
  iterate (fun count => do
    if ← take? (.symbol .star) then return .more (count + 1)
    else return .last count) 0

/-- A colon and the type of a result. Nothing and `void` stand for no result. -/
def resultType (inner : Level) : Rule (Option (TypeExpr Span)) := do
  if ← take? (.symbol .colon) then
    if ← take? (.keyword .void) then return none
    else return some (← inner.typeExpr)
  else return none

/-- The current token, which names the type `type`. -/
def primitive (type : Primitive) : Rule (TypeBase Span) := do
  let _ ← advance
  return .primitive type

/-- A function type. Its keyword comes next. -/
def functionType (inner : Level) : Rule (TypeBase Span) := do
  let _ ← advance
  let _ ← expect .leftParen
  let (params, variadic) ← paramList inner.typeExpr
  let _ ← expect .rightParen
  return .function params variadic (← resultType inner)

/-- What stands between the stars and the sizes of a type, given the number of
stars; `any` behind a star takes that star. -/
def typeBase (inner : Level) (pointers : Nat) : Rule (Nat × TypeBase Span) := do
  match (← current).kind with
  | .keyword .int => return (pointers, ← primitive .int)
  | .keyword .str => return (pointers, ← primitive .str)
  | .keyword .char => return (pointers, ← primitive .char)
  | .keyword .bool => return (pointers, ← primitive .bool)
  | .keyword .float => return (pointers, ← primitive .float)
  | .keyword .fn => return (pointers, ← functionType inner)
  | .ident text =>
      if text = "any" ∧ 0 < pointers then
        let _ ← advance
        return (pointers - 1, .anyPointer)
      else return (pointers, .named (← name))
  | _ => failWith fun token => .expectedType token.describe

/-- Sizes in brackets. -/
def sizes (inner : Level) : Rule (List (Expr Span)) :=
  iterate (fun read => do
    if ← take? (.symbol .leftBracket) then
      let size ← inner.freeExpr
      let _ ← expect .rightBracket
      return .more (read ++ [size])
    else return .last read) []

/-- A type: stars, a base and sizes. -/
def typeExpr (inner : Level) : Rule (TypeExpr Span) := do
  let start := (← current).span
  let (pointers, base) ← typeBase inner (← stars)
  let sizes ← sizes inner
  return ⟨pointers, base, sizes, ← spanFrom start⟩

/-- A colon and a type, if there is a colon. -/
def typeAnnotation? (inner : Level) : Rule (Option (TypeExpr Span)) := do
  if ← take? (.symbol .colon) then return some (← inner.typeExpr)
  else return none

end SourceFront.Rule
