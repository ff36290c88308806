import SourceFront.Grammar.Type

/-!
The rules for expressions. An expression is an operand and then, as long as they
bind tightly enough, operators with what they join to it.
-/

namespace SourceFront.Rule

/-- Arguments in parentheses, behind the name of a function. -/
def call (inner : Level) (callee : Name Span) : Rule (Expr Span) := do
  let _ ← expect .leftParen
  let args ← commaList .rightParen inner.freeExpr
  let close ← expect .rightParen
  return .call callee args (callee.note.merge close.span)

/-- A name, a colon and a value in a struct literal. -/
def fieldInit (inner : Level) : Rule (FieldInit Span) := do
  let name ← name
  let _ ← expect .colon
  let value ← inner.freeExpr
  return ⟨name, value, name.note.merge value.note⟩

/-- The fields of a struct literal in braces, behind its name. -/
def record (inner : Level) (type : Name Span) : Rule (Expr Span) := do
  let _ ← expect .leftBrace
  let fields ← commaList .rightBrace (fieldInit inner)
  let close ← expect .rightBrace
  return .record type fields (type.note.merge close.span)

/-- A name, a call or a struct literal. -/
def named (inner : Level) (place : Place) : Rule (Expr Span) := do
  let name ← name
  if ← isAt (.symbol .leftParen) then call inner name
  else if place = .free then
    if ← isAt (.symbol .leftBrace) then record inner name
    else return .ident name
  else return .ident name

/-- The current token, which is the constant `value`. -/
def constant (value : Constant) : Rule (Expr Span) := do
  let token ← advance
  return .constant value token.span

/-- An expression without operators outside of brackets. -/
def primary (inner : Level) (place : Place) : Rule (Expr Span) := do
  let token ← current
  match token.kind with
  | .number => constant (.number token.text)
  | .string value => constant (.string value)
  | .char value => constant (.char value)
  | .keyword .true_ => constant (.bool true)
  | .keyword .false_ => constant (.bool false)
  | .keyword .null => constant .null
  | .keyword .sizeof =>
      let _ ← advance
      let _ ← expect .leftParen
      let type ← inner.typeExpr
      let close ← expect .rightParen
      return .sizeOf type (token.span.merge close.span)
  | .symbol .leftParen =>
      let _ ← advance
      let value ← inner.freeExpr
      let close ← expect .rightParen
      return .group value (token.span.merge close.span)
  | .symbol .leftBracket =>
      let _ ← advance
      let elements ← commaList .rightBracket inner.freeExpr
      let close ← expect .rightBracket
      return .array elements (token.span.merge close.span)
  | .ident _ => named inner place
  | _ => failWith fun token => .expectedExpr token.describe

/-- What stands behind a point or a double colon: a name or a call. -/
def member (inner : Level) : Rule (Expr Span) := do
  let name ← name
  if ← isAt (.symbol .leftParen) then call inner name
  else return .ident name

/-- One member access, path or index behind `base`, if there is one. -/
def suffix (inner : Level) (base : Expr Span) : Rule (Round (Expr Span)) := do
  if ← take? (.symbol .dot) then
    let right ← member inner
    return .more (.binary .member base right (base.note.merge right.note))
  else if ← take? (.symbol .colonColon) then
    let right ← member inner
    return .more (.binary .path base right (base.note.merge right.note))
  else if ← take? (.symbol .leftBracket) then
    let right ← inner.freeExpr
    let close ← expect .rightBracket
    return .more (.binary .index base right (base.note.merge close.span))
  else return .last base

/-- The unary operator that a token denotes before an operand. -/
def unaryOp? : TokenKind → Option UnaryOp
  | .symbol s => UnaryOp.ofSymbol? s
  | _ => none

/-- An operand: unary operators before a primary expression, which may have
member accesses, paths and indices behind it. -/
def operand (inner : Level) (place : Place) : Rule (Expr Span) := do
  match unaryOp? (← current).kind with
  | some op =>
      let start := (← advance).span
      let operand ← inner.operand place
      return .unary op operand (start.merge operand.note)
  | none => iterate (suffix inner) (← primary inner place)

/-- One operator behind `left`, of precedence `least` at least, with what it joins
to it, if there is one. -/
def operation (inner : Level) (place : Place) (least : Nat) (left : Expr Span) :
    Rule (Round (Expr Span)) := do
  match InfixOp.ofKind? (← current).kind with
  | none => return .last left
  | some op =>
      if op.precedence < least then return .last left
      let _ ← advance
      match op with
      | .cast =>
          let type ← inner.typeExpr
          return .more (.cast left type (left.note.merge type.note))
      | .binary op =>
          let right ← inner.expr place op.rightPrecedence
          return .more (.binary op left right (left.note.merge right.note))

/-- An expression whose bare operators have precedence `least` at least. -/
def expression (inner : Level) (place : Place) (least : Nat) : Rule (Expr Span) := do
  iterate (operation inner place least) (← operand inner place)

end SourceFront.Rule
