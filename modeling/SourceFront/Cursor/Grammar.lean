import SourceFront.Cursor.Basic

/-!
The rules of the grammar as walks. A walk that reads an inner phrase calls the walk for
it, which counts the nesting; whether struct literals are recognised is not passed on but
set for as long as a part is read.
-/

namespace SourceFront

/-- The walks that a walk for a phrase calls for the phrases in it. -/
structure Calls where
  /-- An expression whose bare operators have this precedence at least. -/
  expr : (least : Nat) → Walk (Expr Span)
  operand : Walk (Expr Span)
  typeExpr : Walk (TypeExpr Span)
  block : Walk (Block Span)
  branch : Walk (IfStmt Span)
  choice : Walk (MatchStmt Span)

namespace Walk

/-- An identifier, with its place. -/
def name : Walk (Name Span) := do
  let token ← current
  match token.kind with
  | .ident text =>
      let _ ← advance
      return ⟨text, token.span⟩
  | _ => failExpecting "identifier"

/-- The stars in front of a type. -/
def stars : Walk Nat :=
  iterate (fun count => do
    if ← take? (.symbol .star) then return .more (count + 1)
    else return .last count) 0

/-- A colon and the type of a result. The word `void` stands for none. -/
def resultType (inner : Calls) : Walk (Option (TypeExpr Span)) := do
  if ← take? (.symbol .colon) then
    if ← take? (.keyword .void) then return none
    else return some (← inner.typeExpr)
  else return none

/-- A type that a keyword names. -/
def primitive (type : Primitive) : Walk (TypeBase Span) := do
  let _ ← advance
  return .primitive type

/-- A function type behind its keyword. -/
def functionType (inner : Calls) : Walk (TypeBase Span) := do
  let _ ← advance
  let _ ← expect .leftParen
  let (params, variadic) ← paramList inner.typeExpr
  let _ ← expect .rightParen
  return .function params variadic (← resultType inner)

/-- What the stars in front of a type point to. For `*any` one of them is taken back. -/
def typeBase (inner : Calls) (pointers : Nat) : Walk (Nat × TypeBase Span) := do
  match (← current).kind with
  | .keyword .int => return (pointers, ← primitive .int)
  | .keyword .str => return (pointers, ← primitive .str)
  | .keyword .char => return (pointers, ← primitive .char)
  | .keyword .bool => return (pointers, ← primitive .bool)
  | .keyword .float => return (pointers, ← primitive .float)
  | .keyword .fn => return (pointers, ← functionType inner)
  | .ident text =>
      if text = "any" ∧ 0 < pointers then
        let _ ← advance
        return (← minus pointers 1, .anyPointer)
      else return (pointers, .named (← name))
  | _ => failWith fun token => .expectedType token.describe

/-- Sizes in brackets behind a type. -/
def sizes (inner : Calls) : Walk (List (Expr Span)) :=
  iterate (fun read => do
    if ← take? (.symbol .leftBracket) then
      let size ← within .free (inner.expr 0)
      let _ ← expect .rightBracket
      return .more (read ++ [size])
    else return .last read) []

/-- A type: stars, a base and sizes. -/
def typeExpr (inner : Calls) : Walk (TypeExpr Span) := do
  let start := (← current).span
  let (pointers, base) ← typeBase inner (← stars)
  let sizes ← sizes inner
  return ⟨pointers, base, sizes, ← spanFrom start⟩

/-- A colon and a type, if there is a colon. -/
def typeAnnotation? (inner : Calls) : Walk (Option (TypeExpr Span)) := do
  if ← take? (.symbol .colon) then return some (← inner.typeExpr)
  else return none

/-- The arguments behind the name of a function. -/
def call (inner : Calls) (callee : Name Span) : Walk (Expr Span) := do
  let _ ← expect .leftParen
  let args ← within .free (commaList .rightParen (inner.expr 0))
  let close ← expect .rightParen
  return .call callee args (callee.note.merge close.span)

/-- A name, a colon and a value in a struct literal. -/
def fieldInit (inner : Calls) : Walk (FieldInit Span) := do
  let name ← name
  let _ ← expect .colon
  let value ← inner.expr 0
  return ⟨name, value, name.note.merge value.note⟩

/-- The fields of a struct literal behind its name. -/
def record (inner : Calls) (type : Name Span) : Walk (Expr Span) := do
  let _ ← expect .leftBrace
  let fields ← within .free (commaList .rightBrace (fieldInit inner))
  let close ← expect .rightBrace
  return .record type fields (type.note.merge close.span)

/-- What begins with a name: a call, a struct literal where one may stand, or the name alone. -/
def named (inner : Calls) : Walk (Expr Span) := do
  let name ← name
  if ← isAt (.symbol .leftParen) then call inner name
  else if (← get).place = .free then
    if ← isAt (.symbol .leftBrace) then record inner name
    else return .ident name
  else return .ident name

/-- A literal that is one token. -/
def constant (value : Constant) : Walk (Expr Span) := do
  let token ← advance
  return .constant value token.span

/-- An operand without operators. -/
def primary (inner : Calls) : Walk (Expr Span) := do
  let token ← current
  match token.kind with
  | .number => constant (.number token.text)
  | .string value => constant (.string value)
  | .char value => constant (.char value)
  | .keyword .true_ => constant (.bool true)
  | .keyword .false_ => constant (.bool false)
  | .keyword .null => constant .null
  | .keyword .sizeof =>
      let _ ← advance
      let _ ← expect .leftParen
      let type ← inner.typeExpr
      let close ← expect .rightParen
      return .sizeOf type (token.span.merge close.span)
  | .symbol .leftParen =>
      let _ ← advance
      let value ← within .free (inner.expr 0)
      let close ← expect .rightParen
      return .group value (token.span.merge close.span)
  | .symbol .leftBracket =>
      let _ ← advance
      let elements ← within .free (commaList .rightBracket (inner.expr 0))
      let close ← expect .rightBracket
      return .array elements (token.span.merge close.span)
  | .ident _ => named inner
  | _ => failWith fun token => .expectedExpr token.describe

/-- What may stand behind a point: a name or a call. -/
def member (inner : Calls) : Walk (Expr Span) := do
  let name ← name
  if ← isAt (.symbol .leftParen) then call inner name
  else return .ident name

/-- A round of the loop over what follows an operand: a member, a path or an index. -/
def suffix (inner : Calls) (base : Expr Span) : Walk (Round (Expr Span)) := do
  if ← take? (.symbol .dot) then
    let right ← member inner
    return .more (.binary .member base right (base.note.merge right.note))
  else if ← take? (.symbol .colonColon) then
    let right ← member inner
    return .more (.binary .path base right (base.note.merge right.note))
  else if ← take? (.symbol .leftBracket) then
    let right ← within .free (inner.expr 0)
    let close ← expect .rightBracket
    return .more (.binary .index base right (base.note.merge close.span))
  else return .last base

/-- An operand with the unary operators in front of it. -/
def operand (inner : Calls) : Walk (Expr Span) := do
  match Rule.unaryOp? (← current).kind with
  | some op =>
      let start := (← advance).span
      let operand ← inner.operand
      return .unary op operand (start.merge operand.note)
  | none => iterate (suffix inner) (← primary inner)

/-- A round of precedence climbing: an infix operator that binds at least as tightly as asked for,
and its right operand. -/
def operation (inner : Calls) (least : Nat) (left : Expr Span) :
    Walk (Round (Expr Span)) := do
  match InfixOp.ofKind? (← current).kind with
  | none => return .last left
  | some op =>
      if op.precedence < least then return .last left
      let _ ← advance
      match op with
      | .cast =>
          let type ← inner.typeExpr
          return .more (.cast left type (left.note.merge type.note))
      | .binary op =>
          let right ← inner.expr op.rightPrecedence
          return .more (.binary op left right (left.note.merge right.note))

/-- Operands joined by operators that bind at least as tightly as asked for. -/
def expression (inner : Calls) (least : Nat) : Walk (Expr Span) := do
  iterate (operation inner least) (← operand inner)

/-- A whole expression that a block follows. -/
def condition (inner : Calls) : Walk (Expr Span) :=
  within .beforeBlock (inner.expr 0)

/-- A name, a type if one is given, and a value, behind `let` or `const`. -/
def binding (inner : Calls) : Walk (Binding Span) := do
  let start := (← advance).span
  let name ← name
  let type ← typeAnnotation? inner
  let _ ← expect .assign
  let value ← inner.expr 0
  let _ ← expect .semicolon
  return ⟨name, type, value, ← spanFrom start⟩

/-- A `return` statement, with a value or without. -/
def return_ (inner : Calls) : Walk (Option (Expr Span) × Span) := do
  let start := (← advance).span
  let value ← do
    if ← isAt (.symbol .semicolon) then pure none
    else pure (some (← inner.expr 0))
  let _ ← expect .semicolon
  return (value, ← spanFrom start)

/-- A `break` or `continue` statement. -/
def jump : Walk Span := do
  let start := (← advance).span
  let _ ← expect .semicolon
  spanFrom start

/-- An `if` statement with all that follows its `else`. -/
def branch (inner : Calls) : Walk (IfStmt Span) := do
  let start := (← advance).span
  let cond ← condition inner
  let thenBlock ← inner.block
  let otherwise ← do
    if ← take? (.keyword .else_) then
      if ← isAt (.keyword .if_) then pure (some (ElseBranch.if_ (← inner.branch)))
      else pure (some (ElseBranch.block (← inner.block)))
    else pure none
  return ⟨cond, thenBlock, otherwise, ← spanFrom start⟩

/-- What stands first in the header of a `for` loop. -/
def forInit (inner : Calls) : Walk (ForInit Span) := do
  if ← isAt (.keyword .let_) then return .let_ (← binding inner)
  else
    let value ← inner.expr 0
    let _ ← expect .semicolon
    return .expr value

/-- A `for` loop. -/
def for_ (inner : Calls) : Walk (Stmt Span) := do
  let start := (← advance).span
  let init ← forInit inner
  let cond ← condition inner
  let _ ← expect .semicolon
  let step ← condition inner
  let body ← inner.block
  return .for_ init cond step body (start.merge body.note)

/-- The names behind the first one in a pattern. -/
def pathTail (first : Name Span) : Walk (List (Name Span)) :=
  iterate (fun read => do
    if ← take? (.symbol .dot) then return .more (read ++ [← name])
    else if ← take? (.symbol .colonColon) then return .more (read ++ [← name])
    else return .last read) [first]

/-- A number, a character, a path or the wildcard. -/
def pattern : Walk (Pattern Span) := do
  let token ← current
  match token.kind with
  | .number =>
      let _ ← advance
      return .number token.text token.span
  | .char value =>
      let _ ← advance
      return .char value token.span
  | .ident text =>
      let name ← name
      if text = "_" then return .wildcard token.span
      else
        let segments ← pathTail name
        return .path segments (← spanFrom token.span)
  | _ => failWith fun token => .expectedPattern token.describe

/-- Patterns with bars between them. -/
def patterns : Walk (List (Pattern Span)) := do
  iterate (fun read => do
    if ← take? (.symbol .pipe) then return .more (read ++ [← pattern])
    else return .last read) [← pattern]

/-- What a match arm leads to. A bare expression takes the comma behind it. -/
def armBody (inner : Calls) : Walk (ArmBody Span) := do
  match (← current).kind with
  | .symbol .leftBrace => return .block (← inner.block)
  | .keyword .return_ =>
      let (value, span) ← return_ inner
      return .return_ value span
  | .keyword .match_ => return .match_ (← inner.choice)
  | .keyword .break_ => return .break_ (← jump)
  | .keyword .continue_ => return .continue_ (← jump)
  | _ =>
      let value ← within .free (inner.expr 0)
      let _ ← expect .comma
      return .expr value

/-- Patterns, an arrow and a body. -/
def arm (inner : Calls) : Walk (MatchArm Span) := do
  let start := (← current).span
  let patterns ← patterns
  let _ ← expect .fatArrow
  let body ← armBody inner
  return ⟨patterns, body, ← spanFrom start⟩

/-- The arms up to the closing brace. -/
def arms (inner : Calls) : Walk (List (MatchArm Span)) :=
  iterate (fun read => do
    if ← isAtClose .rightBrace then return .last read
    else return .more (read ++ [← arm inner])) []

/-- A `match` statement. -/
def choice (inner : Calls) : Walk (MatchStmt Span) := do
  let start := (← advance).span
  let subject ← condition inner
  let _ ← expect .leftBrace
  let arms ← arms inner
  let _ ← expect .rightBrace
  return ⟨subject, arms, ← spanFrom start⟩

/-- A statement by the token that it begins with. -/
def statement (inner : Calls) : Walk (Stmt Span) := do
  match (← current).kind with
  | .keyword .let_ => return .let_ (← binding inner)
  | .keyword .const => return .const (← binding inner)
  | .symbol .leftBrace => return .block (← inner.block)
  | .keyword .return_ =>
      let (value, span) ← return_ inner
      return .return_ value span
  | .keyword .if_ => return .if_ (← branch inner)
  | .keyword .loop =>
      let start := (← advance).span
      let body ← inner.block
      return .loop body (start.merge body.note)
  | .keyword .while_ =>
      let start := (← advance).span
      let cond ← condition inner
      let body ← inner.block
      return .while_ cond body (start.merge body.note)
  | .keyword .for_ => for_ inner
  | .keyword .match_ => return .match_ (← choice inner)
  | .keyword .break_ => return .break_ (← jump)
  | .keyword .continue_ => return .continue_ (← jump)
  | _ =>
      let value ← inner.expr 0
      let _ ← expect .semicolon
      return .expr value (← spanFrom value.note)

/-- One iteration of the loop over the statements of a block. -/
def blockRound (inner : Calls) (read : List (Stmt Span)) :
    Walk (Round (List (Stmt Span))) := do
  if Rule.endsBlock (← current) then return .last read
  else
    let stmt ← recover (statement inner) resumeStatement
    return .more (read ++ stmt.toList)

/-- Statements in braces. Those that fail are passed over. -/
def block (inner : Calls) : Walk (Block Span) := do
  let start := (← expect .leftBrace).span
  within .free do
    let stmts ← iterate (blockRound inner) []
    let _ ← expect .rightBrace
    return ⟨stmts, ← spanFrom start⟩

/-- A name with its type: a parameter or a field. -/
def typedName (inner : Calls) : Walk (TypedName Span) := do
  let name ← name
  let _ ← expect .colon
  let type ← inner.typeExpr
  return ⟨name, type, name.note.merge type.note⟩

/-- Parameters and result behind the name of a function. -/
def prototype (inner : Calls) (name : Name Span) : Walk (Prototype Span) := do
  let _ ← expect .leftParen
  let (params, variadic) ← paramList (typedName inner)
  let _ ← expect .rightParen
  let result ← resultType inner
  return ⟨name, params, variadic, result, ← spanFrom name.note⟩

/-- A function with its body. -/
def function (inner : Calls) : Walk (FunctionDef Span) := do
  let start := (← advance).span
  let name ← name
  let proto ← prototype inner name
  let body ← inner.block
  return ⟨proto, body, start.merge body.note⟩

/-- A struct or a union. -/
def recordDef (inner : Calls) : Walk (RecordDef Span) := do
  let start := (← advance).span
  let name ← name
  let _ ← expect .leftBrace
  let fields ← commaList .rightBrace (typedName inner)
  let _ ← expect .rightBrace
  return ⟨name, fields, ← spanFrom start⟩

/-- A name in an `enum`, with its value if one is given. -/
def variant (inner : Calls) : Walk (Variant Span) := do
  let name ← name
  let value ← do
    if ← take? (.symbol .assign) then pure (some (← inner.expr 0))
    else pure none
  return ⟨name, value, ← spanFrom name.note⟩

/-- An `enum`. -/
def enumDef (inner : Calls) : Walk (EnumDef Span) := do
  let start := (← advance).span
  let name ← name
  let _ ← expect .leftBrace
  let variants ← commaList .rightBrace (variant inner)
  let _ ← expect .rightBrace
  return ⟨name, variants, ← spanFrom start⟩

/-- What is defined elsewhere: a function, with its keyword or without, or a variable. -/
def external (inner : Calls) : Walk (Definition Span) := do
  let start := (← advance).span
  let marked ← take? (.keyword .fn)
  let name ← name
  let definition ← do
    if marked || (← isAt (.symbol .leftParen)) then
      pure (.externalFunction (← prototype inner name))
    else if ← take? (.symbol .colon) then
      let type ← inner.typeExpr
      pure (.externalVariable ⟨name, type, ← spanFrom start⟩)
    else failExpecting "`(` or `:`"
  let _ ← take? (.symbol .semicolon)
  return definition

/-- The keyword `import` and the path behind it. -/
def import_ : Walk (Import Span) := do
  let start := (← advance).span
  let token ← current
  match token.kind with
  | .string path =>
      let _ ← advance
      return ⟨path, start.merge token.span⟩
  | _ => failExpecting "module path string"

/-- A constant, which stands for a value or for an import. -/
def constantDef (inner : Calls) : Walk (ConstantDef Span) := do
  let start := (← advance).span
  let name ← name
  let type ← typeAnnotation? inner
  let _ ← expect .assign
  let value ← do
    if type.isNone && (← isAt (.keyword .import_)) then
      pure (.import_ (← import_))
    else pure (.expr type (← inner.expr 0))
  let _ ← expect .semicolon
  return ⟨name, value, ← spanFrom start⟩

/-- What an item defines, by the keyword that it begins with. -/
def definition (inner : Calls) : Walk (Definition Span) := do
  match (← current).kind with
  | .keyword .fn => return .function (← function inner)
  | .keyword .struct => return .struct (← recordDef inner)
  | .keyword .union => return .union (← recordDef inner)
  | .keyword .enum => return .enum (← enumDef inner)
  | .keyword .external => external inner
  | .keyword .const => return .constant (← constantDef inner)
  | .keyword .let_ => return .variable_ (← binding inner)
  | _ =>
      failExpecting
        "declaration (`fn`, `struct`, `union`, `enum`, `extern`, `const`, `let`)"

/-- A definition, public or not. -/
def declaration (inner : Calls) : Walk (Declaration Span) := do
  let start := (← current).span
  let isPublic ← take? (.keyword .pub)
  let definition ← definition inner
  return ⟨isPublic, definition, ← spanFrom start⟩

/-- An import or a declaration. -/
def item (inner : Calls) : Walk (Item Span) := do
  if ← isAt (.keyword .import_) then
    let source ← import_
    let _ ← expect .semicolon
    return .import_ ⟨source.path, ← spanFrom source.note⟩
  else return .declaration (← declaration inner)

/-- One iteration of the loop over the items of a module. -/
def moduleRound (inner : Calls) (read : List (Item Span)) :
    Walk (Round (List (Item Span))) := do
  if (← current).isEof then return .last read
  else
    let item ← recover (item inner) resumeItem
    return .more (read ++ item.toList)

/-- The items up to the end. Those that fail are passed over. -/
def items (inner : Calls) : Walk (List (Item Span)) :=
  iterate (moduleRound inner) []

end Walk

namespace Calls

/-- The calls of the walks that make calls of `inner`; each opens a nested phrase. -/
def above (inner : Calls) : Calls where
  expr least := Walk.nested (Walk.expression inner least)
  operand := Walk.nested (Walk.operand inner)
  typeExpr := Walk.nested (Walk.typeExpr inner)
  block := Walk.nested (Walk.block inner)
  branch := Walk.nested (Walk.branch inner)
  choice := Walk.nested (Walk.choice inner)

/-- Calls that can be `n` deep in one another. -/
def deep : (n : Nat) → Calls
  | 0 =>
      let breach {α : Type} : Walk α := throw (.breach .unbounded)
      ⟨fun _ => breach, breach, breach, breach, breach, breach⟩
  | n + 1 => (deep n).above

/-- The recursion of a whole module. The innermost calls find too many phrases open. -/
def outermost : Calls :=
  deep (Level.limit + 1)

end Calls

end SourceFront
