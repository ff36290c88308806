import SourceFront.Grammar.Level
import SourceFront.Proofs.Phrase
import SourceFront.Tree.Module

/-!
How trees are written. Every node has a phrase; its conditions say where operands
bind tightly enough, where struct literals may stand, and which types can be
written at all.
-/

namespace SourceFront

/-- The symbol of a unary operator. -/
def UnaryOp.symbol : UnaryOp → Symbol
  | deref => .star
  | addressOf => .ampersand
  | neg => .minus
  | not => .bang
  | plus => .plus

namespace BinaryOp

/-- The symbol between the operands; for an index, the one that opens it. -/
def symbol : BinaryOp → Symbol
  | path => .colonColon
  | member => .dot
  | index => .leftBracket
  | add => .plus
  | sub => .minus
  | mul => .star
  | div => .slash
  | mod => .percent
  | eq => .equal
  | ne => .notEqual
  | lt => .less
  | le => .lessEqual
  | gt => .greater
  | ge => .greaterEqual
  | and => .andAnd
  | or => .orOr
  | assign => .assign
  | addAssign => .plusAssign
  | subAssign => .minusAssign
  | mulAssign => .starAssign
  | divAssign => .slashAssign
  | modAssign => .percentAssign

/-- The least precedence of an operator that stands bare on the left. -/
def leftPrecedence (op : BinaryOp) : Nat :=
  if op.isAssignment then op.precedence + 1 else op.precedence

end BinaryOp

namespace InfixOp

/-- The least precedence of an operator that stands bare on the left. -/
def leftPrecedence : InfixOp → Nat
  | cast => cast.precedence
  | binary op => op.leftPrecedence

end InfixOp

/-- Unary operators bind tighter than casts. -/
def UnaryOp.precedence : Nat := 9

/-- The keyword of a type. -/
def Primitive.keyword : Primitive → Keyword
  | int => .int
  | str => .str
  | char => .char
  | bool => .bool
  | float => .float

/-- The token of a literal. -/
def Constant.terminal : Constant → Terminal
  | number digits => .number digits
  | string value => .string value
  | char value => .char value
  | bool true => .keyword .true_
  | bool false => .keyword .false_
  | null => .keyword .null

variable {α : Type}

/-- How tightly the outermost operator binds. Without one, an expression is bound
as tightly as by a postfix operator. -/
def Expr.precedence : Expr α → Nat
  | .binary op _ _ _ => op.precedence
  | .cast _ _ _ => InfixOp.cast.precedence
  | .unary _ _ _ => UnaryOp.precedence
  | _ => BinaryOp.member.precedence

/-- Whether the expression may stand behind a point or a double colon. -/
def Expr.isMember : Expr α → Bool
  | .ident _ | .call _ _ _ => true
  | _ => false

namespace TypeBase

/-- Whether the number of stars may stand before the base: behind a star, `any`
is no name. -/
def admitsPointers (pointers : Nat) : TypeBase α → Bool
  | .named name => name.text ≠ "any" || pointers = 0
  | _ => true

/-- Whether sizes may stand behind the base: behind the result of a function type
they are those of the result. -/
def admitsSizes : TypeBase α → Bool
  | .function _ _ (some _) => false
  | _ => true

end TypeBase

/-- The name is a node of its own. -/
def Name.phrase (name : Name α) : Phrase α :=
  .node name.note (.terminal (.ident name.text))

namespace Phrase

/-- As many stars as there are pointers. -/
def stars : Nat → Phrase α
  | 0 => .empty
  | n + 1 => concat [symbol .star, stars n]

/-- Parameters, with an ellipsis in the place of the last one if more may
follow. -/
def params (phrases : List (Phrase α)) (variadic : Bool) : Phrase α :=
  if variadic then .seq (commaEnded phrases) (symbol .ellipsis) else commas phrases

theorem nesting_stars (n : Nat) : (stars n : Phrase α).nesting = 0 := by
  induction n with
  | zero => rfl
  | succ n ih => simp [stars, ih, nesting, symbol]

/-- No result; it may be written as `void`. -/
def noResult : Phrase α :=
  .either [] [.symbol .colon, .keyword .void]

end Phrase

open Phrase

mutual

/-- Stars, a base and sizes. The sizes of a result belong to it. -/
def TypeExpr.phrase : TypeExpr α → Phrase α
  | ⟨pointers, base, sizes, note⟩ =>
      .node note (concat
        [.provided (base.admitsPointers pointers),
          .provided (sizes.isEmpty || base.admitsSizes),
          stars pointers, base.phrase, concat (TypeExpr.sizePhrases sizes)])

def TypeBase.phrase : TypeBase α → Phrase α
  | .anyPointer => concat [symbol .star, .terminal (.ident "any")]
  | .primitive type => keyword type.keyword
  | .named name => name.phrase
  | .function types variadic result =>
      concat
        [keyword .fn, symbol .leftParen, params (TypeExpr.phrases types) variadic,
          symbol .rightParen, TypeExpr.resultPhrase result]

/-- A colon and the type, if there is a result. -/
def TypeExpr.resultPhrase : Option (TypeExpr α) → Phrase α
  | none => noResult
  | some type => concat [symbol .colon, .deeper type.phrase]

def TypeExpr.phrases : List (TypeExpr α) → List (Phrase α)
  | [] => []
  | type :: types => .deeper type.phrase :: TypeExpr.phrases types

/-- Each size in brackets. -/
def TypeExpr.sizePhrases : List (Expr α) → List (Phrase α)
  | [] => []
  | size :: sizes =>
      concat
        [symbol .leftBracket, .deeper (size.phrase .free), symbol .rightBracket] ::
        TypeExpr.sizePhrases sizes

/-- An expression in a place: before a block a struct literal needs parentheses. -/
def Expr.phrase (place : Place) : Expr α → Phrase α
  | .constant value note => .node note (.terminal value.terminal)
  | .ident name => name.phrase
  | .binary op left right note =>
      .node note (concat
        [.provided (op.leftPrecedence ≤ left.precedence), left.phrase place,
          symbol op.symbol,
          match op with
          | .index => .seq (.deeper (right.phrase .free)) (symbol .rightBracket)
          | .member | .path => .seq (.provided right.isMember) (right.phrase place)
          | _ =>
              .seq (.provided (op.rightPrecedence ≤ right.precedence))
                (.deeper (right.phrase place))])
  | .unary op operand note =>
      .node note (concat
        [symbol op.symbol, .provided (UnaryOp.precedence ≤ operand.precedence),
          .deeper (operand.phrase place)])
  | .cast operand type note =>
      .node note (concat
        [.provided (InfixOp.cast.leftPrecedence ≤ operand.precedence),
          operand.phrase place, keyword .as_, .deeper type.phrase])
  | .call callee args note =>
      .node note (concat
        [callee.phrase, symbol .leftParen, commas (Expr.phrases args),
          symbol .rightParen])
  | .record type inits note =>
      .node note (concat
        [.provided (place = .free), type.phrase, symbol .leftBrace,
          commas (FieldInit.phrases inits), symbol .rightBrace])
  | .array elements note =>
      .node note (concat
        [symbol .leftBracket, commas (Expr.phrases elements), symbol .rightBracket])
  | .sizeOf type note =>
      .node note (concat
        [keyword .sizeof, symbol .leftParen, .deeper type.phrase, symbol .rightParen])
  | .group inner note =>
      .node note (concat
        [symbol .leftParen, .deeper (inner.phrase .free), symbol .rightParen])

def Expr.phrases : List (Expr α) → List (Phrase α)
  | [] => []
  | expr :: exprs => .deeper (expr.phrase .free) :: Expr.phrases exprs

def FieldInit.phrase : FieldInit α → Phrase α
  | ⟨name, value, note⟩ =>
      .node note (concat [name.phrase, symbol .colon, .deeper (value.phrase .free)])

def FieldInit.phrases : List (FieldInit α) → List (Phrase α)
  | [] => []
  | init :: inits => init.phrase :: FieldInit.phrases inits

end

theorem Expr.phrase_ident (place : Place) (name : Name α) :
    (Expr.ident name).phrase place = name.phrase := by
  rw [Expr.phrase]

theorem TypeExpr.phrases_eq_map (types : List (TypeExpr α)) :
    TypeExpr.phrases types = types.map fun type => .deeper type.phrase := by
  induction types with
  | nil => rfl
  | cons type types ih => rw [TypeExpr.phrases, ih, List.map_cons]

theorem TypeExpr.sizePhrases_eq_map (sizes : List (Expr α)) :
    TypeExpr.sizePhrases sizes = sizes.map fun size =>
      concat [symbol .leftBracket, .deeper (size.phrase .free), symbol .rightBracket] := by
  induction sizes with
  | nil => rfl
  | cons size sizes ih => rw [TypeExpr.sizePhrases, ih, List.map_cons]

theorem Expr.phrases_eq_map (exprs : List (Expr α)) :
    Expr.phrases exprs = exprs.map fun expr => .deeper (expr.phrase .free) := by
  induction exprs with
  | nil => rfl
  | cons expr exprs ih => rw [Expr.phrases, ih, List.map_cons]

theorem FieldInit.phrases_eq_map (inits : List (FieldInit α)) :
    FieldInit.phrases inits = inits.map FieldInit.phrase := by
  induction inits with
  | nil => rfl
  | cons init inits ih => rw [FieldInit.phrases, ih, List.map_cons]

/-- A colon and the type, if one is given. -/
def TypeExpr.annotation : Option (TypeExpr α) → Phrase α
  | none => .empty
  | some type => concat [symbol .colon, .deeper type.phrase]

/-- A whole expression. -/
def Expr.whole (place : Place) (expr : Expr α) : Phrase α :=
  .deeper (expr.phrase place)

/-- A binding behind its keyword. -/
def Binding.tail (binding : Binding α) : Phrase α :=
  concat
    [binding.name.phrase, TypeExpr.annotation binding.type, symbol .assign,
      binding.value.whole .free, symbol .semicolon]

def Binding.phrase (k : Keyword) (binding : Binding α) : Phrase α :=
  .node binding.note (.seq (keyword k) binding.tail)

/-- Names with points or double colons between them. -/
def Name.path (names : List (Name α)) : Phrase α :=
  separated (.either [.symbol .dot] [.symbol .colonColon]) (names.map Name.phrase)

/-- A path may not begin as the wildcard is written. -/
def Pattern.phrase : Pattern α → Phrase α
  | .number digits note => .node note (.terminal (.number digits))
  | .char value note => .node note (.terminal (.char value))
  | .path segments note =>
      .node note (.seq (.provided (segments.head?.map Name.text ≠ some "_"))
        (Name.path segments))
  | .wildcard note => .node note (.terminal (.ident "_"))

/-- The first part of the header of a `for` loop, with its semicolon. -/
def ForInit.phrase : ForInit α → Phrase α
  | .let_ binding => binding.phrase .let_
  | .expr value => .seq (value.whole .free) (symbol .semicolon)

/-- A `return` statement. -/
def returnPhrase (value : Option (Expr α)) (note : α) : Phrase α :=
  .node note (concat
    [keyword .return_, value.elim .empty (Expr.whole .free), symbol .semicolon])

/-- A `break` or `continue` statement. -/
def jumpPhrase (k : Keyword) (note : α) : Phrase α :=
  .node note (.seq (keyword k) (symbol .semicolon))

mutual

/-- Statements in braces, with gaps where recovery may have passed over tokens. -/
def Block.phrase : Block α → Phrase α
  | ⟨stmts, note⟩ =>
      .node note (concat
        [symbol .leftBrace, gapped (Stmt.phrases stmts), symbol .rightBrace])

/-- A statement. Blocks are nested one level deeper. -/
def Stmt.phrase : Stmt α → Phrase α
  | .let_ binding => binding.phrase .let_
  | .const binding => binding.phrase .const
  | .block body => .deeper body.phrase
  | .return_ value note => returnPhrase value note
  | .if_ branch => branch.phrase
  | .loop body note => .node note (.seq (keyword .loop) (.deeper body.phrase))
  | .while_ cond body note =>
      .node note (concat
        [keyword .while_, cond.whole .beforeBlock, .deeper body.phrase])
  | .for_ init cond step body note =>
      .node note (concat
        [keyword .for_, init.phrase, cond.whole .beforeBlock, symbol .semicolon,
          step.whole .beforeBlock, .deeper body.phrase])
  | .match_ choice => choice.phrase
  | .break_ note => jumpPhrase .break_ note
  | .continue_ note => jumpPhrase .continue_ note
  | .expr value note => .node note (.seq (value.whole .free) (symbol .semicolon))

def Stmt.phrases : List (Stmt α) → List (Phrase α)
  | [] => []
  | stmt :: stmts => stmt.phrase :: Stmt.phrases stmts

/-- A condition before a block, and what follows. -/
def IfStmt.phrase : IfStmt α → Phrase α
  | ⟨cond, thenBlock, otherwise, note⟩ =>
      .node note (concat
        [keyword .if_, cond.whole .beforeBlock, .deeper thenBlock.phrase,
          ElseBranch.optionPhrase otherwise])

/-- An `if` statement or a block behind `else`, one level deeper. -/
def ElseBranch.optionPhrase : Option (ElseBranch α) → Phrase α
  | none => .empty
  | some (.if_ branch) => .seq (keyword .else_) (.deeper branch.phrase)
  | some (.block body) => .seq (keyword .else_) (.deeper body.phrase)

/-- A subject before the arms in braces. -/
def MatchStmt.phrase : MatchStmt α → Phrase α
  | ⟨subject, arms, note⟩ =>
      .node note (concat
        [keyword .match_, subject.whole .beforeBlock, symbol .leftBrace,
          concat (MatchArm.phrases arms), symbol .rightBrace])

/-- Patterns with bars between them, and what they lead to. -/
def MatchArm.phrase : MatchArm α → Phrase α
  | ⟨patterns, body, note⟩ =>
      .node note (concat
        [separated (symbol .pipe) (patterns.map Pattern.phrase), symbol .fatArrow,
          body.phrase])

def MatchArm.phrases : List (MatchArm α) → List (Phrase α)
  | [] => []
  | arm :: arms => arm.phrase :: MatchArm.phrases arms

/-- A bare expression ends with a comma. -/
def ArmBody.phrase : ArmBody α → Phrase α
  | .block body => .deeper body.phrase
  | .return_ value note => returnPhrase value note
  | .match_ choice => .deeper choice.phrase
  | .break_ note => jumpPhrase .break_ note
  | .continue_ note => jumpPhrase .continue_ note
  | .expr value => .seq (value.whole .free) (symbol .comma)

end

theorem MatchArm.phrases_eq_map (arms : List (MatchArm α)) :
    MatchArm.phrases arms = arms.map MatchArm.phrase := by
  induction arms with
  | nil => rfl
  | cons arm arms ih => rw [MatchArm.phrases, ih, List.map_cons]

theorem Stmt.phrases_eq_map (stmts : List (Stmt α)) :
    Stmt.phrases stmts = stmts.map Stmt.phrase := by
  induction stmts with
  | nil => rfl
  | cons stmt stmts ih => rw [Stmt.phrases, ih, List.map_cons]

/-- A name, a colon and a type. -/
def TypedName.phrase (typed : TypedName α) : Phrase α :=
  .node typed.note (concat
    [typed.name.phrase, symbol .colon, .deeper typed.type.phrase])

/-- A name, parameters and a result. -/
def Prototype.phrase (proto : Prototype α) : Phrase α :=
  .node proto.note (concat
    [proto.name.phrase, symbol .leftParen,
      Phrase.params (proto.params.map TypedName.phrase) proto.variadic,
      symbol .rightParen, TypeExpr.resultPhrase proto.result])

/-- A prototype and a body. -/
def FunctionDef.phrase (function : FunctionDef α) : Phrase α :=
  .node function.note (concat
    [keyword .fn, function.proto.phrase, .deeper function.body.phrase])

/-- A struct or a union, by its keyword. -/
def RecordDef.phrase (k : Keyword) (record : RecordDef α) : Phrase α :=
  .node record.note (concat
    [keyword k, record.name.phrase, symbol .leftBrace,
      commas (record.fields.map TypedName.phrase), symbol .rightBrace])

/-- A name and, if it has one, its value. -/
def Variant.phrase (variant : Variant α) : Phrase α :=
  .node variant.note (.seq variant.name.phrase
    (variant.value.elim .empty fun value =>
      .seq (symbol .assign) (value.whole .free)))

/-- Variants in braces, with commas between them. -/
def EnumDef.phrase (enum : EnumDef α) : Phrase α :=
  .node enum.note (concat
    [keyword .enum, enum.name.phrase, symbol .leftBrace,
      commas (enum.variants.map Variant.phrase), symbol .rightBrace])

def Import.phrase (source : Import α) : Phrase α :=
  .node source.note (.seq (keyword .import_) (.terminal (.string source.path)))

def ConstantValue.phrase : ConstantValue α → Phrase α
  | .expr type value =>
      concat [TypeExpr.annotation type, symbol .assign, value.whole .free]
  | .import_ source => .seq (symbol .assign) source.phrase

/-- A name and what it stands for, up to a semicolon. -/
def ConstantDef.phrase (constant : ConstantDef α) : Phrase α :=
  .node constant.note (concat
    [keyword .const, constant.name.phrase, constant.value.phrase, symbol .semicolon])

/-- The semicolon behind what is defined elsewhere may be left out. -/
def Definition.phrase : Definition α → Phrase α
  | .function def_ => def_.phrase
  | .struct def_ => def_.phrase .struct
  | .union def_ => def_.phrase .union
  | .enum def_ => def_.phrase
  | .externalFunction proto =>
      concat
        [keyword .external, .either [.keyword .fn] [], proto.phrase,
          .either [.symbol .semicolon] []]
  | .externalVariable typed =>
      .seq
        (.node typed.note (concat
          [keyword .external, typed.name.phrase, symbol .colon,
            .deeper typed.type.phrase]))
        (.either [.symbol .semicolon] [])
  | .constant def_ => def_.phrase
  | .variable_ binding => binding.phrase .let_

/-- A definition, behind `pub` if it is public. -/
def Declaration.phrase (decl : Declaration α) : Phrase α :=
  .node decl.note (.seq (if decl.isPublic then keyword .pub else .empty)
    decl.definition.phrase)

/-- An import of a module ends with a semicolon. -/
def Item.phrase : Item α → Phrase α
  | .import_ source =>
      .node source.note (concat
        [keyword .import_, .terminal (.string source.path), symbol .semicolon])
  | .declaration decl => decl.phrase

/-- The items in order. The range of a module is that of its file, so the module
is no node of its own phrase. -/
def Module.phrase (module : Module α) : Phrase α :=
  gapped (module.items.map Item.phrase)

end SourceFront
