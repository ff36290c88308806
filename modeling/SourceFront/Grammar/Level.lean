import SourceFront.Grammar.Rule
import SourceFront.Tree.Stmt

/-!
Levels of nesting. Phrases that contain phrases of their kind are read by way of
a level; each level reads the inner phrases with the level below it, and the
lowest one reads none.
-/

namespace SourceFront

/-- Where an expression stands. -/
inductive Place where
  | free
  /-- A block follows, so a brace behind a name opens that block and no struct
  literal. -/
  | beforeBlock
  deriving DecidableEq, Repr

/-- The rules for the phrases that nest. -/
structure Level where
  /-- An expression whose bare operators have this precedence at least. -/
  expr : Place → (least : Nat) → Rule (Expr Span)
  /-- An operand, with the unary operators before it. -/
  operand : Place → Rule (Expr Span)
  typeExpr : Rule (TypeExpr Span)
  block : Rule (Block Span)
  branch : Rule (IfStmt Span)
  choice : Rule (MatchStmt Span)

namespace Level

/-- The number of phrases that may be nested in one another. -/
def limit : Nat := 64

/-- The level below which no phrase may be nested. -/
def lowest : Level :=
  let refuse {α : Type} : Rule α := Rule.failWith fun _ => .nestingTooDeep limit
  ⟨fun _ _ => refuse, fun _ => refuse, refuse, refuse, refuse, refuse⟩

/-- A whole expression, where struct literals are recognised. -/
def freeExpr (level : Level) : Rule (Expr Span) :=
  level.expr .free 0

/-- A whole expression that a block follows. -/
def condition (level : Level) : Rule (Expr Span) :=
  level.expr .beforeBlock 0

end Level

end SourceFront
