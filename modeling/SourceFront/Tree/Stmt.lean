import SourceFront.Tree.Expr

/-!
Statements, and the blocks, branches and arms that they are made of.
-/

namespace SourceFront

/-- A name with a value, and with its type if that is given. -/
structure Binding (α : Type) where
  name : Name α
  type : Option (TypeExpr α)
  value : Expr α
  note : α

/-- What a match arm is chosen by. -/
inductive Pattern (α : Type) where
  | number (digits : String) (note : α)
  | char (value : Char) (note : α)
  /-- Names with points or double colons between them. -/
  | path (segments : List (Name α)) (note : α)
  | wildcard (note : α)

/-- What a `for` statement begins with. -/
inductive ForInit (α : Type) where
  | let_ (binding : Binding α)
  | expr (value : Expr α)

mutual

/-- Statements in braces. -/
structure Block (α : Type) where
  stmts : List (Stmt α)
  note : α

/-- A statement. -/
inductive Stmt (α : Type) where
  | let_ (binding : Binding α)
  | const (binding : Binding α)
  | block (body : Block α)
  | return_ (value : Option (Expr α)) (note : α)
  | if_ (branch : IfStmt α)
  | loop (body : Block α) (note : α)
  | while_ (cond : Expr α) (body : Block α) (note : α)
  | for_ (init : ForInit α) (cond step : Expr α) (body : Block α) (note : α)
  | match_ (choice : MatchStmt α)
  | break_ (note : α)
  | continue_ (note : α)
  | expr (value : Expr α) (note : α)

/-- A branch, with what is done otherwise. -/
structure IfStmt (α : Type) where
  cond : Expr α
  thenBlock : Block α
  otherwise : Option (ElseBranch α)
  note : α

/-- What stands behind `else`. -/
inductive ElseBranch (α : Type) where
  | if_ (branch : IfStmt α)
  | block (body : Block α)

/-- A choice between arms. -/
structure MatchStmt (α : Type) where
  subject : Expr α
  arms : List (MatchArm α)
  note : α

/-- Patterns, and what is done for them. -/
structure MatchArm (α : Type) where
  patterns : List (Pattern α)
  body : ArmBody α
  note : α

/-- What a match arm leads to. -/
inductive ArmBody (α : Type) where
  | block (body : Block α)
  | return_ (value : Option (Expr α)) (note : α)
  | match_ (choice : MatchStmt α)
  | break_ (note : α)
  | continue_ (note : α)
  | expr (value : Expr α)

end

variable {α : Type}

/-- The note of the whole statement. -/
def Stmt.note : Stmt α → α
  | .let_ binding | .const binding => binding.note
  | .block body => body.note
  | .return_ _ note => note
  | .if_ branch => branch.note
  | .loop _ note => note
  | .while_ _ _ note => note
  | .for_ _ _ _ _ note => note
  | .match_ choice => choice.note
  | .break_ note => note
  | .continue_ note => note
  | .expr _ note => note

end SourceFront
