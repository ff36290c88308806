import SourceFront.Tree.Module

/-!
Outlines: the items, statements, conditions and arms of a module in the order in
which they stand, each with its note.
-/

namespace SourceFront

/-- What an entry of an outline is. -/
inductive Role where
  | item | stmt | cond | arm | expr
  deriving DecidableEq, Repr

/-- The entries in order. -/
abbrev Outline (α : Type) := List (Role × α)

variable {α : Type}

mutual

def Block.outline : Block α → Outline α
  | ⟨stmts, _⟩ => Stmt.listOutline stmts

/-- The entries inside a statement. -/
def Stmt.outline : Stmt α → Outline α
  | .block body => body.outline
  | .if_ branch => branch.outline
  | .loop body _ => body.outline
  | .while_ _ body _ => body.outline
  | .for_ _ _ _ body _ => body.outline
  | .match_ choice => choice.outline
  | .expr value _ => [(.expr, value.note)]
  | .let_ _ | .const _ | .return_ _ _ | .break_ _ | .continue_ _ => []

def Stmt.listOutline : List (Stmt α) → Outline α
  | [] => []
  | stmt :: stmts =>
      (.stmt, stmt.note) :: stmt.outline ++ Stmt.listOutline stmts

/-- The condition and the statements of each branch in turn. -/
def IfStmt.outline : IfStmt α → Outline α
  | ⟨cond, thenBlock, otherwise, _⟩ =>
      (.cond, cond.note) :: thenBlock.outline ++ ElseBranch.optionOutline otherwise

def ElseBranch.optionOutline : Option (ElseBranch α) → Outline α
  | none => []
  | some (.if_ branch) => branch.outline
  | some (.block body) => body.outline

def MatchStmt.outline : MatchStmt α → Outline α
  | ⟨_, arms, _⟩ => MatchArm.listOutline arms

def MatchArm.listOutline : List (MatchArm α) → Outline α
  | [] => []
  | ⟨_, body, note⟩ :: arms =>
      (.arm, note) :: body.outline ++ MatchArm.listOutline arms

def ArmBody.outline : ArmBody α → Outline α
  | .block body => body.outline
  | .match_ choice => choice.outline
  | .return_ _ _ | .break_ _ | .continue_ _ | .expr _ => []

end

def Definition.outline : Definition α → Outline α
  | .function def_ => def_.body.outline
  | _ => []

def Item.outline : Item α → Outline α
  | .import_ _ => []
  | .declaration decl => decl.definition.outline

/-- The items in order, each with the entries in it behind it. -/
def Module.outline (module : Module α) : Outline α :=
  module.items.flatMap fun item => (.item, item.note) :: item.outline

end SourceFront
