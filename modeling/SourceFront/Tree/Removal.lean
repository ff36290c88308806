import SourceFront.Tree.Part

/-!
Modules without some of their statements. Only statements that stand in a block can be left
out; what is around them stays.
-/

namespace SourceFront

variable {α : Type}

/-- Whether the statement ends with a semicolon. -/
def Stmt.isTerminated : Stmt α → Bool
  | .let_ _ | .const _ | .return_ .. | .break_ _ | .continue_ _ | .expr .. => true
  | .block _ | .if_ _ | .loop .. | .while_ .. | .for_ .. | .match_ _ => false

section

variable (drop : Stmt α → Bool)

mutual

/-- The block without the statements that are dropped, at any depth. -/
def Block.without : Block α → Block α
  | ⟨stmts, note⟩ => ⟨Stmt.listWithout stmts, note⟩

def Stmt.without : Stmt α → Stmt α
  | .let_ binding => .let_ binding
  | .const binding => .const binding
  | .block body => .block body.without
  | .return_ value note => .return_ value note
  | .if_ branch => .if_ branch.without
  | .loop body note => .loop body.without note
  | .while_ cond body note => .while_ cond body.without note
  | .for_ init cond step body note => .for_ init cond step body.without note
  | .match_ choice => .match_ choice.without
  | .break_ note => .break_ note
  | .continue_ note => .continue_ note
  | .expr value note => .expr value note

def Stmt.listWithout : List (Stmt α) → List (Stmt α)
  | [] => []
  | stmt :: stmts =>
      if drop stmt then Stmt.listWithout stmts else stmt.without :: Stmt.listWithout stmts

def IfStmt.without : IfStmt α → IfStmt α
  | ⟨cond, thenBlock, otherwise, note⟩ =>
      ⟨cond, thenBlock.without, ElseBranch.optionWithout otherwise, note⟩

def ElseBranch.optionWithout : Option (ElseBranch α) → Option (ElseBranch α)
  | none => none
  | some (.if_ branch) => some (.if_ branch.without)
  | some (.block body) => some (.block body.without)

def MatchStmt.without : MatchStmt α → MatchStmt α
  | ⟨subject, arms, note⟩ => ⟨subject, MatchArm.listWithout arms, note⟩

def MatchArm.listWithout : List (MatchArm α) → List (MatchArm α)
  | [] => []
  | ⟨patterns, body, note⟩ :: arms => ⟨patterns, body.without, note⟩ :: MatchArm.listWithout arms

def ArmBody.without : ArmBody α → ArmBody α
  | .block body => .block body.without
  | .return_ value note => .return_ value note
  | .match_ choice => .match_ choice.without
  | .break_ note => .break_ note
  | .continue_ note => .continue_ note
  | .expr value => .expr value

end

/-- Only functions have statements. -/
def Definition.without : Definition α → Definition α
  | .function def_ => .function { def_ with body := def_.body.without drop }
  | definition => definition

def Item.without : Item α → Item α
  | .import_ source => .import_ source
  | .declaration decl => .declaration { decl with definition := decl.definition.without drop }

/-- The module without the statements that are dropped. -/
def Module.without (module : Module α) : Module α :=
  { module with items := module.items.map (Item.without drop) }

end

/-- The statements of a part that stand in it directly. -/
def Part.stmts : Part α → List (Stmt α)
  | .block body => body.stmts
  | .expr .. | .type _ | .choice _ => []

end SourceFront
