import SourceFront.Tree.Module

/-!
The expressions of trees, at every depth: those of types, which are their sizes, and of
what contains expressions and types. An expression comes before those inside of it.
-/

namespace SourceFront

variable {α : Type}

mutual

/-- The expressions inside of an expression, without itself. -/
def Expr.inside : Expr α → List (Expr α)
  | .constant _ _ | .ident _ => []
  | .binary _ left right _ => left :: left.inside ++ right :: right.inside
  | .unary _ operand _ => operand :: operand.inside
  | .cast operand type _ => operand :: operand.inside ++ type.exprs
  | .call _ args _ => Expr.listExprs args
  | .record _ inits _ => FieldInit.listExprs inits
  | .array elements _ => Expr.listExprs elements
  | .sizeOf type _ => type.exprs
  | .group inner _ => inner :: inner.inside

def Expr.listExprs : List (Expr α) → List (Expr α)
  | [] => []
  | expr :: exprs => expr :: expr.inside ++ Expr.listExprs exprs

def FieldInit.listExprs : List (FieldInit α) → List (Expr α)
  | [] => []
  | ⟨_, value, _⟩ :: inits => value :: value.inside ++ FieldInit.listExprs inits

def TypeExpr.exprs : TypeExpr α → List (Expr α)
  | ⟨_, base, sizes, _⟩ => base.exprs ++ Expr.listExprs sizes

def TypeBase.exprs : TypeBase α → List (Expr α)
  | .anyPointer | .primitive _ | .named _ => []
  | .function params _ result => TypeExpr.listExprs params ++ TypeExpr.optionExprs result

def TypeExpr.listExprs : List (TypeExpr α) → List (Expr α)
  | [] => []
  | type :: types => type.exprs ++ TypeExpr.listExprs types

def TypeExpr.optionExprs : Option (TypeExpr α) → List (Expr α)
  | none => []
  | some type => type.exprs

end

/-- The expression and those inside of it. -/
def Expr.exprs (expr : Expr α) : List (Expr α) :=
  expr :: expr.inside

theorem Expr.listExprs_eq (exprs : List (Expr α)) :
    Expr.listExprs exprs = exprs.flatMap Expr.exprs := by
  induction exprs with
  | nil => rfl
  | cons expr exprs ih => rw [Expr.listExprs, ih]; rfl

theorem FieldInit.listExprs_eq (inits : List (FieldInit α)) :
    FieldInit.listExprs inits = inits.flatMap fun init => init.value.exprs := by
  induction inits with
  | nil => rfl
  | cons init inits ih =>
      obtain ⟨name, value, note⟩ := init
      rw [FieldInit.listExprs, ih]
      rfl

theorem TypeExpr.listExprs_eq (types : List (TypeExpr α)) :
    TypeExpr.listExprs types = types.flatMap TypeExpr.exprs := by
  induction types with
  | nil => rfl
  | cons type types ih => rw [TypeExpr.listExprs, ih]; rfl

def Binding.exprs (binding : Binding α) : List (Expr α) :=
  TypeExpr.optionExprs binding.type ++ binding.value.exprs

def ForInit.exprs : ForInit α → List (Expr α)
  | .let_ binding => binding.exprs
  | .expr value => value.exprs

/-- The expressions of a value that may be left out. -/
def Expr.optionExprs (value : Option (Expr α)) : List (Expr α) :=
  value.elim [] Expr.exprs

mutual

def Block.exprs : Block α → List (Expr α)
  | ⟨stmts, _⟩ => Stmt.listExprs stmts

def Stmt.exprs : Stmt α → List (Expr α)
  | .let_ binding | .const binding => binding.exprs
  | .block body => body.exprs
  | .return_ value _ => Expr.optionExprs value
  | .if_ branch => branch.exprs
  | .loop body _ => body.exprs
  | .while_ cond body _ => cond.exprs ++ body.exprs
  | .for_ init cond step body _ => init.exprs ++ cond.exprs ++ step.exprs ++ body.exprs
  | .match_ choice => choice.exprs
  | .break_ _ | .continue_ _ => []
  | .expr value _ => value.exprs

def Stmt.listExprs : List (Stmt α) → List (Expr α)
  | [] => []
  | stmt :: stmts => stmt.exprs ++ Stmt.listExprs stmts

def IfStmt.exprs : IfStmt α → List (Expr α)
  | ⟨cond, thenBlock, otherwise, _⟩ =>
      cond.exprs ++ thenBlock.exprs ++ ElseBranch.optionExprs otherwise

def ElseBranch.optionExprs : Option (ElseBranch α) → List (Expr α)
  | none => []
  | some (.if_ branch) => branch.exprs
  | some (.block body) => body.exprs

def MatchStmt.exprs : MatchStmt α → List (Expr α)
  | ⟨subject, arms, _⟩ => subject.exprs ++ MatchArm.listExprs arms

def MatchArm.listExprs : List (MatchArm α) → List (Expr α)
  | [] => []
  | ⟨_, body, _⟩ :: arms => body.exprs ++ MatchArm.listExprs arms

def ArmBody.exprs : ArmBody α → List (Expr α)
  | .block body => body.exprs
  | .return_ value _ => Expr.optionExprs value
  | .match_ choice => choice.exprs
  | .break_ _ | .continue_ _ => []
  | .expr value => value.exprs

end

def Prototype.exprs (proto : Prototype α) : List (Expr α) :=
  proto.params.flatMap (·.type.exprs) ++ TypeExpr.optionExprs proto.result

def ConstantValue.exprs : ConstantValue α → List (Expr α)
  | .expr type value => TypeExpr.optionExprs type ++ value.exprs
  | .import_ _ => []

def Definition.exprs : Definition α → List (Expr α)
  | .function def_ => def_.proto.exprs ++ def_.body.exprs
  | .struct def_ | .union def_ => def_.fields.flatMap (·.type.exprs)
  | .enum def_ => def_.variants.flatMap fun variant => Expr.optionExprs variant.value
  | .externalFunction proto => proto.exprs
  | .externalVariable typed => typed.type.exprs
  | .constant def_ => def_.value.exprs
  | .variable_ binding => binding.exprs

def Item.exprs : Item α → List (Expr α)
  | .import_ _ => []
  | .declaration decl => decl.definition.exprs

/-- All expressions of a module. -/
def Module.exprs (module : Module α) : List (Expr α) :=
  module.items.flatMap Item.exprs

end SourceFront
