import SourceFront.Tree.Module

/-!
How high trees are, in expressions: how many expressions contain one another on a path
from the root. The first operand of a binary operator or a cast, with which its whole
begins, may count in another way than the others: chains of operators grow there.
-/

namespace SourceFront

variable {α : Type}

/-- The greatest of the numbers. -/
def greatest (numbers : List Nat) : Nat :=
  numbers.foldr max 0

theorem greatest_le {numbers : List Nat} {n : Nat} :
    greatest numbers ≤ n ↔ ∀ number ∈ numbers, number ≤ n := by
  induction numbers with
  | nil => simp [greatest]
  | cons number numbers ih =>
      rw [List.forall_mem_cons, ← ih]
      exact Nat.max_le

theorem le_greatest {numbers : List Nat} {number : Nat} (hmem : number ∈ numbers) :
    number ≤ greatest numbers :=
  greatest_le.mp (Nat.le_refl _) number hmem

mutual

/-- The expressions on the longest path. An operator counts `link` above its first
operand and 1 above the others, so that with 1 for `link` all expressions count, and with
0 a chain of operators counts once. -/
def Expr.height (link : Nat) : Expr α → Nat
  | .constant _ _ | .ident _ => 1
  | .binary _ left right _ => max (link + left.height link) (1 + right.height link)
  | .unary _ operand _ => 1 + operand.height link
  | .cast operand type _ => max (link + operand.height link) (1 + type.height link)
  | .call _ args _ => 1 + Expr.heightList link args
  | .record _ inits _ => 1 + FieldInit.heightList link inits
  | .array elements _ => 1 + Expr.heightList link elements
  | .sizeOf type _ => 1 + type.height link
  | .group inner _ => 1 + inner.height link

def Expr.heightList (link : Nat) : List (Expr α) → Nat
  | [] => 0
  | expr :: exprs => max (expr.height link) (Expr.heightList link exprs)

def FieldInit.heightList (link : Nat) : List (FieldInit α) → Nat
  | [] => 0
  | ⟨_, value, _⟩ :: inits => max (value.height link) (FieldInit.heightList link inits)

def TypeExpr.height (link : Nat) : TypeExpr α → Nat
  | ⟨_, base, sizes, _⟩ => max (base.height link) (Expr.heightList link sizes)

def TypeBase.height (link : Nat) : TypeBase α → Nat
  | .anyPointer | .primitive _ | .named _ => 0
  | .function params _ result =>
      max (TypeExpr.heightList link params) (TypeExpr.heightOption link result)

def TypeExpr.heightList (link : Nat) : List (TypeExpr α) → Nat
  | [] => 0
  | type :: types => max (type.height link) (TypeExpr.heightList link types)

def TypeExpr.heightOption (link : Nat) : Option (TypeExpr α) → Nat
  | none => 0
  | some type => type.height link

end

variable (link : Nat)

theorem Expr.heightList_eq (exprs : List (Expr α)) :
    Expr.heightList link exprs = greatest (exprs.map (Expr.height link)) := by
  induction exprs with
  | nil => rfl
  | cons expr exprs ih => rw [Expr.heightList, ih]; rfl

theorem FieldInit.heightList_eq (inits : List (FieldInit α)) :
    FieldInit.heightList link inits =
      greatest (inits.map fun init => init.value.height link) := by
  induction inits with
  | nil => rfl
  | cons init inits ih =>
      obtain ⟨name, value, note⟩ := init
      rw [FieldInit.heightList, ih]
      rfl

theorem TypeExpr.heightList_eq (types : List (TypeExpr α)) :
    TypeExpr.heightList link types = greatest (types.map (TypeExpr.height link)) := by
  induction types with
  | nil => rfl
  | cons type types ih => rw [TypeExpr.heightList, ih]; rfl

def Binding.height (binding : Binding α) : Nat :=
  max (TypeExpr.heightOption link binding.type) (binding.value.height link)

def ForInit.height : ForInit α → Nat
  | .let_ binding => binding.height link
  | .expr value => value.height link

mutual

def Block.height : Block α → Nat
  | ⟨stmts, _⟩ => Stmt.heightList stmts

def Stmt.height : Stmt α → Nat
  | .let_ binding | .const binding => binding.height link
  | .block body => body.height
  | .return_ value _ => value.elim 0 (Expr.height link)
  | .if_ branch => branch.height
  | .loop body _ => body.height
  | .while_ cond body _ => max (cond.height link) body.height
  | .for_ init cond step body _ =>
      max (max (init.height link) (cond.height link)) (max (step.height link) body.height)
  | .match_ choice => choice.height
  | .break_ _ | .continue_ _ => 0
  | .expr value _ => value.height link

def Stmt.heightList : List (Stmt α) → Nat
  | [] => 0
  | stmt :: stmts => max stmt.height (Stmt.heightList stmts)

def IfStmt.height : IfStmt α → Nat
  | ⟨cond, thenBlock, otherwise, _⟩ =>
      max (max (cond.height link) thenBlock.height) (ElseBranch.heightOption otherwise)

def ElseBranch.heightOption : Option (ElseBranch α) → Nat
  | none => 0
  | some (.if_ branch) => branch.height
  | some (.block body) => body.height

def MatchStmt.height : MatchStmt α → Nat
  | ⟨subject, arms, _⟩ => max (subject.height link) (MatchArm.heightList arms)

def MatchArm.heightList : List (MatchArm α) → Nat
  | [] => 0
  | ⟨_, body, _⟩ :: arms => max body.height (MatchArm.heightList arms)

def ArmBody.height : ArmBody α → Nat
  | .block body => body.height
  | .return_ value _ => value.elim 0 (Expr.height link)
  | .match_ choice => choice.height
  | .break_ _ | .continue_ _ => 0
  | .expr value => value.height link

end

theorem Stmt.heightList_eq (stmts : List (Stmt α)) :
    Stmt.heightList link stmts = greatest (stmts.map (Stmt.height link)) := by
  induction stmts with
  | nil => rfl
  | cons stmt stmts ih => rw [Stmt.heightList, ih]; rfl

theorem MatchArm.heightList_eq (arms : List (MatchArm α)) :
    MatchArm.heightList link arms = greatest (arms.map fun arm => arm.body.height link) := by
  induction arms with
  | nil => rfl
  | cons arm arms ih =>
      obtain ⟨patterns, body, note⟩ := arm
      rw [MatchArm.heightList, ih]
      rfl

def Prototype.height (proto : Prototype α) : Nat :=
  max (greatest (proto.params.map fun param => param.type.height link))
    (TypeExpr.heightOption link proto.result)

def ConstantValue.height : ConstantValue α → Nat
  | .expr type value => max (TypeExpr.heightOption link type) (value.height link)
  | .import_ _ => 0

def Definition.height : Definition α → Nat
  | .function def_ => max (def_.proto.height link) (def_.body.height link)
  | .struct def_ | .union def_ => greatest (def_.fields.map fun field => field.type.height link)
  | .enum def_ =>
      greatest (def_.variants.map fun variant => variant.value.elim 0 (Expr.height link))
  | .externalFunction proto => proto.height link
  | .externalVariable typed => typed.type.height link
  | .constant def_ => def_.value.height link
  | .variable_ binding => binding.height link

def Item.height : Item α → Nat
  | .import_ _ => 0
  | .declaration decl => decl.definition.height link

/-- The height of the highest item. -/
def Module.height (module : Module α) : Nat :=
  greatest (module.items.map (Item.height link))

end SourceFront
