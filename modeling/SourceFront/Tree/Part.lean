import SourceFront.Grammar.Level
import SourceFront.Tree.Expressions

/-!
The parts that statements and items are made of, at every depth: whole expressions and
types, blocks and matches. A block or a match comes before the parts inside of it; an
expression is one part, whatever it contains.
-/

namespace SourceFront

/-- A part of a statement or an item. An expression comes with the place where it stands. -/
inductive Part (α : Type) where
  | expr (place : Place) (expr : Expr α)
  | type (type : TypeExpr α)
  | block (body : Block α)
  | choice (choice : MatchStmt α)

variable {α : Type}

namespace Part

/-- The expressions of the part, if it is one expression or type. -/
def exprs : Part α → List (Expr α)
  | .expr _ value => value.exprs
  | .type written => written.exprs
  | .block _ | .choice _ => []

/-- A type that may be left out. -/
def types (type : Option (TypeExpr α)) : List (Part α) :=
  type.elim [] fun given => [.type given]

/-- A value that may be left out. -/
def values (value : Option (Expr α)) : List (Part α) :=
  value.elim [] fun given => [.expr .free given]

end Part

def Binding.parts (binding : Binding α) : List (Part α) :=
  Part.types binding.type ++ [.expr .free binding.value]

def ForInit.parts : ForInit α → List (Part α)
  | .let_ binding => binding.parts
  | .expr value => [.expr .free value]

mutual

def Block.parts : Block α → List (Part α)
  | ⟨stmts, note⟩ => .block ⟨stmts, note⟩ :: Stmt.listParts stmts

def Stmt.parts : Stmt α → List (Part α)
  | .let_ binding | .const binding => binding.parts
  | .block body => body.parts
  | .return_ value _ => Part.values value
  | .if_ branch => branch.parts
  | .loop body _ => body.parts
  | .while_ cond body _ => .expr .beforeBlock cond :: body.parts
  | .for_ init cond step body _ =>
      init.parts ++ .expr .beforeBlock cond :: .expr .beforeBlock step :: body.parts
  | .match_ choice => choice.parts
  | .break_ _ | .continue_ _ => []
  | .expr value _ => [.expr .free value]

def Stmt.listParts : List (Stmt α) → List (Part α)
  | [] => []
  | stmt :: stmts => stmt.parts ++ Stmt.listParts stmts

def IfStmt.parts : IfStmt α → List (Part α)
  | ⟨cond, thenBlock, otherwise, _⟩ =>
      .expr .beforeBlock cond :: thenBlock.parts ++ ElseBranch.optionParts otherwise

def ElseBranch.optionParts : Option (ElseBranch α) → List (Part α)
  | none => []
  | some (.if_ branch) => branch.parts
  | some (.block body) => body.parts

def MatchStmt.parts : MatchStmt α → List (Part α)
  | ⟨subject, arms, note⟩ =>
      .choice ⟨subject, arms, note⟩ :: .expr .beforeBlock subject :: MatchArm.listParts arms

def MatchArm.listParts : List (MatchArm α) → List (Part α)
  | [] => []
  | ⟨_, body, _⟩ :: arms => body.parts ++ MatchArm.listParts arms

def ArmBody.parts : ArmBody α → List (Part α)
  | .block body => body.parts
  | .return_ value _ => Part.values value
  | .match_ choice => choice.parts
  | .break_ _ | .continue_ _ => []
  | .expr value => [.expr .free value]

end

theorem Stmt.listParts_eq (stmts : List (Stmt α)) :
    Stmt.listParts stmts = stmts.flatMap Stmt.parts := by
  induction stmts with
  | nil => rfl
  | cons stmt stmts ih => rw [Stmt.listParts, ih, List.flatMap_cons]

theorem MatchArm.listParts_eq (arms : List (MatchArm α)) :
    MatchArm.listParts arms = arms.flatMap fun arm => arm.body.parts := by
  induction arms with
  | nil => rfl
  | cons arm arms ih =>
      obtain ⟨patterns, body, note⟩ := arm
      rw [MatchArm.listParts, ih, List.flatMap_cons]

def Prototype.parts (proto : Prototype α) : List (Part α) :=
  proto.params.map (fun param => .type param.type) ++ Part.types proto.result

def ConstantValue.parts : ConstantValue α → List (Part α)
  | .expr type value => Part.types type ++ [.expr .free value]
  | .import_ _ => []

def Definition.parts : Definition α → List (Part α)
  | .function def_ => def_.proto.parts ++ def_.body.parts
  | .struct def_ | .union def_ => def_.fields.map fun field => .type field.type
  | .enum def_ => def_.variants.flatMap fun variant => Part.values variant.value
  | .externalFunction proto => proto.parts
  | .externalVariable typed => [.type typed.type]
  | .constant def_ => def_.value.parts
  | .variable_ binding => binding.parts

/-- The parts of an item; an import has none. -/
def Item.parts : Item α → List (SourceFront.Part α)
  | .import_ _ => []
  | .declaration decl => decl.definition.parts

/-- All parts of a module. -/
def Module.parts (module : Module α) : List (Part α) :=
  module.items.flatMap Item.parts

/-! The expressions of a module are those of its parts. -/

theorem Part.exprs_types (type : Option (TypeExpr α)) :
    (types type).flatMap exprs = TypeExpr.optionExprs type := by
  cases type with
  | none => rfl
  | some type => exact List.append_nil type.exprs

theorem Part.exprs_values (value : Option (Expr α)) :
    (values value).flatMap exprs = Expr.optionExprs value := by
  cases value with
  | none => rfl
  | some value => exact List.append_nil value.exprs

theorem Binding.exprs_parts (binding : Binding α) :
    binding.parts.flatMap Part.exprs = binding.exprs := by
  simp [parts, exprs, Part.exprs_types, Part.exprs]

theorem ForInit.exprs_parts (init : ForInit α) : init.parts.flatMap Part.exprs = init.exprs := by
  cases init with
  | let_ binding => exact binding.exprs_parts
  | expr value => exact List.append_nil value.exprs

mutual

theorem Block.exprs_parts : ∀ body : Block α, body.parts.flatMap Part.exprs = body.exprs
  | ⟨stmts, _⟩ => by
      rw [Block.parts, Block.exprs, List.flatMap_cons, Stmt.exprs_listParts stmts]
      rfl

theorem Stmt.exprs_parts : ∀ stmt : Stmt α, stmt.parts.flatMap Part.exprs = stmt.exprs
  | .let_ binding | .const binding => binding.exprs_parts
  | .block body => body.exprs_parts
  | .return_ value _ => Part.exprs_values value
  | .if_ branch => branch.exprs_parts
  | .loop body _ => body.exprs_parts
  | .while_ cond body _ => by simp [Stmt.parts, Stmt.exprs, Part.exprs, body.exprs_parts]
  | .for_ init cond step body _ => by
      simp [Stmt.parts, Stmt.exprs, Part.exprs, init.exprs_parts, body.exprs_parts]
  | .match_ choice => choice.exprs_parts
  | .break_ _ | .continue_ _ => rfl
  | .expr value _ => List.append_nil value.exprs

theorem Stmt.exprs_listParts : ∀ stmts : List (Stmt α),
    (Stmt.listParts stmts).flatMap Part.exprs = Stmt.listExprs stmts
  | [] => rfl
  | stmt :: stmts => by
      rw [Stmt.listParts, Stmt.listExprs, List.flatMap_append, stmt.exprs_parts,
        Stmt.exprs_listParts stmts]

theorem IfStmt.exprs_parts : ∀ branch : IfStmt α, branch.parts.flatMap Part.exprs = branch.exprs
  | ⟨cond, thenBlock, otherwise, _⟩ => by
      simp [IfStmt.parts, IfStmt.exprs, Part.exprs, thenBlock.exprs_parts,
        ElseBranch.exprs_optionParts otherwise]

theorem ElseBranch.exprs_optionParts : ∀ otherwise : Option (ElseBranch α),
    (ElseBranch.optionParts otherwise).flatMap Part.exprs = ElseBranch.optionExprs otherwise
  | none => rfl
  | some (.if_ branch) => branch.exprs_parts
  | some (.block body) => body.exprs_parts

theorem MatchStmt.exprs_parts : ∀ choice : MatchStmt α,
    choice.parts.flatMap Part.exprs = choice.exprs
  | ⟨subject, arms, _⟩ => by
      simp [MatchStmt.parts, MatchStmt.exprs, Part.exprs, MatchArm.exprs_listParts arms]

theorem MatchArm.exprs_listParts : ∀ arms : List (MatchArm α),
    (MatchArm.listParts arms).flatMap Part.exprs = MatchArm.listExprs arms
  | [] => rfl
  | ⟨_, body, _⟩ :: arms => by
      rw [MatchArm.listParts, MatchArm.listExprs, List.flatMap_append, body.exprs_parts,
        MatchArm.exprs_listParts arms]

theorem ArmBody.exprs_parts : ∀ body : ArmBody α, body.parts.flatMap Part.exprs = body.exprs
  | .block body => body.exprs_parts
  | .return_ value _ => Part.exprs_values value
  | .match_ choice => choice.exprs_parts
  | .break_ _ | .continue_ _ => rfl
  | .expr value => List.append_nil value.exprs

end

theorem Prototype.exprs_parts (proto : Prototype α) :
    proto.parts.flatMap Part.exprs = proto.exprs := by
  simp [parts, exprs, Part.exprs_types, Part.exprs, List.flatMap_map]

theorem Definition.exprs_parts (definition : Definition α) :
    definition.parts.flatMap Part.exprs = definition.exprs := by
  cases definition with
  | function def_ => simp [parts, exprs, def_.proto.exprs_parts, def_.body.exprs_parts]
  | struct def_ | union def_ => simp [parts, exprs, Part.exprs, List.flatMap_map]
  | enum def_ => simp [parts, exprs, List.flatMap_assoc, Part.exprs_values]
  | externalFunction proto => exact proto.exprs_parts
  | externalVariable typed => exact List.append_nil typed.type.exprs
  | constant def_ =>
      obtain ⟨name, value, note⟩ := def_
      cases value with
      | expr type value =>
          simp [parts, exprs, ConstantValue.parts, ConstantValue.exprs, Part.exprs_types,
            Part.exprs]
      | import_ source => rfl
  | variable_ binding => exact binding.exprs_parts

theorem Module.exprs_parts (module : Module α) :
    module.parts.flatMap Part.exprs = module.exprs := by
  rw [parts, exprs, List.flatMap_assoc]
  congr 1
  funext item
  cases item with
  | import_ source => rfl
  | declaration decl => exact decl.definition.exprs_parts

end SourceFront
