import SourceFront.Tree.Json

/-!
Trees with their notes changed. A tree without notes is a shape; two trees have
one shape if they differ in their notes only. The main statement says that
changing the notes commutes with writing a tree as JSON (`Module.toJson_map`), so
that the JSON without notes is that of the shape (`Module.bareJson_shape`).
-/

namespace SourceFront

variable {α β : Type}

def Name.map (f : α → β) (name : Name α) : Name β :=
  ⟨name.text, f name.note⟩

mutual

def TypeExpr.map (f : α → β) : TypeExpr α → TypeExpr β
  | ⟨pointers, base, sizes, note⟩ =>
      ⟨pointers, base.map f, Expr.mapList f sizes, f note⟩

def TypeBase.map (f : α → β) : TypeBase α → TypeBase β
  | .anyPointer => .anyPointer
  | .primitive type => .primitive type
  | .named name => .named (name.map f)
  | .function params variadic result =>
      .function (TypeExpr.mapList f params) variadic (TypeExpr.mapOption f result)

def TypeExpr.mapList (f : α → β) : List (TypeExpr α) → List (TypeExpr β)
  | [] => []
  | type :: types => type.map f :: TypeExpr.mapList f types

def TypeExpr.mapOption (f : α → β) : Option (TypeExpr α) → Option (TypeExpr β)
  | none => none
  | some type => some (type.map f)

/-- The expression with its notes changed. -/
def Expr.map (f : α → β) : Expr α → Expr β
  | .constant value note => .constant value (f note)
  | .ident name => .ident (name.map f)
  | .binary op left right note => .binary op (left.map f) (right.map f) (f note)
  | .unary op operand note => .unary op (operand.map f) (f note)
  | .cast operand type note => .cast (operand.map f) (type.map f) (f note)
  | .call callee args note => .call (callee.map f) (Expr.mapList f args) (f note)
  | .record type inits note => .record (type.map f) (FieldInit.mapList f inits) (f note)
  | .array elements note => .array (Expr.mapList f elements) (f note)
  | .sizeOf type note => .sizeOf (type.map f) (f note)
  | .group inner note => .group (inner.map f) (f note)

def Expr.mapList (f : α → β) : List (Expr α) → List (Expr β)
  | [] => []
  | expr :: exprs => expr.map f :: Expr.mapList f exprs

def FieldInit.map (f : α → β) : FieldInit α → FieldInit β
  | ⟨name, value, note⟩ => ⟨name.map f, value.map f, f note⟩

def FieldInit.mapList (f : α → β) : List (FieldInit α) → List (FieldInit β)
  | [] => []
  | init :: inits => init.map f :: FieldInit.mapList f inits

end

def Binding.map (f : α → β) (binding : Binding α) : Binding β :=
  ⟨binding.name.map f, binding.type.map (·.map f), binding.value.map f, f binding.note⟩

def Pattern.map (f : α → β) : Pattern α → Pattern β
  | .number digits note => .number digits (f note)
  | .char value note => .char value (f note)
  | .path segments note => .path (segments.map (·.map f)) (f note)
  | .wildcard note => .wildcard (f note)

def ForInit.map (f : α → β) : ForInit α → ForInit β
  | .let_ binding => .let_ (binding.map f)
  | .expr value => .expr (value.map f)

mutual

def Block.map (f : α → β) : Block α → Block β
  | ⟨stmts, note⟩ => ⟨Stmt.mapList f stmts, f note⟩

def Stmt.map (f : α → β) : Stmt α → Stmt β
  | .let_ binding => .let_ (binding.map f)
  | .const binding => .const (binding.map f)
  | .block body => .block (body.map f)
  | .return_ value note => .return_ (value.map (·.map f)) (f note)
  | .if_ branch => .if_ (branch.map f)
  | .loop body note => .loop (body.map f) (f note)
  | .while_ cond body note => .while_ (cond.map f) (body.map f) (f note)
  | .for_ init cond step body note =>
      .for_ (init.map f) (cond.map f) (step.map f) (body.map f) (f note)
  | .match_ choice => .match_ (choice.map f)
  | .break_ note => .break_ (f note)
  | .continue_ note => .continue_ (f note)
  | .expr value note => .expr (value.map f) (f note)

def Stmt.mapList (f : α → β) : List (Stmt α) → List (Stmt β)
  | [] => []
  | stmt :: stmts => stmt.map f :: Stmt.mapList f stmts

def IfStmt.map (f : α → β) : IfStmt α → IfStmt β
  | ⟨cond, thenBlock, otherwise, note⟩ =>
      ⟨cond.map f, thenBlock.map f, ElseBranch.mapOption f otherwise, f note⟩

def ElseBranch.mapOption (f : α → β) : Option (ElseBranch α) → Option (ElseBranch β)
  | none => none
  | some (.if_ branch) => some (.if_ (branch.map f))
  | some (.block body) => some (.block (body.map f))

def MatchStmt.map (f : α → β) : MatchStmt α → MatchStmt β
  | ⟨subject, arms, note⟩ => ⟨subject.map f, MatchArm.mapList f arms, f note⟩

def MatchArm.mapList (f : α → β) : List (MatchArm α) → List (MatchArm β)
  | [] => []
  | ⟨patterns, body, note⟩ :: arms =>
      ⟨patterns.map (·.map f), body.map f, f note⟩ :: MatchArm.mapList f arms

def ArmBody.map (f : α → β) : ArmBody α → ArmBody β
  | .block body => .block (body.map f)
  | .return_ value note => .return_ (value.map (·.map f)) (f note)
  | .match_ choice => .match_ (choice.map f)
  | .break_ note => .break_ (f note)
  | .continue_ note => .continue_ (f note)
  | .expr value => .expr (value.map f)

end

def TypedName.map (f : α → β) (typed : TypedName α) : TypedName β :=
  ⟨typed.name.map f, typed.type.map f, f typed.note⟩

def Prototype.map (f : α → β) (proto : Prototype α) : Prototype β :=
  ⟨proto.name.map f, proto.params.map (·.map f), proto.variadic,
    proto.result.map (·.map f), f proto.note⟩

def FunctionDef.map (f : α → β) (function : FunctionDef α) : FunctionDef β :=
  ⟨function.proto.map f, function.body.map f, f function.note⟩

def RecordDef.map (f : α → β) (record : RecordDef α) : RecordDef β :=
  ⟨record.name.map f, record.fields.map (·.map f), f record.note⟩

def Variant.map (f : α → β) (variant : Variant α) : Variant β :=
  ⟨variant.name.map f, variant.value.map (·.map f), f variant.note⟩

def EnumDef.map (f : α → β) (enum : EnumDef α) : EnumDef β :=
  ⟨enum.name.map f, enum.variants.map (·.map f), f enum.note⟩

def Import.map (f : α → β) (source : Import α) : Import β :=
  ⟨source.path, f source.note⟩

def ConstantValue.map (f : α → β) : ConstantValue α → ConstantValue β
  | .expr type value => .expr (type.map (·.map f)) (value.map f)
  | .import_ source => .import_ (source.map f)

def ConstantDef.map (f : α → β) (constant : ConstantDef α) : ConstantDef β :=
  ⟨constant.name.map f, constant.value.map f, f constant.note⟩

def Definition.map (f : α → β) : Definition α → Definition β
  | .function def_ => .function (def_.map f)
  | .struct def_ => .struct (def_.map f)
  | .union def_ => .union (def_.map f)
  | .enum def_ => .enum (def_.map f)
  | .externalFunction proto => .externalFunction (proto.map f)
  | .externalVariable typed => .externalVariable (typed.map f)
  | .constant def_ => .constant (def_.map f)
  | .variable_ binding => .variable_ (binding.map f)

def Declaration.map (f : α → β) (decl : Declaration α) : Declaration β :=
  ⟨decl.isPublic, decl.definition.map f, f decl.note⟩

def Item.map (f : α → β) : Item α → Item β
  | .import_ source => .import_ (source.map f)
  | .declaration decl => .declaration (decl.map f)

/-- The module with its notes changed. -/
def Module.map (f : α → β) (module : Module α) : Module β :=
  ⟨module.items.map (·.map f), f module.note⟩

/-- The module without its notes. -/
def Module.shape (module : Module α) : Module Unit :=
  module.map fun _ => ()

variable (fields : NoteFields β) (f : α → β)

theorem Name.toJson_map (name : Name α) :
    (name.map f).toJson fields = name.toJson (fields ∘ f) := rfl

mutual

theorem TypeExpr.toJson_map :
    ∀ type : TypeExpr α, (type.map f).toJson fields = type.toJson (fields ∘ f)
  | ⟨_, base, sizes, _⟩ => by
      simp [TypeExpr.map, TypeExpr.toJson, base.toJson_map, Expr.listToJson_map sizes]

theorem TypeBase.toJson_map :
    ∀ base : TypeBase α, (base.map f).toJson fields = base.toJson (fields ∘ f)
  | .anyPointer => rfl
  | .primitive _ => rfl
  | .named _ => rfl
  | .function params _ result => by
      simp [TypeBase.map, TypeBase.toJson, TypeExpr.listToJson_map params,
        TypeExpr.optionToJson_map result]

theorem TypeExpr.listToJson_map : ∀ types : List (TypeExpr α),
    TypeExpr.listToJson fields (TypeExpr.mapList f types) =
      TypeExpr.listToJson (fields ∘ f) types
  | [] => rfl
  | type :: types => by
      simp [TypeExpr.mapList, TypeExpr.listToJson, type.toJson_map,
        TypeExpr.listToJson_map types]

theorem TypeExpr.optionToJson_map : ∀ type : Option (TypeExpr α),
    TypeExpr.optionToJson fields (TypeExpr.mapOption f type) =
      TypeExpr.optionToJson (fields ∘ f) type
  | none => rfl
  | some type => type.toJson_map

theorem Expr.toJson_map :
    ∀ expr : Expr α, (expr.map f).toJson fields = expr.toJson (fields ∘ f)
  | .constant _ _ => rfl
  | .ident _ => rfl
  | .binary _ left right _ => by
      simp [Expr.map, Expr.toJson, left.toJson_map, right.toJson_map]
  | .unary _ operand _ => by simp [Expr.map, Expr.toJson, operand.toJson_map]
  | .cast operand type _ => by
      simp [Expr.map, Expr.toJson, operand.toJson_map, type.toJson_map]
  | .call callee args _ => by
      simp [Expr.map, Expr.toJson, callee.toJson_map, Expr.listToJson_map args]
  | .record type inits _ => by
      simp [Expr.map, Expr.toJson, type.toJson_map, FieldInit.listToJson_map inits]
  | .array elements _ => by simp [Expr.map, Expr.toJson, Expr.listToJson_map elements]
  | .sizeOf type _ => by simp [Expr.map, Expr.toJson, type.toJson_map]
  | .group inner _ => by simp [Expr.map, Expr.toJson, inner.toJson_map]

theorem Expr.listToJson_map : ∀ exprs : List (Expr α),
    Expr.listToJson fields (Expr.mapList f exprs) = Expr.listToJson (fields ∘ f) exprs
  | [] => rfl
  | expr :: exprs => by
      simp [Expr.mapList, Expr.listToJson, expr.toJson_map, Expr.listToJson_map exprs]

theorem FieldInit.toJson_map :
    ∀ init : FieldInit α, (init.map f).toJson fields = init.toJson (fields ∘ f)
  | ⟨name, value, _⟩ => by
      simp [FieldInit.map, FieldInit.toJson, name.toJson_map, value.toJson_map]

theorem FieldInit.listToJson_map : ∀ inits : List (FieldInit α),
    FieldInit.listToJson fields (FieldInit.mapList f inits) =
      FieldInit.listToJson (fields ∘ f) inits
  | [] => rfl
  | init :: inits => by
      simp [FieldInit.mapList, FieldInit.listToJson, init.toJson_map,
        FieldInit.listToJson_map inits]

end

theorem Binding.toJson_map (binding : Binding α) :
    (binding.map f).toJson fields = binding.toJson (fields ∘ f) := by
  simp [Binding.map, Binding.toJson, Json.ofOption_map, Name.toJson_map,
    TypeExpr.toJson_map, Expr.toJson_map]

theorem Pattern.toJson_map (pattern : Pattern α) :
    (pattern.map f).toJson fields = pattern.toJson (fields ∘ f) := by
  cases pattern <;>
    simp [Pattern.map, Pattern.toJson, Function.comp_def, Name.toJson_map]

theorem ForInit.toJson_map (init : ForInit α) :
    (init.map f).toJson fields = init.toJson (fields ∘ f) := by
  cases init <;>
    simp [ForInit.map, ForInit.toJson, Binding.toJson_map, Expr.toJson_map]

theorem returnToJson_map (value : Option (Expr α)) (note : α) :
    returnToJson fields (value.map (·.map f)) (f note) =
      returnToJson (fields ∘ f) value note := by
  simp [returnToJson, Json.ofOption_map, Expr.toJson_map]

mutual

theorem Block.toJson_map :
    ∀ body : Block α, (body.map f).toJson fields = body.toJson (fields ∘ f)
  | ⟨stmts, _⟩ => by simp [Block.map, Block.toJson, Stmt.listToJson_map stmts]

theorem Stmt.toJson_map :
    ∀ stmt : Stmt α, (stmt.map f).toJson fields = stmt.toJson (fields ∘ f)
  | .let_ _ | .const _ => by simp [Stmt.map, Stmt.toJson, Binding.toJson_map]
  | .block body => by simp [Stmt.map, Stmt.toJson, body.toJson_map]
  | .return_ _ _ => by simp [Stmt.map, Stmt.toJson, returnToJson_map]
  | .if_ branch => by simp [Stmt.map, Stmt.toJson, branch.toJson_map]
  | .loop body _ => by simp [Stmt.map, Stmt.toJson, body.toJson_map]
  | .while_ _ body _ => by
      simp [Stmt.map, Stmt.toJson, Expr.toJson_map, body.toJson_map]
  | .for_ _ _ _ body _ => by
      simp [Stmt.map, Stmt.toJson, Expr.toJson_map, ForInit.toJson_map, body.toJson_map]
  | .match_ choice => by simp [Stmt.map, Stmt.toJson, choice.toJson_map]
  | .break_ _ | .continue_ _ => rfl
  | .expr _ _ => by simp [Stmt.map, Stmt.toJson, Expr.toJson_map]

theorem Stmt.listToJson_map : ∀ stmts : List (Stmt α),
    Stmt.listToJson fields (Stmt.mapList f stmts) = Stmt.listToJson (fields ∘ f) stmts
  | [] => rfl
  | stmt :: stmts => by
      simp [Stmt.mapList, Stmt.listToJson, stmt.toJson_map, Stmt.listToJson_map stmts]

theorem IfStmt.toJson_map :
    ∀ branch : IfStmt α, (branch.map f).toJson fields = branch.toJson (fields ∘ f)
  | ⟨_, thenBlock, otherwise, _⟩ => by
      simp [IfStmt.map, IfStmt.toJson, Expr.toJson_map, thenBlock.toJson_map,
        ElseBranch.optionToJson_map otherwise]

theorem ElseBranch.optionToJson_map : ∀ branch : Option (ElseBranch α),
    ElseBranch.optionToJson fields (ElseBranch.mapOption f branch) =
      ElseBranch.optionToJson (fields ∘ f) branch
  | none => rfl
  | some (.if_ branch) => by
      simp [ElseBranch.mapOption, ElseBranch.optionToJson, branch.toJson_map]
  | some (.block body) => by
      simp [ElseBranch.mapOption, ElseBranch.optionToJson, body.toJson_map]

theorem MatchStmt.toJson_map :
    ∀ choice : MatchStmt α, (choice.map f).toJson fields = choice.toJson (fields ∘ f)
  | ⟨_, arms, _⟩ => by
      simp [MatchStmt.map, MatchStmt.toJson, Expr.toJson_map, MatchArm.listToJson_map arms]

theorem MatchArm.listToJson_map : ∀ arms : List (MatchArm α),
    MatchArm.listToJson fields (MatchArm.mapList f arms) =
      MatchArm.listToJson (fields ∘ f) arms
  | [] => rfl
  | ⟨_, body, _⟩ :: arms => by
      simp [MatchArm.mapList, MatchArm.listToJson, Pattern.toJson_map, body.toJson_map,
        MatchArm.listToJson_map arms]

theorem ArmBody.toJson_map :
    ∀ body : ArmBody α, (body.map f).toJson fields = body.toJson (fields ∘ f)
  | .block body => by simp [ArmBody.map, ArmBody.toJson, body.toJson_map]
  | .return_ _ _ => by simp [ArmBody.map, ArmBody.toJson, returnToJson_map]
  | .match_ choice => by simp [ArmBody.map, ArmBody.toJson, choice.toJson_map]
  | .break_ _ | .continue_ _ => rfl
  | .expr _ => by simp [ArmBody.map, ArmBody.toJson, Expr.toJson_map]

end

theorem TypedName.toJson_map (typed : TypedName α) :
    (typed.map f).toJson fields = typed.toJson (fields ∘ f) := by
  simp [TypedName.map, TypedName.toJson, Name.toJson_map, TypeExpr.toJson_map]

theorem Prototype.toJson_map (proto : Prototype α) :
    (proto.map f).toJson fields = proto.toJson (fields ∘ f) := by
  simp [Prototype.map, Prototype.toJson, Json.ofOption_map, Name.toJson_map,
    TypedName.toJson_map, TypeExpr.toJson_map]

theorem Variant.toJson_map (variant : Variant α) :
    (variant.map f).toJson fields = variant.toJson (fields ∘ f) := by
  simp [Variant.map, Variant.toJson, Json.ofOption_map, Name.toJson_map, Expr.toJson_map]

theorem RecordDef.toJson_map (record : RecordDef α) :
    (record.map f).toJson fields = record.toJson (fields ∘ f) := by
  simp [RecordDef.map, RecordDef.toJson, Name.toJson_map, TypedName.toJson_map]

theorem ConstantValue.toJson_map (value : ConstantValue α) :
    (value.map f).toJson fields = value.toJson (fields ∘ f) := by
  cases value <;>
    simp [ConstantValue.map, ConstantValue.toJson, Import.map, Import.toJson,
      Json.ofOption_map, TypeExpr.toJson_map, Expr.toJson_map]

theorem Definition.toJson_map (definition : Definition α) :
    (definition.map f).toJson fields = definition.toJson (fields ∘ f) := by
  cases definition with
  | function def_ =>
      simp [Definition.map, Definition.toJson, FunctionDef.map, FunctionDef.toJson,
        Prototype.toJson_map, Block.toJson_map]
  | struct def_ | union def_ =>
      simp [Definition.map, Definition.toJson, RecordDef.toJson_map]
  | enum def_ =>
      simp [Definition.map, Definition.toJson, EnumDef.map, EnumDef.toJson,
        Function.comp_def, Name.toJson_map, Variant.toJson_map]
  | externalFunction proto =>
      simp [Definition.map, Definition.toJson, Prototype.toJson_map]
  | externalVariable typed =>
      simp [Definition.map, Definition.toJson, TypedName.toJson_map]
  | constant def_ =>
      simp [Definition.map, Definition.toJson, ConstantDef.map, ConstantDef.toJson,
        Name.toJson_map, ConstantValue.toJson_map]
  | variable_ binding =>
      simp [Definition.map, Definition.toJson, Binding.toJson_map]

theorem Item.toJson_map (item : Item α) :
    (item.map f).toJson fields = item.toJson (fields ∘ f) := by
  cases item <;>
    simp [Item.map, Item.toJson, Import.map, Import.toJson, Declaration.map,
      Declaration.toJson, Definition.toJson_map]

/-- Changing the notes commutes with writing a tree as JSON. -/
theorem Module.toJson_map (module : Module α) :
    (module.map f).toJson fields = module.toJson (fields ∘ f) := by
  simp [Module.map, Module.toJson, Item.toJson_map]

/-- The JSON without notes is that of the shape. -/
theorem Module.bareJson_shape (module : Module α) :
    module.shape.bareJson = module.bareJson :=
  Module.toJson_map _ _ module

end SourceFront
