import SourceFront.Json
import SourceFront.Tree.Module

/-!
Trees as JSON. A node that comes in several forms is an object of one field, the
name of the form; any other node is an object of its parts, with the fields that
stand for its note. The fields of an object are in alphabetical order, if those
of a note belong between `right` and `stmts`.
-/

namespace SourceFront

open Json (tagged)

/-- The operator as it is named in JSON. -/
def BinaryOp.jsonName : BinaryOp → String
  | path => "Path"
  | member => "Member"
  | index => "Index"
  | add => "Add"
  | sub => "Sub"
  | mul => "Mul"
  | div => "Div"
  | mod => "Mod"
  | eq => "Eq"
  | ne => "Ne"
  | lt => "Lt"
  | le => "Le"
  | gt => "Gt"
  | ge => "Ge"
  | and => "And"
  | or => "Or"
  | assign => "Assign"
  | addAssign => "AddAssign"
  | subAssign => "SubAssign"
  | mulAssign => "MulAssign"
  | divAssign => "DivAssign"
  | modAssign => "ModAssign"

/-- The operator as it is named in JSON. -/
def UnaryOp.jsonName : UnaryOp → String
  | deref => "Deref"
  | addressOf => "AddrOf"
  | neg => "Neg"
  | not => "Not"
  | plus => "Plus"

/-- The type as it is named in JSON. -/
def Primitive.jsonName : Primitive → String
  | int => "Int"
  | str => "Str"
  | char => "Char"
  | bool => "Bool"
  | float => "Float"

variable {α : Type}

/-- The fields that stand for a note. -/
abbrev NoteFields (α : Type) := α → List (String × Json)

def Name.toJson (fields : NoteFields α) (name : Name α) : Json :=
  .object (("name", .string name.text) :: fields name.note)

def Constant.toJson (note : List (String × Json)) : Constant → Json
  | number digits => tagged "Number" (.object (note ++ [("text", .string digits)]))
  | string value => tagged "String" (.object (note ++ [("value", .string value)]))
  | char value => tagged "Char" (.object (note ++ [("value", .string value.toString)]))
  | bool value => tagged "Bool" (.object (note ++ [("value", .bool value)]))
  | null => tagged "Null" (.object note)

mutual

def TypeExpr.toJson (fields : NoteFields α) : TypeExpr α → Json
  | ⟨pointers, base, sizes, note⟩ =>
      .object
        (("array_dims", .array (Expr.listToJson fields sizes)) ::
          ("base", base.toJson fields) ::
          ("pointer_depth", .number pointers) :: fields note)

def TypeBase.toJson (fields : NoteFields α) : TypeBase α → Json
  | .anyPointer => .string "AnyPointer"
  | .primitive type => tagged "Primitive" (.string type.jsonName)
  | .named name => tagged "Named" (name.toJson fields)
  | .function params variadic result =>
      tagged "Function" (.object
        [("params", .array (TypeExpr.listToJson fields params)),
          ("ret_type", TypeExpr.optionToJson fields result),
          ("variadic", .bool variadic)])

def TypeExpr.listToJson (fields : NoteFields α) : List (TypeExpr α) → List Json
  | [] => []
  | type :: types => type.toJson fields :: TypeExpr.listToJson fields types

def TypeExpr.optionToJson (fields : NoteFields α) : Option (TypeExpr α) → Json
  | none => .null
  | some type => type.toJson fields

/-- An expression under the name of its form. -/
def Expr.toJson (fields : NoteFields α) : Expr α → Json
  | .constant value note => tagged "Literal" (value.toJson (fields note))
  | .ident name => tagged "Ident" (name.toJson fields)
  | .binary op left right note =>
      tagged "Binary" (.object
        (("left", left.toJson fields) :: ("op", .string op.jsonName) ::
          ("right", right.toJson fields) :: fields note))
  | .unary op operand note =>
      tagged "Unary" (.object
        (("op", .string op.jsonName) :: ("operand", operand.toJson fields) ::
          fields note))
  | .cast operand type note =>
      tagged "Cast" (.object
        (("expr", operand.toJson fields) :: fields note ++
          [("ty", type.toJson fields)]))
  | .call callee args note =>
      tagged "Call" (.object
        (("args", .array (Expr.listToJson fields args)) ::
          ("callee", callee.toJson fields) :: fields note))
  | .record type inits note =>
      tagged "StructInit" (.object
        (("fields", .array (FieldInit.listToJson fields inits)) ::
          ("name", type.toJson fields) :: fields note))
  | .array elements note =>
      tagged "ArrayInit" (.object
        (("elements", .array (Expr.listToJson fields elements)) :: fields note))
  | .sizeOf type note =>
      tagged "SizeOf" (.object (fields note ++ [("ty", type.toJson fields)]))
  | .group inner note =>
      tagged "Group" (.object (("inner", inner.toJson fields) :: fields note))

def Expr.listToJson (fields : NoteFields α) : List (Expr α) → List Json
  | [] => []
  | expr :: exprs => expr.toJson fields :: Expr.listToJson fields exprs

def FieldInit.toJson (fields : NoteFields α) : FieldInit α → Json
  | ⟨name, value, note⟩ =>
      .object
        (("name", name.toJson fields) :: fields note ++
          [("value", value.toJson fields)])

def FieldInit.listToJson (fields : NoteFields α) : List (FieldInit α) → List Json
  | [] => []
  | init :: inits => init.toJson fields :: FieldInit.listToJson fields inits

end

def Binding.toJson (fields : NoteFields α) (binding : Binding α) : Json :=
  .object
    (("name", binding.name.toJson fields) :: fields binding.note ++
      [("ty", .ofOption (·.toJson fields) binding.type),
        ("value", binding.value.toJson fields)])

def Pattern.toJson (fields : NoteFields α) : Pattern α → Json
  | .number digits note =>
      tagged "Number" (.object (fields note ++ [("text", .string digits)]))
  | .char value note =>
      tagged "Char" (.object (fields note ++ [("value", .string value.toString)]))
  | .path segments note =>
      tagged "Path" (.object
        (("segments", .array (segments.map (·.toJson fields))) :: fields note))
  | .wildcard note => tagged "Wildcard" (.object (fields note))

def ForInit.toJson (fields : NoteFields α) : ForInit α → Json
  | .let_ binding => tagged "Let" (binding.toJson fields)
  | .expr value => tagged "Expr" (value.toJson fields)

/-- A return, whether a statement or in an arm. -/
def returnToJson (fields : NoteFields α) (value : Option (Expr α)) (note : α) : Json :=
  tagged "Return" (.object
    (fields note ++ [("value", .ofOption (·.toJson fields) value)]))

mutual

def Block.toJson (fields : NoteFields α) : Block α → Json
  | ⟨stmts, note⟩ =>
      .object (fields note ++ [("stmts", .array (Stmt.listToJson fields stmts))])

/-- A statement under the name of its form. -/
def Stmt.toJson (fields : NoteFields α) : Stmt α → Json
  | .let_ binding => tagged "Let" (binding.toJson fields)
  | .const binding => tagged "Const" (binding.toJson fields)
  | .block body => tagged "Block" (body.toJson fields)
  | .return_ value note => returnToJson fields value note
  | .if_ branch => tagged "If" (branch.toJson fields)
  | .loop body note =>
      tagged "Loop" (.object (("body", body.toJson fields) :: fields note))
  | .while_ cond body note =>
      tagged "While" (.object
        (("body", body.toJson fields) :: ("cond", cond.toJson fields) :: fields note))
  | .for_ init cond step body note =>
      tagged "For" (.object
        (("body", body.toJson fields) :: ("cond", cond.toJson fields) ::
          ("init", init.toJson fields) :: fields note ++
          [("step", step.toJson fields)]))
  | .match_ choice => tagged "Match" (choice.toJson fields)
  | .break_ note => tagged "Break" (.object (fields note))
  | .continue_ note => tagged "Continue" (.object (fields note))
  | .expr value note =>
      tagged "Expr" (.object (("expr", value.toJson fields) :: fields note))

def Stmt.listToJson (fields : NoteFields α) : List (Stmt α) → List Json
  | [] => []
  | stmt :: stmts => stmt.toJson fields :: Stmt.listToJson fields stmts

def IfStmt.toJson (fields : NoteFields α) : IfStmt α → Json
  | ⟨cond, thenBlock, otherwise, note⟩ =>
      .object
        (("cond", cond.toJson fields) ::
          ("else_branch", ElseBranch.optionToJson fields otherwise) :: fields note ++
          [("then_block", thenBlock.toJson fields)])

def ElseBranch.optionToJson (fields : NoteFields α) : Option (ElseBranch α) → Json
  | none => .null
  | some (.if_ branch) => tagged "If" (branch.toJson fields)
  | some (.block body) => tagged "Block" (body.toJson fields)

def MatchStmt.toJson (fields : NoteFields α) : MatchStmt α → Json
  | ⟨subject, arms, note⟩ =>
      .object
        (("arms", .array (MatchArm.listToJson fields arms)) :: fields note ++
          [("subject", subject.toJson fields)])

def MatchArm.listToJson (fields : NoteFields α) : List (MatchArm α) → List Json
  | [] => []
  | ⟨patterns, body, note⟩ :: arms =>
      .object
        (("body", body.toJson fields) ::
          ("patterns", .array (patterns.map (·.toJson fields))) :: fields note) ::
        MatchArm.listToJson fields arms

def ArmBody.toJson (fields : NoteFields α) : ArmBody α → Json
  | .block body => tagged "Block" (body.toJson fields)
  | .return_ value note => returnToJson fields value note
  | .match_ choice => tagged "Match" (choice.toJson fields)
  | .break_ note => tagged "Break" (.object (fields note))
  | .continue_ note => tagged "Continue" (.object (fields note))
  | .expr value => tagged "Expr" (value.toJson fields)

end

def TypedName.toJson (fields : NoteFields α) (typed : TypedName α) : Json :=
  .object
    (("name", typed.name.toJson fields) :: fields typed.note ++
      [("ty", typed.type.toJson fields)])

def Prototype.toJson (fields : NoteFields α) (proto : Prototype α) : Json :=
  .object
    (("name", proto.name.toJson fields) ::
      ("params", .array (proto.params.map (·.toJson fields))) ::
      ("ret_type", .ofOption (·.toJson fields) proto.result) :: fields proto.note ++
      [("variadic", .bool proto.variadic)])

def FunctionDef.toJson (fields : NoteFields α) (function : FunctionDef α) : Json :=
  .object
    (("body", function.body.toJson fields) ::
      ("proto", function.proto.toJson fields) :: fields function.note)

def RecordDef.toJson (fields : NoteFields α) (record : RecordDef α) : Json :=
  .object
    (("fields", .array (record.fields.map (·.toJson fields))) ::
      ("name", record.name.toJson fields) :: fields record.note)

def Variant.toJson (fields : NoteFields α) (variant : Variant α) : Json :=
  .object
    (("name", variant.name.toJson fields) :: fields variant.note ++
      [("value", .ofOption (·.toJson fields) variant.value)])

def EnumDef.toJson (fields : NoteFields α) (enum : EnumDef α) : Json :=
  .object
    (("name", enum.name.toJson fields) :: fields enum.note ++
      [("variants", .array (enum.variants.map (·.toJson fields)))])

def Import.toJson (fields : NoteFields α) (source : Import α) : Json :=
  .object (("path", .string source.path) :: fields source.note)

def ConstantValue.toJson (fields : NoteFields α) : ConstantValue α → Json
  | .expr type value =>
      tagged "Expr" (.object
        [("ty", .ofOption (·.toJson fields) type), ("value", value.toJson fields)])
  | .import_ source => tagged "Import" (source.toJson fields)

def ConstantDef.toJson (fields : NoteFields α) (constant : ConstantDef α) : Json :=
  .object
    (("name", constant.name.toJson fields) :: fields constant.note ++
      [("value", constant.value.toJson fields)])

def Definition.toJson (fields : NoteFields α) : Definition α → Json
  | .function def_ => tagged "Fn" (def_.toJson fields)
  | .struct def_ => tagged "Struct" (def_.toJson fields)
  | .union def_ => tagged "Union" (def_.toJson fields)
  | .enum def_ => tagged "Enum" (def_.toJson fields)
  | .externalFunction proto => tagged "ExternFn" (proto.toJson fields)
  | .externalVariable typed => tagged "ExternGlobal" (typed.toJson fields)
  | .constant def_ => tagged "Const" (def_.toJson fields)
  | .variable_ binding => tagged "Var" (binding.toJson fields)

def Declaration.toJson (fields : NoteFields α) (decl : Declaration α) : Json :=
  .object
    (("is_pub", .bool decl.isPublic) ::
      ("kind", decl.definition.toJson fields) :: fields decl.note)

def Item.toJson (fields : NoteFields α) : Item α → Json
  | .import_ source => tagged "Import" (source.toJson fields)
  | .declaration decl => tagged "Decl" (decl.toJson fields)

/-- The items, and the fields of the note. -/
def Module.toJson (fields : NoteFields α) (module : Module α) : Json :=
  .object
    (("items", .array (module.items.map (·.toJson fields))) :: fields module.note)

/-- A range as a field. The file is left out. -/
def Span.jsonFields (span : Span) : List (String × Json) :=
  [("span", .object [("end", .number span.stop), ("start", .number span.start)])]

/-- A module with the ranges of its nodes. -/
def Module.spannedJson (module : Module Span) : Json :=
  module.toJson Span.jsonFields

/-- A module without its notes. -/
def Module.bareJson (module : Module α) : Json :=
  module.toJson fun _ => []

end SourceFront
