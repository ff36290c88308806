import SourceFront.Tree.Stmt

/-!
Modules: what a source file declares, in order.
-/

namespace SourceFront

/-- A parameter of a function, or a field of a struct or union. -/
structure TypedName (α : Type) where
  name : Name α
  type : TypeExpr α
  note : α

/-- What a function looks like from outside. -/
structure Prototype (α : Type) where
  name : Name α
  params : List (TypedName α)
  /-- More arguments may follow those of the parameters. -/
  variadic : Bool
  /-- Without a result the function returns nothing. -/
  result : Option (TypeExpr α)
  note : α

/-- A function that is defined here. -/
structure FunctionDef (α : Type) where
  proto : Prototype α
  body : Block α
  note : α

/-- A struct or a union. Names of fields may repeat. -/
structure RecordDef (α : Type) where
  name : Name α
  fields : List (TypedName α)
  note : α

/-- A name in an `enum`, with its value if one is given. -/
structure Variant (α : Type) where
  name : Name α
  value : Option (Expr α)
  note : α

/-- A type of named values. -/
structure EnumDef (α : Type) where
  name : Name α
  variants : List (Variant α)
  note : α

/-- Another module, by its path. -/
structure Import (α : Type) where
  path : String
  note : α

/-- What a constant stands for. -/
inductive ConstantValue (α : Type) where
  | expr (type : Option (TypeExpr α)) (value : Expr α)
  | import_ (source : Import α)

/-- A constant of the module. Its value may be another module. -/
structure ConstantDef (α : Type) where
  name : Name α
  value : ConstantValue α
  note : α

/-- What an item may define. -/
inductive Definition (α : Type) where
  | function (def_ : FunctionDef α)
  | struct (def_ : RecordDef α)
  | union (def_ : RecordDef α)
  | enum (def_ : EnumDef α)
  | externalFunction (proto : Prototype α)
  | externalVariable (typed : TypedName α)
  | constant (def_ : ConstantDef α)
  | variable_ (binding : Binding α)

/-- A definition that other modules may see or not. -/
structure Declaration (α : Type) where
  isPublic : Bool
  definition : Definition α
  note : α

/-- What a module is made up of. -/
inductive Item (α : Type) where
  | import_ (source : Import α)
  | declaration (decl : Declaration α)

/-- The note of the whole item. -/
def Item.note {α : Type} : Item α → α
  | .import_ source => source.note
  | .declaration decl => decl.note

/-- The items of a file. -/
structure Module (α : Type) where
  items : List (Item α)
  note : α

end SourceFront
