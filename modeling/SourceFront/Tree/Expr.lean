import SourceFront.Tree.Operator

/-!
Expressions and types. Each contains the other: casts and sizes name types, and
array types have expressions for their sizes. Every node carries a note; the tree
that is read from a source has the ranges of its nodes for notes.
-/

namespace SourceFront

/-- An identifier in a tree. -/
structure Name (α : Type) where
  text : String
  note : α
  deriving DecidableEq, Repr

/-- The types that have a keyword. -/
inductive Primitive where
  | int | str | char | bool | float
  deriving DecidableEq, Repr

/-- An expression that is written out in full. -/
inductive Constant where
  /-- Whole and decimal numbers are not told apart. -/
  | number (digits : String)
  | string (value : String)
  | char (value : Char)
  | bool (value : Bool)
  | null
  deriving DecidableEq, Repr

mutual

/-- A type as it is written. -/
structure TypeExpr (α : Type) where
  /-- The number of stars, without the one in `*any`. -/
  pointers : Nat
  base : TypeBase α
  /-- The sizes of an array, the outermost first. -/
  sizes : List (Expr α)
  note : α

/-- A type without stars and sizes. -/
inductive TypeBase (α : Type) where
  | anyPointer
  | primitive (type : Primitive)
  | named (name : Name α)
  /-- Without a result the function returns nothing. -/
  | function (params : List (TypeExpr α)) (variadic : Bool)
      (result : Option (TypeExpr α))

/-- An expression. Operators are kept with their operands, and parentheses as groups. -/
inductive Expr (α : Type) where
  | constant (value : Constant) (note : α)
  | ident (name : Name α)
  /-- Member access, paths and indexing are binary operations too. -/
  | binary (op : BinaryOp) (left right : Expr α) (note : α)
  | unary (op : UnaryOp) (operand : Expr α) (note : α)
  | cast (operand : Expr α) (type : TypeExpr α) (note : α)
  | call (callee : Name α) (args : List (Expr α)) (note : α)
  | record (type : Name α) (fields : List (FieldInit α)) (note : α)
  | array (elements : List (Expr α)) (note : α)
  | sizeOf (type : TypeExpr α) (note : α)
  | group (inner : Expr α) (note : α)

/-- A field and its value in a struct literal. -/
structure FieldInit (α : Type) where
  name : Name α
  value : Expr α
  note : α

end

variable {α : Type}

/-- The note of the whole expression. -/
def Expr.note : Expr α → α
  | .constant _ note => note
  | .ident name => name.note
  | .binary _ _ _ note => note
  | .unary _ _ note => note
  | .cast _ _ note => note
  | .call _ _ note => note
  | .record _ _ note => note
  | .array _ note => note
  | .sizeOf _ note => note
  | .group _ note => note

end SourceFront
