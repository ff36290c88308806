import SourceFront.Tree.Part

/-!
The nodes that end with a brace. A block begins with the brace that its last one closes; in
a match that brace stands behind the subject, and behind a name in the definition of a
struct, a union or an enum and in a struct literal.
-/

namespace SourceFront

/-- A node that ends with a brace. -/
structure Enclosure (α : Type) where
  note : α
  /-- The note of the node behind which the opening brace stands. Without one, that brace is
  the first token. -/
  behind : Option α
  deriving DecidableEq, Repr

variable {α : Type}

def Part.enclosures : Part α → List (Enclosure α)
  | .expr _ _ | .type _ => []
  | .block body => [⟨body.note, none⟩]
  | .choice match_ => [⟨match_.note, some match_.subject.note⟩]

def Expr.enclosure? : Expr α → Option (Enclosure α)
  | .record type _ note => some ⟨note, some type.note⟩
  | _ => none

def Definition.enclosure? : Definition α → Option (Enclosure α)
  | .struct def_ | .union def_ => some ⟨def_.note, some def_.name.note⟩
  | .enum def_ => some ⟨def_.note, some def_.name.note⟩
  | _ => none

def Item.enclosure? : Item α → Option (Enclosure α)
  | .import_ _ => none
  | .declaration decl => decl.definition.enclosure?

/-- The nodes of a module that end with a brace: blocks and matches, struct literals, and
definitions of structs, unions and enums. -/
def Module.enclosures (module : Module α) : List (Enclosure α) :=
  module.parts.flatMap Part.enclosures ++ module.exprs.filterMap Expr.enclosure? ++
    module.items.filterMap Item.enclosure?

end SourceFront
