import SourceFront.Tree.Map

/-!
Changing the notes of lists of nodes changes those of each node, and the note of a
changed node is the changed note.
-/

namespace SourceFront

variable {α β : Type} (g : α → β)

theorem Expr.mapList_eq_map (exprs : List (Expr α)) :
    Expr.mapList g exprs = exprs.map (·.map g) := by
  induction exprs with
  | nil => rfl
  | cons expr exprs ih => rw [Expr.mapList, ih, List.map_cons]

theorem FieldInit.mapList_eq_map (inits : List (FieldInit α)) :
    FieldInit.mapList g inits = inits.map (·.map g) := by
  induction inits with
  | nil => rfl
  | cons init inits ih => rw [FieldInit.mapList, ih, List.map_cons]

theorem TypeExpr.mapList_eq_map (types : List (TypeExpr α)) :
    TypeExpr.mapList g types = types.map (·.map g) := by
  induction types with
  | nil => rfl
  | cons type types ih => rw [TypeExpr.mapList, ih, List.map_cons]

theorem TypeExpr.mapOption_eq_map (type : Option (TypeExpr α)) :
    TypeExpr.mapOption g type = type.map (·.map g) := by
  cases type <;> rfl

theorem Stmt.mapList_eq_map (stmts : List (Stmt α)) :
    Stmt.mapList g stmts = stmts.map (·.map g) := by
  induction stmts with
  | nil => rfl
  | cons stmt stmts ih => rw [Stmt.mapList, ih, List.map_cons]

def ElseBranch.map : ElseBranch α → ElseBranch β
  | .if_ branch => .if_ (branch.map g)
  | .block body => .block (body.map g)

theorem ElseBranch.mapOption_eq_map (branch : Option (ElseBranch α)) :
    ElseBranch.mapOption g branch = branch.map (·.map g) := by
  cases branch with
  | none => rfl
  | some branch => cases branch <;> rfl

def MatchArm.map : MatchArm α → MatchArm β
  | ⟨patterns, body, note⟩ => ⟨patterns.map (·.map g), body.map g, g note⟩

theorem MatchArm.mapList_eq_map (arms : List (MatchArm α)) :
    MatchArm.mapList g arms = arms.map (·.map g) := by
  induction arms with
  | nil => rfl
  | cons arm arms ih =>
      cases arm
      rw [MatchArm.mapList, ih, List.map_cons, MatchArm.map]

theorem Name.note_map (name : Name α) : (name.map g).note = g name.note := rfl

theorem Expr.note_map (expr : Expr α) : (expr.map g).note = g expr.note := by
  cases expr <;> rfl

theorem TypeExpr.note_map (type : TypeExpr α) : (type.map g).note = g type.note := by
  cases type
  rfl

theorem Block.note_map (body : Block α) : (body.map g).note = g body.note := by
  cases body
  rfl

/-- What is left of a note in a shape. -/
def forget {α : Type} (_ : α) : Unit :=
  ()

end SourceFront
