import SourceFront.Tree.Part

/-!
The slots of expressions. Where a block follows, a whole expression and the operands of
its bare operators stand before that block; brackets and types begin anew. What stands
behind a point or a double colon is no operand.
-/

namespace SourceFront

/-- How an expression stands in a tree. -/
inductive Slot where
  | operand (place : Place)
  /-- Behind a point or a double colon. -/
  | member
  deriving DecidableEq, Repr

variable {α : Type}

mutual

/-- The expressions inside of an expression that stands at the place, with their slots. -/
def Expr.slotsInside (place : Place) : Expr α → List (Slot × Expr α)
  | .constant _ _ | .ident _ => []
  | .binary op left right _ =>
      (.operand place, left) :: left.slotsInside place ++
        match op with
        | .member | .path => (.member, right) :: right.slotsInside place
        | .index => (.operand .free, right) :: right.slotsInside .free
        | _ => (.operand place, right) :: right.slotsInside place
  | .unary _ operand _ => (.operand place, operand) :: operand.slotsInside place
  | .cast operand type _ =>
      (.operand place, operand) :: operand.slotsInside place ++ type.slots
  | .call _ args _ => Expr.listSlots args
  | .record _ inits _ => FieldInit.listSlots inits
  | .array elements _ => Expr.listSlots elements
  | .sizeOf type _ => type.slots
  | .group inner _ => (.operand .free, inner) :: inner.slotsInside .free

def Expr.listSlots : List (Expr α) → List (Slot × Expr α)
  | [] => []
  | expr :: exprs =>
      (.operand .free, expr) :: expr.slotsInside .free ++ Expr.listSlots exprs

def FieldInit.listSlots : List (FieldInit α) → List (Slot × Expr α)
  | [] => []
  | ⟨_, value, _⟩ :: inits =>
      (.operand .free, value) :: value.slotsInside .free ++ FieldInit.listSlots inits

def TypeExpr.slots : TypeExpr α → List (Slot × Expr α)
  | ⟨_, base, sizes, _⟩ => base.slots ++ Expr.listSlots sizes

def TypeBase.slots : TypeBase α → List (Slot × Expr α)
  | .anyPointer | .primitive _ | .named _ => []
  | .function params _ result =>
      TypeExpr.listSlots params ++ TypeExpr.optionSlots result

def TypeExpr.listSlots : List (TypeExpr α) → List (Slot × Expr α)
  | [] => []
  | type :: types => type.slots ++ TypeExpr.listSlots types

def TypeExpr.optionSlots : Option (TypeExpr α) → List (Slot × Expr α)
  | none => []
  | some type => type.slots

end

/-- An operand at the place and the expressions inside of it. -/
def Expr.slots (place : Place) (expr : Expr α) : List (Slot × Expr α) :=
  (.operand place, expr) :: expr.slotsInside place

theorem Expr.listSlots_eq (exprs : List (Expr α)) :
    Expr.listSlots exprs = exprs.flatMap (Expr.slots .free) := by
  induction exprs with
  | nil => rfl
  | cons expr exprs ih => rw [Expr.listSlots, ih]; rfl

theorem FieldInit.listSlots_eq (inits : List (FieldInit α)) :
    FieldInit.listSlots inits = inits.flatMap fun init => init.value.slots .free := by
  induction inits with
  | nil => rfl
  | cons init inits ih =>
      obtain ⟨name, value, note⟩ := init
      rw [FieldInit.listSlots, ih]
      rfl

theorem TypeExpr.listSlots_eq (types : List (TypeExpr α)) :
    TypeExpr.listSlots types = types.flatMap TypeExpr.slots := by
  induction types with
  | nil => rfl
  | cons type types ih => rw [TypeExpr.listSlots, ih]; rfl

/-- The slots of what a part holds. -/
def Part.slots : Part α → List (Slot × Expr α)
  | .expr place value => value.slots place
  | .type written => written.slots
  | .block _ | .choice _ => []

/-- All expressions of a module, with their slots. -/
def Module.slots (module : Module α) : List (Slot × Expr α) :=
  module.parts.flatMap Part.slots

/-! The expressions of a module stand in one slot each. -/

mutual

theorem Expr.snd_slotsInside (place : Place) :
    ∀ expr : Expr α, (expr.slotsInside place).map Prod.snd = expr.inside
  | .constant _ _ | .ident _ => rfl
  | .binary op left right _ => by
      cases op <;>
        simp [Expr.slotsInside, Expr.inside, left.snd_slotsInside, right.snd_slotsInside]
  | .unary _ operand _ => by simp [Expr.slotsInside, Expr.inside, operand.snd_slotsInside]
  | .cast operand type _ => by
      simp [Expr.slotsInside, Expr.inside, operand.snd_slotsInside, type.snd_slots]
  | .call _ args _ => Expr.snd_listSlots args
  | .record _ inits _ => FieldInit.snd_listSlots inits
  | .array elements _ => Expr.snd_listSlots elements
  | .sizeOf type _ => type.snd_slots
  | .group inner _ => by simp [Expr.slotsInside, Expr.inside, inner.snd_slotsInside]

theorem Expr.snd_listSlots : ∀ exprs : List (Expr α),
    (Expr.listSlots exprs).map Prod.snd = Expr.listExprs exprs
  | [] => rfl
  | expr :: exprs => by
      simp [Expr.listSlots, Expr.listExprs, expr.snd_slotsInside, Expr.snd_listSlots exprs]

theorem FieldInit.snd_listSlots : ∀ inits : List (FieldInit α),
    (FieldInit.listSlots inits).map Prod.snd = FieldInit.listExprs inits
  | [] => rfl
  | ⟨_, value, _⟩ :: inits => by
      simp [FieldInit.listSlots, FieldInit.listExprs, value.snd_slotsInside,
        FieldInit.snd_listSlots inits]

theorem TypeExpr.snd_slots : ∀ type : TypeExpr α, type.slots.map Prod.snd = type.exprs
  | ⟨_, base, sizes, _⟩ => by
      simp [TypeExpr.slots, TypeExpr.exprs, base.snd_slots, Expr.snd_listSlots sizes]

theorem TypeBase.snd_slots : ∀ base : TypeBase α, base.slots.map Prod.snd = base.exprs
  | .anyPointer | .primitive _ | .named _ => rfl
  | .function params _ result => by
      simp [TypeBase.slots, TypeBase.exprs, TypeExpr.snd_listSlots params,
        TypeExpr.snd_optionSlots result]

theorem TypeExpr.snd_listSlots : ∀ types : List (TypeExpr α),
    (TypeExpr.listSlots types).map Prod.snd = TypeExpr.listExprs types
  | [] => rfl
  | type :: types => by
      simp [TypeExpr.listSlots, TypeExpr.listExprs, type.snd_slots, TypeExpr.snd_listSlots types]

theorem TypeExpr.snd_optionSlots : ∀ result : Option (TypeExpr α),
    (TypeExpr.optionSlots result).map Prod.snd = TypeExpr.optionExprs result
  | none => rfl
  | some type => type.snd_slots

end

theorem Part.snd_slots (part : Part α) : part.slots.map Prod.snd = part.exprs := by
  cases part with
  | expr place value =>
      simp [slots, exprs, Expr.slots, Expr.exprs, value.snd_slotsInside]
  | type written => exact written.snd_slots
  | block body | choice choice => rfl

theorem Module.snd_slots (module : Module α) : module.slots.map Prod.snd = module.exprs := by
  rw [slots, List.map_flatMap, ← module.exprs_parts]
  congr 1
  funext part
  exact part.snd_slots

end SourceFront
