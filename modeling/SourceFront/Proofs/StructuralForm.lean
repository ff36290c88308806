import SourceFront.Tree.Map

/-!
What the JSON of a tree tells. The form of a node is the name of its one field, and the fields
of every form are given in one order, so a tree can be told from its JSON as far as its notes
can be told from their fields. The JSON without ranges is what is left when the fields that
hold them are taken out of the JSON with ranges.
-/

namespace SourceFront

open Json (tagged)

namespace Json

mutual

/-- The value without the fields of the name `key`, at every level. -/
@[simp] def without (key : String) : Json → Json
  | array items => array (itemsWithout key items)
  | object fields => object (fieldsWithout key fields)
  | value => value

@[simp] def itemsWithout (key : String) : List Json → List Json
  | [] => []
  | item :: items => item.without key :: itemsWithout key items

@[simp] def fieldsWithout (key : String) : List (String × Json) → List (String × Json)
  | [] => []
  | (name, value) :: fields =>
      if name = key then fieldsWithout key fields
      else (name, value.without key) :: fieldsWithout key fields

end

/-- The order of names: by the first characters in which they differ, or the shorter one first. -/
@[simp] def charsBefore : List Char → List Char → Bool
  | a :: as, b :: bs => a.toNat < b.toNat || (a = b && charsBefore as bs)
  | [], _ :: _ => true
  | _, [] => false

/-- The names of the fields ascend. -/
@[simp] def Ascending (fields : List (String × Json)) : Prop :=
  (fields.map fun field => field.1.toList).Pairwise (charsBefore · ·)

mutual

/-- The names of the fields of an object ascend, at every level. So no two fields of it have
one name, and their order is the only one. -/
@[simp] def Sorted : Json → Prop
  | array items => ItemsSorted items
  | object fields => Ascending fields ∧ FieldsSorted fields
  | _ => True

@[simp] def ItemsSorted : List Json → Prop
  | [] => True
  | item :: items => item.Sorted ∧ ItemsSorted items

@[simp] def FieldsSorted : List (String × Json) → Prop
  | [] => True
  | (_, value) :: fields => value.Sorted ∧ FieldsSorted fields

end

/-- The value is sorted, and `rest` is left when all ranges are taken out of it. -/
def Leaves (value rest : Json) : Prop :=
  value.Sorted ∧ value.without "span" = rest

def ItemsLeave (items rest : List Json) : Prop :=
  ItemsSorted items ∧ itemsWithout "span" items = rest

def FieldsLeave (fields rest : List (String × Json)) : Prop :=
  FieldsSorted fields ∧ fieldsWithout "span" fields = rest

section

variable {a b : Json} {as bs : List Json} {name name' : String}
  {fields rest : List (String × Json)}

@[simp] theorem leaves_null : null.Leaves null :=
  ⟨trivial, rfl⟩

@[simp] theorem leaves_bool (value : Bool) : (bool value).Leaves (bool value) :=
  ⟨trivial, rfl⟩

@[simp] theorem leaves_number (value : Nat) : (number value).Leaves (number value) :=
  ⟨trivial, rfl⟩

@[simp] theorem leaves_string (value : String) : (string value).Leaves (string value) :=
  ⟨trivial, rfl⟩

@[simp] theorem leaves_array : (array as).Leaves (array bs) ↔ ItemsLeave as bs := by
  simp [Leaves, ItemsLeave]

@[simp] theorem leaves_object :
    (object fields).Leaves (object rest) ↔
      Ascending fields ∧ FieldsLeave fields rest := by
  simp [Leaves, FieldsLeave, and_assoc]

@[simp] theorem leaves_tagged (h : name ≠ "span") :
    (tagged name a).Leaves (tagged name b) ↔ a.Leaves b := by
  simp [tagged, Leaves, h]

@[simp] theorem itemsLeave_nil : ItemsLeave [] [] :=
  ⟨trivial, rfl⟩

@[simp] theorem itemsLeave_cons :
    ItemsLeave (a :: as) (b :: bs) ↔ a.Leaves b ∧ ItemsLeave as bs := by
  simp [ItemsLeave, Leaves, and_assoc, and_left_comm]

@[simp] theorem fieldsLeave_nil : FieldsLeave [] [] :=
  ⟨trivial, rfl⟩

@[simp] theorem fieldsLeave_span :
    FieldsLeave (("span", a) :: fields) rest ↔ a.Sorted ∧ FieldsLeave fields rest := by
  simp [FieldsLeave, and_assoc]

@[simp] theorem fieldsLeave_cons (h : name ≠ "span") :
    FieldsLeave ((name, a) :: fields) ((name, b) :: rest) ↔
      a.Leaves b ∧ FieldsLeave fields rest := by
  simp [FieldsLeave, Leaves, h, and_assoc, and_left_comm]

end

section

variable {β : Type} {f g : β → Json}

@[simp] theorem tagged_inj {tag tag' : String} {a b : Json} :
    tagged tag a = tagged tag' b ↔ tag = tag' ∧ a = b := by
  simp [tagged]

theorem ofOption_inj (hnull : ∀ b, f b ≠ null) (hinj : ∀ b b', f b = f b' ↔ b = b')
    {b b' : Option β} : ofOption f b = ofOption f b' ↔ b = b' := by
  cases b with
  | none =>
      cases b' with
      | none => simp
      | some b' => simp [ofOption, (hnull b').symm]
  | some b =>
      cases b' with
      | none => simp [ofOption, hnull b]
      | some b' => simp [ofOption, hinj]

theorem map_inj (hinj : ∀ b b', f b = f b' ↔ b = b') {bs bs' : List β} :
    bs.map f = bs'.map f ↔ bs = bs' :=
  List.map_inj_right fun b b' => (hinj b b').mp

theorem ofOption_leaves (h : ∀ b, (f b).Leaves (g b)) (b : Option β) :
    (ofOption f b).Leaves (ofOption g b) := by
  cases b with
  | none => simp [ofOption]
  | some b => exact h b

theorem map_leaves (h : ∀ b, (f b).Leaves (g b)) (bs : List β) :
    ItemsLeave (bs.map f) (bs.map g) := by
  induction bs with
  | nil => simp
  | cons b bs ih => simp [h, ih]

end

end Json

theorem BinaryOp.jsonName_inj {a b : BinaryOp} : a.jsonName = b.jsonName ↔ a = b := by
  cases a <;> cases b <;> simp [jsonName]

theorem UnaryOp.jsonName_inj {a b : UnaryOp} : a.jsonName = b.jsonName ↔ a = b := by
  cases a <;> cases b <;> simp [jsonName]

theorem Primitive.jsonName_inj {a b : Primitive} : a.jsonName = b.jsonName ↔ a = b := by
  cases a <;> cases b <;> simp [jsonName]

variable {α : Type} {fields : NoteFields α}

theorem TypeExpr.toJson_ne_null (type : TypeExpr α) : type.toJson fields ≠ .null := by
  cases type
  simp [toJson]

theorem Expr.toJson_ne_null (expr : Expr α) : expr.toJson fields ≠ .null := by
  cases expr <;> simp [toJson, tagged]

/-- A note can be told from its fields, and where they end from their number, which is the
same for all notes. -/
structure NoteFields.Telling (fields : NoteFields α) : Prop where
  injective : Function.Injective fields
  length : ∀ a b, (fields a).length = (fields b).length

namespace NoteFields.Telling

theorem inj (h : fields.Telling) {a b : α} : fields a = fields b ↔ a = b :=
  h.injective.eq_iff

theorem append_inj (h : fields.Telling) {a b : α} {as bs : List (String × Json)} :
    fields a ++ as = fields b ++ bs ↔ a = b ∧ as = bs := by
  constructor
  · intro hab
    obtain ⟨hnote, hrest⟩ := List.append_inj hab (h.length a b)
    exact ⟨h.injective hnote, hrest⟩
  · rintro ⟨rfl, rfl⟩
    rfl

end NoteFields.Telling

theorem Name.toJson_inj (h : fields.Telling) (a b : Name α) :
    a.toJson fields = b.toJson fields ↔ a = b := by
  cases a
  cases b
  simp [toJson, h.inj]

theorem Constant.toJson_inj (h : fields.Telling) {note note' : α} (a b : Constant) :
    a.toJson (fields note) = b.toJson (fields note') ↔ a = b ∧ note = note' := by
  cases a <;> cases b <;>
    simp [toJson, h.inj, h.append_inj, and_comm]

mutual

theorem TypeExpr.toJson_inj (h : fields.Telling) :
    ∀ a b : TypeExpr α, a.toJson fields = b.toJson fields ↔ a = b
  | ⟨_, base, sizes, _⟩, b => by
      cases b
      simp [TypeExpr.toJson, base.toJson_inj h, Expr.listToJson_inj h sizes, h.inj, and_comm,
        and_assoc, and_left_comm]

theorem TypeBase.toJson_inj (h : fields.Telling) :
    ∀ a b : TypeBase α, a.toJson fields = b.toJson fields ↔ a = b
  | .anyPointer, b => by cases b <;> simp [TypeBase.toJson, Json.tagged]
  | .primitive _, b => by
      cases b <;> simp [TypeBase.toJson, Json.tagged, Primitive.jsonName_inj]
  | .named name, b => by
      cases b <;> simp [TypeBase.toJson, Json.tagged, name.toJson_inj h]
  | .function params _ result, b => by
      cases b <;> simp [TypeBase.toJson, Json.tagged, TypeExpr.listToJson_inj h params,
        TypeExpr.optionToJson_inj h result, and_comm]

theorem TypeExpr.listToJson_inj (h : fields.Telling) : ∀ as bs : List (TypeExpr α),
    TypeExpr.listToJson fields as = TypeExpr.listToJson fields bs ↔ as = bs
  | [], bs => by cases bs <;> simp [TypeExpr.listToJson]
  | type :: types, bs => by
      cases bs <;> simp [TypeExpr.listToJson, type.toJson_inj h, TypeExpr.listToJson_inj h types]

theorem TypeExpr.optionToJson_inj (h : fields.Telling) : ∀ a b : Option (TypeExpr α),
    TypeExpr.optionToJson fields a = TypeExpr.optionToJson fields b ↔ a = b
  | none, none => by simp
  | none, some type => by simp [TypeExpr.optionToJson, type.toJson_ne_null.symm]
  | some type, none => by simp [TypeExpr.optionToJson, type.toJson_ne_null]
  | some type, some type' => by simp [TypeExpr.optionToJson, type.toJson_inj h]

theorem Expr.toJson_inj (h : fields.Telling) :
    ∀ a b : Expr α, a.toJson fields = b.toJson fields ↔ a = b
  | .constant value _, b => by
      cases b <;> simp [Expr.toJson, value.toJson_inj h]
  | .ident name, b => by cases b <;> simp [Expr.toJson, name.toJson_inj h]
  | .binary _ left right _, b => by
      cases b <;> simp [Expr.toJson, left.toJson_inj h, right.toJson_inj h, BinaryOp.jsonName_inj,
        h.inj, and_left_comm]
  | .unary _ operand _, b => by
      cases b <;> simp [Expr.toJson, operand.toJson_inj h, UnaryOp.jsonName_inj, h.inj]
  | .cast operand type _, b => by
      cases b <;> simp [Expr.toJson, operand.toJson_inj h, type.toJson_inj h, h.append_inj,
        and_comm]
  | .call callee args _, b => by
      cases b <;> simp [Expr.toJson, callee.toJson_inj h, Expr.listToJson_inj h args, h.inj,
        and_left_comm]
  | .record type inits _, b => by
      cases b <;> simp [Expr.toJson, type.toJson_inj h, FieldInit.listToJson_inj h inits, h.inj,
        and_left_comm]
  | .array elements _, b => by
      cases b <;> simp [Expr.toJson, Expr.listToJson_inj h elements, h.inj]
  | .sizeOf type _, b => by
      cases b <;> simp [Expr.toJson, type.toJson_inj h, h.append_inj, and_comm]
  | .group inner _, b => by
      cases b <;> simp [Expr.toJson, inner.toJson_inj h, h.inj]

theorem Expr.listToJson_inj (h : fields.Telling) : ∀ as bs : List (Expr α),
    Expr.listToJson fields as = Expr.listToJson fields bs ↔ as = bs
  | [], bs => by cases bs <;> simp [Expr.listToJson]
  | expr :: exprs, bs => by
      cases bs <;> simp [Expr.listToJson, expr.toJson_inj h, Expr.listToJson_inj h exprs]

theorem FieldInit.toJson_inj (h : fields.Telling) :
    ∀ a b : FieldInit α, a.toJson fields = b.toJson fields ↔ a = b
  | ⟨name, value, _⟩, b => by
      cases b
      simp [FieldInit.toJson, name.toJson_inj h, value.toJson_inj h, h.append_inj, and_comm]

theorem FieldInit.listToJson_inj (h : fields.Telling) : ∀ as bs : List (FieldInit α),
    FieldInit.listToJson fields as = FieldInit.listToJson fields bs ↔ as = bs
  | [], bs => by cases bs <;> simp [FieldInit.listToJson]
  | init :: inits, bs => by
      cases bs <;> simp [FieldInit.listToJson, init.toJson_inj h, FieldInit.listToJson_inj h inits]

end

theorem Expr.ofOption_inj (h : fields.Telling) {a b : Option (Expr α)} :
    Json.ofOption (·.toJson fields) a = Json.ofOption (·.toJson fields) b ↔ a = b :=
  Json.ofOption_inj Expr.toJson_ne_null (Expr.toJson_inj h)

theorem TypeExpr.ofOption_inj (h : fields.Telling) {a b : Option (TypeExpr α)} :
    Json.ofOption (·.toJson fields) a = Json.ofOption (·.toJson fields) b ↔ a = b :=
  Json.ofOption_inj TypeExpr.toJson_ne_null (TypeExpr.toJson_inj h)

theorem Binding.toJson_inj (h : fields.Telling) (a b : Binding α) :
    a.toJson fields = b.toJson fields ↔ a = b := by
  cases a
  cases b
  simp [toJson, Name.toJson_inj h, TypeExpr.ofOption_inj h, Expr.toJson_inj h, h.append_inj,
    and_comm, and_assoc, and_left_comm]

theorem Pattern.toJson_inj (h : fields.Telling) (a b : Pattern α) :
    a.toJson fields = b.toJson fields ↔ a = b := by
  cases a <;> cases b <;>
    simp [toJson, Json.map_inj (Name.toJson_inj h), h.inj, h.append_inj, and_comm]

theorem ForInit.toJson_inj (h : fields.Telling) (a b : ForInit α) :
    a.toJson fields = b.toJson fields ↔ a = b := by
  cases a <;> cases b <;> simp [toJson, Binding.toJson_inj h, Expr.toJson_inj h]

theorem returnToJson_inj (h : fields.Telling) {value value' : Option (Expr α)} {note note' : α} :
    returnToJson fields value note = returnToJson fields value' note' ↔
      value = value' ∧ note = note' := by
  simp [returnToJson, Expr.ofOption_inj h, h.append_inj, and_comm]

mutual

theorem Block.toJson_inj (h : fields.Telling) :
    ∀ a b : Block α, a.toJson fields = b.toJson fields ↔ a = b
  | ⟨stmts, _⟩, b => by
      cases b
      simp [Block.toJson, Stmt.listToJson_inj h stmts, h.append_inj, and_comm]

theorem Stmt.toJson_inj (h : fields.Telling) :
    ∀ a b : Stmt α, a.toJson fields = b.toJson fields ↔ a = b
  | .let_ binding, b | .const binding, b => by
      cases b <;> simp [Stmt.toJson, returnToJson, binding.toJson_inj h]
  | .block body, b => by cases b <;> simp [Stmt.toJson, returnToJson, body.toJson_inj h]
  | .return_ _ _, b => by
      cases b with
      | return_ => simp [Stmt.toJson, returnToJson_inj h]
      | _ => simp [Stmt.toJson, returnToJson]
  | .if_ branch, b => by cases b <;> simp [Stmt.toJson, returnToJson, branch.toJson_inj h]
  | .loop body _, b => by
      cases b <;> simp [Stmt.toJson, returnToJson, body.toJson_inj h, h.inj]
  | .while_ cond body _, b => by
      cases b <;> simp [Stmt.toJson, returnToJson, cond.toJson_inj h, body.toJson_inj h, h.inj,
        and_left_comm]
  | .for_ init cond step body _, b => by
      cases b <;> simp [Stmt.toJson, returnToJson, init.toJson_inj h, cond.toJson_inj h,
        step.toJson_inj h, body.toJson_inj h, h.append_inj, and_assoc, and_left_comm, and_comm]
  | .match_ choice, b => by cases b <;> simp [Stmt.toJson, returnToJson, choice.toJson_inj h]
  | .break_ _, b | .continue_ _, b => by
      cases b <;> simp [Stmt.toJson, returnToJson, h.inj]
  | .expr value _, b => by
      cases b <;> simp [Stmt.toJson, returnToJson, value.toJson_inj h, h.inj]

theorem Stmt.listToJson_inj (h : fields.Telling) : ∀ as bs : List (Stmt α),
    Stmt.listToJson fields as = Stmt.listToJson fields bs ↔ as = bs
  | [], bs => by cases bs <;> simp [Stmt.listToJson]
  | stmt :: stmts, bs => by
      cases bs <;> simp [Stmt.listToJson, stmt.toJson_inj h, Stmt.listToJson_inj h stmts]

theorem IfStmt.toJson_inj (h : fields.Telling) :
    ∀ a b : IfStmt α, a.toJson fields = b.toJson fields ↔ a = b
  | ⟨cond, thenBlock, otherwise, _⟩, b => by
      cases b
      simp [IfStmt.toJson, cond.toJson_inj h, thenBlock.toJson_inj h,
        ElseBranch.optionToJson_inj h otherwise, h.append_inj, and_comm,
        and_assoc, and_left_comm]

theorem ElseBranch.optionToJson_inj (h : fields.Telling) : ∀ a b : Option (ElseBranch α),
    ElseBranch.optionToJson fields a = ElseBranch.optionToJson fields b ↔ a = b
  | none, b => by
      rcases b with _ | _ | _ <;> simp [ElseBranch.optionToJson, tagged]
  | some (.if_ branch), b => by
      rcases b with _ | _ | _ <;> simp [ElseBranch.optionToJson, tagged, branch.toJson_inj h]
  | some (.block body), b => by
      rcases b with _ | _ | _ <;> simp [ElseBranch.optionToJson, tagged, body.toJson_inj h]

theorem MatchStmt.toJson_inj (h : fields.Telling) :
    ∀ a b : MatchStmt α, a.toJson fields = b.toJson fields ↔ a = b
  | ⟨subject, arms, _⟩, b => by
      cases b
      simp [MatchStmt.toJson, subject.toJson_inj h, MatchArm.listToJson_inj h arms, h.append_inj,
        and_comm, and_assoc, and_left_comm]

theorem MatchArm.listToJson_inj (h : fields.Telling) : ∀ as bs : List (MatchArm α),
    MatchArm.listToJson fields as = MatchArm.listToJson fields bs ↔ as = bs
  | [], bs => by rcases bs with _ | ⟨⟨⟩, _⟩ <;> simp [MatchArm.listToJson]
  | ⟨patterns, body, _⟩ :: arms, bs => by
      rcases bs with _ | ⟨⟨⟩, _⟩ <;> simp [MatchArm.listToJson,
        Json.map_inj (Pattern.toJson_inj h), body.toJson_inj h, MatchArm.listToJson_inj h arms,
        h.inj, and_left_comm]

theorem ArmBody.toJson_inj (h : fields.Telling) :
    ∀ a b : ArmBody α, a.toJson fields = b.toJson fields ↔ a = b
  | .block body, b => by cases b <;> simp [ArmBody.toJson, returnToJson, body.toJson_inj h]
  | .return_ _ _, b => by
      cases b with
      | return_ => simp [ArmBody.toJson, returnToJson_inj h]
      | _ => simp [ArmBody.toJson, returnToJson]
  | .match_ choice, b => by cases b <;> simp [ArmBody.toJson, returnToJson, choice.toJson_inj h]
  | .break_ _, b | .continue_ _, b => by
      cases b <;> simp [ArmBody.toJson, returnToJson, h.inj]
  | .expr value, b => by cases b <;> simp [ArmBody.toJson, returnToJson, value.toJson_inj h]

end

theorem TypedName.toJson_inj (h : fields.Telling) (a b : TypedName α) :
    a.toJson fields = b.toJson fields ↔ a = b := by
  cases a
  cases b
  simp [toJson, Name.toJson_inj h, TypeExpr.toJson_inj h, h.append_inj, and_comm]

theorem Prototype.toJson_inj (h : fields.Telling) (a b : Prototype α) :
    a.toJson fields = b.toJson fields ↔ a = b := by
  cases a
  cases b
  simp [toJson, Name.toJson_inj h, Json.map_inj (TypedName.toJson_inj h),
    TypeExpr.ofOption_inj h, h.append_inj, and_comm, and_assoc, and_left_comm]

theorem FunctionDef.toJson_inj (h : fields.Telling) (a b : FunctionDef α) :
    a.toJson fields = b.toJson fields ↔ a = b := by
  cases a
  cases b
  simp [toJson, Prototype.toJson_inj h, Block.toJson_inj h, h.inj, and_left_comm]

theorem RecordDef.toJson_inj (h : fields.Telling) (a b : RecordDef α) :
    a.toJson fields = b.toJson fields ↔ a = b := by
  cases a
  cases b
  simp [toJson, Name.toJson_inj h, Json.map_inj (TypedName.toJson_inj h), h.inj, and_left_comm]

theorem Variant.toJson_inj (h : fields.Telling) (a b : Variant α) :
    a.toJson fields = b.toJson fields ↔ a = b := by
  cases a
  cases b
  simp [toJson, Name.toJson_inj h, Expr.ofOption_inj h, h.append_inj, and_comm]

theorem EnumDef.toJson_inj (h : fields.Telling) (a b : EnumDef α) :
    a.toJson fields = b.toJson fields ↔ a = b := by
  cases a
  cases b
  simp [toJson, Name.toJson_inj h, Json.map_inj (Variant.toJson_inj h), h.append_inj, and_comm]

theorem Import.toJson_inj (h : fields.Telling) (a b : Import α) :
    a.toJson fields = b.toJson fields ↔ a = b := by
  cases a
  cases b
  simp [toJson, h.inj]

theorem ConstantValue.toJson_inj (h : fields.Telling) (a b : ConstantValue α) :
    a.toJson fields = b.toJson fields ↔ a = b := by
  cases a <;> cases b <;>
    simp [toJson, TypeExpr.ofOption_inj h, Expr.toJson_inj h, Import.toJson_inj h]

theorem ConstantDef.toJson_inj (h : fields.Telling) (a b : ConstantDef α) :
    a.toJson fields = b.toJson fields ↔ a = b := by
  cases a
  cases b
  simp [toJson, Name.toJson_inj h, ConstantValue.toJson_inj h, h.append_inj, and_comm]

theorem Definition.toJson_inj (h : fields.Telling) (a b : Definition α) :
    a.toJson fields = b.toJson fields ↔ a = b := by
  cases a <;> cases b <;>
    simp [toJson, FunctionDef.toJson_inj h, RecordDef.toJson_inj h, EnumDef.toJson_inj h,
      Prototype.toJson_inj h, TypedName.toJson_inj h, ConstantDef.toJson_inj h,
      Binding.toJson_inj h]

theorem Declaration.toJson_inj (h : fields.Telling) (a b : Declaration α) :
    a.toJson fields = b.toJson fields ↔ a = b := by
  cases a
  cases b
  simp [toJson, Definition.toJson_inj h, h.inj]

theorem Item.toJson_inj (h : fields.Telling) (a b : Item α) :
    a.toJson fields = b.toJson fields ↔ a = b := by
  cases a <;> cases b <;> simp [toJson, Import.toJson_inj h, Declaration.toJson_inj h]

theorem Module.toJson_inj (h : fields.Telling) (a b : Module α) :
    a.toJson fields = b.toJson fields ↔ a = b := by
  cases a
  cases b
  simp [toJson, Json.map_inj (Item.toJson_inj h), h.inj]

theorem Name.leaves (name : Name Span) :
    (name.toJson Span.jsonFields).Leaves (name.toJson fun _ => []) := by
  simp [Name.toJson, Span.jsonFields]

theorem Constant.leaves (constant : Constant) (span : Span) :
    (constant.toJson (Span.jsonFields span)).Leaves (constant.toJson []) := by
  cases constant <;> simp [Constant.toJson, Span.jsonFields]

mutual

theorem TypeExpr.leaves : ∀ type : TypeExpr Span,
    (type.toJson Span.jsonFields).Leaves (type.toJson fun _ => [])
  | ⟨_, base, sizes, _⟩ => by
      simp [TypeExpr.toJson, Span.jsonFields, base.leaves, Expr.list_leaves sizes]

theorem TypeBase.leaves : ∀ base : TypeBase Span,
    (base.toJson Span.jsonFields).Leaves (base.toJson fun _ => [])
  | .anyPointer => by simp [TypeBase.toJson]
  | .primitive _ => by simp [TypeBase.toJson]
  | .named name => by simp [TypeBase.toJson, name.leaves]
  | .function params _ result => by
      simp [TypeBase.toJson, TypeExpr.list_leaves params, TypeExpr.option_leaves result]

theorem TypeExpr.list_leaves : ∀ types : List (TypeExpr Span),
    Json.ItemsLeave (TypeExpr.listToJson Span.jsonFields types)
      (TypeExpr.listToJson (fun _ => []) types)
  | [] => by simp [TypeExpr.listToJson]
  | type :: types => by simp [TypeExpr.listToJson, type.leaves, TypeExpr.list_leaves types]

theorem TypeExpr.option_leaves : ∀ type : Option (TypeExpr Span),
    (TypeExpr.optionToJson Span.jsonFields type).Leaves
      (TypeExpr.optionToJson (fun _ => []) type)
  | none => by simp [TypeExpr.optionToJson]
  | some type => type.leaves

theorem Expr.leaves : ∀ expr : Expr Span,
    (expr.toJson Span.jsonFields).Leaves (expr.toJson fun _ => [])
  | .constant value _ => by simp [Expr.toJson, value.leaves]
  | .ident name => by simp [Expr.toJson, name.leaves]
  | .binary _ left right _ => by
      simp [Expr.toJson, Span.jsonFields, left.leaves, right.leaves]
  | .unary _ operand _ => by simp [Expr.toJson, Span.jsonFields, operand.leaves]
  | .cast operand type _ => by
      simp [Expr.toJson, Span.jsonFields, operand.leaves, type.leaves]
  | .call callee args _ => by
      simp [Expr.toJson, Span.jsonFields, callee.leaves, Expr.list_leaves args]
  | .record type inits _ => by
      simp [Expr.toJson, Span.jsonFields, type.leaves, FieldInit.list_leaves inits]
  | .array elements _ => by
      simp [Expr.toJson, Span.jsonFields, Expr.list_leaves elements]
  | .sizeOf type _ => by simp [Expr.toJson, Span.jsonFields, type.leaves]
  | .group inner _ => by simp [Expr.toJson, Span.jsonFields, inner.leaves]

theorem Expr.list_leaves : ∀ exprs : List (Expr Span),
    Json.ItemsLeave (Expr.listToJson Span.jsonFields exprs)
      (Expr.listToJson (fun _ => []) exprs)
  | [] => by simp [Expr.listToJson]
  | expr :: exprs => by simp [Expr.listToJson, expr.leaves, Expr.list_leaves exprs]

theorem FieldInit.leaves : ∀ init : FieldInit Span,
    (init.toJson Span.jsonFields).Leaves (init.toJson fun _ => [])
  | ⟨name, value, _⟩ => by
      simp [FieldInit.toJson, Span.jsonFields, name.leaves, value.leaves]

theorem FieldInit.list_leaves : ∀ inits : List (FieldInit Span),
    Json.ItemsLeave (FieldInit.listToJson Span.jsonFields inits)
      (FieldInit.listToJson (fun _ => []) inits)
  | [] => by simp [FieldInit.listToJson]
  | init :: inits => by simp [FieldInit.listToJson, init.leaves, FieldInit.list_leaves inits]

end

theorem Binding.leaves (binding : Binding Span) :
    (binding.toJson Span.jsonFields).Leaves (binding.toJson fun _ => []) := by
  simp [toJson, Span.jsonFields, binding.name.leaves, binding.value.leaves,
    Json.ofOption_leaves TypeExpr.leaves binding.type]

theorem Pattern.leaves (pattern : Pattern Span) :
    (pattern.toJson Span.jsonFields).Leaves (pattern.toJson fun _ => []) := by
  cases pattern <;> simp [toJson, Span.jsonFields, Json.map_leaves Name.leaves]

theorem ForInit.leaves (init : ForInit Span) :
    (init.toJson Span.jsonFields).Leaves (init.toJson fun _ => []) := by
  cases init <;> simp [toJson, Binding.leaves, Expr.leaves]

theorem returnToJson_leaves (value : Option (Expr Span)) (span : Span) :
    (returnToJson Span.jsonFields value span).Leaves
      (returnToJson (fun _ => []) value span) := by
  simp [returnToJson, Span.jsonFields, Json.ofOption_leaves Expr.leaves]

mutual

theorem Block.leaves : ∀ body : Block Span,
    (body.toJson Span.jsonFields).Leaves (body.toJson fun _ => [])
  | ⟨stmts, _⟩ => by simp [Block.toJson, Span.jsonFields, Stmt.list_leaves stmts]

theorem Stmt.leaves : ∀ stmt : Stmt Span,
    (stmt.toJson Span.jsonFields).Leaves (stmt.toJson fun _ => [])
  | .let_ binding | .const binding => by simp [Stmt.toJson, binding.leaves]
  | .block body => by simp [Stmt.toJson, body.leaves]
  | .return_ _ _ => returnToJson_leaves _ _
  | .if_ branch => by simp [Stmt.toJson, branch.leaves]
  | .loop body _ => by simp [Stmt.toJson, Span.jsonFields, body.leaves]
  | .while_ cond body _ => by
      simp [Stmt.toJson, Span.jsonFields, cond.leaves, body.leaves]
  | .for_ init cond step body _ => by
      simp [Stmt.toJson, Span.jsonFields, init.leaves, cond.leaves, step.leaves,
        body.leaves]
  | .match_ choice => by simp [Stmt.toJson, choice.leaves]
  | .break_ _ | .continue_ _ => by simp [Stmt.toJson, Span.jsonFields]
  | .expr value _ => by simp [Stmt.toJson, Span.jsonFields, value.leaves]

theorem Stmt.list_leaves : ∀ stmts : List (Stmt Span),
    Json.ItemsLeave (Stmt.listToJson Span.jsonFields stmts)
      (Stmt.listToJson (fun _ => []) stmts)
  | [] => by simp [Stmt.listToJson]
  | stmt :: stmts => by simp [Stmt.listToJson, stmt.leaves, Stmt.list_leaves stmts]

theorem IfStmt.leaves : ∀ branch : IfStmt Span,
    (branch.toJson Span.jsonFields).Leaves (branch.toJson fun _ => [])
  | ⟨cond, thenBlock, otherwise, _⟩ => by
      simp [IfStmt.toJson, Span.jsonFields, cond.leaves, thenBlock.leaves,
        ElseBranch.option_leaves otherwise]

theorem ElseBranch.option_leaves : ∀ branch : Option (ElseBranch Span),
    (ElseBranch.optionToJson Span.jsonFields branch).Leaves
      (ElseBranch.optionToJson (fun _ => []) branch)
  | none => by simp [ElseBranch.optionToJson]
  | some (.if_ branch) => by simp [ElseBranch.optionToJson, tagged, branch.leaves]
  | some (.block body) => by simp [ElseBranch.optionToJson, tagged, body.leaves]

theorem MatchStmt.leaves : ∀ choice : MatchStmt Span,
    (choice.toJson Span.jsonFields).Leaves (choice.toJson fun _ => [])
  | ⟨subject, arms, _⟩ => by
      simp [MatchStmt.toJson, Span.jsonFields, subject.leaves, MatchArm.list_leaves arms]

theorem MatchArm.list_leaves : ∀ arms : List (MatchArm Span),
    Json.ItemsLeave (MatchArm.listToJson Span.jsonFields arms)
      (MatchArm.listToJson (fun _ => []) arms)
  | [] => by simp [MatchArm.listToJson]
  | ⟨patterns, body, _⟩ :: arms => by
      simp [MatchArm.listToJson, Span.jsonFields, Json.map_leaves Pattern.leaves, body.leaves,
        MatchArm.list_leaves arms]

theorem ArmBody.leaves : ∀ body : ArmBody Span,
    (body.toJson Span.jsonFields).Leaves (body.toJson fun _ => [])
  | .block body => by simp [ArmBody.toJson, body.leaves]
  | .return_ _ _ => returnToJson_leaves _ _
  | .match_ choice => by simp [ArmBody.toJson, choice.leaves]
  | .break_ _ | .continue_ _ => by simp [ArmBody.toJson, Span.jsonFields]
  | .expr value => by simp [ArmBody.toJson, value.leaves]

end

theorem TypedName.leaves (typed : TypedName Span) :
    (typed.toJson Span.jsonFields).Leaves (typed.toJson fun _ => []) := by
  simp [toJson, Span.jsonFields, typed.name.leaves, typed.type.leaves]

theorem Prototype.leaves (proto : Prototype Span) :
    (proto.toJson Span.jsonFields).Leaves (proto.toJson fun _ => []) := by
  simp [toJson, Span.jsonFields, proto.name.leaves, Json.map_leaves TypedName.leaves,
    Json.ofOption_leaves TypeExpr.leaves]

theorem FunctionDef.leaves (function : FunctionDef Span) :
    (function.toJson Span.jsonFields).Leaves (function.toJson fun _ => []) := by
  simp [toJson, Span.jsonFields, function.proto.leaves, function.body.leaves]

theorem RecordDef.leaves (record : RecordDef Span) :
    (record.toJson Span.jsonFields).Leaves (record.toJson fun _ => []) := by
  simp [toJson, Span.jsonFields, record.name.leaves, Json.map_leaves TypedName.leaves]

theorem Variant.leaves (variant : Variant Span) :
    (variant.toJson Span.jsonFields).Leaves (variant.toJson fun _ => []) := by
  simp [toJson, Span.jsonFields, variant.name.leaves, Json.ofOption_leaves Expr.leaves]

theorem EnumDef.leaves (enum : EnumDef Span) :
    (enum.toJson Span.jsonFields).Leaves (enum.toJson fun _ => []) := by
  simp [toJson, Span.jsonFields, enum.name.leaves, Json.map_leaves Variant.leaves]

theorem Import.leaves (source : Import Span) :
    (source.toJson Span.jsonFields).Leaves (source.toJson fun _ => []) := by
  simp [toJson, Span.jsonFields]

theorem ConstantValue.leaves (value : ConstantValue Span) :
    (value.toJson Span.jsonFields).Leaves (value.toJson fun _ => []) := by
  cases value <;>
    simp [toJson, Expr.leaves, Import.leaves, Json.ofOption_leaves TypeExpr.leaves]

theorem ConstantDef.leaves (constant : ConstantDef Span) :
    (constant.toJson Span.jsonFields).Leaves (constant.toJson fun _ => []) := by
  simp [toJson, Span.jsonFields, constant.name.leaves, constant.value.leaves]

theorem Definition.leaves (definition : Definition Span) :
    (definition.toJson Span.jsonFields).Leaves (definition.toJson fun _ => []) := by
  cases definition <;>
    simp [toJson, FunctionDef.leaves, RecordDef.leaves, EnumDef.leaves,
      Prototype.leaves, TypedName.leaves, ConstantDef.leaves, Binding.leaves]

theorem Declaration.leaves (decl : Declaration Span) :
    (decl.toJson Span.jsonFields).Leaves (decl.toJson fun _ => []) := by
  simp [toJson, Span.jsonFields, decl.definition.leaves]

theorem Item.leaves (item : Item Span) :
    (item.toJson Span.jsonFields).Leaves (item.toJson fun _ => []) := by
  cases item <;> simp [toJson, Import.leaves, Declaration.leaves]

/-- The ranges of a module are the fields of one name in its JSON. -/
theorem Module.leaves (module : Module Span) :
    module.spannedJson.Leaves module.bareJson := by
  simp [spannedJson, bareJson, toJson, Span.jsonFields, Json.map_leaves Item.leaves]

/-- A range without its file. -/
def Span.place (span : Span) : Nat × Nat :=
  (span.start, span.stop)

theorem bareFields_telling : NoteFields.Telling fun _ : Unit => [] where
  injective _ _ _ := rfl
  length _ _ := rfl

/-- The fields of a range without its file. -/
def placeFields : NoteFields (Nat × Nat) := fun place =>
  [("span", .object [("end", .number place.2), ("start", .number place.1)])]

theorem placeFields_telling : NoteFields.Telling placeFields where
  injective a b hab := by
    simp only [placeFields, List.cons.injEq, Prod.mk.injEq, Json.object.injEq,
      Json.number.injEq, and_true, true_and] at hab
    exact Prod.ext hab.2 hab.1
  length _ _ := rfl

theorem Module.bareJson_inj {a b : Module α} : a.bareJson = b.bareJson ↔ a.shape = b.shape := by
  rw [← a.bareJson_shape, ← b.bareJson_shape]
  exact toJson_inj bareFields_telling _ _

theorem Module.spannedJson_inj {a b : Module Span} :
    a.spannedJson = b.spannedJson ↔ a.map Span.place = b.map Span.place := by
  have hplace (module : Module Span) :
      module.spannedJson = (module.map Span.place).toJson placeFields :=
    (toJson_map placeFields Span.place module).symm
  rw [hplace, hplace]
  exact toJson_inj placeFields_telling _ _

/-- Without ranges the JSON of a module is what is left of its JSON with ranges, and it is the
same for two modules if and only if they have one shape. With ranges it is the same if and
only if the modules differ in no more than the files of their ranges. -/
theorem Module.json_structural (a b : Module Span) :
    (a.bareJson = b.bareJson ↔ a.shape = b.shape) ∧
      (a.spannedJson = b.spannedJson ↔ a.map Span.place = b.map Span.place) ∧
      a.spannedJson.Leaves a.bareJson :=
  ⟨bareJson_inj, spannedJson_inj, a.leaves⟩

end SourceFront
