import SourceFront.Proofs.Relocation.Basic

/-!
No rule asks where a token stands: moved tokens are read as the same phrases, moved
along.
-/

namespace SourceFront

variable {f : Relocation}

/-- All rules of the level move along. -/
structure Level.Moves (f : Relocation) (level : Level) : Prop where
  expr : ∀ place least,
    Rule.Moves f (Expr.map f.move) (level.expr place least) (level.expr place least)
  operand : ∀ place, Rule.Moves f (Expr.map f.move) (level.operand place) (level.operand place)
  typeExpr : Rule.Moves f (TypeExpr.map f.move) level.typeExpr level.typeExpr
  block : Rule.Moves f (Block.map f.move) level.block level.block
  branch : Rule.Moves f (IfStmt.map f.move) level.branch level.branch
  choice : Rule.Moves f (MatchStmt.map f.move) level.choice level.choice

namespace Rule

open Rule (Moves)

theorem name_moves : Moves f (Name.map f.move) name name := by
  refine .bind .current fun token => ?_
  dsimp only [Token.move]
  split
  · exact .bind .advance fun _ => .pure rfl
  · exact .failExpecting _

theorem stars_moves : Moves f id stars stars :=
  .iterate (fun _ => .bind (.take? _) fun _ => .ite (.pure rfl) (.pure rfl)) 0

variable {level : Level} (h : level.Moves f)
include h

theorem resultType_moves :
    Moves f (Option.map (TypeExpr.map f.move)) (resultType level) (resultType level) :=
  .bind (.take? _) fun _ => .ite
    (.bind (.take? _) fun _ => .ite (.pure rfl) (.bind h.typeExpr fun _ => .pure rfl))
    (.pure rfl)

theorem functionType_moves :
    Moves f (TypeBase.map f.move) (functionType level) (functionType level) :=
  .bind .advance fun _ => .bind (.expect _) fun _ =>
    .bind (.paramList h.typeExpr) fun _ => .bind (.expect _) fun _ =>
      .bind (resultType_moves h) fun _ => .pure (by
        simp [TypeBase.map, TypeExpr.mapList_eq_map, TypeExpr.mapOption_eq_map])

theorem typeBase_moves (pointers : Nat) :
    Moves f (Prod.map id (TypeBase.map f.move)) (typeBase level pointers)
      (typeBase level pointers) := by
  have hprimitive (type : Primitive) :
      Moves f (TypeBase.map f.move) (primitive type) (primitive type) :=
    .bind .advance fun _ => .pure rfl
  refine .bind .current fun token => ?_
  dsimp only [Token.move]
  split
  iterate 5 exact .bind (hprimitive _) fun _ => .pure rfl
  · exact .bind (functionType_moves h) fun _ => .pure rfl
  · exact .ite (.bind .advance fun _ => .pure rfl) (.bind name_moves fun _ => .pure rfl)
  · exact .failWith fun _ => rfl

theorem sizes_moves : Moves f (List.map (Expr.map f.move)) (sizes level) (sizes level) := by
  refine .iterate (fun _ => .bind (.take? _) fun _ => .ite ?_ (.pure rfl)) []
  exact .bind (h.expr _ _) fun _ => .bind (.expect _) fun _ => .pure (by simp [Round.map])

theorem typeExpr_moves : Moves f (TypeExpr.map f.move) (typeExpr level) (typeExpr level) :=
  .bind .current fun _ => .bind stars_moves fun _ => .bind (typeBase_moves h _) fun _ =>
    .bind (sizes_moves h) fun _ => .bind (.spanFrom _) fun _ => .pure (by
      simp [TypeExpr.map, Expr.mapList_eq_map])

theorem typeAnnotation?_moves :
    Moves f (Option.map (TypeExpr.map f.move)) (typeAnnotation? level)
      (typeAnnotation? level) :=
  .bind (.take? _) fun _ => .ite (.bind h.typeExpr fun _ => .pure rfl) (.pure rfl)

theorem call_moves (callee : Name Span) :
    Moves f (Expr.map f.move) (call level callee) (call level (callee.map f.move)) :=
  .bind (.expect _) fun _ => .bind (.commaList (h.expr _ _) _) fun _ =>
    .bind (.expect _) fun _ => .pure (by
      simp [Expr.map, Expr.mapList_eq_map, f.move_merge, Token.move, Name.note_map])

theorem fieldInit_moves :
    Moves f (FieldInit.map f.move) (fieldInit level) (fieldInit level) :=
  .bind name_moves fun _ => .bind (.expect _) fun _ => .bind (h.expr _ _) fun _ => .pure (by
    simp [FieldInit.map, f.move_merge, Name.note_map, Expr.note_map])

theorem record_moves (type : Name Span) :
    Moves f (Expr.map f.move) (record level type) (record level (type.map f.move)) :=
  .bind (.expect _) fun _ => .bind (.commaList (fieldInit_moves h) _) fun _ =>
    .bind (.expect _) fun _ => .pure (by
      simp [Expr.map, FieldInit.mapList_eq_map, f.move_merge, Token.move, Name.note_map])

theorem named_moves (place : Place) :
    Moves f (Expr.map f.move) (named level place) (named level place) := by
  refine .bind name_moves fun _ => .bind (.isAt _) fun _ => .ite (call_moves h _) ?_
  refine .ite (.bind (.isAt _) fun _ => .ite (record_moves h _) (.pure rfl)) (.pure rfl)

theorem primary_moves (place : Place) :
    Moves f (Expr.map f.move) (primary level place) (primary level place) := by
  have hconstant (value : Constant) :
      Moves f (Expr.map f.move) (constant value) (constant value) :=
    .bind .advance fun _ => .pure rfl
  refine .bind .current fun token => ?_
  dsimp only [Token.move]
  generalize token.kind = kind
  cases kind with
  | number | string | char => exact hconstant _
  | ident text => exact named_moves h place
  | keyword word =>
      cases word with
      | true_ | false_ | null => exact hconstant _
      | sizeof =>
          exact .bind .advance fun _ => .bind (.expect _) fun _ => .bind h.typeExpr fun _ =>
            .bind (.expect _) fun _ => .pure (by simp [Expr.map, f.move_merge, Token.move])
      | _ => exact .failWith fun _ => rfl
  | symbol sign =>
      cases sign with
      | leftParen =>
          exact .bind .advance fun _ => .bind (h.expr _ _) fun _ => .bind (.expect _) fun _ =>
            .pure (by simp [Expr.map, f.move_merge, Token.move])
      | leftBracket =>
          exact .bind .advance fun _ => .bind (.commaList (h.expr _ _) _) fun _ =>
            .bind (.expect _) fun _ => .pure (by
              simp [Expr.map, Expr.mapList_eq_map, f.move_merge, Token.move])
      | _ => exact .failWith fun _ => rfl
  | _ => exact .failWith fun _ => rfl

theorem member_moves : Moves f (Expr.map f.move) (member level) (member level) :=
  .bind name_moves fun _ => .bind (.isAt _) fun _ => .ite (call_moves h _) (.pure rfl)

theorem suffix_moves (base : Expr Span) :
    Moves f (Round.map (Expr.map f.move)) (suffix level base)
      (suffix level (base.map f.move)) := by
  have hmore (op : BinaryOp) : ∀ right : Expr Span,
      Moves f (Round.map (Expr.map f.move))
        (pure (.more (.binary op base right (base.note.merge right.note))))
        (pure (.more (.binary op (base.map f.move) (right.map f.move)
          ((base.map f.move).note.merge (right.map f.move).note)))) :=
    fun _ => .pure (by simp [Round.map, Expr.map, f.move_merge, Expr.note_map])
  refine .bind (.take? _) fun _ => .ite (.bind (member_moves h) (hmore _)) ?_
  refine .bind (.take? _) fun _ => .ite (.bind (member_moves h) (hmore _)) ?_
  refine .bind (.take? _) fun _ => .ite ?_ (.pure rfl)
  exact .bind (h.expr _ _) fun _ => .bind (.expect _) fun _ => .pure (by
    simp [Round.map, Expr.map, f.move_merge, Expr.note_map, Token.move])

theorem operand_moves (place : Place) :
    Moves f (Expr.map f.move) (operand level place) (operand level place) := by
  refine .bind .current fun token => ?_
  dsimp only [Token.move]
  split
  · exact .bind .advance fun _ => .bind (h.operand _) fun _ => .pure (by
      simp [Expr.map, f.move_merge, Expr.note_map, Token.move])
  · exact .bind (primary_moves h _) fun _ => .iterate (suffix_moves h) _

theorem operation_moves (place : Place) (least : Nat) (left : Expr Span) :
    Moves f (Round.map (Expr.map f.move)) (operation level place least left)
      (operation level place least (left.map f.move)) := by
  refine .bind .current fun token => ?_
  dsimp only [Token.move]
  split
  · exact .pure rfl
  · refine .ite (.pure rfl) (.bind .advance fun _ => ?_)
    split
    · exact .bind h.typeExpr fun _ => .pure (by
        simp [Round.map, Expr.map, f.move_merge, Expr.note_map, TypeExpr.note_map])
    · exact .bind (h.expr _ _) fun _ => .pure (by
        simp [Round.map, Expr.map, f.move_merge, Expr.note_map])

theorem expression_moves (place : Place) (least : Nat) :
    Moves f (Expr.map f.move) (expression level place least) (expression level place least) :=
  .bind (operand_moves h _) fun _ => .iterate (operation_moves h _ _) _

theorem binding_moves : Moves f (Binding.map f.move) (binding level) (binding level) :=
  .bind .advance fun _ => .bind name_moves fun _ =>
    .bind (typeAnnotation?_moves h) fun _ => .bind (.expect _) fun _ =>
      .bind (h.expr _ _) fun _ => .bind (.expect _) fun _ => .bind (.spanFrom _) fun _ =>
        .pure rfl

theorem return_moves :
    Moves f (Prod.map (Option.map (Expr.map f.move)) f.move) (return_ level)
      (return_ level) := by
  unfold return_
  refine .bind .advance fun token => .bind (.isAt _) fun _ => ?_
  extract_lets rest rest'
  have hrest (value : Option (Expr Span)) :
      Moves f (Prod.map (Option.map (Expr.map f.move)) f.move) (rest value)
        (rest' (value.map (Expr.map f.move))) :=
    .bind (.expect _) fun _ => .bind (.spanFrom token.span) fun _ => .pure rfl
  refine .ite (hrest none) (.bind (h.expr _ _) fun value => ?_)
  exact hrest (some value)

omit h in
theorem jump_moves : Moves f f.move jump jump :=
  .bind .advance fun _ => .bind (.expect _) fun _ => .spanFrom _

theorem branch_moves : Moves f (IfStmt.map f.move) (branch level) (branch level) := by
  unfold branch
  refine .bind .advance fun token => .bind (h.expr _ _) fun cond => .bind h.block fun body =>
    .bind (.take? _) fun _ => ?_
  extract_lets rest rest'
  have hrest (otherwise : Option (ElseBranch Span)) :
      Moves f (IfStmt.map f.move) (rest otherwise)
        (rest' (otherwise.map (ElseBranch.map f.move))) :=
    .bind (.spanFrom token.span) fun _ => .pure (by
      simp [IfStmt.map, ElseBranch.mapOption_eq_map])
  refine .ite (.bind (.isAt _) fun _ => .ite ?_ ?_) (hrest none)
  · exact .bind h.branch fun branch => hrest (some (.if_ branch))
  · exact .bind h.block fun body => hrest (some (.block body))

theorem forInit_moves : Moves f (ForInit.map f.move) (forInit level) (forInit level) :=
  .bind (.isAt _) fun _ => .ite (.bind (binding_moves h) fun _ => .pure rfl)
    (.bind (h.expr _ _) fun _ => .bind (.expect _) fun _ => .pure rfl)

theorem for_moves : Moves f (Stmt.map f.move) (for_ level) (for_ level) :=
  .bind .advance fun _ => .bind (forInit_moves h) fun _ => .bind (h.expr _ _) fun _ =>
    .bind (.expect _) fun _ => .bind (h.expr _ _) fun _ => .bind h.block fun _ => .pure (by
      simp [Stmt.map, f.move_merge, Token.move, Block.note_map])

omit h in
theorem pathTail_moves (first : Name Span) :
    Moves f (List.map (Name.map f.move)) (pathTail first) (pathTail (first.map f.move)) := by
  refine .iterate (fun _ => ?_) [first]
  refine .bind (.take? _) fun _ => .ite ?_ (.bind (.take? _) fun _ => .ite ?_ (.pure rfl))
  · exact .bind name_moves fun _ => .pure (by simp [Round.map])
  · exact .bind name_moves fun _ => .pure (by simp [Round.map])

omit h in
theorem pattern_moves : Moves f (Pattern.map f.move) pattern pattern := by
  refine .bind .current fun token => ?_
  dsimp only [Token.move]
  split
  · exact .bind .advance fun _ => .pure rfl
  · exact .bind .advance fun _ => .pure rfl
  · refine .bind name_moves fun _ => .ite (.pure rfl) ?_
    exact .bind (pathTail_moves _) fun _ => .bind (.spanFrom _) fun _ => .pure rfl
  · exact .failWith fun _ => rfl

omit h in
theorem patterns_moves : Moves f (List.map (Pattern.map f.move)) patterns patterns := by
  refine .bind pattern_moves fun first => .iterate (fun _ => ?_) [first]
  refine .bind (.take? _) fun _ => .ite (.bind pattern_moves fun _ => ?_) (.pure rfl)
  exact .pure (by simp [Round.map])

theorem armBody_moves : Moves f (ArmBody.map f.move) (armBody level) (armBody level) := by
  refine .bind .current fun token => ?_
  dsimp only [Token.move]
  split
  · exact .bind h.block fun _ => .pure rfl
  · exact .bind (return_moves h) fun _ => .pure rfl
  · exact .bind h.choice fun _ => .pure rfl
  · exact .bind jump_moves fun _ => .pure rfl
  · exact .bind jump_moves fun _ => .pure rfl
  · exact .bind (h.expr _ _) fun _ => .bind (.expect _) fun _ => .pure rfl

theorem arm_moves : Moves f (MatchArm.map f.move) (arm level) (arm level) :=
  .bind .current fun _ => .bind patterns_moves fun _ => .bind (.expect _) fun _ =>
    .bind (armBody_moves h) fun _ => .bind (.spanFrom _) fun _ => .pure rfl

theorem arms_moves : Moves f (List.map (MatchArm.map f.move)) (arms level) (arms level) := by
  refine .iterate (fun _ => .bind (.isAtClose _) fun _ => .ite (.pure rfl) ?_) []
  exact .bind (arm_moves h) fun _ => .pure (by simp [Round.map])

theorem choice_moves : Moves f (MatchStmt.map f.move) (choice level) (choice level) :=
  .bind .advance fun _ => .bind (h.expr _ _) fun _ => .bind (.expect _) fun _ =>
    .bind (arms_moves h) fun _ => .bind (.expect _) fun _ => .bind (.spanFrom _) fun _ =>
      .pure (by simp [MatchStmt.map, MatchArm.mapList_eq_map])

theorem statement_moves : Moves f (Stmt.map f.move) (statement level) (statement level) := by
  refine .bind .current fun token => ?_
  dsimp only [Token.move]
  split
  · exact .bind (binding_moves h) fun _ => .pure rfl
  · exact .bind (binding_moves h) fun _ => .pure rfl
  · exact .bind h.block fun _ => .pure rfl
  · exact .bind (return_moves h) fun _ => .pure rfl
  · exact .bind (branch_moves h) fun _ => .pure rfl
  · exact .bind .advance fun _ => .bind h.block fun _ => .pure (by
      simp [Stmt.map, f.move_merge, Token.move, Block.note_map])
  · exact .bind .advance fun _ => .bind (h.expr _ _) fun _ => .bind h.block fun _ =>
      .pure (by simp [Stmt.map, f.move_merge, Token.move, Block.note_map])
  · exact for_moves h
  · exact .bind (choice_moves h) fun _ => .pure rfl
  · exact .bind jump_moves fun _ => .pure rfl
  · exact .bind jump_moves fun _ => .pure rfl
  · refine .bind (h.expr _ _) fun _ => .bind (.expect _) fun _ => ?_
    rw [Expr.note_map]
    exact .bind (.spanFrom _) fun _ => .pure rfl

theorem blockRound_moves (hframed : level.Framed) (read : List (Stmt Span)) :
    Moves f (Round.map (List.map (Stmt.map f.move))) (blockRound level read)
      (blockRound level (read.map (Stmt.map f.move))) := by
  refine .bind .current fun _ => .ite (.pure rfl) ?_
  refine .bind (.recover (statement_framed hframed) (statement_moves h)
    (State.move_skipStatement f)) fun stmt => .pure ?_
  cases stmt <;> simp [Round.map]

theorem block_moves (hframed : level.Framed) :
    Moves f (Block.map f.move) (block level) (block level) :=
  .bind (.expect _) fun _ => .bind (.iterate (blockRound_moves h hframed) []) fun _ =>
    .bind (.expect _) fun _ => .bind (.spanFrom _) fun _ => .pure (by
      simp [Block.map, Stmt.mapList_eq_map])

end Rule

namespace Level

theorem lowest_moves : lowest.Moves f where
  expr _ _ := .failWith fun _ => rfl
  operand _ := .failWith fun _ => rfl
  typeExpr := .failWith fun _ => rfl
  block := .failWith fun _ => rfl
  branch := .failWith fun _ => rfl
  choice := .failWith fun _ => rfl

theorem Moves.above {level : Level} (h : level.Moves f) (hframed : level.Framed) :
    level.above.Moves f where
  expr := Rule.expression_moves h
  operand := Rule.operand_moves h
  typeExpr := Rule.typeExpr_moves h
  block := Rule.block_moves h hframed
  branch := Rule.branch_moves h
  choice := Rule.choice_moves h

theorem allowing_moves (n : Nat) : (allowing n).Moves f := by
  induction n with
  | zero => exact lowest_moves
  | succ n ih => exact ih.above (allowing_framed n)

end Level

namespace Rule

open Rule (Moves)

theorem import_moves : Moves f (Import.map f.move) import_ import_ := by
  refine .bind .advance fun _ => .bind .current fun token => ?_
  dsimp only [Token.move]
  split
  · exact .bind .advance fun _ => .pure (by simp [Import.map, f.move_merge])
  · exact .failExpecting _

variable {level : Level} (h : level.Moves f)
include h

theorem typedName_moves :
    Moves f (TypedName.map f.move) (typedName level) (typedName level) :=
  .bind name_moves fun _ => .bind (.expect _) fun _ => .bind h.typeExpr fun _ => .pure (by
    simp [TypedName.map, f.move_merge, Name.note_map, TypeExpr.note_map])

theorem prototype_moves (name : Name Span) :
    Moves f (Prototype.map f.move) (prototype level name)
      (prototype level (name.map f.move)) :=
  .bind (.expect _) fun _ => .bind (.paramList (typedName_moves h)) fun _ =>
    .bind (.expect _) fun _ => .bind (resultType_moves h) fun _ => .bind (.spanFrom _) fun _ =>
      .pure rfl

theorem function_moves : Moves f (FunctionDef.map f.move) (function level) (function level) :=
  .bind .advance fun _ => .bind name_moves fun _ => .bind (prototype_moves h _) fun _ =>
    .bind h.block fun _ => .pure (by
      simp [FunctionDef.map, f.move_merge, Token.move, Block.note_map])

theorem recordDef_moves :
    Moves f (RecordDef.map f.move) (recordDef level) (recordDef level) :=
  .bind .advance fun _ => .bind name_moves fun _ => .bind (.expect _) fun _ =>
    .bind (.commaList (typedName_moves h) _) fun _ => .bind (.expect _) fun _ =>
      .bind (.spanFrom _) fun _ => .pure rfl

theorem variant_moves : Moves f (Variant.map f.move) (variant level) (variant level) := by
  unfold variant
  refine .bind name_moves fun name => .bind (.take? _) fun _ => ?_
  extract_lets rest rest'
  have hrest (value : Option (Expr Span)) :
      Moves f (Variant.map f.move) (rest value) (rest' (value.map (Expr.map f.move))) :=
    .bind (.spanFrom name.note) fun _ => .pure rfl
  exact .ite (.bind (h.expr _ _) fun value => hrest (some value)) (hrest none)

theorem enumDef_moves : Moves f (EnumDef.map f.move) (enumDef level) (enumDef level) :=
  .bind .advance fun _ => .bind name_moves fun _ => .bind (.expect _) fun _ =>
    .bind (.commaList (variant_moves h) _) fun _ => .bind (.expect _) fun _ =>
      .bind (.spanFrom _) fun _ => .pure rfl

theorem external_moves : Moves f (Definition.map f.move) (external level) (external level) := by
  unfold external
  refine .bind .advance fun token => .bind (.take? _) fun _ => .bind name_moves fun name =>
    .bind (.isAt _) fun _ => ?_
  extract_lets rest
  have hrest (definition : Definition Span) :
      Moves f (Definition.map f.move) (rest definition) (rest (definition.map f.move)) :=
    .bind (.take? _) fun _ => .pure rfl
  refine .ite (.bind (prototype_moves h _) fun proto => hrest (.externalFunction proto)) ?_
  refine .bind (.take? _) fun _ => .ite ?_ (.bind (.failExpecting _) hrest)
  refine .bind h.typeExpr fun type => .bind (.spanFrom token.span) fun span => ?_
  exact hrest (.externalVariable ⟨name, type, span⟩)

theorem constantDef_moves :
    Moves f (ConstantDef.map f.move) (constantDef level) (constantDef level) := by
  unfold constantDef
  refine .bind .advance fun token => .bind name_moves fun name =>
    .bind (typeAnnotation?_moves h) fun type => .bind (.expect _) fun _ =>
      .bind (.isAt _) fun _ => ?_
  extract_lets rest rest'
  have hrest (value : ConstantValue Span) :
      Moves f (ConstantDef.map f.move) (rest value) (rest' (value.map f.move)) :=
    .bind (.expect _) fun _ => .bind (.spanFrom token.span) fun _ => .pure rfl
  cases type with
  | none =>
      refine .ite (.bind import_moves fun source => ?_) (.bind (h.expr _ _) fun value => ?_)
      · exact hrest (.import_ source)
      · exact hrest (.expr none value)
  | some type => exact .bind (h.expr _ _) fun value => hrest (.expr (some type) value)

theorem definition_moves :
    Moves f (Definition.map f.move) (definition level) (definition level) := by
  refine .bind .current fun token => ?_
  dsimp only [Token.move]
  split
  · exact .bind (function_moves h) fun _ => .pure rfl
  · exact .bind (recordDef_moves h) fun _ => .pure rfl
  · exact .bind (recordDef_moves h) fun _ => .pure rfl
  · exact .bind (enumDef_moves h) fun _ => .pure rfl
  · exact external_moves h
  · exact .bind (constantDef_moves h) fun _ => .pure rfl
  · exact .bind (binding_moves h) fun _ => .pure rfl
  · exact .failExpecting _

theorem declaration_moves :
    Moves f (Declaration.map f.move) (declaration level) (declaration level) :=
  .bind .current fun _ => .bind (.take? _) fun _ => .bind (definition_moves h) fun _ =>
    .bind (.spanFrom _) fun _ => .pure rfl

theorem item_moves : Moves f (Item.map f.move) (item level) (item level) := by
  refine .bind (.isAt _) fun _ => .ite ?_ (.bind (declaration_moves h) fun _ => .pure rfl)
  exact .bind import_moves fun _ => .bind (.expect _) fun _ => .bind (.spanFrom _) fun _ =>
    .pure rfl

theorem moduleRound_moves (hframed : level.Framed) (read : List (Item Span)) :
    Moves f (Round.map (List.map (Item.map f.move))) (moduleRound level read)
      (moduleRound level (read.map (Item.map f.move))) := by
  refine .bind .current fun _ => .ite (.pure rfl) ?_
  refine .bind (.recover (item_framed hframed) (item_moves h)
    (State.move_skipItem f)) fun item => .pure ?_
  cases item <;> simp [Round.map]

theorem items_moves (hframed : level.Framed) :
    Moves f (List.map (Item.map f.move)) (items level) (items level) :=
  .iterate (moduleRound_moves h hframed) []

end Rule

end SourceFront
