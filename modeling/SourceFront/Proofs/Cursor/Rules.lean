import SourceFront.Proofs.Cursor.Recovery

/-!
Every walk goes where the rule of its name leads. Where a walk reads an expression without
setting the place for it, the place is free already.
-/

namespace SourceFront

/-- The calls go where the rules of the level lead, if `depth` phrases are open. -/
structure Calls.Follow (tokens : List Token) (depth : Nat) (calls : Calls) (level : Level) :
    Prop where
  consuming : level.Consuming
  expr : ∀ place least,
    (calls.expr least).Follows tokens place depth (level.expr place least)
  operand : ∀ place, calls.operand.Follows tokens place depth (level.operand place)
  typeExpr : ∀ place, calls.typeExpr.Follows tokens place depth level.typeExpr
  block : ∀ place, calls.block.Follows tokens place depth level.block
  branch : ∀ place, calls.branch.Follows tokens place depth level.branch
  choice : calls.choice.Follows tokens .free depth level.choice

theorem Calls.Follow.framed {tokens : List Token} {depth : Nat} {calls : Calls} {level : Level}
    (h : calls.Follow tokens depth level) : level.Framed :=
  h.consuming.framed

namespace Walk

variable {tokens : List Token} {place : Place} {depth : Nat} {calls : Calls} {level : Level}

theorem name_follows : name.Follows tokens place depth Rule.name := by
  refine .bind .current fun token => ?_
  generalize token.kind = kind
  cases kind with
  | ident text => exact .bind .advance fun _ => .pure _
  | _ => exact .failExpecting _

theorem stars_follows : stars.Follows tokens place depth Rule.stars := by
  refine .iterate (fun count => ?_) (fun count => ?_) _
  · exact .bind (.take? _) fun _ => .ite (.pure _) (.pure _)
  · exact .take? (by decide) (.pure _) (.last _)

theorem primitive_follows (type : Primitive) :
    (primitive type).Follows tokens place depth (Rule.primitive type) :=
  .bind .advance fun _ => .pure _

variable (h : calls.Follow tokens depth level)
include h

theorem resultType_follows :
    (resultType calls).Follows tokens place depth (Rule.resultType level) :=
  .bind (.take? _) fun _ => .ite
    (.bind (.take? _) fun _ => .ite (.pure _) (.bind (h.typeExpr _) fun _ => .pure _))
    (.pure _)

theorem functionType_follows :
    (functionType calls).Follows tokens place depth (Rule.functionType level) :=
  .bind .advance fun _ => .bind (.expect _) fun _ =>
    .bind (.paramList h.framed.typeExpr (h.typeExpr _)) fun _ => .bind (.expect _) fun _ =>
      .bind (resultType_follows h) fun _ => .pure _

theorem typeBase_follows (pointers : Nat) :
    (typeBase calls pointers).Follows tokens place depth (Rule.typeBase level pointers) := by
  have hprimitive (type : Primitive) :
      Follows tokens place depth (primitive type >>= fun base => pure (pointers, base))
        (Rule.primitive type >>= fun base => pure (pointers, base)) :=
    .bind (primitive_follows type) fun _ => .pure _
  refine .bind .current fun token => ?_
  generalize token.kind = kind
  cases kind with
  | ident text =>
      dsimp only
      split
      next hstar =>
        refine .bind .advance fun _ => ?_
        rw [minus, if_pos (Nat.succ_le_of_lt hstar.2)]
        exact .bind (.pure _) fun _ => .pure _
      next => exact .bind name_follows fun _ => .pure _
  | keyword word =>
      cases word with
      | int | str | char | bool | float => exact hprimitive _
      | fn => exact .bind (functionType_follows h) fun _ => .pure _
      | _ => exact .failWith _
  | _ => exact .failWith _

theorem sizes_follows : (sizes calls).Follows tokens place depth (Rule.sizes level) := by
  refine .iterate (fun read => ?_) (fun read => ?_) _
  · refine .bind (.take? _) fun _ => .ite ?_ (.pure _)
    exact .bind (.within (h.expr _ _)) fun _ => .bind (.expect _) fun _ => .pure _
  · refine .take? (by decide) ?_ (.last _)
    exact .bind (h.framed.expr _ _) fun _ => .bind (.expect _) fun _ => .pure _

theorem typeExpr_follows : (typeExpr calls).Follows tokens place depth (Rule.typeExpr level) :=
  .bind .current fun _ => .bind stars_follows fun _ => .bind (typeBase_follows h _) fun _ =>
    .bind (sizes_follows h) fun _ => .bind (.spanFrom _) fun _ => .pure _

theorem typeAnnotation?_follows :
    (typeAnnotation? calls).Follows tokens place depth (Rule.typeAnnotation? level) :=
  .bind (.take? _) fun _ => .ite (.bind (h.typeExpr _) fun _ => .pure _) (.pure _)

theorem call_follows (callee : Name Span) :
    (call calls callee).Follows tokens place depth (Rule.call level callee) :=
  .bind (.expect _) fun _ =>
    .bind (.within (.commaList (h.framed.expr _ _) (h.expr _ _) _)) fun _ =>
      .bind (.expect _) fun _ => .pure _

theorem fieldInit_follows :
    (fieldInit calls).Follows tokens .free depth (Rule.fieldInit level) :=
  .bind name_follows fun _ => .bind (.expect _) fun _ => .bind (h.expr _ _) fun _ => .pure _

theorem record_follows (type : Name Span) :
    (record calls type).Follows tokens place depth (Rule.record level type) :=
  .bind (.expect _) fun _ =>
    .bind (.within (.commaList (Rule.fieldInit_framed h.framed) (fieldInit_follows h) _)) fun _ =>
      .bind (.expect _) fun _ => .pure _

theorem named_follows : (named calls).Follows tokens place depth (Rule.named level place) := by
  refine .bind name_follows fun name => .bind (.isAt _) fun _ => .ite (call_follows h _) ?_
  refine .ofPlace (fun place => if place = .free then do
      if ← isAt (.symbol .leftBrace) then record calls name
      else return .ident name
    else return .ident name) ?_
  exact .ite (.bind (.isAt _) fun _ => .ite (record_follows h _) (.pure _)) (.pure _)

theorem primary_follows :
    (primary calls).Follows tokens place depth (Rule.primary level place) := by
  have hconstant (value : Constant) :
      (constant value).Follows tokens place depth (Rule.constant value) :=
    .bind .advance fun _ => .pure _
  refine .bind .current fun token => ?_
  generalize token.kind = kind
  cases kind with
  | number | string | char => exact hconstant _
  | ident text => exact named_follows h
  | keyword word =>
      cases word with
      | true_ | false_ | null => exact hconstant _
      | sizeof =>
          exact .bind .advance fun _ => .bind (.expect _) fun _ =>
            .bind (h.typeExpr _) fun _ => .bind (.expect _) fun _ => .pure _
      | _ => exact .failWith _
  | symbol sign =>
      cases sign with
      | leftParen =>
          exact .bind .advance fun _ => .bind (.within (h.expr _ _)) fun _ =>
            .bind (.expect _) fun _ => .pure _
      | leftBracket =>
          exact .bind .advance fun _ =>
            .bind (.within (.commaList (h.framed.expr _ _) (h.expr _ _) _)) fun _ =>
              .bind (.expect _) fun _ => .pure _
      | _ => exact .failWith _
  | _ => exact .failWith _

theorem member_follows : (member calls).Follows tokens place depth (Rule.member level) :=
  .bind name_follows fun _ => .bind (.isAt _) fun _ => .ite (call_follows h _) (.pure _)

theorem suffix_follows (base : Expr Span) :
    (suffix calls base).Follows tokens place depth (Rule.suffix level base) := by
  refine .bind (.take? _) fun _ => .ite (.bind (member_follows h) fun _ => .pure _) ?_
  refine .bind (.take? _) fun _ => .ite (.bind (member_follows h) fun _ => .pure _) ?_
  refine .bind (.take? _) fun _ => .ite ?_ (.pure _)
  exact .bind (.within (h.expr _ _)) fun _ => .bind (.expect _) fun _ => .pure _

theorem operand_follows :
    (operand calls).Follows tokens place depth (Rule.operand level place) := by
  refine .bind .current fun token => ?_
  generalize Rule.unaryOp? token.kind = op?
  split
  · exact .bind .advance fun _ => .bind (h.operand _) fun _ => .pure _
  · exact .bind (primary_follows h) fun _ =>
      .iterate (suffix_follows h) (Rule.suffix_advances h.framed) _

theorem operation_follows (least : Nat) (left : Expr Span) :
    (operation calls least left).Follows tokens place depth
      (Rule.operation level place least left) := by
  refine .bind .current fun token => ?_
  generalize InfixOp.ofKind? token.kind = op?
  split
  · exact .pure _
  next op =>
    refine .ite (.pure _) (.bind .advance fun _ => ?_)
    cases op with
    | cast => exact .bind (h.typeExpr _) fun _ => .pure _
    | binary op => exact .bind (h.expr _ _) fun _ => .pure _

theorem expression_follows (least : Nat) :
    (expression calls least).Follows tokens place depth (Rule.expression level place least) :=
  .bind (operand_follows h) fun _ =>
    .iterate (operation_follows h _) (Rule.operation_advances h.framed _ _) _

theorem condition_follows :
    (condition calls).Follows tokens place depth level.condition :=
  .within (h.expr _ _)

theorem binding_follows : (binding calls).Follows tokens .free depth (Rule.binding level) :=
  .bind .advance fun _ => .bind name_follows fun _ =>
    .bind (typeAnnotation?_follows h) fun _ => .bind (.expect _) fun _ =>
      .bind (h.expr _ _) fun _ => .bind (.expect _) fun _ => .bind (.spanFrom _) fun _ =>
        .pure _

theorem return_follows : (return_ calls).Follows tokens .free depth (Rule.return_ level) := by
  unfold return_ Rule.return_
  refine .bind .advance fun _ => .bind (.isAt _) fun _ => ?_
  extract_lets rest rest'
  have hrest (value : Option (Expr Span)) : (rest value).Follows tokens .free depth (rest' value) :=
    .bind (.expect _) fun _ => .bind (.spanFrom _) fun _ => .pure _
  exact .ite (.bind (.pure _) hrest) (.bind (h.expr _ _) fun _ => .bind (.pure _) hrest)

omit h in
theorem jump_follows : jump.Follows tokens place depth Rule.jump :=
  .bind .advance fun _ => .bind (.expect _) fun _ => .spanFrom _

theorem branch_follows : (branch calls).Follows tokens place depth (Rule.branch level) := by
  unfold branch Rule.branch
  refine .bind .advance fun _ => .bind (condition_follows h) fun _ => .bind (h.block _) fun _ =>
    .bind (.take? _) fun _ => ?_
  extract_lets rest rest'
  have hrest (otherwise : Option (ElseBranch Span)) :
      (rest otherwise).Follows tokens place depth (rest' otherwise) :=
    .bind (.spanFrom _) fun _ => .pure _
  refine .ite (.bind (.isAt _) fun _ => .ite ?_ ?_) (.bind (.pure _) hrest)
  · exact .bind (h.branch _) fun _ => .bind (.pure _) hrest
  · exact .bind (h.block _) fun _ => .bind (.pure _) hrest

theorem forInit_follows : (forInit calls).Follows tokens .free depth (Rule.forInit level) :=
  .bind (.isAt _) fun _ => .ite (.bind (binding_follows h) fun _ => .pure _)
    (.bind (h.expr _ _) fun _ => .bind (.expect _) fun _ => .pure _)

theorem for_follows : (for_ calls).Follows tokens .free depth (Rule.for_ level) :=
  .bind .advance fun _ => .bind (forInit_follows h) fun _ => .bind (condition_follows h) fun _ =>
    .bind (.expect _) fun _ => .bind (condition_follows h) fun _ => .bind (h.block _) fun _ =>
      .pure _

omit h in
theorem pathTail_follows (first : Name Span) :
    (pathTail first).Follows tokens place depth (Rule.pathTail first) := by
  refine .iterate (fun read => ?_) (fun read => ?_) _
  · refine .bind (.take? _) fun _ => .ite (.bind name_follows fun _ => .pure _) ?_
    exact .bind (.take? _) fun _ => .ite (.bind name_follows fun _ => .pure _) (.pure _)
  · refine .take? (by decide) (.bind Rule.name_framed fun _ => .pure _) ?_
    exact .take? (by decide) (.bind Rule.name_framed fun _ => .pure _) (.last _)

omit h in
theorem pattern_follows : pattern.Follows tokens place depth Rule.pattern := by
  refine .bind .current fun token => ?_
  generalize token.kind = kind
  cases kind with
  | number | char => exact .bind .advance fun _ => .pure _
  | ident text =>
      refine .bind name_follows fun _ => .ite (.pure _) ?_
      exact .bind (pathTail_follows _) fun _ => .bind (.spanFrom _) fun _ => .pure _
  | _ => exact .failWith _

omit h in
theorem patterns_follows : patterns.Follows tokens place depth Rule.patterns := by
  refine .bind pattern_follows fun _ => .iterate (fun read => ?_) (fun read => ?_) _
  · exact .bind (.take? _) fun _ => .ite (.bind pattern_follows fun _ => .pure _) (.pure _)
  · exact .take? (by decide) (.bind Rule.pattern_framed fun _ => .pure _) (.last _)

theorem armBody_follows : (armBody calls).Follows tokens .free depth (Rule.armBody level) := by
  have hexpr : Follows tokens .free depth
      (do
        let value ← within .free (calls.expr 0)
        let _ ← expect .comma
        return .expr value)
      (do
        let value ← level.freeExpr
        let _ ← Rule.expect .comma
        return ArmBody.expr value) :=
    .bind (.within (h.expr _ _)) fun _ => .bind (.expect _) fun _ => .pure _
  refine .bind .current fun token => ?_
  generalize token.kind = kind
  cases kind with
  | symbol sign =>
      cases sign with
      | leftBrace => exact .bind (h.block _) fun _ => .pure _
      | _ => exact hexpr
  | keyword word =>
      cases word with
      | return_ => exact .bind (return_follows h) fun _ => .pure _
      | match_ => exact .bind h.choice fun _ => .pure _
      | break_ | continue_ => exact .bind jump_follows fun _ => .pure _
      | _ => exact hexpr
  | _ => exact hexpr

theorem arm_follows : (arm calls).Follows tokens .free depth (Rule.arm level) :=
  .bind .current fun _ => .bind patterns_follows fun _ => .bind (.expect _) fun _ =>
    .bind (armBody_follows h) fun _ => .bind (.spanFrom _) fun _ => .pure _

theorem arms_follows : (arms calls).Follows tokens .free depth (Rule.arms level) := by
  refine .iterate (fun read => ?_) (Rule.armsRound_advances h.framed) _
  exact .bind (.isAtClose _) fun _ => .ite (.pure _) (.bind (arm_follows h) fun _ => .pure _)

theorem choice_follows : (choice calls).Follows tokens .free depth (Rule.choice level) :=
  .bind .advance fun _ => .bind (condition_follows h) fun _ => .bind (.expect _) fun _ =>
    .bind (arms_follows h) fun _ => .bind (.expect _) fun _ => .bind (.spanFrom _) fun _ =>
      .pure _

theorem statement_follows :
    (statement calls).Follows tokens .free depth (Rule.statement level) := by
  have hexpr : Follows tokens .free depth
      (do
        let value ← calls.expr 0
        let _ ← expect .semicolon
        return .expr value (← spanFrom value.note))
      (do
        let value ← level.freeExpr
        let _ ← Rule.expect .semicolon
        return Stmt.expr value (← Rule.spanFrom value.note)) :=
    .bind (h.expr _ _) fun _ => .bind (.expect _) fun _ => .bind (.spanFrom _) fun _ => .pure _
  refine .bind .current fun token => ?_
  generalize token.kind = kind
  cases kind with
  | symbol sign =>
      cases sign with
      | leftBrace => exact .bind (h.block _) fun _ => .pure _
      | _ => exact hexpr
  | keyword word =>
      cases word with
      | let_ | const => exact .bind (binding_follows h) fun _ => .pure _
      | return_ => exact .bind (return_follows h) fun _ => .pure _
      | if_ => exact .bind (branch_follows h) fun _ => .pure _
      | loop => exact .bind .advance fun _ => .bind (h.block _) fun _ => .pure _
      | while_ =>
          exact .bind .advance fun _ => .bind (condition_follows h) fun _ =>
            .bind (h.block _) fun _ => .pure _
      | for_ => exact for_follows h
      | match_ => exact .bind (choice_follows h) fun _ => .pure _
      | break_ | continue_ => exact .bind jump_follows fun _ => .pure _
      | _ => exact hexpr
  | _ => exact hexpr

theorem blockRound_follows (read : List (Stmt Span)) :
    (blockRound calls read).Follows tokens .free depth (Rule.blockRound level read) :=
  .bind .current fun _ => .ite (.pure _)
    (.bind (.recover (statement_follows h) (Rule.statement_framed h.framed) resumeStatement_apply)
      fun _ => .pure _)

theorem block_follows : (block calls).Follows tokens place depth (Rule.block level) :=
  .bind (.expect _) fun _ => .within <|
    .bind (.iterate (blockRound_follows h) (Rule.blockRound_advances h.consuming) _) fun _ =>
      .bind (.expect _) fun _ => .bind (.spanFrom _) fun _ => .pure _

theorem typedName_follows :
    (typedName calls).Follows tokens place depth (Rule.typedName level) :=
  .bind name_follows fun _ => .bind (.expect _) fun _ => .bind (h.typeExpr _) fun _ => .pure _

theorem prototype_follows (name : Name Span) :
    (prototype calls name).Follows tokens place depth (Rule.prototype level name) :=
  .bind (.expect _) fun _ =>
    .bind (.paramList (Rule.typedName_framed h.framed) (typedName_follows h)) fun _ =>
      .bind (.expect _) fun _ => .bind (resultType_follows h) fun _ => .bind (.spanFrom _) fun _ =>
        .pure _

theorem function_follows : (function calls).Follows tokens place depth (Rule.function level) :=
  .bind .advance fun _ => .bind name_follows fun _ => .bind (prototype_follows h _) fun _ =>
    .bind (h.block _) fun _ => .pure _

theorem recordDef_follows :
    (recordDef calls).Follows tokens place depth (Rule.recordDef level) :=
  .bind .advance fun _ => .bind name_follows fun _ => .bind (.expect _) fun _ =>
    .bind (.commaList (Rule.typedName_framed h.framed) (typedName_follows h) _) fun _ =>
      .bind (.expect _) fun _ => .bind (.spanFrom _) fun _ => .pure _

theorem variant_follows : (variant calls).Follows tokens .free depth (Rule.variant level) := by
  unfold variant Rule.variant
  refine .bind name_follows fun _ => .bind (.take? _) fun _ => ?_
  extract_lets rest rest'
  have hrest (value : Option (Expr Span)) : (rest value).Follows tokens .free depth (rest' value) :=
    .bind (.spanFrom _) fun _ => .pure _
  exact .ite (.bind (h.expr _ _) fun _ => .bind (.pure _) hrest) (.bind (.pure _) hrest)

theorem enumDef_follows : (enumDef calls).Follows tokens .free depth (Rule.enumDef level) :=
  .bind .advance fun _ => .bind name_follows fun _ => .bind (.expect _) fun _ =>
    .bind (.commaList (Rule.variant_framed h.framed) (variant_follows h) _) fun _ =>
      .bind (.expect _) fun _ => .bind (.spanFrom _) fun _ => .pure _

theorem external_follows : (external calls).Follows tokens place depth (Rule.external level) := by
  unfold external Rule.external
  refine .bind .advance fun _ => .bind (.take? _) fun _ => .bind name_follows fun _ =>
    .bind (.isAt _) fun _ => ?_
  extract_lets rest rest'
  have hrest (definition : Definition Span) :
      (rest definition).Follows tokens place depth (rest' definition) :=
    .bind (.take? _) fun _ => .pure _
  refine .ite (.bind (prototype_follows h _) fun _ => .bind (.pure _) hrest) ?_
  refine .bind (.take? _) fun _ => .ite ?_ (.bind (.failExpecting _) hrest)
  exact .bind (h.typeExpr _) fun _ => .bind (.spanFrom _) fun _ => .bind (.pure _) hrest

omit h in
theorem import_follows : import_.Follows tokens place depth Rule.import_ := by
  refine .bind .advance fun _ => .bind .current fun token => ?_
  generalize token.kind = kind
  cases kind with
  | string path => exact .bind .advance fun _ => .pure _
  | _ => exact .failExpecting _

theorem constantDef_follows :
    (constantDef calls).Follows tokens .free depth (Rule.constantDef level) := by
  unfold constantDef Rule.constantDef
  refine .bind .advance fun _ => .bind name_follows fun _ =>
    .bind (typeAnnotation?_follows h) fun _ => .bind (.expect _) fun _ =>
      .bind (.isAt _) fun _ => ?_
  extract_lets rest rest'
  have hrest (value : ConstantValue Span) :
      (rest value).Follows tokens .free depth (rest' value) :=
    .bind (.expect _) fun _ => .bind (.spanFrom _) fun _ => .pure _
  exact .ite (.bind import_follows fun _ => .bind (.pure _) hrest)
    (.bind (h.expr _ _) fun _ => .bind (.pure _) hrest)

theorem definition_follows :
    (definition calls).Follows tokens .free depth (Rule.definition level) := by
  refine .bind .current fun token => ?_
  generalize token.kind = kind
  cases kind with
  | keyword word =>
      cases word with
      | fn => exact .bind (function_follows h) fun _ => .pure _
      | struct | union => exact .bind (recordDef_follows h) fun _ => .pure _
      | enum => exact .bind (enumDef_follows h) fun _ => .pure _
      | external => exact external_follows h
      | const => exact .bind (constantDef_follows h) fun _ => .pure _
      | let_ => exact .bind (binding_follows h) fun _ => .pure _
      | _ => exact .failExpecting _
  | _ => exact .failExpecting _

theorem declaration_follows :
    (declaration calls).Follows tokens .free depth (Rule.declaration level) :=
  .bind .current fun _ => .bind (.take? _) fun _ => .bind (definition_follows h) fun _ =>
    .bind (.spanFrom _) fun _ => .pure _

theorem item_follows : (item calls).Follows tokens .free depth (Rule.item level) := by
  refine .bind (.isAt _) fun _ => .ite ?_ (.bind (declaration_follows h) fun _ => .pure _)
  exact .bind import_follows fun _ => .bind (.expect _) fun _ => .bind (.spanFrom _) fun _ =>
    .pure _

theorem moduleRound_follows (read : List (Item Span)) :
    (moduleRound calls read).Follows tokens .free depth (Rule.moduleRound level read) :=
  .bind .current fun _ => .ite (.pure _)
    (.bind (.recover (item_follows h) (Rule.item_framed h.framed) resumeItem_apply)
      fun _ => .pure _)

theorem items_follows : (items calls).Follows tokens .free depth (Rule.items level) :=
  .iterate (moduleRound_follows h) (Rule.moduleRound_advances h.consuming) _

end Walk

namespace Calls

variable {tokens : List Token} {depth : Nat} {calls : Calls} {level : Level}

theorem Follow.above (hdepth : depth < Level.limit)
    (h : calls.Follow tokens (depth + 1) level) :
    calls.above.Follow tokens depth level.above where
  consuming := ⟨h.consuming.framed.above, Rule.block_consumes h.consuming.framed⟩
  expr _ _ := .nested hdepth (Walk.expression_follows h _)
  operand _ := .nested hdepth (Walk.operand_follows h)
  typeExpr _ := .nested hdepth (Walk.typeExpr_follows h)
  block _ := .nested hdepth (Walk.block_follows h)
  branch _ := .nested hdepth (Walk.branch_follows h)
  choice := .nested hdepth (Walk.choice_follows h)

/-- Where `n` more phrases may be opened, calls one deeper than that suffice: the
innermost find the limit reached and call nothing. -/
theorem deep_follow (n : Nat) (hdepth : depth + n = Level.limit) :
    (deep (n + 1)).Follow tokens depth (Level.allowing n) := by
  induction n generalizing depth with
  | zero =>
      obtain rfl : depth = Level.limit := hdepth
      exact {
        consuming := Level.allowing_consuming 0
        expr := fun _ _ => .nested_refused _
        operand := fun _ => .nested_refused _
        typeExpr := fun _ => .nested_refused _
        block := fun _ => .nested_refused _
        branch := fun _ => .nested_refused _
        choice := .nested_refused _ }
  | succ n ih => exact (ih (by omega)).above (by omega)

end Calls

end SourceFront
