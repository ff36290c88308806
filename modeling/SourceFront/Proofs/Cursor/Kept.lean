import SourceFront.Proofs.Cursor.Return

/-!
Every walk of the grammar keeps to what is set where it begins, as far as the walks that it
calls do.
-/

namespace SourceFront

/-- All calls return from wherever they can begin. -/
structure Calls.Kept (calls : Calls) : Prop where
  expr : ∀ least, (calls.expr least).Kept
  operand : calls.operand.Kept
  typeExpr : calls.typeExpr.Kept
  block : calls.block.Kept
  branch : calls.branch.Kept
  choice : calls.choice.Kept

namespace Walk

variable {calls : Calls}

theorem name_kept : name.Kept := by
  refine .bind .current fun token => ?_
  generalize token.kind = kind
  cases kind with
  | ident text => exact .bind .advance fun _ => .pure _
  | _ => exact .failExpecting _

theorem stars_kept : stars.Kept :=
  .iterate (fun _ => .bind (.take? _) fun _ => .ite (.pure _) (.pure _)) _

theorem primitive_kept (type : Primitive) : (primitive type).Kept :=
  .bind .advance fun _ => .pure _

theorem constant_kept (value : Constant) : (constant value).Kept :=
  .bind .advance fun _ => .pure _

theorem jump_kept : jump.Kept :=
  .bind .advance fun _ => .bind (.expect _) fun _ => .spanFrom _

theorem pathTail_kept (first : Name Span) : (pathTail first).Kept := by
  refine .iterate (fun _ => .bind (.take? _) fun _ => .ite ?_ ?_) _
  · exact .bind name_kept fun _ => .pure _
  · exact .bind (.take? _) fun _ => .ite (.bind name_kept fun _ => .pure _) (.pure _)

theorem pattern_kept : pattern.Kept := by
  refine .bind .current fun token => ?_
  generalize token.kind = kind
  cases kind with
  | number | char => exact .bind .advance fun _ => .pure _
  | ident text =>
      refine .bind name_kept fun _ => .ite (.pure _) ?_
      exact .bind (pathTail_kept _) fun _ => .bind (.spanFrom _) fun _ => .pure _
  | _ => exact .failWith _

theorem patterns_kept : patterns.Kept :=
  .bind pattern_kept fun _ => .iterate (fun _ => .bind (.take? _) fun _ =>
    .ite (.bind pattern_kept fun _ => .pure _) (.pure _)) _

theorem import_kept : import_.Kept := by
  refine .bind .advance fun _ => .bind .current fun token => ?_
  generalize token.kind = kind
  cases kind with
  | string path => exact .bind .advance fun _ => .pure _
  | _ => exact .failExpecting _

variable (h : calls.Kept)
include h

theorem resultType_kept : (resultType calls).Kept :=
  .bind (.take? _) fun _ => .ite
    (.bind (.take? _) fun _ => .ite (.pure _) (.bind h.typeExpr fun _ => .pure _)) (.pure _)

theorem functionType_kept : (functionType calls).Kept :=
  .bind .advance fun _ => .bind (.expect _) fun _ => .bind (.paramList h.typeExpr) fun _ =>
    .bind (.expect _) fun _ => .bind (resultType_kept h) fun _ => .pure _

theorem typeBase_kept (pointers : Nat) : (typeBase calls pointers).Kept := by
  have hprimitive (type : Primitive) :
      Kept (primitive type >>= fun base => pure (pointers, base)) :=
    .bind (primitive_kept type) fun _ => .pure _
  refine .bind .current fun token => ?_
  generalize token.kind = kind
  cases kind with
  | ident text =>
      refine .ite (.bind .advance fun _ => .bind (.minus _ _) fun _ => .pure _) ?_
      exact .bind name_kept fun _ => .pure _
  | keyword word =>
      cases word with
      | int | str | char | bool | float => exact hprimitive _
      | fn => exact .bind (functionType_kept h) fun _ => .pure _
      | _ => exact .failWith _
  | _ => exact .failWith _

theorem sizes_kept : (sizes calls).Kept :=
  .iterate (fun _ => .bind (.take? _) fun _ => .ite
    (.bind (.within (h.expr _) _) fun _ => .bind (.expect _) fun _ => .pure _) (.pure _)) _

theorem typeExpr_kept : (typeExpr calls).Kept :=
  .bind .current fun _ => .bind stars_kept fun _ => .bind (typeBase_kept h _) fun _ =>
    .bind (sizes_kept h) fun _ => .bind (.spanFrom _) fun _ => .pure _

theorem typeAnnotation?_kept : (typeAnnotation? calls).Kept :=
  .bind (.take? _) fun _ => .ite (.bind h.typeExpr fun _ => .pure _) (.pure _)

theorem call_kept (callee : Name Span) : (call calls callee).Kept :=
  .bind (.expect _) fun _ => .bind (.within (.commaList (h.expr _) _) _) fun _ =>
    .bind (.expect _) fun _ => .pure _

theorem fieldInit_kept : (fieldInit calls).Kept :=
  .bind name_kept fun _ => .bind (.expect _) fun _ => .bind (h.expr _) fun _ => .pure _

theorem record_kept (type : Name Span) : (record calls type).Kept :=
  .bind (.expect _) fun _ => .bind (.within (.commaList (fieldInit_kept h) _) _) fun _ =>
    .bind (.expect _) fun _ => .pure _

theorem named_kept : (named calls).Kept :=
  .bind name_kept fun _ => .bind (.isAt _) fun _ => .ite (call_kept h _) <|
    .bind .get fun _ => .ite
      (.bind (.isAt _) fun _ => .ite (record_kept h _) (.pure _)) (.pure _)

theorem primary_kept : (primary calls).Kept := by
  refine .bind .current fun token => ?_
  generalize token.kind = kind
  cases kind with
  | number | string | char => exact constant_kept _
  | ident text => exact named_kept h
  | keyword word =>
      cases word with
      | true_ | false_ | null => exact constant_kept _
      | sizeof =>
          exact .bind .advance fun _ => .bind (.expect _) fun _ => .bind h.typeExpr fun _ =>
            .bind (.expect _) fun _ => .pure _
      | _ => exact .failWith _
  | symbol sign =>
      cases sign with
      | leftParen =>
          exact .bind .advance fun _ => .bind (.within (h.expr _) _) fun _ =>
            .bind (.expect _) fun _ => .pure _
      | leftBracket =>
          exact .bind .advance fun _ => .bind (.within (.commaList (h.expr _) _) _) fun _ =>
            .bind (.expect _) fun _ => .pure _
      | _ => exact .failWith _
  | _ => exact .failWith _

theorem member_kept : (member calls).Kept :=
  .bind name_kept fun _ => .bind (.isAt _) fun _ => .ite (call_kept h _) (.pure _)

theorem suffix_kept (base : Expr Span) : (suffix calls base).Kept := by
  refine .bind (.take? _) fun _ => .ite (.bind (member_kept h) fun _ => .pure _) ?_
  refine .bind (.take? _) fun _ => .ite (.bind (member_kept h) fun _ => .pure _) ?_
  refine .bind (.take? _) fun _ => .ite ?_ (.pure _)
  exact .bind (.within (h.expr _) _) fun _ => .bind (.expect _) fun _ => .pure _

theorem operand_kept : (operand calls).Kept := by
  refine .bind .current fun token => ?_
  generalize Rule.unaryOp? token.kind = op?
  cases op? with
  | some op => exact .bind .advance fun _ => .bind h.operand fun _ => .pure _
  | none => exact .bind (primary_kept h) fun _ => .iterate (suffix_kept h) _

theorem operation_kept (least : Nat) (left : Expr Span) : (operation calls least left).Kept := by
  refine .bind .current fun token => ?_
  generalize InfixOp.ofKind? token.kind = op?
  cases op? with
  | none => exact .pure _
  | some op =>
      refine .ite (.pure _) (.bind .advance fun _ => ?_)
      cases op with
      | cast => exact .bind h.typeExpr fun _ => .pure _
      | binary op => exact .bind (h.expr _) fun _ => .pure _

theorem expression_kept (least : Nat) : (expression calls least).Kept :=
  .bind (operand_kept h) fun _ => .iterate (operation_kept h _) _

theorem condition_kept : (condition calls).Kept :=
  .within (h.expr _) _

theorem binding_kept : (binding calls).Kept :=
  .bind .advance fun _ => .bind name_kept fun _ => .bind (typeAnnotation?_kept h) fun _ =>
    .bind (.expect _) fun _ => .bind (h.expr _) fun _ => .bind (.expect _) fun _ =>
      .bind (.spanFrom _) fun _ => .pure _

theorem return_kept : (return_ calls).Kept := by
  unfold return_
  refine .bind .advance fun _ => .bind (.isAt _) fun _ => ?_
  extract_lets rest
  have hrest (value : Option (Expr Span)) : (rest value).Kept :=
    .bind (.expect _) fun _ => .bind (.spanFrom _) fun _ => .pure _
  exact .ite (.bind (.pure _) hrest) (.bind (h.expr _) fun _ => .bind (.pure _) hrest)

theorem branch_kept : (branch calls).Kept := by
  unfold branch
  refine .bind .advance fun _ => .bind (condition_kept h) fun _ => .bind h.block fun _ =>
    .bind (.take? _) fun _ => ?_
  extract_lets rest
  have hrest (otherwise : Option (ElseBranch Span)) : (rest otherwise).Kept :=
    .bind (.spanFrom _) fun _ => .pure _
  refine .ite (.bind (.isAt _) fun _ => .ite ?_ ?_) (.bind (.pure _) hrest)
  · exact .bind h.branch fun _ => .bind (.pure _) hrest
  · exact .bind h.block fun _ => .bind (.pure _) hrest

theorem forInit_kept : (forInit calls).Kept :=
  .bind (.isAt _) fun _ => .ite (.bind (binding_kept h) fun _ => .pure _)
    (.bind (h.expr _) fun _ => .bind (.expect _) fun _ => .pure _)

theorem for_kept : (for_ calls).Kept :=
  .bind .advance fun _ => .bind (forInit_kept h) fun _ => .bind (condition_kept h) fun _ =>
    .bind (.expect _) fun _ => .bind (condition_kept h) fun _ => .bind h.block fun _ => .pure _

theorem armBody_kept : (armBody calls).Kept := by
  have hexpr : Kept (do
      let value ← within .free (calls.expr 0)
      let _ ← expect .comma
      return ArmBody.expr value) :=
    .bind (.within (h.expr _) _) fun _ => .bind (.expect _) fun _ => .pure _
  refine .bind .current fun token => ?_
  generalize token.kind = kind
  cases kind with
  | symbol sign =>
      cases sign with
      | leftBrace => exact .bind h.block fun _ => .pure _
      | _ => exact hexpr
  | keyword word =>
      cases word with
      | return_ => exact .bind (return_kept h) fun _ => .pure _
      | match_ => exact .bind h.choice fun _ => .pure _
      | break_ | continue_ => exact .bind jump_kept fun _ => .pure _
      | _ => exact hexpr
  | _ => exact hexpr

theorem arm_kept : (arm calls).Kept :=
  .bind .current fun _ => .bind patterns_kept fun _ => .bind (.expect _) fun _ =>
    .bind (armBody_kept h) fun _ => .bind (.spanFrom _) fun _ => .pure _

theorem arms_kept : (arms calls).Kept :=
  .iterate (fun _ => .bind (.isAtClose _) fun _ =>
    .ite (.pure _) (.bind (arm_kept h) fun _ => .pure _)) _

theorem choice_kept : (choice calls).Kept :=
  .bind .advance fun _ => .bind (condition_kept h) fun _ => .bind (.expect _) fun _ =>
    .bind (arms_kept h) fun _ => .bind (.expect _) fun _ => .bind (.spanFrom _) fun _ => .pure _

theorem statement_kept : (statement calls).Kept := by
  have hexpr : Kept (do
      let value ← calls.expr 0
      let _ ← expect .semicolon
      return Stmt.expr value (← spanFrom value.note)) :=
    .bind (h.expr _) fun _ => .bind (.expect _) fun _ => .bind (.spanFrom _) fun _ => .pure _
  refine .bind .current fun token => ?_
  generalize token.kind = kind
  cases kind with
  | symbol sign =>
      cases sign with
      | leftBrace => exact .bind h.block fun _ => .pure _
      | _ => exact hexpr
  | keyword word =>
      cases word with
      | let_ | const => exact .bind (binding_kept h) fun _ => .pure _
      | return_ => exact .bind (return_kept h) fun _ => .pure _
      | if_ => exact .bind (branch_kept h) fun _ => .pure _
      | loop => exact .bind .advance fun _ => .bind h.block fun _ => .pure _
      | while_ =>
          exact .bind .advance fun _ => .bind (condition_kept h) fun _ =>
            .bind h.block fun _ => .pure _
      | for_ => exact for_kept h
      | match_ => exact .bind (choice_kept h) fun _ => .pure _
      | break_ | continue_ => exact .bind jump_kept fun _ => .pure _
      | _ => exact hexpr
  | _ => exact hexpr

theorem blockRound_kept (read : List (Stmt Span)) : (blockRound calls read).Kept :=
  .bind .current fun _ => .ite (.pure _)
    (.bind (.recover (statement_kept h) .resumeStatement) fun _ => .pure _)

theorem block_kept : (block calls).Kept :=
  .bind (.expect _) fun _ => .within (.bind (.iterate (blockRound_kept h) _) fun _ =>
    .bind (.expect _) fun _ => .bind (.spanFrom _) fun _ => .pure _) _

theorem typedName_kept : (typedName calls).Kept :=
  .bind name_kept fun _ => .bind (.expect _) fun _ => .bind h.typeExpr fun _ => .pure _

theorem prototype_kept (name : Name Span) : (prototype calls name).Kept :=
  .bind (.expect _) fun _ => .bind (.paramList (typedName_kept h)) fun _ =>
    .bind (.expect _) fun _ => .bind (resultType_kept h) fun _ =>
      .bind (.spanFrom _) fun _ => .pure _

theorem function_kept : (function calls).Kept :=
  .bind .advance fun _ => .bind name_kept fun _ => .bind (prototype_kept h _) fun _ =>
    .bind h.block fun _ => .pure _

theorem recordDef_kept : (recordDef calls).Kept :=
  .bind .advance fun _ => .bind name_kept fun _ => .bind (.expect _) fun _ =>
    .bind (.commaList (typedName_kept h) _) fun _ => .bind (.expect _) fun _ =>
      .bind (.spanFrom _) fun _ => .pure _

theorem variant_kept : (variant calls).Kept := by
  unfold variant
  refine .bind name_kept fun _ => .bind (.take? _) fun _ => ?_
  extract_lets rest
  have hrest (value : Option (Expr Span)) : (rest value).Kept :=
    .bind (.spanFrom _) fun _ => .pure _
  exact .ite (.bind (h.expr _) fun _ => .bind (.pure _) hrest) (.bind (.pure _) hrest)

theorem enumDef_kept : (enumDef calls).Kept :=
  .bind .advance fun _ => .bind name_kept fun _ => .bind (.expect _) fun _ =>
    .bind (.commaList (variant_kept h) _) fun _ => .bind (.expect _) fun _ =>
      .bind (.spanFrom _) fun _ => .pure _

theorem external_kept : (external calls).Kept := by
  unfold external
  refine .bind .advance fun _ => .bind (.take? _) fun _ => .bind name_kept fun _ =>
    .bind (.isAt _) fun _ => ?_
  extract_lets rest
  have hrest (definition : Definition Span) : (rest definition).Kept :=
    .bind (.take? _) fun _ => .pure _
  refine .ite (.bind (prototype_kept h _) fun _ => .bind (.pure _) hrest) ?_
  refine .bind (.take? _) fun _ => .ite ?_ (.bind (.failExpecting _) hrest)
  exact .bind h.typeExpr fun _ => .bind (.spanFrom _) fun _ => .bind (.pure _) hrest

theorem constantDef_kept : (constantDef calls).Kept := by
  unfold constantDef
  refine .bind .advance fun _ => .bind name_kept fun _ => .bind (typeAnnotation?_kept h) fun _ =>
    .bind (.expect _) fun _ => .bind (.isAt _) fun _ => ?_
  extract_lets rest
  have hrest (value : ConstantValue Span) : (rest value).Kept :=
    .bind (.expect _) fun _ => .bind (.spanFrom _) fun _ => .pure _
  exact .ite (.bind import_kept fun _ => .bind (.pure _) hrest)
    (.bind (h.expr _) fun _ => .bind (.pure _) hrest)

theorem definition_kept : (definition calls).Kept := by
  refine .bind .current fun token => ?_
  generalize token.kind = kind
  cases kind with
  | keyword word =>
      cases word with
      | fn => exact .bind (function_kept h) fun _ => .pure _
      | struct | union => exact .bind (recordDef_kept h) fun _ => .pure _
      | enum => exact .bind (enumDef_kept h) fun _ => .pure _
      | external => exact external_kept h
      | const => exact .bind (constantDef_kept h) fun _ => .pure _
      | let_ => exact .bind (binding_kept h) fun _ => .pure _
      | _ => exact .failExpecting _
  | _ => exact .failExpecting _

theorem declaration_kept : (declaration calls).Kept :=
  .bind .current fun _ => .bind (.take? _) fun _ => .bind (definition_kept h) fun _ =>
    .bind (.spanFrom _) fun _ => .pure _

theorem item_kept : (item calls).Kept := by
  refine .bind (.isAt _) fun _ => .ite ?_ (.bind (declaration_kept h) fun _ => .pure _)
  exact .bind import_kept fun _ => .bind (.expect _) fun _ => .bind (.spanFrom _) fun _ => .pure _

theorem moduleRound_kept (read : List (Item Span)) : (moduleRound calls read).Kept :=
  .bind .current fun _ => .ite (.pure _)
    (.bind (.recover (item_kept h) .resumeItem) fun _ => .pure _)

theorem items_kept : (items calls).Kept :=
  .iterate (moduleRound_kept h) _

end Walk

namespace Calls

theorem Kept.above {calls : Calls} (h : calls.Kept) : calls.above.Kept where
  expr _ := .nested (Walk.expression_kept h _)
  operand := .nested (Walk.operand_kept h)
  typeExpr := .nested (Walk.typeExpr_kept h)
  block := .nested (Walk.block_kept h)
  branch := .nested (Walk.branch_kept h)
  choice := .nested (Walk.choice_kept h)

theorem deep_kept (n : Nat) : (deep n).Kept := by
  induction n with
  | zero =>
      exact ⟨fun _ => .breach _, .breach _, .breach _, .breach _, .breach _, .breach _⟩
  | succ n ih => exact ih.above

end Calls

end SourceFront
