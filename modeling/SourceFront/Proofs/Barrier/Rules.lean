import SourceFront.Grammar.Item
import SourceFront.Proofs.Barrier.Basic

/-!
Every rule stops at an end that more tokens follow. A rule that reads a token without looking at
it is used only where a token other than the end comes next.
-/

namespace SourceFront

variable {b : Barrier}

/-- All rules of the level stop at the barrier. Some of them begin with a keyword that is known
to come next. -/
structure Level.Heeds (b : Barrier) (level : Level) : Prop where
  expr : ∀ {known : Prop} place least, (level.expr place least).Heeds b known
  operand : ∀ {known : Prop} place, (level.operand place).Heeds b known
  typeExpr : ∀ {known : Prop}, level.typeExpr.Heeds b known
  block : ∀ {known : Prop}, level.block.Heeds b known
  branch : ∀ {known : Prop}, known → level.branch.Heeds b known
  choice : ∀ {known : Prop}, known → level.choice.Heeds b known

namespace Rule

open Rule (Heeds)

variable {known : Prop}

theorem name_heeds : name.Heeds b known := by
  refine .current (fun _ _ => rfl) fun token => ?_
  split
  next hkind => exact .bind (.advance (by simp [hkind])) fun _ => .pure _
  next => exact .failExpecting _

theorem stars_heeds : stars.Heeds b known := by
  refine .iterate (fun _ => ?_) _
  exact .bind (.take? nofun) fun _ => .ite (fun _ => .pure _) (.pure _)

variable {level : Level} (h : level.Heeds b)
include h

theorem resultType_heeds : (resultType level).Heeds b known :=
  .bind (.take? nofun) fun _ => .ite (fun _ => .bind (.take? nofun) fun _ =>
    .ite (fun _ => .pure _) (.bind h.typeExpr fun _ => .pure _)) (.pure _)

theorem functionType_heeds (hknown : known) : (functionType level).Heeds b known :=
  .bind (.advance hknown) fun _ => .bind (.expect _) fun _ =>
    .bind (.paramList h.typeExpr) fun _ => .bind (.expect _) fun _ =>
      .bind (resultType_heeds h) fun _ => .pure _

theorem typeBase_heeds (pointers : Nat) : (typeBase level pointers).Heeds b known := by
  have hprimitive {token : Token} {type : Primitive} (hkind : token.kind ≠ .eof) :
      (primitive type >>= fun base => pure (pointers, base)).Heeds b (token.kind ≠ .eof) :=
    .bind (.bind (.advance hkind) fun _ => .pure _) fun _ => .pure _
  refine .current (fun _ _ => rfl) fun token => ?_
  split
  iterate 5
    next hkind => exact hprimitive (by simp [hkind])
  next hkind => exact .bind (functionType_heeds h (by simp [hkind])) fun _ => .pure _
  next hkind =>
    exact .ite (fun _ => .bind (.advance (by simp [hkind])) fun _ => .pure _)
      (.bind name_heeds fun _ => .pure _)
  next => exact .failWith fun _ _ => rfl

theorem sizes_heeds : (sizes level).Heeds b known := by
  refine .iterate (fun _ => ?_) _
  refine .bind (.take? nofun) fun _ => .ite (fun _ => ?_) (.pure _)
  exact .bind (h.expr _ _) fun _ => .bind (.expect _) fun _ => .pure _

theorem typeExpr_heeds : (typeExpr level).Heeds b known :=
  .current (fun _ _ => rfl) fun _ => .bind stars_heeds fun _ =>
    .bind (typeBase_heeds h _) fun _ => .bind (sizes_heeds h) fun _ =>
      .bind (.spanFrom _) fun _ => .pure _

theorem typeAnnotation?_heeds : (typeAnnotation? level).Heeds b known :=
  .bind (.take? nofun) fun _ => .ite (fun _ => .bind h.typeExpr fun _ => .pure _) (.pure _)

theorem call_heeds (callee : Name Span) : (call level callee).Heeds b known :=
  .bind (.expect _) fun _ => .bind (.commaList (h.expr _ _) _) fun _ =>
    .bind (.expect _) fun _ => .pure _

theorem fieldInit_heeds : (fieldInit level).Heeds b known :=
  .bind name_heeds fun _ => .bind (.expect _) fun _ => .bind (h.expr _ _) fun _ => .pure _

theorem record_heeds (type : Name Span) : (record level type).Heeds b known :=
  .bind (.expect _) fun _ => .bind (.commaList (fieldInit_heeds h) _) fun _ =>
    .bind (.expect _) fun _ => .pure _

theorem named_heeds (place : Place) : (named level place).Heeds b known :=
  .bind name_heeds fun _ => .isAt nofun fun _ => .ite (fun _ => call_heeds h _)
    (.ite (fun _ => .isAt nofun fun _ => .ite (fun _ => record_heeds h _) (.pure _)) (.pure _))

theorem primary_heeds (place : Place) : (primary level place).Heeds b known := by
  have hconstant (value : Constant) {known : Prop} (hknown : known) :
      (constant value).Heeds b known :=
    .bind (.advance hknown) fun _ => .pure _
  refine .current (fun _ _ => rfl) fun token => ?_
  generalize token.kind = kind
  cases kind with
  | number | string | char => exact hconstant _ nofun
  | ident text => exact named_heeds h place
  | keyword word =>
      cases word with
      | true_ | false_ | null => exact hconstant _ nofun
      | sizeof =>
          exact .bind (.advance nofun) fun _ => .bind (.expect _) fun _ => .bind h.typeExpr fun _ =>
            .bind (.expect _) fun _ => .pure _
      | _ => exact .failWith fun _ _ => rfl
  | symbol sign =>
      cases sign with
      | leftParen =>
          exact .bind (.advance nofun) fun _ => .bind (h.expr _ _) fun _ =>
            .bind (.expect _) fun _ => .pure _
      | leftBracket =>
          exact .bind (.advance nofun) fun _ => .bind (.commaList (h.expr _ _) _) fun _ =>
            .bind (.expect _) fun _ => .pure _
      | _ => exact .failWith fun _ _ => rfl
  | _ => exact .failWith fun _ _ => rfl

theorem member_heeds : (member level).Heeds b known :=
  .bind name_heeds fun _ => .isAt nofun fun _ => .ite (fun _ => call_heeds h _) (.pure _)

theorem suffix_heeds (base : Expr Span) : (suffix level base).Heeds b known := by
  refine .bind (.take? nofun) fun _ => .ite (fun _ => .bind (member_heeds h) fun _ => .pure _) ?_
  refine .bind (.take? nofun) fun _ => .ite (fun _ => .bind (member_heeds h) fun _ => .pure _) ?_
  refine .bind (.take? nofun) fun _ => .ite (fun _ => ?_) (.pure _)
  exact .bind (h.expr _ _) fun _ => .bind (.expect _) fun _ => .pure _

theorem operand_heeds (place : Place) : (operand level place).Heeds b known := by
  refine .current (fun _ _ => rfl) fun token => ?_
  split
  next hop =>
    have hkind : token.kind ≠ .eof := fun hkind => by simp [hkind, unaryOp?] at hop
    exact .bind (.advance hkind) fun _ => .bind (h.operand _) fun _ => .pure _
  next => exact .bind (primary_heeds h _) fun _ => .iterate (fun _ => suffix_heeds h _) _

theorem operation_heeds (place : Place) (least : Nat) (left : Expr Span) :
    (operation level place least left).Heeds b known := by
  refine .current (fun _ _ => rfl) fun token => ?_
  split
  next => exact .pure _
  next hop =>
    have hkind : token.kind ≠ .eof := fun hkind => by simp [hkind, InfixOp.ofKind?] at hop
    refine .ite (fun _ => .pure _) (.bind (.advance hkind) fun _ => ?_)
    split
    · exact .bind h.typeExpr fun _ => .pure _
    · exact .bind (h.expr _ _) fun _ => .pure _

theorem expression_heeds (place : Place) (least : Nat) :
    (expression level place least).Heeds b known :=
  .bind (operand_heeds h _) fun _ => .iterate (fun _ => operation_heeds h _ _ _) _

theorem binding_heeds (hknown : known) : (binding level).Heeds b known :=
  .bind (.advance hknown) fun _ => .bind name_heeds fun _ =>
    .bind (typeAnnotation?_heeds h) fun _ => .bind (.expect _) fun _ =>
      .bind (h.expr _ _) fun _ => .bind (.expect _) fun _ => .bind (.spanFrom _) fun _ =>
        .pure _

theorem return_heeds (hknown : known) : (return_ level).Heeds b known := by
  unfold return_
  refine .bind (.advance hknown) fun _ => .isAt nofun fun _ => ?_
  extract_lets rest
  have hrest {known : Prop} (value : Option (Expr Span)) : (rest value).Heeds b known :=
    .bind (.expect _) fun _ => .bind (.spanFrom _) fun _ => .pure _
  exact .ite (fun _ => .bind (.pure _) fun _ => hrest _)
    (.bind (h.expr _ _) fun _ => .bind (.pure _) fun _ => hrest _)

omit h in
theorem jump_heeds (hknown : known) : jump.Heeds b known :=
  .bind (.advance hknown) fun _ => .bind (.expect _) fun _ => .spanFrom _

theorem branch_heeds (hknown : known) : (branch level).Heeds b known := by
  unfold branch
  refine .bind (.advance hknown) fun _ => .bind (h.expr _ _) fun _ => .bind h.block fun _ =>
    .bind (.take? nofun) fun _ => ?_
  extract_lets rest
  have hrest {known : Prop} (otherwise : Option (ElseBranch Span)) :
      (rest otherwise).Heeds b known :=
    .bind (.spanFrom _) fun _ => .pure _
  refine .ite (fun _ => .isAt nofun fun _ => .ite (fun hthere => ?_) ?_)
    (.bind (.pure _) fun _ => hrest _)
  · exact .bind (h.branch hthere) fun _ => .bind (.pure _) fun _ => hrest _
  · exact .bind h.block fun _ => .bind (.pure _) fun _ => hrest _

theorem forInit_heeds : (forInit level).Heeds b known :=
  .isAt nofun fun _ => .ite (fun hthere => .bind (binding_heeds h hthere) fun _ => .pure _)
    (.bind (h.expr _ _) fun _ => .bind (.expect _) fun _ => .pure _)

theorem for_heeds (hknown : known) : (for_ level).Heeds b known :=
  .bind (.advance hknown) fun _ => .bind (forInit_heeds h) fun _ => .bind (h.expr _ _) fun _ =>
    .bind (.expect _) fun _ => .bind (h.expr _ _) fun _ => .bind h.block fun _ => .pure _

omit h in
theorem pathTail_heeds (first : Name Span) : (pathTail first).Heeds b known := by
  refine .iterate (fun _ => ?_) _
  refine .bind (.take? nofun) fun _ => .ite (fun _ => .bind name_heeds fun _ => .pure _) ?_
  exact .bind (.take? nofun) fun _ => .ite (fun _ => .bind name_heeds fun _ => .pure _) (.pure _)

omit h in
theorem pattern_heeds : pattern.Heeds b known := by
  refine .current (fun _ _ => rfl) fun token => ?_
  split
  next hkind => exact .bind (.advance (by simp [hkind])) fun _ => .pure _
  next hkind => exact .bind (.advance (by simp [hkind])) fun _ => .pure _
  next =>
    refine .bind name_heeds fun _ => .ite (fun _ => .pure _) ?_
    exact .bind (pathTail_heeds _) fun _ => .bind (.spanFrom _) fun _ => .pure _
  next => exact .failWith fun _ _ => rfl

omit h in
theorem patterns_heeds : patterns.Heeds b known := by
  refine .bind pattern_heeds fun _ => .iterate (fun _ => ?_) _
  exact .bind (.take? nofun) fun _ => .ite (fun _ => .bind pattern_heeds fun _ => .pure _) (.pure _)

theorem armBody_heeds : (armBody level).Heeds b known := by
  refine .current (fun _ _ => rfl) fun token => ?_
  split
  next => exact .bind h.block fun _ => .pure _
  next hkind => exact .bind (return_heeds h (by simp [hkind])) fun _ => .pure _
  next hkind => exact .bind (h.choice (by simp [hkind])) fun _ => .pure _
  next hkind => exact .bind (jump_heeds (by simp [hkind])) fun _ => .pure _
  next hkind => exact .bind (jump_heeds (by simp [hkind])) fun _ => .pure _
  next => exact .bind (h.expr _ _) fun _ => .bind (.expect _) fun _ => .pure _

theorem arm_heeds : (arm level).Heeds b known :=
  .current (fun _ _ => rfl) fun _ => .bind patterns_heeds fun _ => .bind (.expect _) fun _ =>
    .bind (armBody_heeds h) fun _ => .bind (.spanFrom _) fun _ => .pure _

theorem arms_heeds : (arms level).Heeds b known :=
  .iterate (fun _ => .bind (.isAtClose _) fun _ => .ite (fun _ => .pure _)
    (.bind (arm_heeds h) fun _ => .pure _)) _

theorem choice_heeds (hknown : known) : (choice level).Heeds b known :=
  .bind (.advance hknown) fun _ => .bind (h.expr _ _) fun _ => .bind (.expect _) fun _ =>
    .bind (arms_heeds h) fun _ => .bind (.expect _) fun _ => .bind (.spanFrom _) fun _ =>
      .pure _

theorem statement_heeds : (statement level).Heeds b known := by
  refine .current (fun _ _ => rfl) fun token => ?_
  split
  next hkind => exact .bind (binding_heeds h (by simp [hkind])) fun _ => .pure _
  next hkind => exact .bind (binding_heeds h (by simp [hkind])) fun _ => .pure _
  next => exact .bind h.block fun _ => .pure _
  next hkind => exact .bind (return_heeds h (by simp [hkind])) fun _ => .pure _
  next hkind => exact .bind (branch_heeds h (by simp [hkind])) fun _ => .pure _
  next hkind =>
    exact .bind (.advance (by simp [hkind])) fun _ => .bind h.block fun _ => .pure _
  next hkind =>
    exact .bind (.advance (by simp [hkind])) fun _ => .bind (h.expr _ _) fun _ =>
      .bind h.block fun _ => .pure _
  next hkind => exact for_heeds h (by simp [hkind])
  next hkind => exact .bind (choice_heeds h (by simp [hkind])) fun _ => .pure _
  next hkind => exact .bind (jump_heeds (by simp [hkind])) fun _ => .pure _
  next hkind => exact .bind (jump_heeds (by simp [hkind])) fun _ => .pure _
  next =>
    exact .bind (h.expr _ _) fun _ => .bind (.expect _) fun _ => .bind (.spanFrom _) fun _ =>
      .pure _

theorem blockRound_heeds (read : List (Stmt Span)) : (blockRound level read).Heeds b known :=
  .current (fun _ _ => rfl) fun _ => .ite (fun _ => .pure _)
    (.bind (.recoverStatement (statement_heeds h)) fun _ => .pure _)

theorem block_heeds : (block level).Heeds b known :=
  .bind (.expect _) fun _ => .bind (.iterate (fun _ => blockRound_heeds h _) _) fun _ =>
    .bind (.expect _) fun _ => .bind (.spanFrom _) fun _ => .pure _

omit h in
theorem import_heeds (hknown : known) : import_.Heeds b known := by
  refine .bind (.advance hknown) fun _ => .current (fun _ _ => rfl) fun token => ?_
  split
  next hkind => exact .bind (.advance (by simp [hkind])) fun _ => .pure _
  next => exact .failExpecting _

theorem typedName_heeds : (typedName level).Heeds b known :=
  .bind name_heeds fun _ => .bind (.expect _) fun _ => .bind h.typeExpr fun _ => .pure _

theorem prototype_heeds (name : Name Span) : (prototype level name).Heeds b known :=
  .bind (.expect _) fun _ => .bind (.paramList (typedName_heeds h)) fun _ =>
    .bind (.expect _) fun _ => .bind (resultType_heeds h) fun _ => .bind (.spanFrom _) fun _ =>
      .pure _

theorem function_heeds (hknown : known) : (function level).Heeds b known :=
  .bind (.advance hknown) fun _ => .bind name_heeds fun _ => .bind (prototype_heeds h _) fun _ =>
    .bind h.block fun _ => .pure _

theorem recordDef_heeds (hknown : known) : (recordDef level).Heeds b known :=
  .bind (.advance hknown) fun _ => .bind name_heeds fun _ => .bind (.expect _) fun _ =>
    .bind (.commaList (typedName_heeds h) _) fun _ => .bind (.expect _) fun _ =>
      .bind (.spanFrom _) fun _ => .pure _

theorem variant_heeds : (variant level).Heeds b known := by
  unfold variant
  refine .bind name_heeds fun _ => .bind (.take? nofun) fun _ => ?_
  extract_lets rest
  have hrest (value : Option (Expr Span)) : (rest value).Heeds b False :=
    .bind (.spanFrom _) fun _ => .pure _
  exact .ite (fun _ => .bind (h.expr _ _) fun _ => .bind (.pure _) hrest) (.bind (.pure _) hrest)

theorem enumDef_heeds (hknown : known) : (enumDef level).Heeds b known :=
  .bind (.advance hknown) fun _ => .bind name_heeds fun _ => .bind (.expect _) fun _ =>
    .bind (.commaList (variant_heeds h) _) fun _ => .bind (.expect _) fun _ =>
      .bind (.spanFrom _) fun _ => .pure _

theorem external_heeds (hknown : known) : (external level).Heeds b known := by
  unfold external
  refine .bind (.advance hknown) fun _ => .bind (.take? nofun) fun _ => .bind name_heeds fun _ =>
    .isAt nofun fun _ => ?_
  extract_lets rest
  have hrest (definition : Definition Span) : (rest definition).Heeds b False :=
    .bind (.take? nofun) fun _ => .pure _
  refine .ite (fun _ => .bind (prototype_heeds h _) fun _ => .bind (.pure _) hrest) ?_
  refine .bind (.take? nofun) fun _ => .ite (fun _ => ?_) (.bind (.failExpecting _) hrest)
  exact .bind h.typeExpr fun _ => .bind (.spanFrom _) fun _ => .bind (.pure _) hrest

theorem constantDef_heeds (hknown : known) : (constantDef level).Heeds b known := by
  unfold constantDef
  refine .bind (.advance hknown) fun _ => .bind name_heeds fun _ =>
    .bind (typeAnnotation?_heeds h) fun _ => .bind (.expect _) fun _ => .isAt nofun fun _ => ?_
  extract_lets rest
  have hrest (value : ConstantValue Span) : (rest value).Heeds b False :=
    .bind (.expect _) fun _ => .bind (.spanFrom _) fun _ => .pure _
  refine .ite (fun hthere => ?_) (.bind (h.expr _ _) fun _ => .bind (.pure _) hrest)
  have hthere := (Bool.and_eq_true_iff.mp hthere).2
  exact .bind (import_heeds hthere) fun _ => .bind (.pure _) hrest

theorem definition_heeds : (definition level).Heeds b known := by
  refine .current (fun _ _ => rfl) fun token => ?_
  split
  next hkind => exact .bind (function_heeds h (by simp [hkind])) fun _ => .pure _
  next hkind => exact .bind (recordDef_heeds h (by simp [hkind])) fun _ => .pure _
  next hkind => exact .bind (recordDef_heeds h (by simp [hkind])) fun _ => .pure _
  next hkind => exact .bind (enumDef_heeds h (by simp [hkind])) fun _ => .pure _
  next hkind => exact external_heeds h (by simp [hkind])
  next hkind => exact .bind (constantDef_heeds h (by simp [hkind])) fun _ => .pure _
  next hkind => exact .bind (binding_heeds h (by simp [hkind])) fun _ => .pure _
  next => exact .failExpecting _

theorem declaration_heeds : (declaration level).Heeds b known :=
  .current (fun _ _ => rfl) fun _ => .bind (.take? nofun) fun _ =>
    .bind (definition_heeds h) fun _ => .bind (.spanFrom _) fun _ => .pure _

theorem item_heeds : (item level).Heeds b known := by
  refine .isAt nofun fun _ => .ite (fun hthere => ?_)
    (.bind (declaration_heeds h) fun _ => .pure _)
  exact .bind (import_heeds hthere) fun _ => .bind (.expect _) fun _ =>
    .bind (.spanFrom _) fun _ => .pure _

theorem moduleRound_heeds (read : List (Item Span)) : (moduleRound level read).Heeds b known := by
  refine .current (fun _ _ => rfl) fun token => ?_
  split
  next => exact .pure _
  next hgoes =>
    have hkind : token.kind ≠ .eof := by simpa [Token.isEof] using hgoes
    exact .bind (.recoverItem hkind (item_heeds h)) fun _ => .pure _

theorem items_heeds : (items level).Heeds b known :=
  .iterate (fun _ => moduleRound_heeds h _) _

end Rule

namespace Level

theorem lowest_heeds (b : Barrier) : lowest.Heeds b where
  expr _ _ := .failWith fun _ _ => rfl
  operand _ := .failWith fun _ _ => rfl
  typeExpr := .failWith fun _ _ => rfl
  block := .failWith fun _ _ => rfl
  branch _ := .failWith fun _ _ => rfl
  choice _ := .failWith fun _ _ => rfl

theorem above_heeds {level : Level} (h : level.Heeds b) : level.above.Heeds b where
  expr := Rule.expression_heeds h
  operand := Rule.operand_heeds h
  typeExpr := Rule.typeExpr_heeds h
  block := Rule.block_heeds h
  branch := Rule.branch_heeds h
  choice := Rule.choice_heeds h

theorem allowing_heeds (b : Barrier) (n : Nat) : (allowing n).Heeds b := by
  induction n with
  | zero => exact lowest_heeds b
  | succ n ih => exact above_heeds ih

end Level

end SourceFront
