import SourceFront.Grammar.Item

/-!
How rules are built. Every rule of the grammar is put together from the rules of a level by a
few means, and it fails with one of a few complaints about the token it stands at. So what is
kept by these means is true of every rule.
-/

namespace SourceFront

namespace Rule

/-- What a rule expects where no single symbol can stand, nor an expression, a type or a
pattern. -/
def expectations : List String :=
  ["identifier", "`(` or `:`", "module path string",
    "declaration (`fn`, `struct`, `union`, `enum`, `extern`, `const`, `let`)"]

/-- What a rule can find wrong with the token it stands at. -/
inductive Complaint : (Token → Cause) → Prop where
  | symbol (symbol : Symbol) :
      Complaint fun token => .unexpectedToken ("`" ++ symbol.spelling ++ "`") token.describe
  | phrase {expected : String} (hexpected : expected ∈ expectations) :
      Complaint fun token => .unexpectedToken expected token.describe
  | expr : Complaint fun token => .expectedExpr token.describe
  | type : Complaint fun token => .expectedType token.describe
  | pattern : Complaint fun token => .expectedPattern token.describe
  | nesting : Complaint fun _ => .nestingTooDeep Level.limit

/-- The rule is put together from the rules of the level, and looks at no more than the
current token by itself. -/
inductive Built (level : Level) : {α : Type} → Rule α → Prop where
  | expr (place : Place) (least : Nat) : Built level (level.expr place least)
  | operand (place : Place) : Built level (level.operand place)
  | typeExpr : Built level level.typeExpr
  | block : Built level level.block
  | branch : Built level level.branch
  | choice : Built level level.choice
  | pure {α : Type} (value : α) : Built level (pure value : Rule α)
  | bind {α β : Type} {rule : Rule α} {next : α → Rule β} (hrule : Built level rule)
      (hnext : ∀ value, Built level (next value)) : Built level (rule >>= next)
  | current : Built level Rule.current
  | advance : Built level Rule.advance
  | spanFrom (start : Span) : Built level (Rule.spanFrom start)
  | failWith {α : Type} {cause : Token → Cause} (hcause : Complaint cause) :
      Built level (Rule.failWith cause : Rule α)
  | iterate {σ : Type} {step : σ → Rule (Round σ)}
      (hstep : ∀ value, Built level (step value)) (value : σ) :
      Built level (Rule.iterate step value)
  | recoverStatement {α : Type} {rule : Rule α} (hrule : Built level rule) :
      Built level (Rule.recover rule State.skipStatement)
  | recoverItem {α : Type} {rule : Rule α} (hrule : Built level rule) :
      Built level (Rule.recover rule State.skipItem)

namespace Built

variable {level : Level} {α : Type}

theorem ite {c : Prop} [Decidable c] {yes no : Rule α} (hyes : yes.Built level)
    (hno : no.Built level) : (if c then yes else no).Built level := by
  split
  · exact hyes
  · exact hno

theorem isAt (kind : TokenKind) : (isAt kind).Built level :=
  .bind .current fun _ => .pure _

theorem isAtClose (close : Symbol) : (isAtClose close).Built level :=
  .bind .current fun _ => .pure _

theorem take? (kind : TokenKind) : (take? kind).Built level :=
  .bind (isAt kind) fun _ => .ite (.bind .advance fun _ => .pure _) (.pure _)

theorem failExpecting {expected : String} (hexpected : expected ∈ expectations) :
    (failExpecting expected : Rule α).Built level :=
  .failWith (.phrase hexpected)

theorem expect (symbol : Symbol) : (expect symbol).Built level :=
  .bind (isAt _) fun _ => .ite .advance (.failWith (.symbol symbol))

theorem commaList {element : Rule α} (helement : element.Built level) (close : Symbol) :
    (commaList close element).Built level := by
  refine .iterate (fun read => ?_) _
  refine .bind (isAtClose close) fun _ => .ite (.pure _) ?_
  exact .bind helement fun _ => .bind (take? _) fun _ => .ite (.pure _) (.pure _)

theorem paramList {param : Rule α} (hparam : param.Built level) :
    (paramList param).Built level := by
  refine .iterate (fun (read, _) => ?_) _
  refine .bind (isAtClose _) fun _ => .ite (.pure _) ?_
  refine .bind (take? _) fun _ => .ite (.pure _) ?_
  exact .bind hparam fun _ => .bind (take? _) fun _ => .ite (.pure _) (.pure _)

end Built

variable {level : Level}

theorem name_built : name.Built level := by
  refine .bind .current fun token => ?_
  split
  · exact .bind .advance fun _ => .pure _
  · exact .failExpecting (by simp [expectations])

theorem stars_built : stars.Built level :=
  .iterate (fun _ => .bind (.take? _) fun _ => .ite (.pure _) (.pure _)) _

theorem resultType_built : (resultType level).Built level :=
  .bind (.take? _) fun _ => .ite
    (.bind (.take? _) fun _ => .ite (.pure _) (.bind .typeExpr fun _ => .pure _))
    (.pure _)

theorem functionType_built : (functionType level).Built level :=
  .bind .advance fun _ => .bind (.expect _) fun _ =>
    .bind (.paramList .typeExpr) fun _ => .bind (.expect _) fun _ =>
      .bind resultType_built fun _ => .pure _

theorem typeBase_built (pointers : Nat) : (typeBase level pointers).Built level := by
  have hprimitive (type : Primitive) :
      (primitive type >>= fun base => pure (pointers, base)).Built level :=
    .bind (.bind .advance fun _ => .pure _) fun _ => .pure _
  refine .bind .current fun token => ?_
  split
  iterate 5 exact hprimitive _
  · exact .bind functionType_built fun _ => .pure _
  · exact .ite (.bind .advance fun _ => .pure _) (.bind name_built fun _ => .pure _)
  · exact .failWith .type

theorem sizes_built : (sizes level).Built level :=
  .iterate (fun _ => .bind (.take? _) fun _ => .ite
    (.bind (.expr _ _) fun _ => .bind (.expect _) fun _ => .pure _) (.pure _)) _

theorem typeExpr_built : (typeExpr level).Built level :=
  .bind .current fun _ => .bind stars_built fun _ => .bind (typeBase_built _) fun _ =>
    .bind sizes_built fun _ => .bind (.spanFrom _) fun _ => .pure _

theorem typeAnnotation?_built : (typeAnnotation? level).Built level :=
  .bind (.take? _) fun _ => .ite (.bind .typeExpr fun _ => .pure _) (.pure _)

theorem call_built (callee : Name Span) : (call level callee).Built level :=
  .bind (.expect _) fun _ => .bind (.commaList (.expr _ _) _) fun _ =>
    .bind (.expect _) fun _ => .pure _

theorem fieldInit_built : (fieldInit level).Built level :=
  .bind name_built fun _ => .bind (.expect _) fun _ => .bind (.expr _ _) fun _ => .pure _

theorem record_built (type : Name Span) : (record level type).Built level :=
  .bind (.expect _) fun _ => .bind (.commaList fieldInit_built _) fun _ =>
    .bind (.expect _) fun _ => .pure _

theorem named_built (place : Place) : (named level place).Built level :=
  .bind name_built fun _ => .bind (.isAt _) fun _ => .ite (call_built _)
    (.ite (.bind (.isAt _) fun _ => .ite (record_built _) (.pure _)) (.pure _))

theorem primary_built (place : Place) : (primary level place).Built level := by
  have hconstant (value : Constant) : (constant value).Built level :=
    .bind .advance fun _ => .pure _
  refine .bind .current fun token => ?_
  generalize token.kind = kind
  cases kind with
  | number | string | char => exact hconstant _
  | ident text => exact named_built place
  | keyword word =>
      cases word with
      | true_ | false_ | null => exact hconstant _
      | sizeof =>
          exact .bind .advance fun _ => .bind (.expect _) fun _ => .bind .typeExpr fun _ =>
            .bind (.expect _) fun _ => .pure _
      | _ => exact .failWith .expr
  | symbol sign =>
      cases sign with
      | leftParen =>
          exact .bind .advance fun _ => .bind (.expr _ _) fun _ => .bind (.expect _) fun _ =>
            .pure _
      | leftBracket =>
          exact .bind .advance fun _ => .bind (.commaList (.expr _ _) _) fun _ =>
            .bind (.expect _) fun _ => .pure _
      | _ => exact .failWith .expr
  | _ => exact .failWith .expr

theorem member_built : (member level).Built level :=
  .bind name_built fun _ => .bind (.isAt _) fun _ => .ite (call_built _) (.pure _)

theorem suffix_built (base : Expr Span) : (suffix level base).Built level := by
  refine .bind (.take? _) fun _ => .ite (.bind member_built fun _ => .pure _) ?_
  refine .bind (.take? _) fun _ => .ite (.bind member_built fun _ => .pure _) ?_
  refine .bind (.take? _) fun _ => .ite ?_ (.pure _)
  exact .bind (.expr _ _) fun _ => .bind (.expect _) fun _ => .pure _

theorem operand_built (place : Place) : (operand level place).Built level := by
  refine .bind .current fun token => ?_
  split
  · exact .bind .advance fun _ => .bind (.operand _) fun _ => .pure _
  · exact .bind (primary_built _) fun _ => .iterate suffix_built _

theorem operation_built (place : Place) (least : Nat) (left : Expr Span) :
    (operation level place least left).Built level := by
  refine .bind .current fun token => ?_
  split
  · exact .pure _
  · refine .ite (.pure _) (.bind .advance fun _ => ?_)
    split
    · exact .bind .typeExpr fun _ => .pure _
    · exact .bind (.expr _ _) fun _ => .pure _

theorem expression_built (place : Place) (least : Nat) :
    (expression level place least).Built level :=
  .bind (operand_built _) fun _ => .iterate (operation_built _ _) _

theorem binding_built : (binding level).Built level :=
  .bind .advance fun _ => .bind name_built fun _ =>
    .bind typeAnnotation?_built fun _ => .bind (.expect _) fun _ =>
      .bind (.expr _ _) fun _ => .bind (.expect _) fun _ => .bind (.spanFrom _) fun _ =>
        .pure _

theorem return_built : (return_ level).Built level := by
  unfold return_
  refine .bind .advance fun _ => .bind (.isAt _) fun _ => ?_
  extract_lets rest
  have hrest (value : Option (Expr Span)) : (rest value).Built level :=
    .bind (.expect _) fun _ => .bind (.spanFrom _) fun _ => .pure _
  exact .ite (.bind (.pure _) hrest) (.bind (.expr _ _) fun _ => .bind (.pure _) hrest)

theorem jump_built : jump.Built level :=
  .bind .advance fun _ => .bind (.expect _) fun _ => .spanFrom _

theorem branch_built : (branch level).Built level := by
  unfold branch
  refine .bind .advance fun _ => .bind (.expr _ _) fun _ => .bind .block fun _ =>
    .bind (.take? _) fun _ => ?_
  extract_lets rest
  have hrest (otherwise : Option (ElseBranch Span)) : (rest otherwise).Built level :=
    .bind (.spanFrom _) fun _ => .pure _
  refine .ite (.bind (.isAt _) fun _ => .ite ?_ ?_) (.bind (.pure _) hrest)
  · exact .bind .branch fun _ => .bind (.pure _) hrest
  · exact .bind .block fun _ => .bind (.pure _) hrest

theorem forInit_built : (forInit level).Built level :=
  .bind (.isAt _) fun _ => .ite (.bind binding_built fun _ => .pure _)
    (.bind (.expr _ _) fun _ => .bind (.expect _) fun _ => .pure _)

theorem for_built : (for_ level).Built level :=
  .bind .advance fun _ => .bind forInit_built fun _ => .bind (.expr _ _) fun _ =>
    .bind (.expect _) fun _ => .bind (.expr _ _) fun _ => .bind .block fun _ => .pure _

theorem pathTail_built (first : Name Span) : (pathTail first).Built level := by
  refine .iterate (fun _ => ?_) _
  refine .bind (.take? _) fun _ => .ite (.bind name_built fun _ => .pure _) ?_
  exact .bind (.take? _) fun _ => .ite (.bind name_built fun _ => .pure _) (.pure _)

theorem pattern_built : pattern.Built level := by
  refine .bind .current fun token => ?_
  split
  · exact .bind .advance fun _ => .pure _
  · exact .bind .advance fun _ => .pure _
  · refine .bind name_built fun _ => .ite (.pure _) ?_
    exact .bind (pathTail_built _) fun _ => .bind (.spanFrom _) fun _ => .pure _
  · exact .failWith .pattern

theorem patterns_built : patterns.Built level :=
  .bind pattern_built fun _ => .iterate (fun _ => .bind (.take? _) fun _ =>
    .ite (.bind pattern_built fun _ => .pure _) (.pure _)) _

theorem armBody_built : (armBody level).Built level := by
  refine .bind .current fun token => ?_
  split
  · exact .bind .block fun _ => .pure _
  · exact .bind return_built fun _ => .pure _
  · exact .bind .choice fun _ => .pure _
  · exact .bind jump_built fun _ => .pure _
  · exact .bind jump_built fun _ => .pure _
  · exact .bind (.expr _ _) fun _ => .bind (.expect _) fun _ => .pure _

theorem arm_built : (arm level).Built level :=
  .bind .current fun _ => .bind patterns_built fun _ => .bind (.expect _) fun _ =>
    .bind armBody_built fun _ => .bind (.spanFrom _) fun _ => .pure _

theorem arms_built : (arms level).Built level :=
  .iterate (fun _ => .bind (.isAtClose _) fun _ => .ite (.pure _)
    (.bind arm_built fun _ => .pure _)) _

theorem choice_built : (choice level).Built level :=
  .bind .advance fun _ => .bind (.expr _ _) fun _ => .bind (.expect _) fun _ =>
    .bind arms_built fun _ => .bind (.expect _) fun _ => .bind (.spanFrom _) fun _ =>
      .pure _

theorem statement_built : (statement level).Built level := by
  refine .bind .current fun token => ?_
  split
  · exact .bind binding_built fun _ => .pure _
  · exact .bind binding_built fun _ => .pure _
  · exact .bind .block fun _ => .pure _
  · exact .bind return_built fun _ => .pure _
  · exact .bind branch_built fun _ => .pure _
  · exact .bind .advance fun _ => .bind .block fun _ => .pure _
  · exact .bind .advance fun _ => .bind (.expr _ _) fun _ => .bind .block fun _ => .pure _
  · exact for_built
  · exact .bind choice_built fun _ => .pure _
  · exact .bind jump_built fun _ => .pure _
  · exact .bind jump_built fun _ => .pure _
  · exact .bind (.expr _ _) fun _ => .bind (.expect _) fun _ => .bind (.spanFrom _) fun _ =>
      .pure _

theorem blockRound_built (read : List (Stmt Span)) : (blockRound level read).Built level :=
  .bind .current fun _ => .ite (.pure _)
    (.bind (.recoverStatement statement_built) fun _ => .pure _)

theorem block_built : (block level).Built level :=
  .bind (.expect _) fun _ => .bind (.iterate blockRound_built _) fun _ =>
    .bind (.expect _) fun _ => .bind (.spanFrom _) fun _ => .pure _

theorem import_built : import_.Built level := by
  refine .bind .advance fun _ => .bind .current fun _ => ?_
  split
  · exact .bind .advance fun _ => .pure _
  · exact .failExpecting (by simp [expectations])

theorem typedName_built : (typedName level).Built level :=
  .bind name_built fun _ => .bind (.expect _) fun _ => .bind .typeExpr fun _ => .pure _

theorem prototype_built (name : Name Span) : (prototype level name).Built level :=
  .bind (.expect _) fun _ => .bind (.paramList typedName_built) fun _ =>
    .bind (.expect _) fun _ => .bind resultType_built fun _ => .bind (.spanFrom _) fun _ =>
      .pure _

theorem function_built : (function level).Built level :=
  .bind .advance fun _ => .bind name_built fun _ => .bind (prototype_built _) fun _ =>
    .bind .block fun _ => .pure _

theorem recordDef_built : (recordDef level).Built level :=
  .bind .advance fun _ => .bind name_built fun _ => .bind (.expect _) fun _ =>
    .bind (.commaList typedName_built _) fun _ => .bind (.expect _) fun _ =>
      .bind (.spanFrom _) fun _ => .pure _

theorem variant_built : (variant level).Built level := by
  unfold variant
  refine .bind name_built fun _ => .bind (.take? _) fun _ => ?_
  extract_lets rest
  have hrest (value : Option (Expr Span)) : (rest value).Built level :=
    .bind (.spanFrom _) fun _ => .pure _
  exact .ite (.bind (.expr _ _) fun _ => .bind (.pure _) hrest) (.bind (.pure _) hrest)

theorem enumDef_built : (enumDef level).Built level :=
  .bind .advance fun _ => .bind name_built fun _ => .bind (.expect _) fun _ =>
    .bind (.commaList variant_built _) fun _ => .bind (.expect _) fun _ =>
      .bind (.spanFrom _) fun _ => .pure _

theorem external_built : (external level).Built level := by
  unfold external
  refine .bind .advance fun _ => .bind (.take? _) fun _ => .bind name_built fun _ =>
    .bind (.isAt _) fun _ => ?_
  extract_lets rest
  have hrest (definition : Definition Span) : (rest definition).Built level :=
    .bind (.take? _) fun _ => .pure _
  refine .ite (.bind (prototype_built _) fun _ => .bind (.pure _) hrest) ?_
  refine .bind (.take? _) fun _ => .ite ?_ (.bind (.failExpecting (by simp [expectations])) hrest)
  exact .bind .typeExpr fun _ => .bind (.spanFrom _) fun _ => .bind (.pure _) hrest

theorem constantDef_built : (constantDef level).Built level := by
  unfold constantDef
  refine .bind .advance fun _ => .bind name_built fun _ =>
    .bind typeAnnotation?_built fun _ => .bind (.expect _) fun _ =>
      .bind (.isAt _) fun _ => ?_
  extract_lets rest
  have hrest (value : ConstantValue Span) : (rest value).Built level :=
    .bind (.expect _) fun _ => .bind (.spanFrom _) fun _ => .pure _
  exact .ite (.bind import_built fun _ => .bind (.pure _) hrest)
    (.bind (.expr _ _) fun _ => .bind (.pure _) hrest)

theorem definition_built : (definition level).Built level := by
  refine .bind .current fun token => ?_
  split
  · exact .bind function_built fun _ => .pure _
  · exact .bind recordDef_built fun _ => .pure _
  · exact .bind recordDef_built fun _ => .pure _
  · exact .bind enumDef_built fun _ => .pure _
  · exact external_built
  · exact .bind constantDef_built fun _ => .pure _
  · exact .bind binding_built fun _ => .pure _
  · exact .failExpecting (by simp [expectations])

theorem declaration_built : (declaration level).Built level :=
  .bind .current fun _ => .bind (.take? _) fun _ => .bind definition_built fun _ =>
    .bind (.spanFrom _) fun _ => .pure _

theorem item_built : (item level).Built level := by
  refine .bind (.isAt _) fun _ => .ite ?_ (.bind declaration_built fun _ => .pure _)
  exact .bind import_built fun _ => .bind (.expect _) fun _ => .bind (.spanFrom _) fun _ =>
    .pure _

theorem moduleRound_built (read : List (Item Span)) : (moduleRound level read).Built level :=
  .bind .current fun _ => .ite (.pure _)
    (.bind (.recoverItem item_built) fun _ => .pure _)

theorem items_built : (items level).Built level :=
  .iterate moduleRound_built _

end Rule

end SourceFront
