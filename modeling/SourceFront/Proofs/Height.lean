import SourceFront.Proofs.Completeness
import SourceFront.Tree.Height

/-!
The limit on nesting bounds the height of what is read. Each level adds two expressions at
most to a path: an operator, and the name or call that stands behind a point. Only the
chains that operators form with their first operands are as long as the source makes
them, so they count once.
-/

namespace SourceFront

namespace Rule

variable {α β σ : Type} {good : α → Prop} {good' : β → Prop}

/-- What the rule reads is good. -/
def Yields (good : α → Prop) (rule : Rule α) : Prop :=
  ∀ (s t : State) (value : α), rule s = .ok value t → good value

namespace Yields

theorem pure {value : α} (h : good value) : Yields good (pure value) := by
  intro s t value' hrun
  cases hrun
  exact h

theorem failWith (cause : Token → Cause) : Yields good (failWith cause) := by
  intro s t value hrun
  cases hrun

theorem bind {rule : Rule α} {next : α → Rule β} (hrule : Yields good rule)
    (hnext : ∀ value, good value → Yields good' (next value)) :
    Yields good' (rule >>= next) := by
  intro s t result hrun
  obtain ⟨value, u, hfirst, hsecond⟩ := bind_eq_ok.mp hrun
  exact hnext value (hrule s u value hfirst) u t result hsecond

theorem after {rule : Rule α} {next : α → Rule β} (hnext : ∀ value, Yields good' (next value)) :
    Yields good' (rule >>= next) :=
  bind (fun _ _ _ _ => trivial) fun value (_ : True) => hnext value

theorem imp {rule : Rule α} {weaker : α → Prop} (h : Yields good rule)
    (himp : ∀ value, good value → weaker value) : Yields weaker rule :=
  fun s t value hrun => himp value (h s t value hrun)

theorem ite {c : Prop} [Decidable c] {yes no : Rule α} (hyes : Yields good yes)
    (hno : Yields good no) : Yields good (if c then yes else no) := by
  split
  · exact hyes
  · exact hno

theorem iterate {good : σ → Prop} {step : σ → Rule (Round σ)} {value : σ} (h : good value)
    (hstep : ∀ value, good value → Yields (fun round => good round.value) (step value)) :
    Yields good (iterate step value) := by
  intro s t result hrun
  fun_induction Rule.iterate step value s with
  | case1 => cases hrun
  | case2 value s value' u hround =>
      cases hrun
      exact hstep value h s _ _ hround
  | case3 value s value' u hround _ ih => exact ih (hstep value h s u _ hround) hrun
  | case4 value s value' u hround _ =>
      cases hrun
      exact hstep value h s _ _ hround

theorem commaList {element : Rule α} (h : Yields good element) (close : Symbol) :
    Yields (fun values => ∀ value ∈ values, good value) (commaList close element) := by
  refine iterate (by simp) fun read hread => ?_
  refine .after fun _ => .ite (.pure hread) (h.bind fun value hvalue => ?_)
  have hmore : ∀ value' ∈ read ++ [value], good value' := by
    simpa [or_imp, forall_and] using ⟨hread, hvalue⟩
  exact .after fun _ => .ite (.pure hmore) (.pure hmore)

theorem paramList {param : Rule α} (h : Yields good param) :
    Yields (fun read => ∀ value ∈ read.1, good value) (paramList param) := by
  refine iterate (by simp) fun (read, _) hread => ?_
  refine .after fun _ => .ite (.pure hread) (.after fun _ => .ite (.pure hread) ?_)
  refine h.bind fun value hvalue => ?_
  have hmore : ∀ value' ∈ read ++ [value], good value' := by
    simpa [or_imp, forall_and] using ⟨hread, hvalue⟩
  exact .after fun _ => .ite (.pure hmore) (.pure hmore)

theorem recover {rule : Rule α} (h : Yields good rule) (resume : State → State → State) :
    Yields (fun value => ∀ found ∈ value, good found) (recover rule resume) := by
  intro s t value hrun
  unfold Rule.recover at hrun
  cases hfound : rule s with
  | ok found u =>
      rw [hfound] at hrun
      cases hrun
      simpa using h s _ found hfound
  | error problem u =>
      rw [hfound] at hrun
      cases hrun
      simp

end Yields

end Rule

/-- What the rules of the level read is no higher than `n`, if chains of operators count
once. -/
structure Level.Bounded (n : Nat) (level : Level) : Prop where
  expr : ∀ place least, Rule.Yields (fun expr => expr.height 0 ≤ n) (level.expr place least)
  operand : ∀ place, Rule.Yields (fun expr => expr.height 0 ≤ n) (level.operand place)
  typeExpr : Rule.Yields (fun type => type.height 0 ≤ n) level.typeExpr
  block : Rule.Yields (fun body => body.height 0 ≤ n) level.block
  branch : Rule.Yields (fun branch => branch.height 0 ≤ n) level.branch
  choice : Rule.Yields (fun choice => choice.height 0 ≤ n) level.choice

namespace Rule

variable {n : Nat} {inner : Level} (h : inner.Bounded n)
include h

theorem resultType_bounded :
    Yields (fun result => TypeExpr.heightOption 0 result ≤ n) (resultType inner) :=
  .after fun _ => .ite
    (.after fun _ => .ite (.pure (Nat.zero_le n)) (h.typeExpr.bind fun _ htype => .pure htype))
    (.pure (Nat.zero_le n))

omit h in
theorem primitive_bounded (type : Primitive) :
    Yields (fun base => base.height 0 ≤ n) (primitive type) :=
  .after fun _ => .pure (Nat.zero_le n)

theorem functionType_bounded : Yields (fun base => base.height 0 ≤ n) (functionType inner) := by
  refine .after fun _ => .after fun _ => .bind (.paramList h.typeExpr) fun read hread =>
    .after fun _ => .bind (resultType_bounded h) fun result hresult => .pure ?_
  rw [TypeBase.height, TypeExpr.heightList_eq]
  exact Nat.max_le.mpr ⟨greatest_le.mpr (by simpa using hread), hresult⟩

theorem typeBase_bounded (pointers : Nat) :
    Yields (fun base => base.2.height 0 ≤ n) (typeBase inner pointers) := by
  refine .after fun token => ?_
  split
  · exact .bind (primitive_bounded _) fun _ hbase => .pure hbase
  · exact .bind (primitive_bounded _) fun _ hbase => .pure hbase
  · exact .bind (primitive_bounded _) fun _ hbase => .pure hbase
  · exact .bind (primitive_bounded _) fun _ hbase => .pure hbase
  · exact .bind (primitive_bounded _) fun _ hbase => .pure hbase
  · exact .bind (functionType_bounded h) fun _ hbase => .pure hbase
  · exact .ite (.after fun _ => .pure (Nat.zero_le n)) (.after fun _ => .pure (Nat.zero_le n))
  · exact .failWith _

theorem sizes_bounded : Yields (fun sizes => ∀ size ∈ sizes, size.height 0 ≤ n) (sizes inner) := by
  refine .iterate (by simp) fun read hread => .after fun _ => .ite ?_ (.pure hread)
  refine .bind (h.expr .free 0) fun size hsize => .after fun _ => .pure ?_
  simpa [Round.value, or_imp, forall_and] using ⟨hread, hsize⟩

theorem typeExpr_bounded : Yields (fun type => type.height 0 ≤ n) (typeExpr inner) := by
  refine .after fun _ => .after fun _ => .bind (typeBase_bounded h _) fun base hbase =>
    .bind (sizes_bounded h) fun sizes hsizes => .after fun _ => .pure ?_
  rw [TypeExpr.height, Expr.heightList_eq]
  exact Nat.max_le.mpr ⟨hbase, greatest_le.mpr (by simpa using hsizes)⟩

theorem typeAnnotation?_bounded :
    Yields (fun type => TypeExpr.heightOption 0 type ≤ n) (typeAnnotation? inner) :=
  .after fun _ => .ite (h.typeExpr.bind fun _ htype => .pure htype) (.pure (Nat.zero_le n))

theorem call_bounded (callee : Name Span) :
    Yields (fun expr => expr.height 0 ≤ n + 1) (call inner callee) := by
  refine .after fun _ => .bind (.commaList (h.expr .free 0) _) fun args hargs =>
    .after fun _ => .pure ?_
  have hlist : Expr.heightList 0 args ≤ n := by
    rw [Expr.heightList_eq]
    exact greatest_le.mpr (by simpa using hargs)
  simp only [Expr.height]
  omega

theorem fieldInit_bounded : Yields (fun init => init.value.height 0 ≤ n) (fieldInit inner) :=
  .after fun _ => .after fun _ => .bind (h.expr .free 0) fun _ hvalue => .pure hvalue

theorem record_bounded (type : Name Span) :
    Yields (fun expr => expr.height 0 ≤ n + 1) (record inner type) := by
  refine .after fun _ => .bind (.commaList (fieldInit_bounded h) _) fun inits hinits =>
    .after fun _ => .pure ?_
  have hlist : FieldInit.heightList 0 inits ≤ n := by
    rw [FieldInit.heightList_eq]
    exact greatest_le.mpr (by simpa using hinits)
  simp only [Expr.height]
  omega

theorem named_bounded (place : Place) :
    Yields (fun expr => expr.height 0 ≤ n + 1) (named inner place) := by
  have hname (name : Name Span) :
      Yields (fun expr : Expr Span => expr.height 0 ≤ n + 1) (pure (.ident name)) :=
    .pure (Nat.le_add_left 1 n)
  refine .after fun name => .after fun _ => .ite (call_bounded h name) (.ite ?_ (hname name))
  exact .after fun _ => .ite (record_bounded h name) (hname name)

theorem primary_bounded (place : Place) :
    Yields (fun expr => expr.height 0 ≤ n + 1) (primary inner place) := by
  have hconstant (value : Constant) :
      Yields (fun expr => expr.height 0 ≤ n + 1) (constant value) :=
    .after fun _ => .pure (Nat.le_add_left 1 n)
  refine .after fun token => ?_
  generalize token.kind = kind
  cases kind with
  | number | string | char => exact hconstant _
  | ident text => exact named_bounded h place
  | keyword word =>
      cases word with
      | true_ | false_ | null => exact hconstant _
      | sizeof =>
          refine .after fun _ => .after fun _ => .bind h.typeExpr fun type htype =>
            .after fun _ => .pure ?_
          simp only [Expr.height]
          omega
      | _ => exact .failWith _
  | symbol sign =>
      cases sign with
      | leftParen =>
          refine .after fun _ => .bind (h.expr .free 0) fun value hvalue => .after fun _ => .pure ?_
          simp only [Expr.height]
          omega
      | leftBracket =>
          refine .after fun _ => .bind (.commaList (h.expr .free 0) _) fun elements helements =>
            .after fun _ => .pure ?_
          have hlist : Expr.heightList 0 elements ≤ n := by
            rw [Expr.heightList_eq]
            exact greatest_le.mpr (by simpa using helements)
          simp only [Expr.height]
          omega
      | _ => exact .failWith _
  | _ => exact .failWith _

theorem member_bounded : Yields (fun expr => expr.height 0 ≤ n + 1) (member inner) :=
  .after fun name => .after fun _ =>
    .ite (call_bounded h name) (.pure (Nat.le_add_left 1 n))

theorem suffix_bounded {base : Expr Span} (hbase : base.height 0 ≤ n + 2) :
    Yields (fun round => round.value.height 0 ≤ n + 2) (suffix inner base) := by
  refine .after fun _ => .ite (.bind (member_bounded h) fun right hright => .pure ?_)
    (.after fun _ => .ite (.bind (member_bounded h) fun right hright => .pure ?_)
      (.after fun _ => .ite (.bind (h.expr .free 0) fun right hright =>
        .after fun _ => .pure ?_) (.pure hbase)))
  · simp only [Round.value, Expr.height]
    omega
  · simp only [Round.value, Expr.height]
    omega
  · simp only [Round.value, Expr.height]
    omega

theorem operand_bounded (place : Place) :
    Yields (fun expr => expr.height 0 ≤ n + 2) (operand inner place) := by
  refine .after fun token => ?_
  split
  · refine .after fun _ => .bind (h.operand place) fun operand hoperand => .pure ?_
    simp only [Expr.height]
    omega
  · exact .bind (primary_bounded h place) fun first hfirst =>
      .iterate (Nat.le_succ_of_le hfirst) fun _ hbase => suffix_bounded h hbase

/-- The first operand of an operator is what has been read so far, so it counts as one with
the operator. -/
theorem operation_bounded (place : Place) (least : Nat) {left : Expr Span}
    (hleft : left.height 0 ≤ n + 2) :
    Yields (fun round => round.value.height 0 ≤ n + 2) (operation inner place least left) := by
  refine .after fun token => ?_
  split
  · exact .pure hleft
  · refine .ite (.pure hleft) (.after fun _ => ?_)
    split
    · refine .bind h.typeExpr fun type htype => .pure ?_
      simp only [Round.value, Expr.height]
      omega
    · refine .bind (h.expr place _) fun right hright => .pure ?_
      simp only [Round.value, Expr.height]
      omega

theorem expression_bounded (place : Place) (least : Nat) :
    Yields (fun expr => expr.height 0 ≤ n + 2) (expression inner place least) :=
  .bind (operand_bounded h place) fun _ hfirst =>
    .iterate hfirst fun _ hleft => operation_bounded h place least hleft

theorem binding_bounded : Yields (fun binding => binding.height 0 ≤ n) (binding inner) :=
  .after fun _ => .after fun _ => .bind (typeAnnotation?_bounded h) fun _ htype =>
    .after fun _ => .bind (h.expr .free 0) fun _ hvalue => .after fun _ => .after fun _ =>
      .pure (Nat.max_le.mpr ⟨htype, hvalue⟩)

theorem return_bounded :
    Yields (fun read => read.1.elim 0 (Expr.height 0) ≤ n) (return_ inner) := by
  unfold return_
  refine .after fun _ => ?_
  extract_lets start rest
  have hrest {value : Option (Expr Span)} (hvalue : value.elim 0 (Expr.height 0) ≤ n) :
      Yields (fun read => read.1.elim 0 (Expr.height 0) ≤ n) (rest value) :=
    .after fun _ => .after fun _ => .pure hvalue
  exact .after fun _ => .ite (.bind (.pure (Nat.zero_le n)) fun _ => hrest)
    (.bind (h.expr .free 0) fun _ hvalue => .bind (.pure hvalue) fun _ => hrest)

theorem branch_bounded : Yields (fun branch => branch.height 0 ≤ n) (branch inner) := by
  unfold branch
  refine .after fun _ => .bind (h.expr .beforeBlock 0) fun cond hcond =>
    .bind h.block fun thenBlock hthen => ?_
  extract_lets rest
  have hrest {otherwise : Option (ElseBranch Span)}
      (hotherwise : ElseBranch.heightOption 0 otherwise ≤ n) :
      Yields (fun branch => branch.height 0 ≤ n) (rest otherwise) :=
    .after fun _ => .pure (Nat.max_le.mpr ⟨Nat.max_le.mpr ⟨hcond, hthen⟩, hotherwise⟩)
  refine .after fun _ => .ite (.after fun _ => .ite ?_ ?_)
    (.bind (.pure (Nat.zero_le n)) fun _ => hrest)
  · exact .bind h.branch fun _ hbranch => .bind (.pure hbranch) fun _ => hrest
  · exact .bind h.block fun _ hbody => .bind (.pure hbody) fun _ => hrest

theorem forInit_bounded : Yields (fun init => init.height 0 ≤ n) (forInit inner) :=
  .after fun _ => .ite (.bind (binding_bounded h) fun _ hbinding => .pure hbinding)
    (.bind (h.expr .free 0) fun _ hvalue => .after fun _ => .pure hvalue)

theorem for_bounded : Yields (fun stmt => stmt.height 0 ≤ n) (for_ inner) :=
  .after fun _ => .bind (forInit_bounded h) fun _ hinit =>
    .bind (h.expr .beforeBlock 0) fun _ hcond => .after fun _ =>
      .bind (h.expr .beforeBlock 0) fun _ hstep => .bind h.block fun _ hbody =>
        .pure (Nat.max_le.mpr ⟨Nat.max_le.mpr ⟨hinit, hcond⟩, Nat.max_le.mpr ⟨hstep, hbody⟩⟩)

theorem armBody_bounded : Yields (fun body => body.height 0 ≤ n) (armBody inner) := by
  refine .after fun token => ?_
  split
  · exact .bind h.block fun _ hbody => .pure hbody
  · exact .bind (return_bounded h) fun _ hvalue => .pure hvalue
  · exact .bind h.choice fun _ hchoice => .pure hchoice
  · exact .after fun _ => .pure (Nat.zero_le n)
  · exact .after fun _ => .pure (Nat.zero_le n)
  · exact .bind (h.expr .free 0) fun _ hvalue => .after fun _ => .pure hvalue

theorem arm_bounded : Yields (fun arm => arm.body.height 0 ≤ n) (arm inner) :=
  .after fun _ => .after fun _ => .after fun _ => .bind (armBody_bounded h) fun _ hbody =>
    .after fun _ => .pure hbody

theorem arms_bounded : Yields (fun arms => ∀ arm ∈ arms, arm.body.height 0 ≤ n) (arms inner) := by
  refine .iterate (by simp) fun read hread => .after fun _ => .ite (.pure hread) ?_
  refine .bind (arm_bounded h) fun arm harm => .pure ?_
  simpa [Round.value, or_imp, forall_and] using ⟨hread, harm⟩

theorem choice_bounded : Yields (fun choice => choice.height 0 ≤ n) (choice inner) := by
  refine .after fun _ => .bind (h.expr .beforeBlock 0) fun subject hsubject =>
    .after fun _ => .bind (arms_bounded h) fun arms harms => .after fun _ =>
      .after fun _ => .pure ?_
  rw [MatchStmt.height, MatchArm.heightList_eq]
  exact Nat.max_le.mpr ⟨hsubject, greatest_le.mpr (by simpa using harms)⟩

theorem statement_bounded : Yields (fun stmt => stmt.height 0 ≤ n) (statement inner) := by
  refine .after fun token => ?_
  split
  · exact .bind (binding_bounded h) fun _ hbinding => .pure hbinding
  · exact .bind (binding_bounded h) fun _ hbinding => .pure hbinding
  · exact .bind h.block fun _ hbody => .pure hbody
  · exact .bind (return_bounded h) fun _ hvalue => .pure hvalue
  · exact .bind (branch_bounded h) fun _ hbranch => .pure hbranch
  · exact .after fun _ => .bind h.block fun _ hbody => .pure hbody
  · exact .after fun _ => .bind (h.expr .beforeBlock 0) fun _ hcond =>
      .bind h.block fun _ hbody => .pure (Nat.max_le.mpr ⟨hcond, hbody⟩)
  · exact for_bounded h
  · exact .bind (choice_bounded h) fun _ hchoice => .pure hchoice
  · exact .after fun _ => .pure (Nat.zero_le n)
  · exact .after fun _ => .pure (Nat.zero_le n)
  · exact .bind (h.expr .free 0) fun _ hvalue => .after fun _ => .after fun _ => .pure hvalue

theorem blockRounds_bounded :
    Yields (fun stmts => ∀ stmt ∈ stmts, stmt.height 0 ≤ n) (iterate (blockRound inner) []) := by
  refine .iterate (by simp) fun read hread => .after fun _ => .ite (.pure hread) ?_
  refine .bind (.recover (statement_bounded h) _) fun stmt hstmt => .pure ?_
  simpa [Round.value, or_imp, forall_and] using ⟨hread, hstmt⟩

theorem block_bounded : Yields (fun body => body.height 0 ≤ n) (block inner) := by
  refine .after fun _ => .bind (blockRounds_bounded h) fun stmts hstmts =>
    .after fun _ => .after fun _ => .pure ?_
  rw [Block.height, Stmt.heightList_eq]
  exact greatest_le.mpr (by simpa using hstmts)

end Rule

namespace Level

theorem Bounded.above {n : Nat} {level : Level} (h : level.Bounded n) :
    level.above.Bounded (n + 2) where
  expr place least := Rule.expression_bounded h place least
  operand place := Rule.operand_bounded h place
  typeExpr := (Rule.typeExpr_bounded h).imp fun _ hle => by omega
  block := (Rule.block_bounded h).imp fun _ hle => by omega
  branch := (Rule.branch_bounded h).imp fun _ hle => by omega
  choice := (Rule.choice_bounded h).imp fun _ hle => by omega

theorem allowing_bounded (n : Nat) : (allowing n).Bounded (2 * n) := by
  induction n with
  | zero =>
      exact ⟨fun _ _ => .failWith _, fun _ => .failWith _, .failWith _, .failWith _,
        .failWith _, .failWith _⟩
  | succ n ih => exact ih.above

end Level

namespace Rule

variable {n : Nat} {level : Level} (h : level.Bounded n)
include h

theorem typedName_bounded : Yields (fun typed => typed.type.height 0 ≤ n) (typedName level) :=
  .after fun _ => .after fun _ => .bind h.typeExpr fun _ htype => .pure htype

theorem prototype_bounded (name : Name Span) :
    Yields (fun proto => proto.height 0 ≤ n) (prototype level name) := by
  refine .after fun _ => .bind (.paramList (typedName_bounded h)) fun read hread =>
    .after fun _ => .bind (resultType_bounded h) fun result hresult =>
      .after fun _ => .pure (Nat.max_le.mpr ⟨greatest_le.mpr ?_, hresult⟩)
  simpa using hread

theorem function_bounded :
    Yields (fun def_ => (Definition.function def_).height 0 ≤ n) (function level) :=
  .after fun _ => .after fun name => .bind (prototype_bounded h name) fun _ hproto =>
    .bind h.block fun _ hbody => .pure (Nat.max_le.mpr ⟨hproto, hbody⟩)

theorem recordDef_bounded :
    Yields (fun def_ => greatest (def_.fields.map fun field => field.type.height 0) ≤ n)
      (recordDef level) := by
  refine .after fun _ => .after fun _ => .after fun _ =>
    .bind (.commaList (typedName_bounded h) _) fun fields hfields => .after fun _ =>
      .after fun _ => .pure (greatest_le.mpr ?_)
  simpa using hfields

theorem variant_bounded :
    Yields (fun variant => variant.value.elim 0 (Expr.height 0) ≤ n) (variant level) := by
  unfold variant
  refine .after fun name => ?_
  extract_lets rest
  have hrest {value : Option (Expr Span)} (hvalue : value.elim 0 (Expr.height 0) ≤ n) :
      Yields (fun variant => variant.value.elim 0 (Expr.height 0) ≤ n) (rest value) :=
    .after fun _ => .pure hvalue
  exact .after fun _ => .ite
    (.bind (h.expr .free 0) fun _ hvalue => .bind (.pure hvalue) fun _ => hrest)
    (.bind (.pure (Nat.zero_le n)) fun _ => hrest)

theorem enumDef_bounded :
    Yields (fun def_ => greatest (def_.variants.map fun variant =>
      variant.value.elim 0 (Expr.height 0)) ≤ n) (enumDef level) := by
  refine .after fun _ => .after fun _ => .after fun _ =>
    .bind (.commaList (variant_bounded h) _) fun variants hvariants => .after fun _ =>
      .after fun _ => .pure (greatest_le.mpr ?_)
  simpa using hvariants

theorem external_bounded : Yields (fun definition => definition.height 0 ≤ n) (external level) := by
  unfold external
  refine .after fun _ => .after fun _ => .after fun name => ?_
  extract_lets rest
  have hrest {definition : Definition Span} (hdefinition : definition.height 0 ≤ n) :
      Yields (fun definition => definition.height 0 ≤ n) (rest definition) :=
    .after fun _ => .pure hdefinition
  refine .after fun _ => .ite ?_ (.after fun _ => .ite ?_ (.bind (.failWith _) fun _ => hrest))
  · exact .bind (prototype_bounded h name) fun _ hproto => .bind (.pure hproto) fun _ => hrest
  · exact .bind h.typeExpr fun _ htype => .after fun _ => .bind (.pure htype) fun _ => hrest

theorem constantDef_bounded : Yields (fun def_ => def_.value.height 0 ≤ n) (constantDef level) := by
  unfold constantDef
  refine .after fun _ => .after fun _ => .bind (typeAnnotation?_bounded h) fun type htype =>
    .after fun _ => .after fun _ => ?_
  extract_lets rest
  have hrest {value : ConstantValue Span} (hvalue : value.height 0 ≤ n) :
      Yields (fun def_ => def_.value.height 0 ≤ n) (rest value) :=
    .after fun _ => .after fun _ => .pure hvalue
  refine .ite (.after fun _ => .bind (.pure (Nat.zero_le n)) fun _ => hrest) ?_
  exact .bind (h.expr .free 0) fun _ hvalue =>
    .bind (.pure (Nat.max_le.mpr ⟨htype, hvalue⟩)) fun _ => hrest

theorem definition_bounded :
    Yields (fun definition => definition.height 0 ≤ n) (definition level) := by
  refine .after fun token => ?_
  split
  · exact .bind (function_bounded h) fun _ hdef => .pure hdef
  · exact .bind (recordDef_bounded h) fun _ hdef => .pure hdef
  · exact .bind (recordDef_bounded h) fun _ hdef => .pure hdef
  · exact .bind (enumDef_bounded h) fun _ hdef => .pure hdef
  · exact external_bounded h
  · exact .bind (constantDef_bounded h) fun _ hdef => .pure hdef
  · exact .bind (binding_bounded h) fun _ hbinding => .pure hbinding
  · exact .failWith _

theorem declaration_bounded :
    Yields (fun decl => decl.definition.height 0 ≤ n) (declaration level) :=
  .after fun _ => .after fun _ => .bind (definition_bounded h) fun _ hdefinition =>
    .after fun _ => .pure hdefinition

theorem item_bounded : Yields (fun item => item.height 0 ≤ n) (item level) :=
  .after fun _ => .ite
    (.after fun _ => .after fun _ => .after fun _ => .pure (Nat.zero_le n))
    (.bind (declaration_bounded h) fun _ hdecl => .pure hdecl)

theorem items_bounded : Yields (fun items => ∀ item ∈ items, item.height 0 ≤ n) (items level) := by
  refine .iterate (by simp) fun read hread => .after fun _ => .ite (.pure hread) ?_
  refine .bind (.recover (item_bounded h) _) fun item hitem => .pure ?_
  simpa [Round.value, or_imp, forall_and] using ⟨hread, hitem⟩

end Rule

/-- However a source is written, its module is at most two expressions high for each of the 64
levels of nesting, if an operator counts once with the operand that it begins with. -/
theorem analyse_height_le (source : String) (fileId : Nat) :
    (analyse source fileId).module.height 0 ≤ 128 := by
  obtain ⟨items, after, hitems⟩ := Rule.exists_items (Reading.ofSource source fileId).state
  have hbounded := Rule.items_bounded (Level.allowing_bounded Level.limit) _ _ _ hitems
  rw [Module.height, (analyse_of_items hitems).1, greatest_le]
  simpa [Level.limit] using hbounded

/-- The expression `a.a.….a` with `n` points. -/
def Expr.ofMembers : (n : Nat) → Expr Unit
  | 0 => .ident ⟨"a", ()⟩
  | n + 1 => .binary .member (ofMembers n) (.ident ⟨"a", ()⟩) ()

/-- The variable `let x = a.a.….a;` with `n` points. -/
def Item.ofMembers (n : Nat) : Item Unit :=
  .declaration ⟨false, .variable_ ⟨⟨"x", ()⟩, none, .ofMembers n, ()⟩, ()⟩

/-- A module of one function with a chain of points in it. -/
def Module.ofMembers (n : Nat) : Module Unit :=
  ⟨[.ofMembers n], ()⟩

section

variable (n : Nat)

theorem Expr.phrase_ofMembers :
    ((ofMembers n).phrase .free).holds = true ∧ ((ofMembers n).phrase .free).nesting = 0 ∧
      (∀ a ∈ ((ofMembers n).phrase .free).terminals, a.isProper = true) ∧
      BinaryOp.member.precedence ≤ (ofMembers n).precedence := by
  have hname : (Terminal.ident "a").isProper = true := by decide
  induction n with
  | zero => simpa [ofMembers, phrase, Name.phrase, precedence] using hname
  | succ n ih =>
      obtain ⟨hholds, hnesting, hproper, hprecedence⟩ := ih
      have hleft : BinaryOp.member.leftPrecedence ≤ (ofMembers n).precedence := hprecedence
      refine ⟨?_, ?_, ?_, Nat.le_refl _⟩
      · simp [ofMembers, phrase, Name.phrase, hleft, hholds, isMember]
      · simp [ofMembers, phrase, Name.phrase, hnesting]
      · simpa [ofMembers, phrase, Name.phrase, or_imp, forall_and] using
          ⟨hproper, rfl, hname⟩

theorem Module.ofMembers_wellFormed :
    (ofMembers n).WellFormed ∧ (ofMembers n).nesting ≤ Level.limit := by
  have hx : (Terminal.ident "x").isProper = true := by decide
  obtain ⟨hholds, hnesting, hproper, -⟩ := Expr.phrase_ofMembers n
  refine ⟨⟨?_, ?_⟩, ?_⟩
  · simp [ofMembers, Item.ofMembers, phrase, Item.phrase, Declaration.phrase, Definition.phrase,
      Binding.phrase, Binding.tail, Name.phrase, TypeExpr.annotation, Expr.whole,
      Phrase.gapped, hholds]
  · simpa [ofMembers, Item.ofMembers, phrase, Item.phrase, Declaration.phrase, Definition.phrase,
      Binding.phrase, Binding.tail, Name.phrase, TypeExpr.annotation, Expr.whole,
      Phrase.gapped, or_imp, forall_and] using ⟨rfl, hx, rfl, hproper, rfl⟩
  · simp [ofMembers, Item.ofMembers, nesting, phrase, Item.phrase, Declaration.phrase,
      Definition.phrase, Binding.phrase, Binding.tail, Name.phrase, TypeExpr.annotation,
      Expr.whole, Phrase.gapped, hnesting, Level.limit]

end

/-- A tree of the shape of a chain is as high as the chain is long. -/
theorem Expr.lt_height_of_map {n : Nat} {expr : Expr Span}
    (h : expr.map forget = (ofMembers n).map forget) : n < expr.height 1 := by
  induction n generalizing expr with
  | zero => cases expr <;> simp_all [Expr.map, ofMembers, height]
  | succ n ih =>
      cases expr with
      | binary op left right note =>
          obtain ⟨-, hleft, -⟩ : op = .member ∧ left.map forget = (ofMembers n).map forget ∧ _ := by
            simpa [Expr.map, ofMembers] using h
          have hlt := ih hleft
          simp only [height]
          omega
      | _ => simp [Expr.map, ofMembers] at h

theorem Item.lt_height_of_map {n : Nat} {item : Item Span}
    (h : item.map forget = (ofMembers n).map forget) : n < item.height 1 := by
  cases item with
  | import_ source => cases h
  | declaration decl =>
      obtain ⟨isPublic, definition, note⟩ := decl
      cases definition with
      | variable_ binding =>
          obtain ⟨-, -, -, hvalue⟩ : isPublic = false ∧ _ ∧ _ ∧
              binding.value.map forget = (Expr.ofMembers n).map forget := by
            simpa [map, ofMembers, Declaration.map, Definition.map, Binding.map] using h
          exact Nat.lt_of_lt_of_le (Expr.lt_height_of_map hvalue) (Nat.le_max_right _ _)
      | _ => simp [map, ofMembers, Declaration.map, Definition.map] at h

theorem Module.lt_height_print (n : Nat) (fileId : Nat) :
    n < (analyse (ofMembers n).print fileId).module.height 1 := by
  obtain ⟨hformed, hfits⟩ := ofMembers_wellFormed n
  obtain ⟨hforms, hlexical⟩ := hformed.tokens_print fileId
  obtain ⟨hahead, -, hproblems⟩ := ofSource_state (ofMembers n).print fileId
  rw [← hahead] at hforms
  obtain ⟨t, hspells, hend⟩ := State.spells_of_forms hforms hproblems
  have hgives := Rule.items_gives (Level.allowing_recognises Level.limit)
    (Level.allowing_framed _) hformed.holds hspells (by rw [State.current, hend]; rfl)
  obtain ⟨items, hitems, hshape⟩ := hgives.ok hfits
  obtain ⟨item, rfl, hitem⟩ := List.map_eq_singleton_iff.mp hshape
  rw [height, (analyse_of_written hlexical hitems).1]
  exact Nat.lt_of_lt_of_le (Item.lt_height_of_map hitem) (le_greatest (by simp))

/-- Not all chains of operators are bounded with the nesting: of this module, which is not
nested, a path has more expressions than 16 for each of 64 levels. -/
theorem Module.not_height_print_le :
    ¬ (analyse (ofMembers 1024).print 0).module.height 1 ≤ 1024 :=
  Nat.not_le.mpr (lt_height_print 1024 0)

end SourceFront
