import SourceFront.Proofs.Completeness
import SourceFront.Tree.Part

/-!
What holds of all parts of a module. If each rule for an expression, a type, a block or a
match reads only what is good, wherever it begins in the source, then all parts of the
module are good, those behind and inside of what failed too.
-/

namespace SourceFront

theorem forall_mem_flatMap {α β : Type} {good : β → Prop} {nodes : List α} {parts : α → List β} :
    (∀ part ∈ nodes.flatMap parts, good part) ↔
      ∀ node ∈ nodes, ∀ part ∈ parts node, good part := by
  simp only [List.mem_flatMap]
  exact ⟨fun h node hnode part hpart => h part ⟨node, hnode, hpart⟩,
    fun h part ⟨node, hnode, hpart⟩ => h node hnode part hpart⟩

namespace Rule

variable {α β σ : Type} {tokens : List Token} {good : α → Prop} {good' : β → Prop}

/-- Where the rule begins at the last of these tokens, it goes on there, and what it reads is
good. -/
structure Finds (tokens : List Token) (good : α → Prop) (rule : Rule α) : Prop where
  ok : ∀ {s t : State} {value : α}, s.ahead <:+ tokens →
    rule s = .ok value t → good value ∧ t.ahead <:+ tokens
  error : ∀ {s t : State} {problem : Problem}, s.ahead <:+ tokens →
    rule s = .error problem t → t.ahead <:+ tokens

namespace Finds

theorem suffix_of_passes {s t : State} (h : s.ahead <:+ tokens)
    (hpasses : ∃ passed, s.Passes passed t) : t.ahead <:+ tokens := by
  obtain ⟨passed, hpassed⟩ := hpasses
  rw [hpassed.ahead] at h
  exact (List.suffix_append passed t.ahead).trans h

theorem of_framed {rule : Rule α} (h : rule.Framed)
    (hgood : ∀ {s t : State} {value : α}, s.ahead <:+ tokens → rule s = .ok value t → good value) :
    Finds tokens good rule where
  ok hs hrun := ⟨hgood hs hrun, suffix_of_passes hs (h.ok hrun)⟩
  error hs hrun := suffix_of_passes hs (h.error hrun).2

theorem pure {value : α} (h : good value) : Finds tokens good (pure value) :=
  of_framed (.pure value) fun _ hrun => by
    cases hrun
    exact h

theorem failWith (cause : Token → Cause) : Finds tokens good (failWith cause) :=
  of_framed (.failWith cause) fun _ hrun => nomatch hrun

theorem bind {rule : Rule α} {next : α → Rule β} (hrule : Finds tokens good rule)
    (hnext : ∀ value, good value → Finds tokens good' (next value)) :
    Finds tokens good' (rule >>= next) where
  ok hs hrun := by
    obtain ⟨value, u, hfirst, hsecond⟩ := bind_eq_ok.mp hrun
    obtain ⟨hvalue, hu⟩ := hrule.ok hs hfirst
    exact (hnext value hvalue).ok hu hsecond
  error hs hrun := by
    rcases bind_eq_error.mp hrun with hfirst | ⟨value, u, hfirst, hsecond⟩
    · exact hrule.error hs hfirst
    · obtain ⟨hvalue, hu⟩ := hrule.ok hs hfirst
      exact (hnext value hvalue).error hu hsecond

theorem after {rule : Rule α} {next : α → Rule β} (hrule : rule.Framed)
    (hnext : ∀ value, Finds tokens good' (next value)) : Finds tokens good' (rule >>= next) :=
  bind (of_framed hrule fun _ _ => trivial) fun value (_ : True) => hnext value

theorem imp {rule : Rule α} {weaker : α → Prop} (h : Finds tokens good rule)
    (himp : ∀ value, good value → weaker value) : Finds tokens weaker rule where
  ok hs hrun := (h.ok hs hrun).imp_left (himp _)
  error := h.error

theorem and {also : α → Prop} {rule : Rule α} (h : Finds tokens good rule)
    (halso : Finds tokens also rule) :
    Finds tokens (fun value => good value ∧ also value) rule where
  ok hs hrun := ⟨⟨(h.ok hs hrun).1, (halso.ok hs hrun).1⟩, (h.ok hs hrun).2⟩
  error := h.error

theorem ite {c : Prop} [Decidable c] {yes no : Rule α} (hyes : Finds tokens good yes)
    (hno : Finds tokens good no) : Finds tokens good (if c then yes else no) := by
  split
  · exact hyes
  · exact hno

theorem iterate {good : σ → Prop} {step : σ → Rule (Round σ)} {value : σ} (h : good value)
    (hstep : ∀ value, good value → Finds tokens (fun round => good round.value) (step value)) :
    Finds tokens good (iterate step value) where
  ok {s t result} hs hrun := by
    fun_induction Rule.iterate step value s with
    | case1 => cases hrun
    | case2 value s value' u hround =>
        cases hrun
        exact (hstep value h).ok hs hround
    | case3 value s value' u hround _ ih =>
        obtain ⟨hmore, hu⟩ := (hstep value h).ok hs hround
        exact ih hmore hu hrun
    | case4 value s value' u hround _ =>
        cases hrun
        exact (hstep value h).ok hs hround
  error {s t problem} hs hrun := by
    fun_induction Rule.iterate step value s with
    | case1 value s problem' u hround =>
        cases hrun
        exact (hstep value h).error hs hround
    | case2 => cases hrun
    | case3 value s value' u hround _ ih =>
        obtain ⟨hmore, hu⟩ := (hstep value h).ok hs hround
        exact ih hmore hu hrun
    | case4 => cases hrun

theorem commaList {element : Rule α} (h : Finds tokens good element) (close : Symbol) :
    Finds tokens (fun values => ∀ value ∈ values, good value) (commaList close element) := by
  refine iterate (by simp) fun read hread => ?_
  refine .after (.isAtClose _) fun _ => .ite (.pure hread) (h.bind fun value hvalue => ?_)
  have hmore : ∀ value' ∈ read ++ [value], good value' := by
    simpa [or_imp, forall_and] using ⟨hread, hvalue⟩
  exact .after (.take? _) fun _ => .ite (.pure hmore) (.pure hmore)

theorem paramList {param : Rule α} (h : Finds tokens good param) :
    Finds tokens (fun read => ∀ value ∈ read.1, good value) (paramList param) := by
  refine iterate (by simp) fun (read, _) hread => ?_
  refine .after (.isAtClose _) fun _ => .ite (.pure hread)
    (.after (.take? _) fun _ => .ite (.pure hread) (h.bind fun value hvalue => ?_))
  have hmore : ∀ value' ∈ read ++ [value], good value' := by
    simpa [or_imp, forall_and] using ⟨hread, hvalue⟩
  exact .after (.take? _) fun _ => .ite (.pure hmore) (.pure hmore)

theorem recover {rule : Rule α} {resume : State → State → State} (h : Finds tokens good rule)
    (hframed : rule.Framed) (hresume : State.Resumption resume) :
    Finds tokens (fun value => ∀ found ∈ value, good found) (recover rule resume) :=
  of_framed (.recover hframed hresume) fun {s t value} hs hrun => by
    unfold Rule.recover at hrun
    cases hfound : rule s with
    | ok found u =>
        rw [hfound] at hrun
        cases hrun
        simpa using (h.ok hs hfound).1
    | error problem u =>
        rw [hfound] at hrun
        cases hrun
        simp

end Finds

end Rule

/-- What the rules of the level read is good, wherever they begin. -/
structure Level.Admits (tokens : List Token) (good : Part Span → Prop) (level : Level) :
    Prop where
  expr : ∀ place, Rule.Finds tokens (fun value => good (.expr place value)) (level.expr place 0)
  typeExpr : Rule.Finds tokens (fun type => good (.type type)) level.typeExpr
  block : Rule.Finds tokens (fun body => good (.block body)) level.block
  choice : Rule.Finds tokens (fun choice => good (.choice choice)) level.choice

/-- What the rules of the level read is good with all its parts, wherever they begin. -/
structure Level.Finds (tokens : List Token) (good : Part Span → Prop) (level : Level) :
    Prop where
  framed : level.Framed
  expr : ∀ place, Rule.Finds tokens (fun value => good (.expr place value)) (level.expr place 0)
  typeExpr : Rule.Finds tokens (fun type => good (.type type)) level.typeExpr
  block : Rule.Finds tokens (fun body => ∀ part ∈ body.parts, good part) level.block
  branch : Rule.Finds tokens (fun branch => ∀ part ∈ branch.parts, good part) level.branch
  choice : Rule.Finds tokens (fun choice => ∀ part ∈ choice.parts, good part) level.choice

namespace Rule

variable {tokens : List Token} {good : Part Span → Prop} {level : Level}

section Statements

variable (h : level.Finds tokens good)
include h

theorem resultType_finds :
    Finds tokens (fun result => ∀ part ∈ Part.types result, good part) (resultType level) := by
  have hnone : ∀ part ∈ Part.types (none : Option (TypeExpr Span)), good part := by
    simp [Part.types]
  refine .after (.take? _) fun _ => .ite (.after (.take? _) fun _ => .ite (.pure hnone) ?_)
    (.pure hnone)
  exact h.typeExpr.bind fun type htype => .pure (by simpa [Part.types] using htype)

theorem typeAnnotation?_finds :
    Finds tokens (fun type => ∀ part ∈ Part.types type, good part) (typeAnnotation? level) :=
  .after (.take? _) fun _ => .ite
    (h.typeExpr.bind fun type htype => .pure (by simpa [Part.types] using htype))
    (.pure (by simp [Part.types]))

theorem binding_finds :
    Finds tokens (fun binding => ∀ part ∈ binding.parts, good part) (binding level) := by
  refine .after .advance fun _ => .after name_framed fun _ => .bind (typeAnnotation?_finds h)
    fun type htype => .after (.expect _) fun _ => .bind (h.expr .free) fun value hvalue =>
      .after (.expect _) fun _ => .after (.spanFrom _) fun _ => .pure ?_
  simpa [Binding.parts, or_imp, forall_and] using ⟨htype, hvalue⟩

theorem return_finds :
    Finds tokens (fun read => ∀ part ∈ Part.values read.1, good part) (return_ level) := by
  unfold return_
  refine .after .advance fun _ => ?_
  extract_lets start rest
  have hrest {value : Option (Expr Span)} (hvalue : ∀ part ∈ Part.values value, good part) :
      Finds tokens (fun read => ∀ part ∈ Part.values read.1, good part) (rest value) :=
    .after (.expect _) fun _ => .after (.spanFrom _) fun _ => .pure hvalue
  exact .after (.isAt _) fun _ => .ite
    (.bind (.pure (by simp [Part.values])) fun _ => hrest)
    (.bind (h.expr .free) fun value hvalue =>
      .bind (.pure (by simpa [Part.values] using hvalue)) fun _ => hrest)

theorem branch_finds :
    Finds tokens (fun branch => ∀ part ∈ branch.parts, good part) (branch level) := by
  unfold branch
  refine .after .advance fun _ => .bind (h.expr .beforeBlock) fun cond hcond =>
    .bind h.block fun thenBlock hthen => ?_
  extract_lets rest
  have hrest {otherwise : Option (ElseBranch Span)}
      (hotherwise : ∀ part ∈ ElseBranch.optionParts otherwise, good part) :
      Finds tokens (fun branch => ∀ part ∈ branch.parts, good part) (rest otherwise) := by
    refine .after (.spanFrom _) fun _ => .pure ?_
    simpa [IfStmt.parts, or_imp, forall_and] using ⟨hcond, hthen, hotherwise⟩
  refine .after (.take? _) fun _ => .ite (.after (.isAt _) fun _ => .ite ?_ ?_)
    (.bind (.pure (by simp [ElseBranch.optionParts])) fun _ => hrest)
  · exact .bind h.branch fun _ hbranch => .bind (.pure hbranch) fun _ => hrest
  · exact .bind h.block fun _ hbody => .bind (.pure hbody) fun _ => hrest

theorem forInit_finds :
    Finds tokens (fun init => ∀ part ∈ init.parts, good part) (forInit level) :=
  .after (.isAt _) fun _ => .ite (.bind (binding_finds h) fun _ hbinding => .pure hbinding)
    (.bind (h.expr .free) fun _ hvalue => .after (.expect _) fun _ =>
      .pure (by simpa [ForInit.parts] using hvalue))

theorem for_finds : Finds tokens (fun stmt => ∀ part ∈ stmt.parts, good part) (for_ level) := by
  refine .after .advance fun _ => .bind (forInit_finds h) fun init hinit =>
    .bind (h.expr .beforeBlock) fun cond hcond => .after (.expect _) fun _ =>
      .bind (h.expr .beforeBlock) fun step hstep => .bind h.block fun body hbody => .pure ?_
  simpa [Stmt.parts, or_imp, forall_and] using ⟨hinit, hcond, hstep, hbody⟩

theorem armBody_finds :
    Finds tokens (fun body => ∀ part ∈ body.parts, good part) (armBody level) := by
  refine .after .current fun token => ?_
  split
  · exact .bind h.block fun _ hbody => .pure hbody
  · exact .bind (return_finds h) fun _ hvalue => .pure hvalue
  · exact .bind h.choice fun _ hchoice => .pure hchoice
  · exact .after jump_framed fun _ => .pure (by simp [ArmBody.parts])
  · exact .after jump_framed fun _ => .pure (by simp [ArmBody.parts])
  · exact .bind (h.expr .free) fun _ hvalue => .after (.expect _) fun _ =>
      .pure (by simpa [ArmBody.parts] using hvalue)

theorem arm_finds :
    Finds tokens (fun arm => ∀ part ∈ arm.body.parts, good part) (arm level) :=
  .after .current fun _ => .after patterns_framed fun _ => .after (.expect _) fun _ =>
    .bind (armBody_finds h) fun _ hbody => .after (.spanFrom _) fun _ => .pure hbody

theorem arms_finds :
    Finds tokens (fun arms => ∀ arm ∈ arms, ∀ part ∈ arm.body.parts, good part)
      (arms level) := by
  refine .iterate (by simp) fun read hread => .after (.isAtClose _) fun _ => .ite (.pure hread) ?_
  refine .bind (arm_finds h) fun arm harm => .pure ?_
  simpa [Round.value, or_imp, forall_and] using ⟨hread, harm⟩

theorem choice_finds
    (hself : Finds tokens (fun choice => good (.choice choice)) (choice level)) :
    Finds tokens (fun choice => ∀ part ∈ choice.parts, good part) (choice level) := by
  have hparts : Finds tokens (fun choice => good (.expr .beforeBlock choice.subject) ∧
      ∀ part ∈ MatchArm.listParts choice.arms, good part) (choice level) :=
    .after .advance fun _ => .bind (h.expr .beforeBlock) fun subject hsubject =>
      .after (.expect _) fun _ => .bind (arms_finds h) fun arms harms =>
        .after (.expect _) fun _ => .after (.spanFrom _) fun _ => .pure ⟨hsubject, by
          rw [MatchArm.listParts_eq]
          exact forall_mem_flatMap.mpr harms⟩
  refine (hself.and hparts).imp fun choice ⟨hchoice, hsubject, harms⟩ => ?_
  obtain ⟨subject, arms, note⟩ := choice
  simpa [MatchStmt.parts, or_imp, forall_and] using ⟨hchoice, hsubject, harms⟩

theorem statement_finds
    (hself : Finds tokens (fun choice => good (.choice choice)) (choice level)) :
    Finds tokens (fun stmt => ∀ part ∈ stmt.parts, good part) (statement level) := by
  refine .after .current fun token => ?_
  split
  · exact .bind (binding_finds h) fun _ hbinding => .pure hbinding
  · exact .bind (binding_finds h) fun _ hbinding => .pure hbinding
  · exact .bind h.block fun _ hbody => .pure hbody
  · exact .bind (return_finds h) fun _ hvalue => .pure hvalue
  · exact .bind (branch_finds h) fun _ hbranch => .pure hbranch
  · exact .after .advance fun _ => .bind h.block fun _ hbody => .pure hbody
  · refine .after .advance fun _ => .bind (h.expr .beforeBlock) fun cond hcond =>
      .bind h.block fun body hbody => .pure ?_
    simpa [Stmt.parts, or_imp, forall_and] using ⟨hcond, hbody⟩
  · exact for_finds h
  · exact .bind (choice_finds h hself) fun _ hchoice => .pure hchoice
  · exact .after jump_framed fun _ => .pure (by simp [Stmt.parts])
  · exact .after jump_framed fun _ => .pure (by simp [Stmt.parts])
  · exact .bind (h.expr .free) fun _ hvalue => .after (.expect _) fun _ =>
      .after (.spanFrom _) fun _ => .pure (by simpa [Stmt.parts] using hvalue)

theorem blockRounds_finds
    (hself : Finds tokens (fun choice => good (.choice choice)) (choice level)) :
    Finds tokens (fun stmts => ∀ stmt ∈ stmts, ∀ part ∈ stmt.parts, good part)
      (iterate (blockRound level) []) := by
  refine .iterate (by simp) fun read hread => .after .current fun _ => .ite (.pure hread) ?_
  refine .bind (.recover (statement_finds h hself) (statement_framed h.framed)
    State.skipStatement_resumption) fun stmt hstmt => .pure ?_
  simpa [Round.value, or_imp, forall_and] using ⟨hread, hstmt⟩

theorem block_finds (hself : level.above.Admits tokens good) :
    Finds tokens (fun body => ∀ part ∈ body.parts, good part) (block level) := by
  have hparts : Finds tokens (fun body => ∀ part ∈ Stmt.listParts body.stmts, good part)
      (block level) := by
    refine .after (.expect _) fun _ => .bind (blockRounds_finds h hself.choice) fun stmts hstmts =>
      .after (.expect _) fun _ => .after (.spanFrom _) fun _ => .pure ?_
    rw [Stmt.listParts_eq]
    exact forall_mem_flatMap.mpr hstmts
  refine (Finds.and hself.block hparts).imp fun body ⟨hbody, hstmts⟩ => ?_
  obtain ⟨stmts, note⟩ := body
  simpa [Block.parts, or_imp, forall_and] using ⟨hbody, hstmts⟩

theorem typedName_finds :
    Finds tokens (fun typed => good (.type typed.type)) (typedName level) :=
  .after name_framed fun _ => .after (.expect _) fun _ => .bind h.typeExpr fun _ htype =>
    .pure htype

theorem prototype_finds (name : Name Span) :
    Finds tokens (fun proto => ∀ part ∈ proto.parts, good part) (prototype level name) := by
  refine .after (.expect _) fun _ => .bind (.paramList (typedName_finds h)) fun read hread =>
    .after (.expect _) fun _ => .bind (resultType_finds h) fun result hresult =>
      .after (.spanFrom _) fun _ => .pure ?_
  simpa [Prototype.parts, or_imp, forall_and] using ⟨hread, hresult⟩

theorem function_finds :
    Finds tokens (fun def_ => ∀ part ∈ (Definition.function def_).parts, good part)
      (function level) := by
  refine .after .advance fun _ => .after name_framed fun name =>
    .bind (prototype_finds h name) fun proto hproto => .bind h.block fun body hbody => .pure ?_
  simpa [Definition.parts, or_imp, forall_and] using ⟨hproto, hbody⟩

theorem recordDef_finds :
    Finds tokens (fun def_ => ∀ field ∈ def_.fields, good (.type field.type))
      (recordDef level) :=
  .after .advance fun _ => .after name_framed fun _ => .after (.expect _) fun _ =>
    .bind (.commaList (typedName_finds h) _) fun _ hfields => .after (.expect _) fun _ =>
      .after (.spanFrom _) fun _ => .pure hfields

theorem variant_finds :
    Finds tokens (fun variant => ∀ part ∈ Part.values variant.value, good part)
      (variant level) := by
  unfold variant
  refine .after name_framed fun name => ?_
  extract_lets rest
  have hrest {value : Option (Expr Span)} (hvalue : ∀ part ∈ Part.values value, good part) :
      Finds tokens (fun variant => ∀ part ∈ Part.values variant.value, good part)
        (rest value) :=
    .after (.spanFrom _) fun _ => .pure hvalue
  exact .after (.take? _) fun _ => .ite
    (.bind (h.expr .free) fun value hvalue =>
      .bind (.pure (by simpa [Part.values] using hvalue)) fun _ => hrest)
    (.bind (.pure (by simp [Part.values])) fun _ => hrest)

theorem enumDef_finds :
    Finds tokens (fun def_ => ∀ part ∈ (Definition.enum def_).parts, good part)
      (enumDef level) := by
  refine .after .advance fun _ => .after name_framed fun _ => .after (.expect _) fun _ =>
    .bind (.commaList (variant_finds h) _) fun variants hvariants => .after (.expect _) fun _ =>
      .after (.spanFrom _) fun _ => .pure (forall_mem_flatMap.mpr hvariants)

theorem external_finds :
    Finds tokens (fun definition => ∀ part ∈ definition.parts, good part) (external level) := by
  unfold external
  refine .after .advance fun _ => .after (.take? _) fun _ => .after name_framed fun name => ?_
  extract_lets rest
  have hrest {definition : Definition Span} (hdefinition : ∀ part ∈ definition.parts, good part) :
      Finds tokens (fun definition => ∀ part ∈ definition.parts, good part) (rest definition) :=
    .after (.take? _) fun _ => .pure hdefinition
  refine .after (.isAt _) fun _ => .ite ?_ (.after (.take? _) fun _ => .ite ?_
    (.bind (.failWith _) fun _ => hrest))
  · exact .bind (prototype_finds h name) fun _ hproto => .bind (.pure hproto) fun _ => hrest
  · exact .bind h.typeExpr fun type htype => .after (.spanFrom _) fun _ =>
      .bind (.pure (by simpa [Definition.parts] using htype)) fun _ => hrest

theorem constantDef_finds :
    Finds tokens (fun def_ => ∀ part ∈ def_.value.parts, good part) (constantDef level) := by
  unfold constantDef
  refine .after .advance fun _ => .after name_framed fun _ =>
    .bind (typeAnnotation?_finds h) fun type htype => .after (.expect _) fun _ =>
      .after (.isAt _) fun _ => ?_
  extract_lets rest
  have hrest {value : ConstantValue Span} (hvalue : ∀ part ∈ value.parts, good part) :
      Finds tokens (fun def_ => ∀ part ∈ def_.value.parts, good part) (rest value) :=
    .after (.expect _) fun _ => .after (.spanFrom _) fun _ => .pure hvalue
  refine .ite (.after import_framed fun _ => .bind (.pure (by simp [ConstantValue.parts]))
    fun _ => hrest) (.bind (h.expr .free) fun value hvalue => .bind (.pure ?_) fun _ => hrest)
  simpa [ConstantValue.parts, or_imp, forall_and] using ⟨htype, hvalue⟩

theorem definition_finds :
    Finds tokens (fun definition => ∀ part ∈ definition.parts, good part) (definition level) := by
  have hfields (def_ : RecordDef Span) (hdef : ∀ field ∈ def_.fields, good (.type field.type)) :
      ∀ part ∈ def_.fields.map fun field => Part.type field.type, good part := by
    simpa using hdef
  refine .after .current fun token => ?_
  split
  · exact .bind (function_finds h) fun _ hdef => .pure hdef
  · exact .bind (recordDef_finds h) fun def_ hdef => .pure (hfields def_ hdef)
  · exact .bind (recordDef_finds h) fun def_ hdef => .pure (hfields def_ hdef)
  · exact .bind (enumDef_finds h) fun _ hdef => .pure hdef
  · exact external_finds h
  · exact .bind (constantDef_finds h) fun _ hdef => .pure hdef
  · exact .bind (binding_finds h) fun _ hbinding => .pure hbinding
  · exact .failWith _

theorem declaration_finds :
    Finds tokens (fun decl => ∀ part ∈ decl.definition.parts, good part) (declaration level) :=
  .after .current fun _ => .after (.take? _) fun _ => .bind (definition_finds h)
    fun _ hdefinition => .after (.spanFrom _) fun _ => .pure hdefinition

theorem item_finds : Finds tokens (fun item => ∀ part ∈ item.parts, good part) (item level) :=
  .after (.isAt _) fun _ => .ite
    (.after import_framed fun _ => .after (.expect _) fun _ => .after (.spanFrom _) fun _ =>
      .pure (by simp [Item.parts]))
    (.bind (declaration_finds h) fun _ hdecl => .pure hdecl)

theorem items_finds :
    Finds tokens (fun items => ∀ item ∈ items, ∀ part ∈ item.parts, good part) (items level) := by
  refine .iterate (by simp) fun read hread => .after .current fun _ => .ite (.pure hread) ?_
  refine .bind (.recover (item_finds h) (item_framed h.framed) State.skipItem_resumption)
    fun item hitem => .pure ?_
  simpa [Round.value, or_imp, forall_and] using ⟨hread, hitem⟩

end Statements

end Rule

namespace Level

variable {tokens : List Token} {good : Part Span → Prop} {level : Level}

theorem Finds.above (h : level.Finds tokens good) (hself : level.above.Admits tokens good) :
    level.above.Finds tokens good where
  framed := h.framed.above
  expr := hself.expr
  typeExpr := hself.typeExpr
  block := Rule.block_finds h hself
  branch := Rule.branch_finds h
  choice := Rule.choice_finds h hself.choice

/-- If all that is read at each of the levels is good on its own, all parts are. -/
theorem allowing_finds (n : Nat) (h : ∀ m, m ≤ n → (allowing m).Admits tokens good) :
    (allowing n).Finds tokens good := by
  induction n with
  | zero =>
      exact ⟨lowest_framed, fun _ => .failWith _, .failWith _, .failWith _, .failWith _,
        .failWith _⟩
  | succ n ih =>
      exact (ih fun m hm => h m (Nat.le_succ_of_le hm)).above (h (n + 1) (Nat.le_refl _))

end Level

/-- What the rules read well at every level, wherever they begin in the source, is well in the
whole module. -/
theorem parts_of_admits {source : String} {fileId : Nat} {good : Part Span → Prop}
    (h : ∀ n, n ≤ Level.limit →
      (Level.allowing n).Admits (bodyTokens source fileId) good) :
    ∀ part ∈ (analyse source fileId).module.parts, good part := by
  obtain ⟨items, after, hitems⟩ := Rule.exists_items (Reading.ofSource source fileId).state
  have hahead : (Reading.ofSource source fileId).state.ahead <:+ bodyTokens source fileId :=
    ⟨[], (ofSource_state source fileId).1⟩
  rw [Module.parts, (analyse_of_items hitems).1]
  exact forall_mem_flatMap.mpr
    ((Rule.items_finds (Level.allowing_finds Level.limit h)).ok hahead hitems).1

end SourceFront
