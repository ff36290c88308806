import SourceFront.Proofs.Recognition.Expression
import SourceFront.Proofs.Region
import SourceFront.Tree.Expressions

/-!
Phrases within phrases. Where a phrase is spelled, each phrase within it is spelled by some
of the tokens; the phrases of all expressions of a module stand within that of the module.
-/

namespace SourceFront

variable {α : Type}

namespace Phrase

/-- Whether a phrase is the other one or a part of it. -/
inductive Within : Phrase α → Phrase α → Prop where
  | refl (p : Phrase α) : Within p p
  | first {p q : Phrase α} (second : Phrase α) (h : p.Within q) : Within p (.seq q second)
  | second {p q : Phrase α} (first : Phrase α) (h : p.Within q) : Within p (.seq first q)
  | deeper {p q : Phrase α} (h : p.Within q) : Within p (.deeper q)
  | node {p q : Phrase α} (note : α) (h : p.Within q) : Within p (.node note q)

variable {p q r separator : Phrase α} {ps : List (Phrase α)}

theorem Within.spelled {o : Orthography α} {tokens : List Token} (h : p.Within q)
    (hq : q.Spelled o tokens) : ∃ part, part <:+: tokens ∧ p.Spelled o part := by
  induction h generalizing tokens with
  | refl => exact ⟨tokens, List.infix_rfl, hq⟩
  | first second _ ih =>
      obtain ⟨front, back, rfl, hfirst, -⟩ := hq
      obtain ⟨part, hpart, hp⟩ := ih hfirst
      exact ⟨part, hpart.trans (List.prefix_append front back).isInfix, hp⟩
  | second first _ ih =>
      obtain ⟨front, back, rfl, -, hsecond⟩ := hq
      obtain ⟨part, hpart, hp⟩ := ih hsecond
      exact ⟨part, hpart.trans (List.suffix_append front back).isInfix, hp⟩
  | deeper _ ih => exact ih hq
  | node note _ ih => exact ih hq.1

theorem Within.trans (hpq : p.Within q) (hqr : q.Within r) : p.Within r := by
  induction hqr with
  | refl => exact hpq
  | first second _ ih => exact .first second ih
  | second first _ ih => exact .second first ih
  | deeper _ ih => exact .deeper ih
  | node note _ ih => exact .node note ih

theorem within_concat (hmem : p ∈ ps) : p.Within (concat ps) := by
  induction ps with
  | nil => cases hmem
  | cons first ps ih =>
      cases ps with
      | nil =>
          obtain rfl := List.mem_singleton.mp hmem
          exact .refl p
      | cons next ps =>
          rcases List.mem_cons.mp hmem with rfl | hmem
          · exact .first _ (.refl p)
          · exact .second first (ih hmem)

theorem within_commas (hmem : p ∈ ps) : p.Within (commas ps) := by
  induction ps with
  | nil => cases hmem
  | cons first ps ih =>
      cases ps with
      | nil =>
          obtain rfl := List.mem_singleton.mp hmem
          exact .first _ (.refl p)
      | cons next ps =>
          rcases List.mem_cons.mp hmem with rfl | hmem
          · exact .first _ (.refl p)
          · exact .second first (.second _ (ih hmem))

theorem within_commaEnded (hmem : p ∈ ps) : p.Within (commaEnded ps) := by
  induction ps with
  | nil => cases hmem
  | cons first ps ih =>
      rcases List.mem_cons.mp hmem with rfl | hmem
      · exact .first _ (.refl p)
      · exact .second first (.second _ (ih hmem))

theorem within_params (variadic : Bool) (hmem : p ∈ ps) : p.Within (params ps variadic) := by
  unfold params
  split
  · exact .first _ (within_commaEnded hmem)
  · exact within_commas hmem

theorem within_gapped (hmem : p ∈ ps) : p.Within (gapped ps) := by
  induction ps with
  | nil => cases hmem
  | cons first ps ih =>
      rcases List.mem_cons.mp hmem with rfl | hmem
      · exact .second .gap (.first _ (.refl p))
      · exact .second .gap (.second first (ih hmem))

/-- Whether each of the expressions is written somewhere in the phrase. -/
def Contains (phrase : Phrase α) (exprs : List (Expr α)) : Prop :=
  ∀ expr ∈ exprs, ∃ place, (expr.phrase place).Within phrase

namespace Contains

variable {xs ys : List (Expr α)}

theorem nil : p.Contains [] := by
  simp [Contains]

theorem append (hxs : p.Contains xs) (hys : p.Contains ys) : p.Contains (xs ++ ys) := by
  intro expr hmem
  rcases List.mem_append.mp hmem with hmem | hmem
  · exact hxs expr hmem
  · exact hys expr hmem

theorem within (hq : q.Contains xs) (h : q.Within p) : p.Contains xs := by
  intro expr hmem
  obtain ⟨place, hexpr⟩ := hq expr hmem
  exact ⟨place, hexpr.trans h⟩

theorem flatMap {β : Type} {items : List β} {f : β → List (Expr α)}
    (h : ∀ item ∈ items, p.Contains (f item)) : p.Contains (items.flatMap f) := by
  intro expr hmem
  obtain ⟨item, hitem, hexpr⟩ := List.mem_flatMap.mp hmem
  exact h item hitem expr hexpr

theorem expr {expr : Expr α} {place : Place} (h : (expr.phrase place).Contains expr.inside) :
    (expr.phrase place).Contains expr.exprs := by
  intro inner hmem
  rcases List.mem_cons.mp hmem with rfl | hmem
  · exact ⟨place, .refl _⟩
  · exact h inner hmem

end Contains

end Phrase

open Phrase

theorem Expr.exists_within_joined (place : Place) (op : BinaryOp) (right : Expr α) :
    ∃ place', (right.phrase place').Within (right.joined place op) := by
  cases op
  case index => exact ⟨.free, .first _ (.deeper (.refl _))⟩
  case member | path => exact ⟨place, .second _ (.refl _)⟩
  all_goals exact ⟨place, .second _ (.deeper (.refl _))⟩

mutual

theorem Expr.phrase_contains_inside (place : Place) :
    ∀ expr : Expr α, (expr.phrase place).Contains expr.inside
  | .constant _ _ | .ident _ => .nil
  | .binary op left right note => by
      obtain ⟨place', hright⟩ := right.exists_within_joined place op
      rw [Expr.phrase_binary]
      refine .append ?_ ?_
      · exact (Contains.expr (left.phrase_contains_inside place)).within
          (.node note (within_concat (by simp)))
      · exact (Contains.expr (right.phrase_contains_inside place')).within
          (hright.trans (.node note (within_concat (by simp))))
  | .unary _ operand note =>
      (Contains.expr (operand.phrase_contains_inside place)).within
        (.node note (.second _ (.second _ (.deeper (.refl _)))))
  | .cast operand type note => by
      refine .append ?_ ?_
      · exact (Contains.expr (operand.phrase_contains_inside place)).within
          (.node note (within_concat (by simp)))
      · exact type.phrase_contains.within
          (.node note (.second _ (.second _ (.second _ (.deeper (.refl _))))))
  | .call _ args note =>
      Expr.list_contained args fun _ hmem =>
        (within_commas hmem).trans (.node note (within_concat (by simp)))
  | .record _ inits note =>
      FieldInit.list_contained inits fun _ hmem =>
        (within_commas hmem).trans (.node note (within_concat (by simp)))
  | .array elements note =>
      Expr.list_contained elements fun _ hmem =>
        (within_commas hmem).trans (.node note (within_concat (by simp)))
  | .sizeOf type note =>
      type.phrase_contains.within
        (.node note (.second _ (.second _ (.first _ (.deeper (.refl _))))))
  | .group inner note =>
      (Contains.expr (inner.phrase_contains_inside .free)).within
        (.node note (.second _ (.first _ (.deeper (.refl _)))))

theorem Expr.list_contained {phrase : Phrase α} : ∀ exprs : List (Expr α),
    (∀ p ∈ Expr.phrases exprs, p.Within phrase) → phrase.Contains (Expr.listExprs exprs)
  | [], _ => .nil
  | expr :: exprs, h =>
      .append
        ((Contains.expr (expr.phrase_contains_inside .free)).within
          (.trans (.deeper (.refl _)) (h _ List.mem_cons_self)))
        (Expr.list_contained exprs fun p hmem => h p (List.mem_cons_of_mem _ hmem))

theorem FieldInit.list_contained {phrase : Phrase α} : ∀ inits : List (FieldInit α),
    (∀ p ∈ FieldInit.phrases inits, p.Within phrase) →
      phrase.Contains (FieldInit.listExprs inits)
  | [], _ => .nil
  | ⟨_, value, note⟩ :: inits, h =>
      .append
        ((Contains.expr (value.phrase_contains_inside .free)).within
          (.trans (.node note (.second _ (.second _ (.deeper (.refl _)))))
            (h _ List.mem_cons_self)))
        (FieldInit.list_contained inits fun p hmem => h p (List.mem_cons_of_mem _ hmem))

theorem TypeExpr.phrase_contains :
    ∀ type : TypeExpr α, type.phrase.Contains type.exprs
  | ⟨_, base, sizes, note⟩ =>
      .append
        (base.phrase_contains.within (.node note (within_concat (by simp))))
        (TypeExpr.sizes_contained sizes fun _ hmem =>
          (within_concat hmem).trans (.node note (within_concat (by simp))))

theorem TypeBase.phrase_contains : ∀ base : TypeBase α, base.phrase.Contains base.exprs
  | .anyPointer | .primitive _ | .named _ => .nil
  | .function params variadic result =>
      .append
        (TypeExpr.list_contained params fun _ hmem =>
          (within_params variadic hmem).trans (within_concat (by simp)))
        ((TypeExpr.result_contains result).within (within_concat (by simp)))

theorem TypeExpr.list_contained {phrase : Phrase α} : ∀ types : List (TypeExpr α),
    (∀ p ∈ TypeExpr.phrases types, p.Within phrase) → phrase.Contains (TypeExpr.listExprs types)
  | [], _ => .nil
  | type :: types, h =>
      .append
        (type.phrase_contains.within (.trans (.deeper (.refl _)) (h _ List.mem_cons_self)))
        (TypeExpr.list_contained types fun p hmem => h p (List.mem_cons_of_mem _ hmem))

theorem TypeExpr.result_contains : ∀ result : Option (TypeExpr α),
    (TypeExpr.resultPhrase result).Contains (TypeExpr.optionExprs result)
  | none => .nil
  | some type => type.phrase_contains.within (.second _ (.deeper (.refl _)))

theorem TypeExpr.sizes_contained {phrase : Phrase α} : ∀ sizes : List (Expr α),
    (∀ p ∈ TypeExpr.sizePhrases sizes, p.Within phrase) →
      phrase.Contains (Expr.listExprs sizes)
  | [], _ => .nil
  | size :: sizes, h =>
      .append
        ((Contains.expr (size.phrase_contains_inside .free)).within
          (.trans (.second _ (.first _ (.deeper (.refl _)))) (h _ List.mem_cons_self)))
        (TypeExpr.sizes_contained sizes fun p hmem => h p (List.mem_cons_of_mem _ hmem))

end

theorem Expr.phrase_contains (expr : Expr α) (place : Place) :
    (expr.phrase place).Contains expr.exprs :=
  .expr (expr.phrase_contains_inside place)

theorem Expr.whole_contains (expr : Expr α) (place : Place) :
    (expr.whole place).Contains expr.exprs :=
  (expr.phrase_contains place).within (.deeper (.refl _))

theorem TypeExpr.annotation_contains (type : Option (TypeExpr α)) :
    (TypeExpr.annotation type).Contains (TypeExpr.optionExprs type) := by
  cases type with
  | none => exact .nil
  | some type => exact type.phrase_contains.within (.second _ (.deeper (.refl _)))

theorem Binding.phrase_contains (binding : Binding α) (k : Keyword) :
    (binding.phrase k).Contains binding.exprs :=
  .append
    ((TypeExpr.annotation_contains binding.type).within
      (.node _ (.second _ (within_concat (by simp)))))
    ((binding.value.whole_contains .free).within
      (.node _ (.second _ (within_concat (by simp)))))

theorem ForInit.phrase_contains (init : ForInit α) : init.phrase.Contains init.exprs := by
  cases init with
  | let_ binding => exact binding.phrase_contains .let_
  | expr value => exact (value.whole_contains .free).within (.first _ (.refl _))

theorem returnPhrase_contains (value : Option (Expr α)) (note : α) :
    (returnPhrase value note).Contains (Expr.optionExprs value) := by
  cases value with
  | none => exact .nil
  | some value =>
      exact (value.whole_contains .free).within (.node note (within_concat (by simp)))

mutual

theorem Block.phrase_contains : ∀ body : Block α, body.phrase.Contains body.exprs
  | ⟨stmts, note⟩ =>
      Stmt.list_contained stmts fun _ hmem =>
        (within_gapped hmem).trans (.node note (within_concat (by simp)))

theorem Stmt.phrase_contains : ∀ stmt : Stmt α, stmt.phrase.Contains stmt.exprs
  | .let_ binding => binding.phrase_contains .let_
  | .const binding => binding.phrase_contains .const
  | .block body => body.phrase_contains.within (.deeper (.refl _))
  | .return_ value note => returnPhrase_contains value note
  | .if_ branch => branch.phrase_contains
  | .loop body note => body.phrase_contains.within (.node note (.second _ (.deeper (.refl _))))
  | .while_ cond body note =>
      .append
        ((cond.whole_contains .beforeBlock).within (.node note (within_concat (by simp))))
        (body.phrase_contains.within (.node note (.second _ (.second _ (.deeper (.refl _))))))
  | .for_ init cond step body note =>
      .append
        (.append
          (.append (init.phrase_contains.within (.node note (within_concat (by simp))))
            ((cond.whole_contains .beforeBlock).within (.node note (within_concat (by simp)))))
          ((step.whole_contains .beforeBlock).within (.node note (within_concat (by simp)))))
        (body.phrase_contains.within (.trans (.deeper (.refl _))
          (.node note (within_concat (by simp)))))
  | .match_ choice => choice.phrase_contains
  | .break_ _ | .continue_ _ => .nil
  | .expr value note => (value.whole_contains .free).within (.node note (.first _ (.refl _)))

theorem Stmt.list_contained {phrase : Phrase α} : ∀ stmts : List (Stmt α),
    (∀ p ∈ Stmt.phrases stmts, p.Within phrase) → phrase.Contains (Stmt.listExprs stmts)
  | [], _ => .nil
  | stmt :: stmts, h =>
      .append (stmt.phrase_contains.within (h _ List.mem_cons_self))
        (Stmt.list_contained stmts fun p hmem => h p (List.mem_cons_of_mem _ hmem))

theorem IfStmt.phrase_contains : ∀ branch : IfStmt α, branch.phrase.Contains branch.exprs
  | ⟨cond, thenBlock, otherwise, note⟩ =>
      .append
        (.append
          ((cond.whole_contains .beforeBlock).within (.node note (within_concat (by simp))))
          (thenBlock.phrase_contains.within (.trans (.deeper (.refl _))
            (.node note (within_concat (by simp))))))
        ((ElseBranch.option_contains otherwise).within (.node note (within_concat (by simp))))

theorem ElseBranch.option_contains : ∀ otherwise : Option (ElseBranch α),
    (ElseBranch.optionPhrase otherwise).Contains (ElseBranch.optionExprs otherwise)
  | none => .nil
  | some (.if_ branch) => branch.phrase_contains.within (.second _ (.deeper (.refl _)))
  | some (.block body) => body.phrase_contains.within (.second _ (.deeper (.refl _)))

theorem MatchStmt.phrase_contains : ∀ choice : MatchStmt α, choice.phrase.Contains choice.exprs
  | ⟨subject, arms, note⟩ =>
      .append
        ((subject.whole_contains .beforeBlock).within (.node note (within_concat (by simp))))
        (MatchArm.list_contained arms fun _ hmem =>
          (within_concat hmem).trans (.node note (within_concat (by simp))))

theorem MatchArm.list_contained {phrase : Phrase α} : ∀ arms : List (MatchArm α),
    (∀ p ∈ MatchArm.phrases arms, p.Within phrase) → phrase.Contains (MatchArm.listExprs arms)
  | [], _ => .nil
  | ⟨_, body, note⟩ :: arms, h =>
      .append
        (body.phrase_contains.within
          (.trans (.node note (.second _ (.second _ (.refl _)))) (h _ List.mem_cons_self)))
        (MatchArm.list_contained arms fun p hmem => h p (List.mem_cons_of_mem _ hmem))

theorem ArmBody.phrase_contains : ∀ body : ArmBody α, body.phrase.Contains body.exprs
  | .block body => body.phrase_contains.within (.deeper (.refl _))
  | .return_ value note => returnPhrase_contains value note
  | .match_ choice => choice.phrase_contains.within (.deeper (.refl _))
  | .break_ _ | .continue_ _ => .nil
  | .expr value => (value.whole_contains .free).within (.first _ (.refl _))

end

theorem TypedName.phrase_contains (typed : TypedName α) :
    typed.phrase.Contains typed.type.exprs :=
  typed.type.phrase_contains.within (.node _ (.second _ (.second _ (.deeper (.refl _)))))

theorem Prototype.phrase_contains (proto : Prototype α) : proto.phrase.Contains proto.exprs := by
  refine .append (.flatMap fun param hmem => ?_) ?_
  · have hparam : param.phrase ∈ proto.params.map TypedName.phrase :=
      List.mem_map_of_mem hmem
    exact param.phrase_contains.within
      ((within_params proto.variadic hparam).trans (.node _ (within_concat (by simp))))
  · exact (TypeExpr.result_contains proto.result).within (.node _ (within_concat (by simp)))

theorem RecordDef.phrase_contains (record : RecordDef α) (k : Keyword) :
    (record.phrase k).Contains (record.fields.flatMap (·.type.exprs)) := by
  refine .flatMap fun field hmem => ?_
  have hfield : field.phrase ∈ record.fields.map TypedName.phrase := List.mem_map_of_mem hmem
  exact field.phrase_contains.within
    ((within_commas hfield).trans (.node _ (within_concat (by simp))))

theorem Variant.phrase_contains (variant : Variant α) :
    variant.phrase.Contains (Expr.optionExprs variant.value) := by
  obtain ⟨name, value, note⟩ := variant
  cases value with
  | none => exact .nil
  | some value =>
      exact (value.whole_contains .free).within (.node note (.second _ (.second _ (.refl _))))

theorem EnumDef.phrase_contains (enum : EnumDef α) :
    enum.phrase.Contains
      (enum.variants.flatMap fun variant => Expr.optionExprs variant.value) := by
  refine .flatMap fun variant hmem => ?_
  have hvariant : variant.phrase ∈ enum.variants.map Variant.phrase := List.mem_map_of_mem hmem
  exact variant.phrase_contains.within
    ((within_commas hvariant).trans (.node _ (within_concat (by simp))))

theorem ConstantDef.phrase_contains (constant : ConstantDef α) :
    constant.phrase.Contains constant.value.exprs := by
  obtain ⟨name, value, note⟩ := constant
  cases value with
  | expr type value =>
      refine .append ?_ ?_
      · exact (TypeExpr.annotation_contains type).within (.trans (within_concat (by simp))
          (.node note (.second _ (.second _ (.first _ (.refl _))))))
      · exact (value.whole_contains .free).within (.trans (within_concat (by simp))
          (.node note (.second _ (.second _ (.first _ (.refl _))))))
  | import_ source => exact .nil

theorem Definition.phrase_contains (definition : Definition α) :
    definition.phrase.Contains definition.exprs := by
  cases definition with
  | function def_ =>
      refine .append ?_ ?_
      · exact def_.proto.phrase_contains.within (.node _ (within_concat (by simp)))
      · exact def_.body.phrase_contains.within
          (.node _ (.second _ (.second _ (.deeper (.refl _)))))
  | struct def_ => exact def_.phrase_contains .struct
  | union def_ => exact def_.phrase_contains .union
  | enum def_ => exact def_.phrase_contains
  | externalFunction proto => exact proto.phrase_contains.within (within_concat (by simp))
  | externalVariable typed =>
      exact typed.type.phrase_contains.within
        (.first _ (.node _ (.second _ (.second _ (.second _ (.deeper (.refl _)))))))
  | constant def_ => exact def_.phrase_contains
  | variable_ binding => exact binding.phrase_contains .let_

/-- Each expression of a module is written somewhere in its phrase. -/
theorem Module.phrase_contains (module : Module α) : module.phrase.Contains module.exprs := by
  refine .flatMap fun item hmem => ?_
  have hitem : item.phrase.Within module.phrase := within_gapped (List.mem_map_of_mem hmem)
  cases item with
  | import_ source => exact .nil
  | declaration decl =>
      exact decl.definition.phrase_contains.within
        (.trans (.node _ (.second _ (.refl _))) hitem)

end SourceFront
