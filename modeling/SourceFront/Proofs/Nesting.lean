import SourceFront.Proofs.Height
import SourceFront.Proofs.Part
import SourceFront.Proofs.Within

/-!
How deep expressions are nested by themselves. What is read at a level is written with no more
levels inside of it than are left there, so every expression of a tree could stand alone.
-/

namespace SourceFront

namespace Phrase

variable {α : Type} {p q : Phrase α} {phrases : List (Phrase α)} {n : Nat}

theorem Within.nesting_le (h : p.Within q) : p.nesting ≤ q.nesting := by
  induction h with
  | refl => exact Nat.le_refl _
  | first second _ ih => exact Nat.le_trans ih (Nat.le_max_left _ _)
  | second first _ ih => exact Nat.le_trans ih (Nat.le_max_right _ _)
  | deeper _ ih => exact Nat.le_succ_of_le ih
  | node note _ ih => exact ih

theorem nesting_commas_le :
    (commas phrases).nesting ≤ n ↔ ∀ phrase ∈ phrases, phrase.nesting ≤ n := by
  induction phrases with
  | nil => simp [commas, nesting]
  | cons phrase phrases ih =>
      cases phrases with
      | nil => simp [commas, nesting]
      | cons next phrases =>
          rw [commas, nesting_concat_cons, nesting_concat_cons, nesting_concat_cons, Nat.max_le,
            Nat.max_le, Nat.max_le, ih, List.forall_mem_cons]
          simp [symbol, nesting]

theorem nesting_commaEnded_le :
    (commaEnded phrases).nesting ≤ n ↔ ∀ phrase ∈ phrases, phrase.nesting ≤ n := by
  induction phrases with
  | nil => simp [commaEnded, nesting]
  | cons phrase phrases ih => simp [commaEnded, ih, symbol, nesting]

theorem nesting_params_le {variadic : Bool} :
    (params phrases variadic).nesting ≤ n ↔ ∀ phrase ∈ phrases, phrase.nesting ≤ n := by
  cases variadic with
  | false => exact nesting_commas_le
  | true =>
      rw [← nesting_commaEnded_le]
      simp [params, symbol, nesting]

end Phrase

open Phrase

section Place

variable {α : Type}

theorem Expr.nesting_phrase (place : Place) :
    ∀ expr : Expr α, (expr.phrase place).nesting = (expr.phrase .free).nesting
  | .binary op left right note => by
      have hleft := left.nesting_phrase place
      have hright := right.nesting_phrase place
      cases op <;> simp [Expr.phrase, nesting, hleft, hright]
  | .unary op operand note => by
      simp [Expr.phrase, nesting, operand.nesting_phrase place]
  | .cast operand type note => by
      simp [Expr.phrase, nesting, operand.nesting_phrase place]
  | .record type inits note => by simp [Expr.phrase, nesting]
  | .constant _ _ | .ident _ | .call _ _ _ | .array _ _ | .sizeOf _ _ | .group _ _ => by
      simp [Expr.phrase]

end Place

/-- What the rules of the level read takes no more than `n` levels. -/
structure Level.Nested (n : Nat) (level : Level) : Prop where
  expr : ∀ place least, Rule.Yields (fun expr => (expr.phrase place).nesting + 1 ≤ n)
    (level.expr place least)
  operand : ∀ place, Rule.Yields (fun expr => (expr.phrase place).nesting + 1 ≤ n)
    (level.operand place)
  typeExpr : Rule.Yields (fun type => type.phrase.nesting + 1 ≤ n) level.typeExpr

namespace Rule

variable {n : Nat} {inner : Level} (h : inner.Nested n)
include h

theorem resultType_nested :
    Yields (fun result => (TypeExpr.resultPhrase result).nesting ≤ n) (resultType inner) := by
  have hnone : (TypeExpr.resultPhrase (none : Option (TypeExpr Span))).nesting ≤ n :=
    Nat.zero_le n
  refine .after fun _ => .ite (.after fun _ => .ite (.pure hnone) ?_) (.pure hnone)
  refine h.typeExpr.bind fun type htype => .pure ?_
  simpa [TypeExpr.resultPhrase, symbol, nesting] using htype

omit h in
theorem primitive_nested (type : Primitive) :
    Yields (fun base => base.phrase.nesting ≤ n) (primitive type) :=
  .after fun _ => .pure (by simp [TypeBase.phrase, keyword, nesting])

theorem functionType_nested :
    Yields (fun base => base.phrase.nesting ≤ n) (functionType inner) := by
  refine .after fun _ => .after fun _ => .bind (.paramList h.typeExpr) fun read hread =>
    .after fun _ => .bind (resultType_nested h) fun result hresult => .pure ?_
  have hparams : (params (TypeExpr.phrases read.1) read.2).nesting ≤ n := by
    rw [nesting_params_le, TypeExpr.phrases_eq_map]
    simpa [nesting] using hread
  simpa [TypeBase.phrase, symbol, keyword, nesting] using ⟨hparams, hresult⟩

theorem typeBase_nested (pointers : Nat) :
    Yields (fun base => base.2.phrase.nesting ≤ n) (typeBase inner pointers) := by
  refine .after fun token => ?_
  split
  · exact .bind (primitive_nested _) fun _ hbase => .pure hbase
  · exact .bind (primitive_nested _) fun _ hbase => .pure hbase
  · exact .bind (primitive_nested _) fun _ hbase => .pure hbase
  · exact .bind (primitive_nested _) fun _ hbase => .pure hbase
  · exact .bind (primitive_nested _) fun _ hbase => .pure hbase
  · exact .bind (functionType_nested h) fun _ hbase => .pure hbase
  · exact .ite (.after fun _ => .pure (by simp [TypeBase.phrase, symbol, nesting]))
      (.after fun _ => .pure (by simp [TypeBase.phrase, Name.phrase, nesting]))
  · exact .failWith _

theorem sizes_nested :
    Yields (fun sizes => ∀ size ∈ sizes, (size.phrase .free).nesting + 1 ≤ n) (sizes inner) := by
  refine .iterate (by simp) fun read hread => .after fun _ => .ite ?_ (.pure hread)
  refine .bind (h.expr .free 0) fun size hsize => .after fun _ => .pure ?_
  simpa [Round.value, or_imp, forall_and] using ⟨hread, hsize⟩

theorem typeExpr_nested : Yields (fun type => type.phrase.nesting ≤ n) (typeExpr inner) := by
  refine .after fun _ => .after fun _ => .bind (typeBase_nested h _) fun base hbase =>
    .bind (sizes_nested h) fun sizes hsizes => .after fun _ => .pure ?_
  have hbrackets : (concat (TypeExpr.sizePhrases sizes)).nesting ≤ n := by
    rw [nesting_concat_le, TypeExpr.sizePhrases_eq_map]
    simpa [symbol, nesting] using hsizes
  simpa [TypeExpr.phrase, nesting, nesting_stars] using ⟨hbase, hbrackets⟩

theorem call_nested (place : Place) (callee : Name Span) :
    Yields (fun expr => (expr.phrase place).nesting ≤ n) (call inner callee) := by
  refine .after fun _ => .bind (.commaList (h.expr .free 0) _) fun args hargs =>
    .after fun _ => .pure ?_
  have hlist : (commas (Expr.phrases args)).nesting ≤ n := by
    rw [nesting_commas_le, Expr.phrases_eq_map]
    simpa [nesting] using hargs
  simpa [Expr.phrase, Name.phrase, symbol, nesting] using hlist

theorem fieldInit_nested : Yields (fun init => init.phrase.nesting ≤ n) (fieldInit inner) := by
  refine .after fun _ => .after fun _ => .bind (h.expr .free 0) fun _ hvalue => .pure ?_
  simpa [FieldInit.phrase, Name.phrase, symbol, nesting] using hvalue

theorem record_nested (place : Place) (type : Name Span) :
    Yields (fun expr => (expr.phrase place).nesting ≤ n) (record inner type) := by
  refine .after fun _ => .bind (.commaList (fieldInit_nested h) _) fun inits hinits =>
    .after fun _ => .pure ?_
  have hlist : (commas (FieldInit.phrases inits)).nesting ≤ n := by
    rw [nesting_commas_le, FieldInit.phrases_eq_map]
    simpa using hinits
  simpa [Expr.phrase, Name.phrase, symbol, nesting] using hlist

omit h in
theorem nesting_ident (place : Place) (name : Name Span) :
    ((Expr.ident name).phrase place).nesting ≤ n := by
  rw [Expr.phrase_ident]
  exact Nat.zero_le n

theorem named_nested (place : Place) :
    Yields (fun expr => (expr.phrase place).nesting ≤ n) (named inner place) := by
  refine .after fun name => .after fun _ => .ite (call_nested h place name)
    (.ite ?_ (.pure (nesting_ident place name)))
  exact .after fun _ => .ite (record_nested h place name) (.pure (nesting_ident place name))

theorem primary_nested (place : Place) :
    Yields (fun expr => (expr.phrase place).nesting ≤ n) (primary inner place) := by
  have hconstant (value : Constant) :
      Yields (fun expr => (expr.phrase place).nesting ≤ n) (constant value) :=
    .after fun _ => .pure (by simp [Expr.phrase, nesting])
  refine .after fun token => ?_
  generalize token.kind = kind
  cases kind with
  | number | string | char => exact hconstant _
  | ident text => exact named_nested h place
  | keyword word =>
      cases word with
      | true_ | false_ | null => exact hconstant _
      | sizeof =>
          refine .after fun _ => .after fun _ => .bind h.typeExpr fun type htype =>
            .after fun _ => .pure ?_
          simpa [Expr.phrase, symbol, keyword, nesting] using htype
      | _ => exact .failWith _
  | symbol sign =>
      cases sign with
      | leftParen =>
          refine .after fun _ => .bind (h.expr .free 0) fun value hvalue => .after fun _ => .pure ?_
          simpa [Expr.phrase, symbol, nesting] using hvalue
      | leftBracket =>
          refine .after fun _ => .bind (.commaList (h.expr .free 0) _) fun elements helements =>
            .after fun _ => .pure ?_
          have hlist : (commas (Expr.phrases elements)).nesting ≤ n := by
            rw [nesting_commas_le, Expr.phrases_eq_map]
            simpa [nesting] using helements
          simpa [Expr.phrase, symbol, nesting] using hlist
      | _ => exact .failWith _
  | _ => exact .failWith _

theorem member_nested (place : Place) :
    Yields (fun expr => (expr.phrase place).nesting ≤ n) (member inner) :=
  .after fun name => .after fun _ =>
    .ite (call_nested h place name) (.pure (nesting_ident place name))

theorem suffix_nested (place : Place) {base : Expr Span}
    (hbase : (base.phrase place).nesting ≤ n) :
    Yields (fun round => (round.value.phrase place).nesting ≤ n) (suffix inner base) := by
  refine .after fun _ => .ite (.bind (member_nested h place) fun right hright => .pure ?_)
    (.after fun _ => .ite (.bind (member_nested h place) fun right hright => .pure ?_)
      (.after fun _ => .ite (.bind (h.expr .free 0) fun right hright =>
        .after fun _ => .pure ?_) (.pure hbase)))
  · simpa [Round.value, Expr.phrase, symbol, nesting] using ⟨hbase, hright⟩
  · simpa [Round.value, Expr.phrase, symbol, nesting] using ⟨hbase, hright⟩
  · simpa [Round.value, Expr.phrase, symbol, nesting] using ⟨hbase, hright⟩

theorem operand_nested (place : Place) :
    Yields (fun expr => (expr.phrase place).nesting ≤ n) (operand inner place) := by
  refine .after fun token => ?_
  split
  · refine .after fun _ => .bind (h.operand place) fun operand hoperand => .pure ?_
    simpa [Expr.phrase, symbol, nesting] using hoperand
  · exact .bind (primary_nested h place) fun first hfirst =>
      .iterate hfirst fun _ hbase => suffix_nested h place hbase

theorem operation_nested (place : Place) (least : Nat) {left : Expr Span}
    (hleft : (left.phrase place).nesting ≤ n) :
    Yields (fun round => (round.value.phrase place).nesting ≤ n)
      (operation inner place least left) := by
  refine .after fun token => ?_
  split
  · exact .pure hleft
  · refine .ite (.pure hleft) (.after fun _ => ?_)
    split
    next =>
      refine .bind h.typeExpr fun type htype => .pure ?_
      simpa [Round.value, Expr.phrase, symbol, keyword, nesting] using ⟨hleft, htype⟩
    next op _ =>
      refine .bind (h.expr place _) fun right hright => .pure ?_
      have hfree := right.nesting_phrase place
      cases op <;>
        simp only [Round.value, Expr.phrase, symbol, nesting, nesting_concat_cons, concat_nil] <;>
        omega

theorem expression_nested (place : Place) (least : Nat) :
    Yields (fun expr => (expr.phrase place).nesting ≤ n) (expression inner place least) :=
  .bind (operand_nested h place) fun _ hfirst =>
    .iterate hfirst fun _ hleft => operation_nested h place least hleft

end Rule

namespace Level

theorem allowing_nested (n : Nat) : (allowing n).Nested n := by
  induction n with
  | zero => exact ⟨fun _ _ => .failWith _, fun _ => .failWith _, .failWith _⟩
  | succ n ih =>
      exact ⟨fun place least =>
          (Rule.expression_nested ih place least).imp fun _ => Nat.succ_le_succ,
        fun place => (Rule.operand_nested ih place).imp fun _ => Nat.succ_le_succ,
        (Rule.typeExpr_nested ih).imp fun _ => Nat.succ_le_succ⟩

/-- What stands in the module by itself takes no more levels than there are. -/
theorem allowing_admits_nested {n : Nat} (hn : n ≤ limit) (tokens : List Token) :
    (allowing n).Admits tokens fun
      | .expr place value => (value.phrase place).nesting + 1 ≤ limit
      | .type written => written.phrase.nesting + 1 ≤ limit
      | .block _ | .choice _ => True where
  expr place := .of_framed ((allowing_framed n).expr place 0) fun _ hrun =>
    Nat.le_trans ((allowing_nested n).expr place 0 _ _ _ hrun) hn
  typeExpr := .of_framed (allowing_framed n).typeExpr fun _ hrun =>
    Nat.le_trans ((allowing_nested n).typeExpr _ _ _ hrun) hn
  block := .of_framed (allowing_framed n).block fun _ _ => trivial
  choice := .of_framed (allowing_framed n).choice fun _ _ => trivial

end Level

theorem nesting_whole_le {source : String} {fileId : Nat} {expr : Expr Span}
    (hmem : expr ∈ (analyse source fileId).module.exprs) :
    (expr.whole .free).nesting ≤ Level.limit := by
  have hparts := parts_of_admits fun n hn =>
    Level.allowing_admits_nested hn (bodyTokens source fileId)
  rw [← Module.exprs_parts, List.mem_flatMap] at hmem
  obtain ⟨part, hpart, hexpr⟩ := hmem
  have hwhole {place : Place} {phrase : Phrase Span} (hwithin : (expr.phrase place).Within phrase)
      (hle : phrase.nesting + 1 ≤ Level.limit) : (expr.whole .free).nesting ≤ Level.limit := by
    have hnesting := hwithin.nesting_le
    rw [expr.nesting_phrase] at hnesting
    exact Nat.le_trans (Nat.succ_le_succ hnesting) hle
  cases part with
  | expr place value =>
      obtain ⟨_, hwithin⟩ := value.phrase_contains place expr hexpr
      exact hwhole hwithin (hparts _ hpart)
  | type written =>
      obtain ⟨_, hwithin⟩ := written.phrase_contains expr hexpr
      exact hwhole hwithin (hparts _ hpart)
  | block body => cases hexpr
  | choice choice => cases hexpr

end SourceFront
