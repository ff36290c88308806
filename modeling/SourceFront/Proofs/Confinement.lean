import SourceFront.Grammar.Statement
import SourceFront.Proofs.Frame

/-!
What a rule within a statement keeps to. No rule for an expression or a type passes a
semicolon, whether it fails or not; a rule for a statement without blocks passes one only
where it ends. None of them reports a problem, or depends on those reported before.
-/

namespace SourceFront

/-- None of the tokens is a semicolon. -/
def Token.Inline (tokens : List Token) : Prop :=
  ∀ token ∈ tokens, token.kind ≠ .symbol .semicolon

namespace Token.Inline

variable {front back : List Token} {token : Token}

theorem nil : Inline [] := by
  simp [Inline]

theorem singleton (h : token.kind ≠ .symbol .semicolon) : Inline [token] := by
  simpa [Inline] using h

theorem append (hfront : Inline front) (hback : Inline back) : Inline (front ++ back) := by
  intro token hmem
  exact (List.mem_append.mp hmem).elim (hfront token) (hback token)

end Token.Inline

/-- What a rule passes if it succeeds: no semicolon, or just one at the end if it reads a
`full` statement. -/
def Token.Extent : (full : Bool) → List Token → Prop
  | false, tokens => Inline tokens
  | true, tokens =>
      ∃ front semicolon, tokens = front ++ [semicolon] ∧ Inline front ∧
        semicolon.kind = .symbol .semicolon

theorem Token.Extent.behind {full : Bool} {front back : List Token} (hfront : Inline front)
    (hback : Extent full back) : Extent full (front ++ back) := by
  cases full with
  | false => exact hfront.append hback
  | true =>
      obtain ⟨middle, semicolon, rfl, hmiddle, hkind⟩ := hback
      exact ⟨front ++ middle, semicolon, (List.append_assoc _ _ _).symm, hfront.append hmiddle,
        hkind⟩

namespace Rule

/-- From `s`, the rule passes no semicolon if it fails, and none but at the end of a `full`
statement if it succeeds. Nothing is reported, and problems reported before make no
difference. -/
structure Confined {α : Type} (full : Bool) (rule : Rule α) (s : State) : Prop where
  ok : ∀ {value : α} {t : State}, rule s = .ok value t →
    (∃ tokens, s.Reads tokens t ∧ Token.Extent full tokens) ∧
      ∀ problems, rule (s.noting problems) = .ok value (t.noting problems)
  error : ∀ {problem : Problem} {t : State}, rule s = .error problem t →
    (∃ tokens, s.Reads tokens t ∧ Token.Inline tokens) ∧
      ∀ problems, rule (s.noting problems) = .error problem (t.noting problems)

/-- The rule passes no semicolon from any state. -/
abbrev IsInline {α : Type} (rule : Rule α) : Prop :=
  ∀ s : State, Confined false rule s

/-- The rule succeeds and reads nothing. -/
def IsStill {α : Type} (rule : Rule α) : Prop :=
  ∀ s : State, ∃ value, ∀ problems, rule (s.noting problems) = .ok value (s.noting problems)

theorem IsStill.pure {α : Type} (value : α) : (pure value : Rule α).IsStill :=
  fun _ => ⟨value, fun _ => rfl⟩

theorem IsStill.spanFrom {α : Type} {start : Span} {make : Span → α} :
    (do return make (← spanFrom start) : Rule α).IsStill :=
  fun s => ⟨make (start.merge s.last), fun _ => rfl⟩

namespace Confined

variable {α β σ : Type} {full : Bool} {s : State}

theorem pure (value : α) (s : State) : Confined false (pure value : Rule α) s where
  ok h := by
    cases h
    exact ⟨⟨[], .refl s, .nil⟩, fun _ => rfl⟩
  error h := nomatch h

theorem failWith (cause : Token → Cause) (s : State) :
    Confined full (failWith cause : Rule α) s where
  ok h := nomatch h
  error h := by
    cases h
    exact ⟨⟨[], .refl s, .nil⟩, fun _ => rfl⟩

theorem bindReads {rule : Rule α} {next : α → Rule β} (hrule : Confined false rule s)
    (hnext : ∀ value tokens t, s.Reads tokens t → Confined full (next value) t) :
    Confined full (rule >>= next) s where
  ok h := by
    obtain ⟨value, u, hfirst, hsecond⟩ := bind_eq_ok.mp h
    obtain ⟨⟨front, hfront, hinline⟩, hnoting⟩ := hrule.ok hfirst
    obtain ⟨⟨back, hback, hextent⟩, hnoting'⟩ := (hnext value front u hfront).ok hsecond
    refine ⟨⟨_, hfront.trans hback, .behind hinline hextent⟩, fun problems => ?_⟩
    rw [bind_of_ok (hnoting problems)]
    exact hnoting' problems
  error h := by
    rcases bind_eq_error.mp h with hfirst | ⟨value, u, hfirst, hsecond⟩
    · obtain ⟨hreads, hnoting⟩ := hrule.error hfirst
      exact ⟨hreads, fun problems => bind_of_error (hnoting problems) _⟩
    · obtain ⟨⟨front, hfront, hinline⟩, hnoting⟩ := hrule.ok hfirst
      obtain ⟨⟨back, hback, hinline'⟩, hnoting'⟩ := (hnext value front u hfront).error hsecond
      refine ⟨⟨_, hfront.trans hback, hinline.append hinline'⟩, fun problems => ?_⟩
      rw [bind_of_ok (hnoting problems)]
      exact hnoting' problems

theorem bind {rule : Rule α} {next : α → Rule β} (hrule : Confined false rule s)
    (hnext : ∀ value t, Confined full (next value) t) : Confined full (rule >>= next) s :=
  bindReads hrule fun value _ t _ => hnext value t

theorem before {rule : Rule α} {next : α → Rule β} (hrule : Confined full rule s)
    (hnext : ∀ value, (next value).IsStill) : Confined full (rule >>= next) s where
  ok h := by
    obtain ⟨value, u, hfirst, hsecond⟩ := bind_eq_ok.mp h
    obtain ⟨hreads, hnoting⟩ := hrule.ok hfirst
    obtain ⟨value', hvalue⟩ := hnext value u
    obtain ⟨rfl, rfl⟩ : value' = _ ∧ u = _ := by
      have hstill := hvalue u.problems
      rw [show u.noting u.problems = u from rfl, hsecond] at hstill
      cases hstill
      exact ⟨rfl, rfl⟩
    refine ⟨hreads, fun problems => ?_⟩
    rw [bind_of_ok (hnoting problems)]
    exact hvalue problems
  error h := by
    rcases bind_eq_error.mp h with hfirst | ⟨value, u, hfirst, hsecond⟩
    · obtain ⟨hreads, hnoting⟩ := hrule.error hfirst
      exact ⟨hreads, fun problems => bind_of_error (hnoting problems) _⟩
    · obtain ⟨value', hvalue⟩ := hnext value u
      have hstill := hvalue u.problems
      rw [show u.noting u.problems = u from rfl, hsecond] at hstill
      cases hstill

theorem ite {c : Prop} [Decidable c] {yes no : Rule α} (hyes : c → Confined full yes s)
    (hno : ¬ c → Confined full no s) : Confined full (if c then yes else no) s := by
  split
  · exact hyes ‹c›
  · exact hno ‹¬ c›

theorem current {next : Token → Rule α} (h : Confined full (next s.current) s) :
    Confined full (Rule.current >>= next) s where
  ok hrun := h.ok hrun
  error hrun := h.error hrun

theorem isAt {kind : TokenKind} {next : Bool → Rule α}
    (h : Confined full (next (decide (s.current.kind = kind))) s) :
    Confined full (isAt kind >>= next) s where
  ok hrun := h.ok hrun
  error hrun := h.error hrun

theorem isAtClose {close : Symbol} {next : Bool → Rule α}
    (h : ∀ found, Confined full (next found) s) : Confined full (isAtClose close >>= next) s where
  ok hrun := (h _).ok hrun
  error hrun := (h _).error hrun

theorem spanFrom {start : Span} {next : Span → Rule α} (h : ∀ span, Confined full (next span) s) :
    Confined full (spanFrom start >>= next) s where
  ok hrun := (h _).ok hrun
  error hrun := (h _).error hrun

theorem advance_apply (h : s.current.kind ≠ .symbol .semicolon) :
    Confined false Rule.advance s where
  ok hrun := by
    cases hrun
    refine ⟨?_, fun _ => rfl⟩
    cases hahead : s.ahead with
    | nil =>
        have hsame : s.advance = s := by
          obtain ⟨last, ahead, stop, problems⟩ := s
          obtain rfl : ahead = [] := hahead
          rfl
        exact ⟨[], by rw [hsame]; exact .refl s, .nil⟩
    | cons token rest =>
        rw [State.current_of_ahead hahead] at h
        exact ⟨[token], State.reads_advance_of_ahead hahead, .singleton h⟩
  error hrun := nomatch hrun

theorem advance {next : Token → Rule α} (h : s.current.kind ≠ .symbol .semicolon)
    (hnext : ∀ token t, Confined full (next token) t) : Confined full (Rule.advance >>= next) s :=
  bind (advance_apply h) hnext

theorem take? {kind : TokenKind} {next : Bool → Rule α} (hkind : kind ≠ .symbol .semicolon)
    (hnext : ∀ taken t, Confined full (next taken) t) :
    Confined full (take? kind >>= next) s := by
  refine bind (isAt ?_) hnext
  refine ite (fun hat => advance ?_ fun _ t => pure true t) fun _ => pure false s
  rwa [of_decide_eq_true hat]

theorem expect {symbol : Symbol} {next : Token → Rule α} (hsymbol : symbol ≠ .semicolon)
    (hnext : ∀ token t, Confined full (next token) t) :
    Confined full (expect symbol >>= next) s := by
  refine bind (isAt (ite (fun hat => advance_apply ?_) fun _ => failWith _ s)) hnext
  rw [of_decide_eq_true hat]
  simpa using hsymbol

theorem semicolon (s : State) : Confined true (Rule.expect .semicolon) s where
  ok h := by
    obtain ⟨hat, rfl, rfl⟩ := expect_eq_ok.mp h
    refine ⟨⟨[s.current], State.reads_symbol hat, [], s.current, rfl, .nil, hat⟩,
      fun problems => ?_⟩
    exact expect_eq_ok.mpr ⟨hat, rfl, rfl⟩
  error h := by
    rw [expect_apply] at h
    split at h
    next => cases h
    next hat =>
      cases h
      refine ⟨⟨[], .refl s, .nil⟩, fun problems => ?_⟩
      rw [expect_apply, if_neg (show ¬ (s.noting problems).current.kind = _ from hat)]
      rfl

theorem expectSemicolon {next : Token → Rule α} (hnext : ∀ token, (next token).IsStill) :
    Confined true (Rule.expect .semicolon >>= next) s :=
  before (semicolon s) hnext

theorem iterate {step : σ → Rule (Round σ)} (hstep : ∀ value, (step value).IsInline)
    (value : σ) : Rule.IsInline (iterate step value) := by
  refine fun s => ⟨fun {last t} h => ?_, fun {problem t} h => ?_⟩
  · fun_induction Rule.iterate step value s with
    | case1 => cases h
    | case2 value s value' u hround =>
        cases h
        obtain ⟨hreads, hnoting⟩ := (hstep value s).ok hround
        exact ⟨hreads, fun problems => iterate_of_last (hnoting problems)⟩
    | case3 value s value' u hround hlt ih =>
        obtain ⟨⟨front, hfront, hinline⟩, hnoting⟩ := (hstep value s).ok hround
        obtain ⟨⟨back, hback, hinline'⟩, hnoting'⟩ := ih h
        refine ⟨⟨_, hfront.trans hback, .append hinline hinline'⟩, fun problems => ?_⟩
        rw [iterate_of_more (hnoting problems) hlt]
        exact hnoting' problems
    | case4 value s value' u hround hlt =>
        cases h
        obtain ⟨hreads, hnoting⟩ := (hstep value s).ok hround
        refine ⟨hreads, fun problems => ?_⟩
        rw [Rule.iterate, hnoting problems]
        exact if_neg hlt
  · fun_induction Rule.iterate step value s with
    | case1 value s problem' u hround =>
        cases h
        obtain ⟨hreads, hnoting⟩ := (hstep value s).error hround
        exact ⟨hreads, fun problems => iterate_of_error (hnoting problems)⟩
    | case2 => cases h
    | case3 value s value' u hround hlt ih =>
        obtain ⟨⟨front, hfront, hinline⟩, hnoting⟩ := (hstep value s).ok hround
        obtain ⟨⟨back, hback, hinline'⟩, hnoting'⟩ := ih h
        refine ⟨⟨_, hfront.trans hback, .append hinline hinline'⟩, fun problems => ?_⟩
        rw [iterate_of_more (hnoting problems) hlt]
        exact hnoting' problems
    | case4 => cases h

theorem commaList {element : Rule α} (helement : element.IsInline) (close : Symbol) :
    (commaList close element).IsInline := by
  refine iterate (fun read s => ?_) _
  refine isAtClose fun _ => ite (fun _ => pure _ s) fun _ => ?_
  exact bind (helement s) fun _ t => take? (by simp) fun _ u =>
    ite (fun _ => pure _ u) fun _ => pure _ u

theorem paramList {param : Rule α} (hparam : param.IsInline) : (paramList param).IsInline := by
  refine iterate (fun (read, _) s => ?_) _
  refine isAtClose fun _ => ite (fun _ => pure _ s) fun _ => ?_
  refine take? (by simp) fun _ t => ite (fun _ => pure _ t) fun _ => ?_
  exact bind (hparam t) fun _ u => take? (by simp) fun _ v =>
    ite (fun _ => pure _ v) fun _ => pure _ v

end Confined

end Rule

/-- No rule for an expression or a type passes a semicolon. -/
structure Level.Confined (level : Level) : Prop where
  expr : ∀ place least, (level.expr place least).IsInline
  operand : ∀ place, (level.operand place).IsInline
  typeExpr : level.typeExpr.IsInline

namespace Rule

variable {level : Level}

theorem name_inline : name.IsInline := by
  refine fun s => .current ?_
  split
  next hkind => exact .advance (by simp [hkind]) fun _ t => .pure _ t
  next => exact Confined.failWith _ s

theorem stars_inline : stars.IsInline :=
  Confined.iterate (fun _ _ => .take? (by simp) fun _ t =>
    .ite (fun _ => .pure _ t) fun _ => .pure _ t) _

variable (h : level.Confined)
include h

theorem resultType_inline : (resultType level).IsInline :=
  fun _ => .take? (by simp) fun _ t => .ite
    (fun _ => .take? (by simp) fun _ u => .ite (fun _ => .pure _ u) fun _ =>
      Confined.bind (h.typeExpr u) fun _ v => .pure _ v)
    fun _ => .pure _ t

theorem functionType_inline {s : State} (hfn : s.current.kind = .keyword .fn) :
    Confined false (functionType level) s :=
  .advance (by simp [hfn]) fun _ _ => .expect (by simp) fun _ _ =>
    Confined.bind (Confined.paramList h.typeExpr _) fun _ _ => .expect (by simp) fun _ _ =>
      Confined.bind (resultType_inline h _) fun _ _ => .pure _ _

theorem typeBase_inline (pointers : Nat) : (typeBase level pointers).IsInline := by
  intro s
  have hprimitive (type : Primitive) {k : Keyword} (hkind : s.current.kind = .keyword k) :
      Confined false (primitive type >>= fun base => Pure.pure (pointers, base)) s :=
    Confined.bind (.advance (by simp [hkind]) fun _ t => .pure _ t) fun _ t => .pure _ t
  refine .current ?_
  split
  iterate 5 exact hprimitive _ ‹_›
  next hkind => exact Confined.bind (functionType_inline h hkind) fun _ t => .pure _ t
  next hkind =>
    refine Confined.ite (fun _ => .advance (by simp [hkind]) fun _ t => .pure _ t) fun _ => ?_
    exact Confined.bind (name_inline s) fun _ t => .pure _ t
  next => exact Confined.failWith _ s

theorem sizes_inline : (sizes level).IsInline :=
  Confined.iterate (fun _ _ => .take? (by simp) fun _ t => .ite
    (fun _ => .bind (h.expr _ _ t) fun _ _ => .expect (by simp) fun _ u => .pure _ u)
    fun _ => .pure _ t) _

theorem typeExpr_inline : (typeExpr level).IsInline :=
  fun s => .current <| Confined.bind (stars_inline s) fun _ t =>
    .bind (typeBase_inline h _ t) fun _ u =>
      Confined.bind (sizes_inline h u) fun _ v => .spanFrom fun _ => .pure _ v

theorem typeAnnotation?_inline : (typeAnnotation? level).IsInline :=
  fun _ => .take? (by simp) fun _ t => .ite
    (fun _ => .bind (h.typeExpr t) fun _ u => .pure _ u) fun _ => .pure _ t

theorem call_inline (callee : Name Span) : (call level callee).IsInline :=
  fun _ => .expect (by simp) fun _ t => .bind (Confined.commaList (h.expr _ _) _ t) fun _ _ =>
    .expect (by simp) fun _ u => .pure _ u

theorem fieldInit_inline : (fieldInit level).IsInline :=
  fun s => .bind (name_inline s) fun _ _ => .expect (by simp) fun _ t =>
    Confined.bind (h.expr _ _ t) fun _ u => .pure _ u

theorem record_inline (type : Name Span) : (record level type).IsInline :=
  fun _ => .expect (by simp) fun _ t =>
    .bind (Confined.commaList (fieldInit_inline h) _ t) fun _ _ =>
      .expect (by simp) fun _ u => .pure _ u

theorem named_inline (place : Place) : (named level place).IsInline :=
  fun s => .bind (name_inline s) fun _ t =>
    .isAt <| Confined.ite (fun _ => call_inline h _ t) fun _ =>
      Confined.ite (fun _ => .isAt <| Confined.ite (fun _ => record_inline h _ t)
        fun _ => .pure _ t) fun _ => .pure _ t

theorem primary_inline (place : Place) : (primary level place).IsInline := by
  intro s
  have hconstant (value : Constant) (hkind : s.current.kind ≠ .symbol .semicolon) :
      Confined false (constant value) s :=
    .advance hkind fun _ t => .pure _ t
  refine .current ?_
  cases hkind : s.current.kind with
  | number | string | char => exact hconstant _ (by simp [hkind])
  | ident => exact named_inline h place s
  | keyword word =>
      cases word with
      | true_ | false_ | null => exact hconstant _ (by simp [hkind])
      | sizeof =>
          exact .advance (by simp [hkind]) fun _ _ => .expect (by simp) fun _ t =>
            Confined.bind (h.typeExpr t) fun _ _ => .expect (by simp) fun _ u => .pure _ u
      | _ => exact Confined.failWith _ s
  | symbol sign =>
      cases sign with
      | leftParen =>
          exact .advance (by simp [hkind]) fun _ t => .bind (h.expr _ _ t) fun _ _ =>
            .expect (by simp) fun _ u => .pure _ u
      | leftBracket =>
          exact .advance (by simp [hkind]) fun _ t =>
            .bind (Confined.commaList (h.expr _ _) _ t) fun _ _ =>
              .expect (by simp) fun _ u => .pure _ u
      | _ => exact Confined.failWith _ s
  | _ => exact Confined.failWith _ s

theorem member_inline : (member level).IsInline :=
  fun s => .bind (name_inline s) fun _ t => .isAt <| Confined.ite (fun _ => call_inline h _ t)
    fun _ => .pure _ t

theorem suffix_inline (base : Expr Span) : (suffix level base).IsInline := by
  intro s
  refine .take? (by simp) fun _ t => .ite (fun _ => .bind (member_inline h t) fun _ u => .pure _ u)
    fun _ => ?_
  refine .take? (by simp) fun _ t => .ite (fun _ => .bind (member_inline h t) fun _ u => .pure _ u)
    fun _ => ?_
  refine .take? (by simp) fun _ t => .ite (fun _ => ?_) fun _ => .pure _ t
  exact Confined.bind (h.expr _ _ t) fun _ _ => .expect (by simp) fun _ u => .pure _ u

theorem operand_inline (place : Place) : (operand level place).IsInline := by
  intro s
  refine .current ?_
  split
  next hop =>
    refine .advance ?_ fun _ t => .bind (h.operand _ t) fun _ u => .pure _ u
    intro hkind
    simp [hkind, unaryOp?, UnaryOp.ofSymbol?] at hop
  next =>
    exact Confined.bind (primary_inline h _ s) fun _ t => Confined.iterate (suffix_inline h) _ t

theorem operation_inline (place : Place) (least : Nat) (left : Expr Span) :
    (operation level place least left).IsInline := by
  intro s
  refine .current ?_
  split
  next => exact Confined.pure _ s
  next hop =>
    refine Confined.ite (fun _ => .pure _ s) fun _ => .advance ?_ fun _ t => ?_
    · intro hkind
      simp [hkind, InfixOp.ofKind?, BinaryOp.ofSymbol?] at hop
    · split
      · exact Confined.bind (h.typeExpr t) fun _ u => .pure _ u
      · exact Confined.bind (h.expr _ _ t) fun _ u => .pure _ u

theorem expression_inline (place : Place) (least : Nat) :
    (expression level place least).IsInline :=
  fun s => .bind (operand_inline h _ s) fun _ t => Confined.iterate (operation_inline h _ _) _ t

theorem binding_confined {s : State} (hkind : s.current.kind ≠ .symbol .semicolon) :
    Confined true (binding level) s :=
  .advance hkind fun _ t => .bind (name_inline t) fun _ u =>
    Confined.bind (typeAnnotation?_inline h u) fun _ _ => .expect (by simp) fun _ v =>
      Confined.bind (h.expr _ _ v) fun _ _ => .expectSemicolon fun _ => .spanFrom

theorem return_confined {s : State} (hkind : s.current.kind ≠ .symbol .semicolon) :
    Confined true (return_ level) s := by
  unfold return_
  refine .advance hkind fun _ t => .isAt ?_
  extract_lets rest
  have hrest (value : Option (Expr Span)) (u : State) : Confined true (rest value) u :=
    .expectSemicolon fun _ => .spanFrom
  exact Confined.ite (fun _ => .bind (Confined.pure _ t) hrest)
    fun _ => .bind (h.expr _ _ t) fun _ u => .bind (Confined.pure _ u) hrest

omit h in
theorem jump_confined {s : State} (hkind : s.current.kind ≠ .symbol .semicolon) :
    Confined true jump s :=
  .advance hkind fun _ _ => .expectSemicolon fun _ t => ⟨Span.merge _ t.last, fun _ => rfl⟩

theorem exprStatement_confined {α : Type} {make : Expr Span → Token → Rule α}
    (hmake : ∀ value token, (make value token).IsStill) (s : State) :
    Confined true (level.freeExpr >>= fun value => Rule.expect .semicolon >>= make value) s :=
  Confined.bind (h.expr _ _ s) fun _ _ => .expectSemicolon fun _ => hmake _ _

theorem forInit_confined (s : State) : Confined true (forInit level) s := by
  refine .isAt (Confined.ite (fun hlet => ?_) fun _ => ?_)
  · exact Confined.before (binding_confined h (by simp [of_decide_eq_true hlet])) fun _ => .pure _
  · exact exprStatement_confined h (fun _ _ => .pure _) s

end Rule

namespace Level

theorem lowest_confined : lowest.Confined where
  expr _ _ := .failWith _
  operand _ := .failWith _
  typeExpr := .failWith _

theorem Confined.above {level : Level} (h : level.Confined) : level.above.Confined where
  expr := Rule.expression_inline h
  operand := Rule.operand_inline h
  typeExpr := Rule.typeExpr_inline h

theorem allowing_confined (n : Nat) : (allowing n).Confined := by
  induction n with
  | zero => exact lowest_confined
  | succ n ih => exact ih.above

end Level

/-- Kinds of tokens that begin a statement with a block in it. -/
def TokenKind.opensBlock : TokenKind → Bool
  | .symbol .leftBrace | .keyword .if_ | .keyword .loop | .keyword .while_ | .keyword .for_
  | .keyword .match_ => true
  | _ => false

namespace Rule

variable {α : Type} {n : Nat} {level : Level} {s : State}

/-- The rule fails before it reads anything. -/
def IsRefused (rule : Rule α) (s : State) : Prop :=
  ∃ problem, ∀ problems, rule (s.noting problems) = .error problem (s.noting problems)

theorem IsRefused.confined {β : Type} {full : Bool} {rule : Rule α} (h : rule.IsRefused s)
    (next : α → Rule β) : Confined full (rule >>= next) s := by
  obtain ⟨problem, hrefused⟩ := h
  refine ⟨fun hok => ?_, fun herror => ?_⟩
  · rw [show s = s.noting s.problems from rfl, bind_of_error (hrefused _)] at hok
    cases hok
  · rw [show s = s.noting s.problems from rfl, bind_of_error (hrefused _)] at herror
    cases herror
    exact ⟨⟨[], .refl s, .nil⟩, fun problems => bind_of_error (hrefused problems) _⟩

theorem expect_refused {symbol : Symbol} (h : s.current.kind ≠ .symbol symbol) :
    (expect symbol).IsRefused s :=
  ⟨⟨.unexpectedToken ("`" ++ symbol.spelling ++ "`") s.current.describe, s.current.span⟩,
    fun problems => by
      rw [expect_apply, if_neg (show ¬ (s.noting problems).current.kind = _ from h)]
      rfl⟩

theorem block_refused (n : Nat) (h : s.current.kind ≠ .symbol .leftBrace) :
    (Level.allowing n).block.IsRefused s := by
  cases n with
  | zero => exact ⟨⟨.nestingTooDeep Level.limit, s.current.span⟩, fun _ => rfl⟩
  | succ n =>
      obtain ⟨problem, hrefused⟩ := expect_refused h
      exact ⟨problem, fun problems => bind_of_error (hrefused problems) _⟩

theorem statement_confined (h : level.Confined) (hblock : s.current.kind.opensBlock = false) :
    Confined true (statement level) s := by
  refine .current ?_
  split
  next hlet => exact .before (binding_confined h (by simp [hlet])) fun _ => .pure _
  next hconst => exact .before (binding_confined h (by simp [hconst])) fun _ => .pure _
  next hbrace => simp [hbrace, TokenKind.opensBlock] at hblock
  next hreturn => exact .before (return_confined h (by simp [hreturn])) fun _ => .pure _
  next hif => simp [hif, TokenKind.opensBlock] at hblock
  next hloop => simp [hloop, TokenKind.opensBlock] at hblock
  next hwhile => simp [hwhile, TokenKind.opensBlock] at hblock
  next hfor => simp [hfor, TokenKind.opensBlock] at hblock
  next hmatch => simp [hmatch, TokenKind.opensBlock] at hblock
  next hbreak => exact .before (jump_confined (by simp [hbreak])) fun _ => .pure _
  next hcontinue => exact .before (jump_confined (by simp [hcontinue])) fun _ => .pure _
  next => exact exprStatement_confined h (fun _ _ => .spanFrom) s

/-- Where no brace follows, no statement but a `for` loop passes a semicolon that does not end
it. -/
theorem statement_confined_of_unbraced (n : Nat) (hfor : s.current.kind ≠ .keyword .for_)
    (hbraces : ∀ token ∈ s.ahead, token.kind ≠ .symbol .leftBrace) :
    Confined true (statement (Level.allowing n)) s := by
  have h := Level.allowing_confined n
  have hunbraced {tokens : List Token} {t : State} (hreads : s.Reads tokens t) :
      t.current.kind ≠ .symbol .leftBrace := by
    intro hkind
    obtain ⟨rest, hahead⟩ := State.ahead_of_current (s := t) (by simp [hkind])
    exact hbraces t.current (by simp [hreads.ahead, hahead]) hkind
  by_cases hblock : s.current.kind.opensBlock = false
  · exact statement_confined h hblock
  refine .current ?_
  split
  case h_3 hbrace => exact absurd hbrace (hunbraced (.refl s))
  case h_5 hif =>
    refine .before (.bindReads (.advance_apply (by simp [hif])) fun _ front t hfront => ?_)
      fun _ => .pure _
    exact .bindReads (h.expr _ _ t) fun _ back u hback =>
      (block_refused n (hunbraced (hfront.trans hback))).confined _
  case h_6 hloop =>
    exact .bindReads (.advance_apply (by simp [hloop])) fun _ front t hfront =>
      (block_refused n (hunbraced hfront)).confined _
  case h_7 hwhile =>
    refine .bindReads (.advance_apply (by simp [hwhile])) fun _ front t hfront => ?_
    exact .bindReads (h.expr _ _ t) fun _ back u hback =>
      (block_refused n (hunbraced (hfront.trans hback))).confined _
  case h_8 hkind => exact absurd hkind hfor
  case h_9 hmatch =>
    refine .before (.bindReads (.advance_apply (by simp [hmatch])) fun _ front t hfront => ?_)
      fun _ => .pure _
    exact .bindReads (h.expr _ _ t) fun _ back u hback =>
      (expect_refused (hunbraced (hfront.trans hback))).confined _
  all_goals
    rename_i hkind
    simp [hkind, TokenKind.opensBlock] at hblock

end Rule

end SourceFront
