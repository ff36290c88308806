import SourceFront.Proofs.Balance
import SourceFront.Proofs.Derivation.Statement
import SourceFront.Proofs.Progress

/-!
Braces on the way of a rule. A rule closes each brace that it opens; where it fails, some
may be open that it opened, but none is closed that was open before. Behind a failed
statement, just those are passed over that close it, unless the source ends first. So a
block ends with the brace that its first one is paired with, whatever fails inside of it.
-/

namespace SourceFront

/-- No brace, and not the end. -/
def TokenKind.isFlat (kind : TokenKind) : Bool :=
  kind ≠ .symbol .leftBrace && kind ≠ .symbol .rightBrace && kind ≠ .eof

theorem TokenKind.isFlat_iff {kind : TokenKind} : kind.isFlat = true ↔
    kind ≠ .symbol .leftBrace ∧ kind ≠ .symbol .rightBrace ∧ kind ≠ .eof := by
  simp [isFlat, and_assoc]

namespace Leaves

variable {before after : List Token} {token : Token} {depth more : Nat}

theorem flat (h : Leaves depth before) (hflat : token.kind.isFlat = true) :
    Leaves depth (before ++ [token]) := by
  obtain ⟨hleft, hright, hgoes⟩ := TokenKind.isFlat_iff.mp hflat
  exact h.append (.token hleft hright hgoes .nil)

theorem rightBrace (h : Leaves (depth + 1) before) (hright : token.kind = .symbol .rightBrace) :
    Leaves depth (before ++ [token]) := by
  obtain ⟨front, left, back, rfl, hfront, hleft, hback⟩ := h
  rw [List.append_assoc]
  exact hfront.append (.braces hleft hback hright .nil)

theorem behind (h : Leaves depth before) (hafter : Leaves more after) :
    Leaves (depth + more) (before ++ after) := by
  induction more generalizing after with
  | zero => exact h.append hafter
  | succ more ih =>
      obtain ⟨front, left, back, rfl, hfront, hleft, hback⟩ := hafter
      exact ⟨before ++ front, left, back, by simp, ih hfront, hleft, hback⟩

end Leaves

/-- The rest of a failed statement closes the braces that are open in it, unless the source
ends first. -/
theorem statementRest_leaves (inFor fresh : Bool) (tokens : List Token) {depth : Nat}
    {read : List Token} (h : Leaves depth read) :
    ∃ left, Leaves left (read ++ tokens.take (statementRest inFor depth fresh tokens)) ∧
      (left = 0 ∨ ∀ token ∈ (tokens.drop (statementRest inFor depth fresh tokens)).head?,
        token.kind = .eof) := by
  induction tokens generalizing depth fresh read with
  | nil => exact ⟨depth, by simpa using h, .inr (by simp)⟩
  | cons token tokens ih =>
      have hstop (hleft : depth = 0 ∨ token.kind = .eof) : ∃ left,
          Leaves left (read ++ (token :: tokens).take 0) ∧
            (left = 0 ∨ ∀ other ∈ ((token :: tokens).drop 0).head?, other.kind = .eof) :=
        ⟨depth, by simpa using h, hleft.imp_right (by simp)⟩
      have hmore {next : Nat} (hnext : Leaves next (read ++ [token])) : ∃ left,
          Leaves left (read ++ (token :: tokens).take (1 + statementRest inFor next false tokens)) ∧
            (left = 0 ∨ ∀ other ∈ ((token :: tokens).drop
              (1 + statementRest inFor next false tokens)).head?, other.kind = .eof) := by
        obtain ⟨left, hleaves, hend⟩ := ih false hnext
        rw [Nat.add_comm, List.take_succ_cons, List.drop_succ_cons]
        exact ⟨left, by simpa using hleaves, hend⟩
      unfold statementRest
      split
      next hkind => exact hstop (.inr hkind)
      next hkind =>
        have hsemicolon := h.flat (show token.kind.isFlat = true by rw [hkind]; rfl)
        split
        next hend =>
          obtain rfl : depth = 0 := by simpa using (Bool.and_eq_true_iff.mp hend).1
          exact ⟨0, by simpa using hsemicolon, .inl rfl⟩
        next => exact hmore hsemicolon
      next hkind => exact hmore (h.leftBrace hkind)
      next hkind =>
        split
        next => exact hstop (.inl rfl)
        next => exact ⟨0, by simpa using h.rightBrace hkind, .inl rfl⟩
        next => exact hmore (h.rightBrace hkind)
      next hgoes hsemicolon hleft hright =>
        split
        next hend =>
          have hzero := (Bool.and_eq_true_iff.mp (Bool.and_eq_true_iff.mp hend).1).1
          exact hstop (.inl (of_decide_eq_true hzero))
        next => exact hmore (h.flat (TokenKind.isFlat_iff.mpr ⟨hleft, hright, hgoes⟩))

/-- The tokens in front of the state leave `depth` braces open. -/
def State.Leaves (tokens : List Token) (depth : Nat) (s : State) : Prop :=
  ∃ before, tokens = before ++ s.ahead ∧ SourceFront.Leaves depth before

theorem State.report_ahead (s : State) (problem : Problem) :
    (s.report problem).ahead = s.ahead := by
  unfold report
  split
  · rfl
  split <;> rfl

namespace State.Leaves

variable {tokens : List Token} {depth : Nat} {s : State}

theorem here (s : State) : s.Leaves s.ahead 0 :=
  ⟨[], rfl, .nil⟩

theorem read {t : State} {part : List Token} {more : Nat} (h : s.Leaves tokens depth)
    (hahead : s.ahead = part ++ t.ahead) (hpart : SourceFront.Leaves more part) :
    t.Leaves tokens (depth + more) := by
  obtain ⟨before, rfl, hbefore⟩ := h
  exact ⟨before ++ part, by rw [hahead, List.append_assoc], hbefore.behind hpart⟩

theorem advance (h : s.Leaves tokens depth) (hflat : s.current.kind.isFlat = true) :
    s.advance.Leaves tokens depth := by
  obtain ⟨-, -, hgoes⟩ := TokenKind.isFlat_iff.mp hflat
  exact h.read (State.reads_advance hgoes).ahead (SourceFront.Leaves.nil.flat hflat)

theorem leftBrace (h : s.Leaves tokens depth) (hleft : s.current.kind = .symbol .leftBrace) :
    s.advance.Leaves tokens (depth + 1) :=
  h.read (State.reads_symbol hleft).ahead (SourceFront.Leaves.nil.leftBrace hleft)

theorem rightBrace (h : s.Leaves tokens (depth + 1))
    (hright : s.current.kind = .symbol .rightBrace) : s.advance.Leaves tokens depth := by
  obtain ⟨before, rfl, hbefore⟩ := h
  refine ⟨before ++ [s.current], ?_, hbefore.rightBrace hright⟩
  rw [(State.reads_symbol hright).ahead, List.append_assoc]

end State.Leaves

namespace Rule

/-- From a state before which `start` braces are open, beside any number of others, the rule
leads to one before which `stop` of them are open. Where it fails, no brace is closed that
was not open. -/
structure Pairs {α : Type} (start stop : Nat) (rule : Rule α) (s : State) : Prop where
  ok : ∀ {tokens : List Token} {outer : Nat} {value : α} {t : State},
    s.Leaves tokens (outer + start) → rule s = .ok value t → t.Leaves tokens (outer + stop)
  error : ∀ {tokens : List Token} {outer : Nat} {problem : Problem} {t : State},
    s.Leaves tokens (outer + start) → rule s = .error problem t → ∃ depth, t.Leaves tokens depth

/-- The rule closes the braces that it opens. -/
abbrev IsPaired {α : Type} (rule : Rule α) : Prop :=
  ∀ s : State, Pairs 0 0 rule s

namespace Pairs

variable {α β σ : Type} {start middle stop : Nat} {s : State}

theorem pure (value : α) (s : State) : Pairs start start (pure value : Rule α) s where
  ok h hrun := by
    cases hrun
    exact h
  error _ hrun := nomatch hrun

theorem failWith (cause : Token → Cause) (s : State) :
    Pairs start stop (failWith cause : Rule α) s where
  ok _ hrun := nomatch hrun
  error h hrun := by
    cases hrun
    exact ⟨_, h⟩

theorem bind {rule : Rule α} {next : α → Rule β} (hrule : Pairs start middle rule s)
    (hnext : ∀ value t, Pairs middle stop (next value) t) :
    Pairs start stop (rule >>= next) s where
  ok h hrun := by
    obtain ⟨value, u, hfirst, hsecond⟩ := bind_eq_ok.mp hrun
    exact (hnext value u).ok (hrule.ok h hfirst) hsecond
  error h hrun := by
    rcases bind_eq_error.mp hrun with hfirst | ⟨value, u, hfirst, hsecond⟩
    · exact hrule.error h hfirst
    · exact (hnext value u).error (hrule.ok h hfirst) hsecond

theorem ite {c : Prop} [Decidable c] {yes no : Rule α} (hyes : c → Pairs start stop yes s)
    (hno : ¬ c → Pairs start stop no s) : Pairs start stop (if c then yes else no) s := by
  split
  · exact hyes ‹c›
  · exact hno ‹¬ c›

theorem current {next : Token → Rule α} (h : Pairs start stop (next s.current) s) :
    Pairs start stop (Rule.current >>= next) s where
  ok := h.ok
  error := h.error

theorem isAt {kind : TokenKind} {next : Bool → Rule α}
    (h : Pairs start stop (next (decide (s.current.kind = kind))) s) :
    Pairs start stop (isAt kind >>= next) s where
  ok := h.ok
  error := h.error

theorem isAtClose {close : Symbol} {next : Bool → Rule α}
    (h : ∀ found, Pairs start stop (next found) s) :
    Pairs start stop (isAtClose close >>= next) s where
  ok := (h _).ok
  error := (h _).error

theorem spanFrom_apply (first : Span) (s : State) : Pairs start start (Rule.spanFrom first) s where
  ok h hrun := by
    cases hrun
    exact h
  error _ hrun := nomatch hrun

theorem spanFrom {first : Span} {next : Span → Rule α}
    (h : ∀ span, Pairs start stop (next span) s) :
    Pairs start stop (spanFrom first >>= next) s where
  ok := (h _).ok
  error := (h _).error

theorem advance_apply (h : s.current.kind.isFlat = true) : Pairs start start Rule.advance s where
  ok hopen hrun := by
    cases hrun
    exact hopen.advance h
  error _ hrun := nomatch hrun

theorem advance {next : Token → Rule α} (h : s.current.kind.isFlat = true)
    (hnext : ∀ token t, Pairs start stop (next token) t) :
    Pairs start stop (Rule.advance >>= next) s :=
  bind (advance_apply h) hnext

theorem take? {kind : TokenKind} {next : Bool → Rule α} (hkind : kind.isFlat = true)
    (hnext : ∀ taken t, Pairs start stop (next taken) t) :
    Pairs start stop (take? kind >>= next) s := by
  refine bind (isAt ?_) hnext
  refine ite (fun hat => advance ?_ fun _ t => pure true t) fun _ => pure false s
  rwa [of_decide_eq_true hat]

theorem expect {symbol : Symbol} {next : Token → Rule α}
    (hsymbol : (TokenKind.symbol symbol).isFlat = true)
    (hnext : ∀ token t, Pairs start stop (next token) t) :
    Pairs start stop (expect symbol >>= next) s := by
  refine bind (isAt (ite (fun hat => advance_apply ?_) fun _ => failWith _ s)) hnext
  rwa [of_decide_eq_true hat]

theorem leftBrace_apply (s : State) : Pairs start (start + 1) (Rule.expect .leftBrace) s where
  ok h hrun := by
    obtain ⟨hleft, -, rfl⟩ := expect_eq_ok.mp hrun
    exact h.leftBrace hleft
  error h hrun := by
    rw [expect_apply] at hrun
    split at hrun <;> cases hrun
    exact ⟨_, h⟩

theorem rightBrace_apply (s : State) : Pairs (start + 1) start (Rule.expect .rightBrace) s where
  ok h hrun := by
    obtain ⟨hright, -, rfl⟩ := expect_eq_ok.mp hrun
    exact h.rightBrace hright
  error h hrun := by
    rw [expect_apply] at hrun
    split at hrun <;> cases hrun
    exact ⟨_, h⟩

theorem leftBrace {next : Token → Rule α}
    (hnext : ∀ token t, Pairs (start + 1) stop (next token) t) :
    Pairs start stop (Rule.expect .leftBrace >>= next) s :=
  bind (leftBrace_apply s) hnext

theorem rightBrace {next : Token → Rule α} (hnext : ∀ token t, Pairs start stop (next token) t) :
    Pairs (start + 1) stop (Rule.expect .rightBrace >>= next) s :=
  bind (rightBrace_apply s) hnext

theorem within {rule : Rule α} (h : Pairs 0 0 rule s) (start : Nat) : Pairs start start rule s where
  ok {tokens outer _ _} hopen hrun :=
    h.ok (show s.Leaves tokens (outer + start + 0) from hopen) hrun
  error {tokens outer _ _} hopen hrun :=
    h.error (show s.Leaves tokens (outer + start + 0) from hopen) hrun

theorem iterate {step : σ → Rule (Round σ)} (hstep : ∀ value, (step value).IsPaired) (value : σ) :
    Rule.IsPaired (iterate step value) := by
  refine fun s => ⟨fun {tokens outer result t} h hrun => ?_,
    fun {tokens outer problem t} h hrun => ?_⟩
  · fun_induction Rule.iterate step value s with
    | case1 => cases hrun
    | case2 value s value' u hround =>
        cases hrun
        exact (hstep value s).ok h hround
    | case3 value s value' u hround _ ih => exact ih ((hstep value s).ok h hround) hrun
    | case4 value s value' u hround _ =>
        cases hrun
        exact (hstep value s).ok h hround
  · fun_induction Rule.iterate step value s with
    | case1 value s problem' u hround =>
        cases hrun
        exact (hstep value s).error h hround
    | case2 => cases hrun
    | case3 value s value' u hround _ ih => exact ih ((hstep value s).ok h hround) hrun
    | case4 => cases hrun

theorem commaList {element : Rule α} (helement : element.IsPaired) (close : Symbol) :
    (commaList close element).IsPaired := by
  refine iterate (fun read s => ?_) _
  refine isAtClose fun _ => ite (fun _ => pure _ s) fun _ => ?_
  exact bind (helement s) fun _ t => take? rfl fun _ u => ite (fun _ => pure _ u) fun _ => pure _ u

theorem paramList {param : Rule α} (hparam : param.IsPaired) : (paramList param).IsPaired := by
  refine iterate (fun (read, _) s => ?_) _
  refine isAtClose fun _ => ite (fun _ => pure _ s) fun _ => ?_
  refine take? rfl fun _ t => ite (fun _ => pure _ t) fun _ => ?_
  exact bind (hparam t) fun _ u => take? rfl fun _ v => ite (fun _ => pure _ v) fun _ => pure _ v

end Pairs

end Rule

/-- The rules of the level close the braces that they open. -/
structure Level.Paired (level : Level) : Prop where
  expr : ∀ place least, (level.expr place least).IsPaired
  operand : ∀ place, (level.operand place).IsPaired
  typeExpr : level.typeExpr.IsPaired
  block : level.block.IsPaired
  branch : ∀ {s : State}, s.current.kind = .keyword .if_ → Rule.Pairs 0 0 level.branch s
  choice : ∀ {s : State}, s.current.kind = .keyword .match_ → Rule.Pairs 0 0 level.choice s

namespace Rule

variable {level : Level}

theorem name_paired : name.IsPaired := by
  refine fun s => .current ?_
  split
  next hkind => exact .advance (by rw [hkind]; rfl) fun _ t => .pure _ t
  next => exact Pairs.failWith _ s

theorem stars_paired : stars.IsPaired :=
  Pairs.iterate (fun _ _ => .take? rfl fun _ t => .ite (fun _ => .pure _ t) fun _ => .pure _ t) _

variable (h : level.Paired)
include h

theorem resultType_paired : (resultType level).IsPaired :=
  fun _ => .take? rfl fun _ t => .ite
    (fun _ => .take? rfl fun _ u => .ite (fun _ => .pure _ u) fun _ =>
      Pairs.bind (h.typeExpr u) fun _ v => .pure _ v)
    fun _ => .pure _ t

theorem functionType_pairs {s : State} (hfn : s.current.kind = .keyword .fn) :
    Pairs 0 0 (functionType level) s :=
  .advance (by rw [hfn]; rfl) fun _ _ => .expect rfl fun _ _ =>
    Pairs.bind (Pairs.paramList h.typeExpr _) fun _ _ => .expect rfl fun _ _ =>
      Pairs.bind (resultType_paired h _) fun _ _ => .pure _ _

theorem typeBase_paired (pointers : Nat) : (typeBase level pointers).IsPaired := by
  intro s
  have hprimitive (type : Primitive) {k : Keyword} (hkind : s.current.kind = .keyword k) :
      Pairs 0 0 (primitive type >>= fun base => Pure.pure (pointers, base)) s :=
    Pairs.bind (.advance (by rw [hkind]; rfl) fun _ t => .pure _ t) fun _ t => .pure _ t
  refine .current ?_
  split
  iterate 5 exact hprimitive _ ‹_›
  next hkind => exact Pairs.bind (functionType_pairs h hkind) fun _ t => .pure _ t
  next hkind =>
    refine Pairs.ite (fun _ => .advance (by rw [hkind]; rfl) fun _ t => .pure _ t) fun _ => ?_
    exact Pairs.bind (name_paired s) fun _ t => .pure _ t
  next => exact Pairs.failWith _ s

theorem sizes_paired : (sizes level).IsPaired :=
  Pairs.iterate (fun _ _ => .take? rfl fun _ t => .ite
    (fun _ => .bind (h.expr _ _ t) fun _ _ => .expect rfl fun _ u => .pure _ u)
    fun _ => .pure _ t) _

theorem typeExpr_paired : (typeExpr level).IsPaired :=
  fun s => .current <| Pairs.bind (stars_paired s) fun _ t =>
    .bind (typeBase_paired h _ t) fun _ u =>
      Pairs.bind (sizes_paired h u) fun _ v => .spanFrom fun _ => .pure _ v

theorem typeAnnotation?_paired : (typeAnnotation? level).IsPaired :=
  fun _ => .take? rfl fun _ t => .ite
    (fun _ => .bind (h.typeExpr t) fun _ u => .pure _ u) fun _ => .pure _ t

theorem call_paired (callee : Name Span) : (call level callee).IsPaired :=
  fun _ => .expect rfl fun _ t => .bind (Pairs.commaList (h.expr _ _) _ t) fun _ _ =>
    .expect rfl fun _ u => .pure _ u

theorem fieldInit_paired : (fieldInit level).IsPaired :=
  fun s => .bind (name_paired s) fun _ _ => .expect rfl fun _ t =>
    Pairs.bind (h.expr _ _ t) fun _ u => .pure _ u

theorem record_paired (type : Name Span) : (record level type).IsPaired :=
  fun _ => .leftBrace fun _ t =>
    .bind ((Pairs.commaList (fieldInit_paired h) _ t).within 1) fun _ _ =>
      .rightBrace fun _ u => .pure _ u

theorem named_paired (place : Place) : (named level place).IsPaired :=
  fun s => .bind (name_paired s) fun _ t =>
    .isAt <| Pairs.ite (fun _ => call_paired h _ t) fun _ =>
      Pairs.ite (fun _ => .isAt <| Pairs.ite (fun _ => record_paired h _ t)
        fun _ => .pure _ t) fun _ => .pure _ t

theorem primary_paired (place : Place) : (primary level place).IsPaired := by
  intro s
  have hconstant (value : Constant) (hkind : s.current.kind.isFlat = true) :
      Pairs 0 0 (constant value) s :=
    .advance hkind fun _ t => .pure _ t
  refine .current ?_
  cases hkind : s.current.kind with
  | number | string | char => exact hconstant _ (by rw [hkind]; rfl)
  | ident => exact named_paired h place s
  | keyword word =>
      cases word with
      | true_ | false_ | null => exact hconstant _ (by rw [hkind]; rfl)
      | sizeof =>
          exact .advance (by rw [hkind]; rfl) fun _ _ => .expect rfl fun _ t =>
            Pairs.bind (h.typeExpr t) fun _ _ => .expect rfl fun _ u => .pure _ u
      | _ => exact Pairs.failWith _ s
  | symbol sign =>
      cases sign with
      | leftParen =>
          exact .advance (by rw [hkind]; rfl) fun _ t => .bind (h.expr _ _ t) fun _ _ =>
            .expect rfl fun _ u => .pure _ u
      | leftBracket =>
          exact .advance (by rw [hkind]; rfl) fun _ t =>
            .bind (Pairs.commaList (h.expr _ _) _ t) fun _ _ =>
              .expect rfl fun _ u => .pure _ u
      | _ => exact Pairs.failWith _ s
  | _ => exact Pairs.failWith _ s

theorem member_paired : (member level).IsPaired :=
  fun s => .bind (name_paired s) fun _ t => .isAt <| Pairs.ite (fun _ => call_paired h _ t)
    fun _ => .pure _ t

theorem suffix_paired (base : Expr Span) : (suffix level base).IsPaired := by
  intro s
  refine .take? rfl fun _ t => .ite (fun _ => .bind (member_paired h t) fun _ u => .pure _ u)
    fun _ => ?_
  refine .take? rfl fun _ t => .ite (fun _ => .bind (member_paired h t) fun _ u => .pure _ u)
    fun _ => ?_
  refine .take? rfl fun _ t => .ite (fun _ => ?_) fun _ => .pure _ t
  exact Pairs.bind (h.expr _ _ t) fun _ _ => .expect rfl fun _ u => .pure _ u

theorem operand_paired (place : Place) : (operand level place).IsPaired := by
  intro s
  refine .current ?_
  split
  next hop =>
    refine .advance ?_ fun _ t => .bind (h.operand _ t) fun _ u => .pure _ u
    refine TokenKind.isFlat_iff.mpr ⟨?_, ?_, ?_⟩ <;> intro hkind <;>
      simp [hkind, unaryOp?, UnaryOp.ofSymbol?] at hop
  next =>
    exact Pairs.bind (primary_paired h _ s) fun _ t => Pairs.iterate (suffix_paired h) _ t

theorem operation_paired (place : Place) (least : Nat) (left : Expr Span) :
    (operation level place least left).IsPaired := by
  intro s
  refine .current ?_
  split
  next => exact Pairs.pure _ s
  next hop =>
    refine Pairs.ite (fun _ => .pure _ s) fun _ => .advance ?_ fun _ t => ?_
    · refine TokenKind.isFlat_iff.mpr ⟨?_, ?_, ?_⟩ <;> intro hkind <;>
        simp [hkind, InfixOp.ofKind?, BinaryOp.ofSymbol?] at hop
    · split
      · exact Pairs.bind (h.typeExpr t) fun _ u => .pure _ u
      · exact Pairs.bind (h.expr _ _ t) fun _ u => .pure _ u

theorem expression_paired (place : Place) (least : Nat) :
    (expression level place least).IsPaired :=
  fun s => .bind (operand_paired h _ s) fun _ t => Pairs.iterate (operation_paired h _ _) _ t

theorem binding_pairs {s : State} (hkind : s.current.kind.isFlat = true) :
    Pairs 0 0 (binding level) s :=
  .advance hkind fun _ t => .bind (name_paired t) fun _ u =>
    Pairs.bind (typeAnnotation?_paired h u) fun _ _ => .expect rfl fun _ v =>
      Pairs.bind (h.expr _ _ v) fun _ _ => .expect rfl fun _ w => .spanFrom fun _ => .pure _ w

theorem return_pairs {s : State} (hkind : s.current.kind.isFlat = true) :
    Pairs 0 0 (return_ level) s := by
  unfold return_
  refine .advance hkind fun _ t => .isAt ?_
  extract_lets rest
  have hrest (value : Option (Expr Span)) (u : State) : Pairs 0 0 (rest value) u :=
    .expect rfl fun _ v => .spanFrom fun _ => .pure _ v
  exact Pairs.ite (fun _ => .bind (Pairs.pure _ t) hrest)
    fun _ => .bind (h.expr _ _ t) fun _ u => .bind (Pairs.pure _ u) hrest

omit h in
theorem jump_pairs {s : State} (hkind : s.current.kind.isFlat = true) : Pairs 0 0 jump s :=
  .advance hkind fun _ _ => .expect rfl fun _ t => .spanFrom_apply _ t

theorem branch_pairs {s : State} (hif : s.current.kind = .keyword .if_) :
    Pairs 0 0 (branch level) s := by
  unfold branch
  refine .advance (by rw [hif]; rfl) fun _ t => .bind (h.expr _ _ t) fun _ u =>
    Pairs.bind (h.block u) fun _ v => ?_
  extract_lets rest
  have hrest (otherwise : Option (ElseBranch Span)) (w : State) : Pairs 0 0 (rest otherwise) w :=
    .spanFrom fun _ => .pure _ w
  refine .take? rfl fun _ w => .ite (fun _ => .isAt (.ite (fun hat => ?_) fun _ => ?_))
    fun _ => .bind (Pairs.pure _ w) hrest
  · exact Pairs.bind (h.branch (of_decide_eq_true hat)) fun _ x => .bind (Pairs.pure _ x) hrest
  · exact Pairs.bind (h.block w) fun _ x => .bind (Pairs.pure _ x) hrest

theorem forInit_paired : (forInit level).IsPaired := by
  refine fun s => .isAt (Pairs.ite (fun hlet => ?_) fun _ => ?_)
  · exact Pairs.bind (binding_pairs h (by rw [of_decide_eq_true hlet]; rfl)) fun _ t => .pure _ t
  · exact Pairs.bind (h.expr _ _ s) fun _ _ => .expect rfl fun _ t => .pure _ t

theorem for_pairs {s : State} (hfor : s.current.kind = .keyword .for_) :
    Pairs 0 0 (for_ level) s :=
  .advance (by rw [hfor]; rfl) fun _ t => .bind (forInit_paired h t) fun _ u =>
    Pairs.bind (h.expr _ _ u) fun _ _ => .expect rfl fun _ v => Pairs.bind (h.expr _ _ v)
      fun _ w => Pairs.bind (h.block w) fun _ x => .pure _ x

omit h in
theorem pathTail_paired (first : Name Span) : (pathTail first).IsPaired :=
  Pairs.iterate (fun _ _ => .take? rfl fun _ t => .ite
    (fun _ => .bind (name_paired t) fun _ u => .pure _ u)
    fun _ => .take? rfl fun _ u => .ite
      (fun _ => .bind (name_paired u) fun _ v => .pure _ v) fun _ => .pure _ u) _

omit h in
theorem pattern_paired : pattern.IsPaired := by
  refine fun s => .current ?_
  split
  next hkind => exact .advance (by rw [hkind]; rfl) fun _ t => .pure _ t
  next hkind => exact .advance (by rw [hkind]; rfl) fun _ t => .pure _ t
  next =>
    exact Pairs.bind (name_paired s) fun _ t => .ite (fun _ => .pure _ t) fun _ =>
      .bind (pathTail_paired _ t) fun _ u => .spanFrom fun _ => .pure _ u
  next => exact Pairs.failWith _ s

omit h in
theorem patterns_paired : patterns.IsPaired :=
  fun s => .bind (pattern_paired s) fun _ t => Pairs.iterate (fun _ _ => .take? rfl fun _ u =>
    .ite (fun _ => .bind (pattern_paired u) fun _ v => .pure _ v) fun _ => .pure _ u) _ t

theorem armBody_paired : (armBody level).IsPaired := by
  refine fun s => .current ?_
  split
  next => exact Pairs.bind (h.block s) fun _ t => .pure _ t
  next hkind => exact Pairs.bind (return_pairs h (by rw [hkind]; rfl)) fun _ t => .pure _ t
  next hkind => exact Pairs.bind (h.choice hkind) fun _ t => .pure _ t
  next hkind => exact Pairs.bind (jump_pairs (by rw [hkind]; rfl)) fun _ t => .pure _ t
  next hkind => exact Pairs.bind (jump_pairs (by rw [hkind]; rfl)) fun _ t => .pure _ t
  next => exact Pairs.bind (h.expr _ _ s) fun _ _ => .expect rfl fun _ t => .pure _ t

theorem arm_paired : (arm level).IsPaired :=
  fun s => .current <| Pairs.bind (patterns_paired s) fun _ _ => .expect rfl fun _ t =>
    Pairs.bind (armBody_paired h t) fun _ u => .spanFrom fun _ => .pure _ u

theorem arms_paired : (arms level).IsPaired :=
  Pairs.iterate (fun _ s => .isAtClose fun _ => .ite (fun _ => .pure _ s) fun _ =>
    .bind (arm_paired h s) fun _ t => .pure _ t) _

theorem choice_pairs {s : State} (hmatch : s.current.kind = .keyword .match_) :
    Pairs 0 0 (choice level) s :=
  .advance (by rw [hmatch]; rfl) fun _ t => .bind (h.expr _ _ t) fun _ _ => .leftBrace fun _ u =>
    .bind ((arms_paired h u).within 1) fun _ _ => .rightBrace fun _ v =>
      .spanFrom fun _ => .pure _ v

theorem statement_paired : (statement level).IsPaired := by
  refine fun s => .current ?_
  split
  next hkind => exact Pairs.bind (binding_pairs h (by rw [hkind]; rfl)) fun _ t => .pure _ t
  next hkind => exact Pairs.bind (binding_pairs h (by rw [hkind]; rfl)) fun _ t => .pure _ t
  next => exact Pairs.bind (h.block s) fun _ t => .pure _ t
  next hkind => exact Pairs.bind (return_pairs h (by rw [hkind]; rfl)) fun _ t => .pure _ t
  next hkind => exact Pairs.bind (branch_pairs h hkind) fun _ t => .pure _ t
  next hkind =>
    exact .advance (by rw [hkind]; rfl) fun _ t => .bind (h.block t) fun _ u => .pure _ u
  next hkind =>
    exact .advance (by rw [hkind]; rfl) fun _ t => .bind (h.expr _ _ t) fun _ u =>
      Pairs.bind (h.block u) fun _ v => .pure _ v
  next hkind => exact for_pairs h hkind
  next hkind => exact Pairs.bind (choice_pairs h hkind) fun _ t => .pure _ t
  next hkind => exact Pairs.bind (jump_pairs (by rw [hkind]; rfl)) fun _ t => .pure _ t
  next hkind => exact Pairs.bind (jump_pairs (by rw [hkind]; rfl)) fun _ t => .pure _ t
  next =>
    exact Pairs.bind (h.expr _ _ s) fun _ _ => .expect rfl fun _ t => .spanFrom fun _ => .pure _ t

section

variable {s t : State} {tokens : List Token} {base : Nat}

/-- Behind a statement or the rest of a failed one, as many braces are open as before, unless
the source ends. -/
theorem recover_leaves {stmt? : Option (Stmt Span)} (hs : s.Leaves tokens base)
    (hrun : recover (statement level) State.skipStatement s = .ok stmt? t) :
    ∃ depth, t.Leaves tokens depth ∧ (depth = base ∨ t.current.kind = .eof) := by
  unfold recover at hrun
  cases hread : statement level s with
  | ok stmt u =>
      rw [hread] at hrun
      cases hrun
      have hbase : s.Leaves tokens (base + 0) := hs
      exact ⟨base, (statement_paired h s).ok hbase hread, .inl rfl⟩
  | error problem u =>
      rw [hread] at hrun
      cases hrun
      have hhere : s.Leaves s.ahead (0 + 0) := .here s
      obtain ⟨depth, read, hahead, hleaves⟩ := (statement_paired h s).error hhere hread
      have hsince : State.readSince s (u.report problem) = read := by
        rw [State.readSince, State.report_ahead, hahead, List.length_append,
          Nat.add_sub_cancel, List.take_left]
      rw [State.skipStatement, hsince, hleaves.openBraces]
      obtain ⟨left, hrest, hend⟩ := statementRest_leaves (s.current.kind = .keyword .for_)
        read.isEmpty u.ahead hleaves
      rw [← State.report_ahead u problem] at hrest hend
      refine ⟨base + left, hs.read ?_ hrest, ?_⟩
      · rw [State.skip_ahead, hahead, List.append_assoc, List.take_append_drop,
          State.report_ahead]
      · refine hend.imp (fun hzero => by rw [hzero]; rfl) fun heof => ?_
        rw [State.current, State.skip_ahead]
        cases hrest : List.drop _ (u.report problem).ahead with
        | nil => rfl
        | cons token rest => exact heof token (by rw [hrest]; rfl)

/-- The statements of a block leave as many braces open as before, unless the source ends. -/
theorem blockRounds_leaves {read stmts : List (Stmt Span)} (hs : s.Leaves tokens base)
    (hrun : iterate (blockRound level) read s = .ok stmts t) :
    ∃ depth, t.Leaves tokens depth ∧ (depth = base ∨ t.current.kind = .eof) := by
  refine iterate_preserves hrun
    (fun _ t => ∃ depth, t.Leaves tokens depth ∧ (depth = base ∨ t.current.kind = .eof))
    ⟨base, hs, .inl rfl⟩ ?_
  rintro read u round v ⟨depth, hu, hdepth⟩ hround
  rcases hdepth with rfl | hend
  · rcases blockRound_cases hround with ⟨-, rfl⟩ | ⟨stmt?, hstmt, -⟩
    · exact ⟨depth, hu, .inl rfl⟩
    · exact recover_leaves h hu hstmt
  · rw [blockRound, current_bind, if_pos (by simp [endsBlock, Token.isEof, hend])] at hround
    cases hround
    exact ⟨depth, hu, .inr hend⟩

end

theorem block_paired : (block level).IsPaired := by
  refine fun s => .leftBrace fun token u => ⟨?_, ?_⟩
  · intro tokens outer body t hu hrun
    obtain ⟨stmts, v, hstmts, hclose⟩ := bind_eq_ok.mp hrun
    obtain ⟨depth, hv, hdepth⟩ := blockRounds_leaves h hu hstmts
    obtain ⟨_, _, hbrace, -⟩ := bind_eq_ok.mp hclose
    have hright := (expect_eq_ok.mp hbrace).1
    obtain rfl : depth = outer + 1 := hdepth.resolve_right (by simp [hright])
    have hpairs (next : Token → Rule (Block Span)) (hnext : ∀ token w, Pairs 0 0 (next token) w) :
        Pairs (0 + 1) 0 (expect .rightBrace >>= next) v := .rightBrace hnext
    exact (hpairs _ fun _ w => .spanFrom fun _ => .pure _ w).ok hv hclose
  · intro tokens outer problem t hu hrun
    rcases bind_eq_error.mp hrun with hstmts | ⟨stmts, v, hstmts, hclose⟩
    · exact absurd hstmts (iterate_ne_error blockRound_ne_error _ _ _ _)
    · obtain ⟨depth, hv, -⟩ := blockRounds_leaves h hu hstmts
      rcases bind_eq_error.mp hclose with hbrace | ⟨_, _, -, hnote⟩
      · rw [expect_apply] at hbrace
        split at hbrace <;> cases hbrace
        exact ⟨depth, hv⟩
      · cases hnote

end Rule

namespace Level

theorem lowest_paired : lowest.Paired where
  expr _ _ := .failWith _
  operand _ := .failWith _
  typeExpr := .failWith _
  block := .failWith _
  branch _ := .failWith _ _
  choice _ := .failWith _ _

theorem Paired.above {level : Level} (h : level.Paired) : level.above.Paired where
  expr := Rule.expression_paired h
  operand := Rule.operand_paired h
  typeExpr := Rule.typeExpr_paired h
  block := Rule.block_paired h
  branch := Rule.branch_pairs h
  choice := Rule.choice_pairs h

theorem allowing_paired (n : Nat) : (allowing n).Paired := by
  induction n with
  | zero => exact lowest_paired
  | succ n ih => exact ih.above

end Level

end SourceFront
