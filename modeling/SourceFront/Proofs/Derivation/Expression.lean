import SourceFront.Grammar.Statement
import SourceFront.Proofs.Derivation.Type

/-!
What the rules for expressions read.
-/

namespace SourceFront

variable {noisy : Prop} {tokens : List Token}

theorem Phrase.Derives.exprCovers {expr : Expr Span} {place : Place}
    (h : (expr.phrase place).Derives noisy tokens) (ordered : Token.Ordered tokens) :
    expr.note.Covers tokens := by
  cases expr <;> exact h.2 ordered

theorem Phrase.Derives.typeCovers {type : TypeExpr Span}
    (h : type.phrase.Derives noisy tokens) (ordered : Token.Ordered tokens) :
    type.note.Covers tokens := by
  cases type
  exact h.2 ordered

theorem BinaryOp.symbol_of_ofSymbol? {s : Symbol} {op : BinaryOp}
    (h : ofSymbol? s = some op) : s = op.symbol := by
  cases s <;> simp only [ofSymbol?, reduceCtorEq, Option.some.injEq] at h <;> cases h <;> rfl

theorem UnaryOp.symbol_of_ofSymbol? {s : Symbol} {op : UnaryOp}
    (h : ofSymbol? s = some op) : s = op.symbol := by
  cases s <;> simp only [ofSymbol?, reduceCtorEq, Option.some.injEq] at h <;> cases h <;> rfl

theorem Expr.member_le_precedence_of_isMember {α : Type} {expr : Expr α}
    (h : expr.isMember = true) : BinaryOp.member.precedence ≤ expr.precedence := by
  cases expr <;> first | exact Nat.le_refl _ | cases h

theorem BinaryOp.isAssignment_eq (op : BinaryOp) :
    op.isAssignment = decide (op.precedence = 1) := by
  cases op <;> rfl

theorem BinaryOp.precedence_pos (op : BinaryOp) : 0 < op.precedence := by
  cases op <;> decide

theorem Expr.phrase_infix {α : Type} {s : Symbol} {op : BinaryOp}
    (hop : BinaryOp.ofSymbol? s = some op) (place : Place) (left right : Expr α) (note : α) :
    (Expr.binary op left right note).phrase place =
      .node note (Phrase.concat
        [.provided (op.leftPrecedence ≤ left.precedence), left.phrase place,
          Phrase.symbol s, .provided (op.rightPrecedence ≤ right.precedence),
          .deeper (right.phrase place)]) := by
  obtain rfl := BinaryOp.symbol_of_ofSymbol? hop
  cases op <;> first | rfl | simp [BinaryOp.symbol, BinaryOp.ofSymbol?] at hop

namespace InfixOp

theorem kind_of_cast {kind : TokenKind} (h : ofKind? kind = some cast) :
    kind = .keyword .as_ := by
  cases kind with
  | keyword k => cases k <;> simp [ofKind?] at h ⊢
  | symbol s => simp [ofKind?] at h
  | _ => simp [ofKind?] at h

theorem kind_of_binary {kind : TokenKind} {op : BinaryOp}
    (h : ofKind? kind = some (binary op)) :
    ∃ s, kind = .symbol s ∧ BinaryOp.ofSymbol? s = some op := by
  cases kind with
  | keyword k => cases k <;> simp [ofKind?] at h
  | symbol s => exact ⟨s, rfl, by simpa [ofKind?] using h⟩
  | _ => simp [ofKind?] at h

theorem leftPrecedence_le_cast {kind : TokenKind} {op : InfixOp}
    (h : ofKind? kind = some op) : op.leftPrecedence ≤ cast.precedence := by
  cases op with
  | cast => exact Nat.le_refl _
  | binary op =>
      obtain ⟨s, -, hop⟩ := kind_of_binary h
      obtain rfl := BinaryOp.symbol_of_ofSymbol? hop
      cases op <;> first | decide | simp [BinaryOp.symbol, BinaryOp.ofSymbol?] at hop

/-- An operator that ends the right operand of another takes both for its left
one. -/
theorem leftPrecedence_le_of_lt {op : BinaryOp} {next : InfixOp}
    (hlt : next.precedence < op.rightPrecedence) : next.leftPrecedence ≤ op.precedence := by
  have hright := op.isAssignment_eq
  cases next with
  | cast =>
      simp only [precedence, leftPrecedence, BinaryOp.rightPrecedence] at hlt ⊢
      split at hlt <;> omega
  | binary next =>
      have hpos := next.precedence_pos
      simp only [precedence, leftPrecedence, BinaryOp.leftPrecedence,
        BinaryOp.rightPrecedence, BinaryOp.isAssignment_eq, decide_eq_true_eq] at hlt ⊢
      split at hlt <;> split <;> omega

end InfixOp

namespace Rule

variable {s t : State} {inner : Level}

theorem closed_derives {α β : Type} {rule : Rule α} {phrase : α → Phrase Span}
    {close : Symbol} {start : Span} {result : β} {opening : Phrase Span}
    {before first : List Token} (make : α → Span → β) (hrule : rule.Derives noisy phrase)
    (hopening : opening.Derives noisy before) (hfirst : first <+: before)
    (hstart : Token.Ordered first → start.Covers first)
    (h : (rule >>= fun value => expect close >>= fun token =>
      pure (make value (start.merge token.span))) s = .ok result t) :
    ∃ value note tokens, result = make value note ∧ s.Reads tokens t ∧
      (Phrase.node note (.seq opening (.seq (phrase value) (.symbol close)))).Derives noisy
        (before ++ tokens) := by
  simp only [bind_eq_ok, expect_eq_ok] at h
  obtain ⟨value, u, hvalue, _, _, ⟨hclose, rfl, rfl⟩, h⟩ := h
  cases h
  obtain ⟨tokens, hreads, hderives⟩ := hrule hvalue
  refine ⟨value, _, _, rfl, hreads.trans (State.reads_symbol hclose), ?_⟩
  refine Phrase.spelled_node ?_ fun ordered => ?_
  · exact Phrase.spelled_seq hopening
      (Phrase.spelled_seq hderives (Phrase.derives_symbol hclose))
  · have hbegins := hfirst.trans (List.prefix_append before (tokens ++ [u.current]))
    refine Span.Covers.merge (hstart (ordered.sublist hbegins.sublist)) (.singleton _)
      hbegins ?_ ordered
    exact ⟨before ++ tokens, by simp⟩

theorem call_derives (hinner : inner.DerivesExprs noisy) {callee : Name Span}
    {expr : Expr Span} {front : List Token} (hfront : callee.phrase.Derives noisy front)
    (h : call inner callee s = .ok expr t) :
    (∃ tokens, s.Reads tokens t ∧
        ∀ place, (expr.phrase place).Derives noisy (front ++ tokens)) ∧
      expr.isMember = true := by
  obtain ⟨_, _, hleft, h⟩ := bind_eq_ok.mp h
  obtain ⟨hkind, rfl, rfl⟩ := expect_eq_ok.mp hleft
  obtain ⟨args, note, tokens, rfl, hreads, hderives⟩ := closed_derives
    (Expr.call callee) (commaList_derives (freeExpr_derives hinner) _)
    (Phrase.spelled_seq hfront (Phrase.derives_symbol hkind))
    (List.prefix_append front _) hfront.covers h
  refine ⟨⟨_, (State.reads_symbol hkind).trans hreads,
    fun place => ?_⟩, rfl⟩
  rw [Expr.phrase, Expr.phrases_eq_map]
  rw [List.append_assoc] at hderives
  exact ⟨Phrase.spelled_seq_assoc hderives.1, hderives.2⟩

theorem fieldInit_derives (hinner : inner.DerivesExprs noisy) :
    (fieldInit inner).Derives noisy FieldInit.phrase := by
  intro s t init h
  simp only [fieldInit, bind_eq_ok, expect_eq_ok] at h
  obtain ⟨name, u, hname, _, _, ⟨hcolon, rfl, rfl⟩, value, v, hvalue, h⟩ := h
  cases h
  obtain ⟨nameTokens, hreads, hname⟩ := name_derives hname
  obtain ⟨valueTokens, hreads', hvalue⟩ := freeExpr_derives hinner hvalue
  have hcolon' := State.reads_symbol hcolon
  refine ⟨_, hreads.trans (hcolon'.trans hreads'), ?_⟩
  rw [FieldInit.phrase]
  refine Phrase.spelled_node ?_ ?_
  · exact Phrase.spelled_seq hname
      (Phrase.spelled_seq (Phrase.derives_symbol hcolon) hvalue)
  · exact Span.Covers.around _ hname.covers hvalue.exprCovers

theorem record_derives (hinner : inner.DerivesExprs noisy) {type : Name Span}
    {expr : Expr Span} {front : List Token} (hfront : type.phrase.Derives noisy front)
    (h : record inner type s = .ok expr t) :
    ∃ tokens, s.Reads tokens t ∧ (expr.phrase .free).Derives noisy (front ++ tokens) ∧
      BinaryOp.member.precedence ≤ expr.precedence := by
  obtain ⟨_, _, hleft, h⟩ := bind_eq_ok.mp h
  obtain ⟨hkind, rfl, rfl⟩ := expect_eq_ok.mp hleft
  obtain ⟨fields, note, tokens, rfl, hreads, hderives⟩ := closed_derives
    (Expr.record type) (commaList_derives (fieldInit_derives hinner) _)
    (Phrase.spelled_seq hfront (Phrase.derives_symbol hkind))
    (List.prefix_append front _) hfront.covers h
  refine ⟨_, (State.reads_symbol hkind).trans hreads, ?_,
    Nat.le_refl _⟩
  rw [Expr.phrase, FieldInit.phrases_eq_map]
  rw [List.append_assoc] at hderives
  exact ⟨Phrase.spelled_provided_seq rfl (Phrase.spelled_seq_assoc hderives.1), hderives.2⟩

theorem named_derives (hinner : inner.DerivesExprs noisy) {place : Place}
    {expr : Expr Span} (h : named inner place s = .ok expr t) :
    s.ReadsExpr noisy place BinaryOp.member.precedence expr t := by
  rw [named, bind_eq_ok] at h
  obtain ⟨name, u, hname, h⟩ := h
  obtain ⟨front, hreads, hname⟩ := name_derives hname
  have hident (h : (pure (.ident name) : Rule (Expr Span)) u = .ok expr t) :
      s.ReadsExpr noisy place BinaryOp.member.precedence expr t := by
    cases h
    exact ⟨front, hreads, by rwa [Expr.phrase_ident], Nat.le_refl _⟩
  simp only [isAt_bind, decide_eq_true_eq] at h
  split at h
  · obtain ⟨⟨tokens, hreads', hderives⟩, hmember⟩ := call_derives hinner hname h
    exact ⟨_, hreads.trans hreads', hderives place,
      Expr.member_le_precedence_of_isMember hmember⟩
  split at h
  next hplace =>
    subst hplace
    simp only [isAt_bind, decide_eq_true_eq] at h
    split at h
    · obtain ⟨tokens, hreads', hderives, hprecedence⟩ := record_derives hinner hname h
      exact ⟨_, hreads.trans hreads', hderives, hprecedence⟩
    · exact hident h
  · exact hident h

theorem constant_derives {value : Constant} {expr : Expr Span} {place : Place}
    (hvalue : s.current.terminal? = some value.terminal)
    (h : constant value s = .ok expr t) :
    s.ReadsExpr noisy place BinaryOp.member.precedence expr t := by
  cases h
  have hkind : s.current.kind ≠ .eof := by
    intro hkind
    simp [Token.terminal?, hkind] at hvalue
  refine ⟨_, State.reads_advance hkind, ?_, Nat.le_refl _⟩
  rw [Expr.phrase]
  exact Phrase.derives_token hvalue

theorem primary_derives (hinner : inner.DerivesExprs noisy) {place : Place}
    {expr : Expr Span} (h : primary inner place s = .ok expr t) :
    s.ReadsExpr noisy place BinaryOp.member.precedence expr t := by
  rw [primary, current_bind] at h
  obtain ⟨kind, hkind⟩ : ∃ kind, s.current.kind = kind := ⟨_, rfl⟩
  cases kind with
  | keyword k =>
      cases k <;> simp only [hkind, failWith_apply, reduceCtorEq] at h
      case true_ => exact constant_derives (by rw [Token.terminal?, hkind]; rfl) h
      case false_ => exact constant_derives (by rw [Token.terminal?, hkind]; rfl) h
      case null => exact constant_derives (by rw [Token.terminal?, hkind]; rfl) h
      case sizeof =>
        rw [advance_bind] at h
        obtain ⟨_, _, hopen, h⟩ := bind_eq_ok.mp h
        obtain ⟨hleft, rfl, rfl⟩ := expect_eq_ok.mp hopen
        obtain ⟨type, note, tokens, rfl, hreads, hderives⟩ := closed_derives Expr.sizeOf
          hinner.typeExpr
          (Phrase.spelled_seq (Phrase.derives_keyword hkind) (Phrase.derives_symbol hleft))
          (List.prefix_append [s.current] _) (fun _ => .singleton _) h
        refine ⟨_, (State.reads_keyword hkind).trans
          ((State.reads_symbol hleft).trans hreads), ?_,
          Nat.le_refl _⟩
        rw [Expr.phrase]
        exact ⟨Phrase.spelled_seq_assoc hderives.1, hderives.2⟩
  | symbol symbol =>
      cases symbol <;> simp only [hkind, failWith_apply, reduceCtorEq] at h
      case leftParen =>
        rw [advance_bind] at h
        obtain ⟨value, note, tokens, rfl, hreads, hderives⟩ :=
          closed_derives Expr.group (freeExpr_derives hinner) (Phrase.derives_symbol hkind)
            List.prefix_rfl (fun _ => .singleton _) h
        refine ⟨_, (State.reads_symbol hkind).trans hreads, ?_,
          Nat.le_refl _⟩
        rw [Expr.phrase]
        exact hderives
      case leftBracket =>
        rw [advance_bind] at h
        obtain ⟨value, note, tokens, rfl, hreads, hderives⟩ :=
          closed_derives Expr.array (commaList_derives (freeExpr_derives hinner) _)
            (Phrase.derives_symbol hkind) List.prefix_rfl (fun _ => .singleton _) h
        refine ⟨_, (State.reads_symbol hkind).trans hreads, ?_,
          Nat.le_refl _⟩
        rw [Expr.phrase, Expr.phrases_eq_map]
        exact hderives
  | ident text =>
      simp only [hkind] at h
      exact named_derives hinner h
  | number =>
      simp only [hkind] at h
      exact constant_derives (by rw [Token.terminal?, hkind]; rfl) h
  | string value =>
      simp only [hkind] at h
      exact constant_derives (by rw [Token.terminal?, hkind]; rfl) h
  | char value =>
      simp only [hkind] at h
      exact constant_derives (by rw [Token.terminal?, hkind]; rfl) h
  | invalid | eof => simp only [hkind, failWith_apply, reduceCtorEq] at h

theorem member_derives (hinner : inner.DerivesExprs noisy) {expr : Expr Span}
    (h : member inner s = .ok expr t) :
    (∃ tokens, s.Reads tokens t ∧ ∀ place, (expr.phrase place).Derives noisy tokens) ∧
      expr.isMember = true := by
  obtain ⟨name, u, hname, h⟩ := bind_eq_ok.mp h
  obtain ⟨front, hreads, hname⟩ := name_derives hname
  simp only [isAt_bind, decide_eq_true_eq] at h
  split at h
  · obtain ⟨⟨tokens, hreads', hderives⟩, hmember⟩ := call_derives hinner hname h
    exact ⟨⟨_, hreads.trans hreads', hderives⟩, hmember⟩
  · cases h
    exact ⟨⟨front, hreads, fun place => by rwa [Expr.phrase_ident]⟩, rfl⟩

theorem access_derives (hinner : inner.DerivesExprs noisy) {place : Place} {op : BinaryOp}
    {base : Expr Span} {round : Round (Expr Span)} {front : List Token}
    (hop : op = .member ∨ op = .path) (hsymbol : s.current.kind = .symbol op.symbol)
    (hbase : (base.phrase place).Derives noisy front)
    (hprecedence : BinaryOp.member.precedence ≤ base.precedence)
    (h : (member inner >>= fun right => pure
      (Round.more (Expr.binary op base right (base.note.merge right.note)))) s.advance =
        .ok round t) :
    ∃ expr tokens, round = .more expr ∧ s.Reads tokens t ∧ tokens ≠ [] ∧
      (expr.phrase place).Derives noisy (front ++ tokens) ∧
      BinaryOp.member.precedence ≤ expr.precedence := by
  obtain ⟨right, _, hright, h⟩ := bind_eq_ok.mp h
  cases h
  obtain ⟨⟨back, hback, hderives⟩, hmember⟩ := member_derives hinner hright
  refine ⟨_, _, rfl, (State.reads_symbol hsymbol).trans hback,
    by simp, ?_, ?_⟩
  · have hphrase (note : Span) : (Expr.binary op base right note).phrase place =
        .node note (Phrase.concat
          [.provided (op.leftPrecedence ≤ base.precedence), base.phrase place,
            Phrase.symbol op.symbol, .provided right.isMember, right.phrase place]) := by
      rcases hop with rfl | rfl <;> rfl
    rw [hphrase]
    refine Phrase.spelled_node ?_ ?_
    · refine Phrase.spelled_provided_seq ?_ (Phrase.spelled_seq hbase ?_)
      · rcases hop with rfl | rfl <;> exact decide_eq_true hprecedence
      · exact Phrase.spelled_seq (Phrase.derives_symbol hsymbol)
          (Phrase.spelled_provided_seq hmember (hderives place))
    · exact Span.Covers.around _ hbase.exprCovers (hderives place).exprCovers
  · rcases hop with rfl | rfl <;> exact Nat.le_refl _

theorem suffix_derives (hinner : inner.DerivesExprs noisy) {place : Place}
    {base : Expr Span} {round : Round (Expr Span)} {front : List Token}
    (hbase : (base.phrase place).Derives noisy front)
    (hprecedence : BinaryOp.member.precedence ≤ base.precedence)
    (h : suffix inner base s = .ok round t) :
    (∃ expr tokens, round = .more expr ∧ s.Reads tokens t ∧ tokens ≠ [] ∧
        (expr.phrase place).Derives noisy (front ++ tokens) ∧
        BinaryOp.member.precedence ≤ expr.precedence) ∨
      round = .last base ∧ t = s := by
  rw [suffix, take?_bind] at h
  split at h
  next hdot => exact .inl (access_derives hinner (.inl rfl) hdot hbase hprecedence h)
  simp only [Bool.false_eq_true, if_false, take?_bind] at h
  split at h
  next hcolons => exact .inl (access_derives hinner (.inr rfl) hcolons hbase hprecedence h)
  split at h
  next hbracket =>
    rw [if_pos trivial] at h
    obtain ⟨right, note, tokens, rfl, hreads, hderives⟩ := closed_derives
      (fun right note => Round.more (Expr.binary .index base right note))
      (freeExpr_derives hinner)
      (Phrase.spelled_seq hbase (Phrase.derives_symbol hbracket))
      (List.prefix_append front _) hbase.exprCovers h
    refine .inl ⟨_, _, rfl, (State.reads_symbol hbracket).trans
      hreads, by simp, ?_, Nat.le_refl _⟩
    rw [List.append_assoc] at hderives
    rw [Expr.phrase]
    exact ⟨Phrase.spelled_provided_seq (decide_eq_true hprecedence)
      (Phrase.spelled_seq_assoc hderives.1), hderives.2⟩
  next =>
    cases h
    exact .inr ⟨rfl, rfl⟩

theorem operand_derives (hinner : inner.DerivesExprs noisy) {place : Place}
    {expr : Expr Span} (h : operand inner place s = .ok expr t) :
    s.ReadsExpr noisy place UnaryOp.precedence expr t := by
  rw [operand, current_bind] at h
  cases hop : unaryOp? s.current.kind with
  | some op =>
      simp only [hop, advance_bind, bind_eq_ok] at h
      obtain ⟨value, u, hvalue, h⟩ := h
      cases h
      obtain ⟨tokens, hreads, hderives, hprecedence⟩ := hinner.operand hvalue
      obtain ⟨symbol, hkind, hsymbol⟩ : ∃ symbol, s.current.kind = .symbol symbol ∧
          UnaryOp.ofSymbol? symbol = some op := by
        revert hop
        cases s.current.kind <;> simp [unaryOp?]
      obtain rfl := UnaryOp.symbol_of_ofSymbol? hsymbol
      refine ⟨_, (State.reads_symbol hkind).trans hreads, ?_,
        Nat.le_refl _⟩
      rw [Expr.phrase]
      refine Phrase.spelled_node ?_ ?_
      · exact Phrase.spelled_seq (Phrase.derives_symbol hkind)
          (Phrase.spelled_provided_seq (decide_eq_true hprecedence) hderives)
      · exact Span.Covers.around [] (fun _ => .singleton _) hderives.exprCovers
  | none =>
      simp only [hop] at h
      obtain ⟨first, u, hfirst, hrest⟩ := bind_eq_ok.mp h
      have hread : s.ReadsExpr noisy place BinaryOp.member.precedence expr t := by
        refine iterate_ok hrest (s.ReadsExpr noisy place BinaryOp.member.precedence)
          (s.ReadsExpr noisy place BinaryOp.member.precedence)
          (primary_derives hinner hfirst) ?_
        rintro base u round v ⟨front, hfront, hbase, hprecedence⟩ hstep
        rcases suffix_derives hinner hbase hprecedence hstep with
          ⟨expr, tokens, rfl, hreads, hne, hderives, hprecedence'⟩ | ⟨rfl, rfl⟩
        · exact .more (hreads.length_lt hne)
            ⟨_, hfront.trans hreads, hderives, hprecedence'⟩
        · exact .last ⟨front, hfront, hbase, hprecedence⟩
      obtain ⟨tokens, hreads, hderives, hprecedence⟩ := hread
      exact ⟨tokens, hreads, hderives, Nat.le_trans (by decide) hprecedence⟩

/-- Whether the operator that may come next takes `expr` whole for its left
operand. -/
def Joins (expr : Expr Span) (s : State) : Prop :=
  ∀ op, InfixOp.ofKind? s.current.kind = some op → op.leftPrecedence ≤ expr.precedence

theorem operation_derives (hinner : inner.DerivesExprs noisy) {place : Place} {least : Nat}
    {left : Expr Span} {round : Round (Expr Span)} {front : List Token}
    (hleft : (left.phrase place).Derives noisy front) (hjoins : Joins left s)
    (h : operation inner place least left s = .ok round t) :
    (∃ expr tokens, round = .more expr ∧ s.Reads tokens t ∧ tokens ≠ [] ∧
        (expr.phrase place).Derives noisy (front ++ tokens) ∧ least ≤ expr.precedence ∧
        Joins expr t) ∨
      round = .last left ∧ t = s ∧
        ∀ op, InfixOp.ofKind? s.current.kind = some op → op.precedence < least := by
  rw [operation, current_bind] at h
  cases hop : InfixOp.ofKind? s.current.kind with
  | none =>
      simp only [hop] at h
      cases h
      exact .inr ⟨rfl, rfl, nofun⟩
  | some op =>
      simp only [hop] at h
      split at h
      next hlt =>
        cases h
        exact .inr ⟨rfl, rfl, fun op' hop' => Option.some.inj hop' ▸ hlt⟩
      next hle =>
        rw [advance_bind] at h
        cases op with
        | cast =>
            have hkind := InfixOp.kind_of_cast hop
            obtain ⟨type, _, htype, hrest⟩ := bind_eq_ok.mp h
            cases hrest
            obtain ⟨tokens, hreads, hderives⟩ := hinner.typeExpr htype
            refine .inl ⟨_, _, rfl, (State.reads_keyword hkind).trans
              hreads, by simp, ?_, Nat.le_of_not_lt hle, ?_⟩
            · rw [Expr.phrase]
              refine Phrase.spelled_node ?_ ?_
              · refine Phrase.spelled_provided_seq (decide_eq_true (hjoins _ hop)) ?_
                exact Phrase.spelled_seq hleft
                  (Phrase.spelled_seq (Phrase.derives_keyword hkind) hderives)
              · exact Span.Covers.around _ hleft.exprCovers
                  (Phrase.Derives.typeCovers hderives)
            · exact fun op hop => InfixOp.leftPrecedence_le_cast hop
        | binary op =>
            obtain ⟨symbol, hkind, hsymbol⟩ := InfixOp.kind_of_binary hop
            obtain ⟨right, _, hright, hrest⟩ := bind_eq_ok.mp h
            cases hrest
            have hbound : op.rightPrecedence ≤ UnaryOp.precedence := by
              obtain rfl := BinaryOp.symbol_of_ofSymbol? hsymbol
              revert hsymbol
              cases op <;> decide
            obtain ⟨⟨tokens, hreads, hderives, hprecedence⟩, hends⟩ :=
              hinner.expr hbound hright
            refine .inl ⟨_, _, rfl, (State.reads_symbol hkind).trans
              hreads, by simp, ?_, Nat.le_of_not_lt hle, ?_⟩
            · rw [Expr.phrase_infix hsymbol]
              refine Phrase.spelled_node ?_ ?_
              · refine Phrase.spelled_provided_seq (decide_eq_true (hjoins _ hop)) ?_
                refine Phrase.spelled_seq hleft ?_
                exact Phrase.spelled_seq (Phrase.derives_symbol hkind)
                  (Phrase.spelled_provided_seq (decide_eq_true hprecedence) hderives)
              · exact Span.Covers.around _ hleft.exprCovers hderives.exprCovers
            · exact fun next hnext => InfixOp.leftPrecedence_le_of_lt (hends next hnext)

theorem expression_derives (hinner : inner.DerivesExprs noisy) {place : Place} {least : Nat}
    {expr : Expr Span} (hleast : least ≤ UnaryOp.precedence)
    (h : expression inner place least s = .ok expr t) :
    s.ReadsExpr noisy place least expr t ∧
      ∀ op, InfixOp.ofKind? t.current.kind = some op → op.precedence < least := by
  obtain ⟨first, u, hfirst, hrest⟩ := bind_eq_ok.mp h
  obtain ⟨front, hfront, hderives, hprecedence⟩ := operand_derives hinner hfirst
  refine iterate_ok hrest
    (fun expr t => s.ReadsExpr noisy place least expr t ∧ Joins expr t)
    (fun expr t => s.ReadsExpr noisy place least expr t ∧
      ∀ op, InfixOp.ofKind? t.current.kind = some op → op.precedence < least) ?_ ?_
  · refine ⟨⟨front, hfront, hderives, Nat.le_trans hleast hprecedence⟩, fun op hop => ?_⟩
    exact Nat.le_trans (InfixOp.leftPrecedence_le_cast hop)
      (Nat.le_trans (by decide) hprecedence)
  · rintro left v round w ⟨⟨front, hfront, hleft, hprecedence⟩, hjoins⟩ hstep
    rcases operation_derives hinner hleft hjoins hstep with
      ⟨expr, tokens, rfl, hreads, hne, hexpr, hleast', hjoins'⟩ | ⟨rfl, rfl, hends⟩
    · exact .more (hreads.length_lt hne)
        ⟨⟨_, hfront.trans hreads, hexpr, hleast'⟩, hjoins'⟩
    · exact .last ⟨⟨front, hfront, hleft, hprecedence⟩, hends⟩

end Rule

namespace Level

theorem lowest_derivesExprs : lowest.DerivesExprs noisy where
  expr _ h := nomatch h
  operand h := nomatch h
  typeExpr h := nomatch h
  typeExpr_ends h := nomatch h

theorem DerivesExprs.above {level : Level} (h : level.DerivesExprs noisy) :
    level.above.DerivesExprs noisy where
  expr hleast hok := Rule.expression_derives h hleast hok
  operand hok := Rule.operand_derives h hok
  typeExpr hok := (Rule.typeExpr_derives h hok).1
  typeExpr_ends hok := (Rule.typeExpr_derives h hok).2

end Level

end SourceFront
