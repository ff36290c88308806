import SourceFront.Grammar.Statement
import SourceFront.Proofs.Recognition.Type

/-!
The expressions that are written are those that are read.
-/

namespace SourceFront

/-- Whether a name may end before a token of the kind: no arguments follow, and no fields
where they would be recognised. -/
def TokenKind.endsName (place : Place) : TokenKind → Bool
  | .symbol .leftParen => false
  | .symbol .leftBrace => place = .beforeBlock
  | _ => true

/-- Whether an expression without operators may begin with the terminal. -/
def Terminal.beginsPrimary : Terminal → Bool
  | number _ | string _ | char _ | ident _ => true
  | keyword k => k = .true_ || k = .false_ || k = .null || k = .sizeof
  | symbol s => s = .leftParen || s = .leftBracket

/-- Whether an expression may begin with the terminal. -/
def Terminal.beginsExpr : Terminal → Bool
  | symbol s => (symbol s).beginsPrimary || (UnaryOp.ofSymbol? s).isSome
  | a => a.beginsPrimary

theorem Terminal.beginsStatement_of_beginsExpr {a : Terminal} (h : a.beginsExpr = true) :
    a.kind.beginsStatement = false ∧ a.kind.beginsItemOnly = false ∧
      a.kind ≠ .symbol .leftBrace := by
  cases a with
  | keyword k =>
      refine ⟨?_, ?_, by simp [kind]⟩
      · cases k <;> first | rfl | cases h
      · cases k <;> first | rfl | cases h
  | symbol symbol =>
      refine ⟨rfl, rfl, ?_⟩
      rintro hkind
      cases hkind
      cases h
  | _ => exact ⟨rfl, rfl, by simp [kind]⟩

namespace BinaryOp

/-- Whether the operator stands behind its only bare operand. -/
def isPostfix : BinaryOp → Bool
  | path | member | index => true
  | _ => false

theorem precedence_le_leftPrecedence (op : BinaryOp) : op.precedence ≤ op.leftPrecedence := by
  cases op <;> decide

theorem precedence_le_rightPrecedence (op : BinaryOp) : op.precedence ≤ op.rightPrecedence := by
  cases op <;> decide

theorem isPostfix_of_le {op : BinaryOp} (h : UnaryOp.precedence ≤ op.precedence) :
    op.isPostfix = true := by
  revert h
  cases op <;> decide

theorem ofSymbol?_symbol {op : BinaryOp} (h : op.isPostfix = false) :
    ofSymbol? op.symbol = some op := by
  cases op <;> first | rfl | cases h

theorem endsOperand_symbol {op : BinaryOp} (h : op.isPostfix = false) (place : Place) :
    (TokenKind.symbol op.symbol).endsOperand place = true := by
  cases op <;> first | rfl | cases h

end BinaryOp

theorem InfixOp.ofKind?_symbol {op : BinaryOp} (h : op.isPostfix = false) :
    ofKind? (.symbol op.symbol) = some (.binary op) := by
  simp [ofKind?, BinaryOp.ofSymbol?_symbol h]

theorem InfixOp.precedence_lt_of_le {op : BinaryOp} {next : InfixOp}
    (h : next.leftPrecedence ≤ op.precedence) : next.precedence < op.rightPrecedence := by
  cases next with
  | cast =>
      revert h
      cases op <;> decide
  | binary next =>
      revert h
      cases next <;> cases op <;> decide

theorem UnaryOp.ofSymbol?_symbol (op : UnaryOp) : ofSymbol? op.symbol = some op := by
  cases op <;> rfl

theorem TokenKind.endsType_of_endsOperand {place : Place} {kind : TokenKind}
    (h : kind.endsOperand place = true) : kind.endsType = true := by
  unfold endsOperand at h
  rw [Bool.and_eq_true] at h
  exact h.1

theorem TokenKind.endsName_of_endsOperand {place : Place} {kind : TokenKind}
    (h : kind.endsOperand place = true) : kind.endsName place = true := by
  unfold endsOperand at h
  unfold endsName
  rw [Bool.and_eq_true] at h
  obtain ⟨-, h⟩ := h
  split at h <;> simp_all

variable {α : Type}

/-- Whether the expression has no operators outside of brackets. -/
def Expr.isPrimary : Expr α → Bool
  | .binary _ _ _ _ | .unary _ _ _ | .cast _ _ _ => false
  | _ => true

namespace Expr

/-- What stands behind a binary operator, with the right operand. -/
def joined (place : Place) (op : BinaryOp) (right : Expr α) : Phrase α :=
  match op with
  | .index => .seq (.deeper (right.phrase .free)) (.symbol .rightBracket)
  | .member | .path => .seq (.provided right.isMember) (right.phrase place)
  | _ =>
      .seq (.provided (op.rightPrecedence ≤ right.precedence)) (.deeper (right.phrase place))

variable {place : Place} {op : BinaryOp} {left right : Expr α} {note : α}

theorem phrase_binary :
    (binary op left right note).phrase place =
      .node note (.concat
        [.provided (op.leftPrecedence ≤ left.precedence), left.phrase place,
          .symbol op.symbol, right.joined place op]) := by
  cases op <;> rfl

theorem between_binary {s t : State} :
    ((binary op left right note).phrase place).Between s t ↔
      op.leftPrecedence ≤ left.precedence ∧ ∃ u, (left.phrase place).Between s u ∧
        ∃ v, u.Spells [.symbol op.symbol] v ∧ (right.joined place op).Between v t := by
  rw [phrase_binary]
  constructor
  · rintro ⟨_, ⟨hprecedence, rfl, -⟩, hparts⟩
    exact ⟨of_decide_eq_true hprecedence, hparts⟩
  · rintro ⟨hprecedence, u, hleft, hparts⟩
    exact ⟨s, ⟨decide_eq_true hprecedence, rfl, hleft.clean⟩, u, hleft, hparts⟩

theorem nesting_binary {n : Nat} :
    ((binary op left right note).phrase place).nesting ≤ n ↔
      (left.phrase place).nesting ≤ n ∧ (right.joined place op).nesting ≤ n := by
  simp [phrase_binary, Phrase.nesting, Phrase.symbol]

end Expr

theorem Expr.between_kind {place : Place} :
    ∀ {expr : Expr α} {s t : State}, (expr.phrase place).Between s t →
      ∃ a : Terminal, s.current.kind = a.kind ∧ a.beginsExpr = true ∧
        (BinaryOp.member.precedence ≤ expr.precedence → a.beginsPrimary = true)
  | .constant value _, _, _, h => by
      refine ⟨_, State.Spells.kind h, ?_⟩
      rcases value with _ | _ | _ | (_ | _) | _ <;> exact ⟨rfl, fun _ => rfl⟩
  | .ident _, _, _, h => ⟨_, State.Spells.kind h, rfl, fun _ => rfl⟩
  | .binary op _ _ _, _, _, h => by
      obtain ⟨hleft, u, h, -⟩ := between_binary.mp h
      obtain ⟨a, hkind, hexpr, hprimary⟩ := between_kind h
      refine ⟨a, hkind, hexpr, fun hprecedence => hprimary ?_⟩
      exact Nat.le_trans hprecedence (Nat.le_trans op.precedence_le_leftPrecedence hleft)
  | .unary op _ _, _, _, ⟨_, hop, _⟩ =>
      have htight : ¬ BinaryOp.member.precedence ≤ UnaryOp.precedence := by decide
      ⟨_, hop.kind, by simp [Terminal.beginsExpr, UnaryOp.ofSymbol?_symbol],
        fun hprecedence => absurd hprecedence htight⟩
  | .cast _ _ _, _, _, ⟨_, ⟨_, hsame, _⟩, _, h, _⟩ => by
      obtain ⟨a, hkind, hexpr, -⟩ := between_kind h
      have htight : ¬ BinaryOp.member.precedence ≤ InfixOp.cast.precedence := by decide
      exact ⟨a, hsame ▸ hkind, hexpr, fun hprecedence => absurd hprecedence htight⟩
  | .call _ _ _, _, _, ⟨_, hname, _⟩ => ⟨_, State.Spells.kind hname, rfl, fun _ => rfl⟩
  | .record _ _ _, _, _, ⟨_, ⟨_, hsame, _⟩, _, hname, _⟩ =>
      ⟨_, hsame ▸ State.Spells.kind hname, rfl, fun _ => rfl⟩
  | .array _ _, _, _, ⟨_, hopen, _⟩ => ⟨_, hopen.kind, rfl, fun _ => rfl⟩
  | .sizeOf _ _, _, _, ⟨_, hsizeof, _⟩ => ⟨_, hsizeof.kind, rfl, fun _ => rfl⟩
  | .group _ _, _, _, ⟨_, hopen, _⟩ => ⟨_, hopen.kind, rfl, fun _ => rfl⟩

/-- Whether the expression, where it is the operand read so far, is taken for the left
operand of nothing inside of it by a token of the kind. -/
def Expr.endsBefore (place : Place) (expr : Expr α) (kind : TokenKind) : Bool :=
  match expr with
  | .binary op _ _ _ => kind.endsExpr place op.rightPrecedence
  | _ => kind.endsOperand place

theorem Expr.endsOperand_of_endsBefore {place : Place} {expr : Expr α} {kind : TokenKind}
    (h : expr.endsBefore place kind = true) : kind.endsOperand place = true := by
  unfold endsBefore at h
  split at h
  · rw [TokenKind.endsExpr, Bool.and_eq_true] at h
    exact h.1
  · exact h

theorem Expr.endsBefore_of_endsExpr {place : Place} {least : Nat} {expr : Expr α}
    {kind : TokenKind} (hle : least ≤ expr.precedence)
    (h : kind.endsExpr place least = true) : expr.endsBefore place kind = true := by
  rw [TokenKind.endsExpr, Bool.and_eq_true] at h
  unfold endsBefore
  split
  · rename_i op _ _ _
    rw [TokenKind.endsExpr, Bool.and_eq_true]
    refine ⟨h.1, ?_⟩
    have hlt := h.2
    cases hkind : kind.precedence? with
    | none => rfl
    | some precedence =>
        have hle : least ≤ op.precedence := hle
        have hright := op.precedence_le_rightPrecedence
        simp only [hkind, Option.all_some, decide_eq_true_eq] at hlt ⊢
        omega
  · exact h.1

/-- An operator that binds no tighter than the expression takes it for its left operand. -/
theorem Expr.endsBefore_of_leftPrecedence_le {place : Place} {expr : Expr α} {kind : TokenKind}
    (op : InfixOp) (hkind : InfixOp.ofKind? kind = some op)
    (hoperand : kind.endsOperand place = true) (hle : op.leftPrecedence ≤ expr.precedence) :
    expr.endsBefore place kind = true := by
  unfold endsBefore
  split
  · simp [TokenKind.endsExpr, hoperand, TokenKind.precedence?, hkind,
      InfixOp.precedence_lt_of_le hle]
  · exact hoperand

namespace Rule

variable {n : Nat} {inner : Level} {s t u v : State} (hinner : inner.Recognises α n)
include hinner

theorem freeExpr_readsElement (expr : Expr α) {close : Symbol}
    (hclose : (TokenKind.symbol close).endsExpr .free 0 = true)
    (hclose' : (Terminal.symbol close).beginsExpr = false) :
    ReadsElement n close inner.freeExpr (.deeper (expr.phrase .free))
      fun value => value.map forget = expr.map forget where
  gives hspells hend := by
    refine hinner.expr (Nat.zero_le _) hspells ?_
    rcases hend with hkind | hkind
    · rw [hkind]
      rfl
    · rw [hkind]
      exact hclose
  head hspells := by
    obtain ⟨a, hkind, hbegins, -⟩ := expr.between_kind hspells
    refine ⟨a, hkind, ?_, ?_⟩
    · rintro rfl
      rw [hclose'] at hbegins
      cases hbegins
    · rintro rfl
      cases hbegins

theorem exprs_give {exprs : List (Expr α)} {close : Symbol}
    (hclose : (TokenKind.symbol close).endsExpr .free 0 = true)
    (hclose' : (Terminal.symbol close).beginsExpr = false) (hcomma : close ≠ .comma)
    (hspells : (Phrase.commas (Expr.phrases exprs)).Between s t)
    (hend : t.current.kind = .symbol close) :
    Gives False ((Phrase.commas (Expr.phrases exprs)).nesting ≤ n)
      (fun values => values.map (Expr.map forget) = exprs.map (Expr.map forget))
      (commaList close inner.freeExpr) s t := by
  rw [Expr.phrases_eq_map] at hspells ⊢
  exact commaList_gives hcomma
    (fun expr _ => freeExpr_readsElement hinner expr hclose hclose') hspells hend

theorem call_gives {name : Name Span} {callee : Name α} {args : List (Expr α)} {note : α}
    (hname : name.map forget = callee.map forget) (hopen : s.Spells [.symbol .leftParen] u)
    (hargs : (Phrase.commas (Expr.phrases args)).Between u v)
    (hclose : v.Spells [.symbol .rightParen] t) :
    Gives False ((Phrase.commas (Expr.phrases args)).nesting ≤ n)
      (fun value => value.map forget = (Expr.call callee args note).map forget)
      (call inner name) s t := by
  have hopen' := hopen.kind
  have hclose' := hclose.kind
  obtain ⟨-, rfl, -⟩ := hopen
  obtain ⟨-, rfl, -⟩ := hclose
  have hargs := exprs_give hinner rfl rfl (by decide) hargs hclose'
  refine .expect hopen' (.finish hargs fun values hvalues => .expect hclose' (.pure ?_))
  simp [Expr.map, Expr.mapList_eq_map, hname, hvalues]

theorem fieldInit_gives {init : FieldInit α} (hspells : init.phrase.Between s t)
    (hend : t.current.kind.endsExpr .free 0 = true) :
    Gives False (init.phrase.nesting ≤ n) (fun value => value.map forget = init.map forget)
      (fieldInit inner) s t := by
  obtain ⟨name, value, note⟩ := init
  obtain ⟨_, ⟨hname, rfl, -⟩, _, ⟨hcolon, rfl, -⟩, hvalue⟩ := hspells
  have hgives := hinner.expr (Nat.zero_le _) hvalue hend
  refine .imp (.name (Token.kind_of_terminal? hname) (.expect (Token.kind_of_terminal? hcolon)
    (.finish hgives fun read hread => .pure ?_))) ?_ fun _ hgood => hgood
  · simp [FieldInit.map, Name.map, forget, hread]
  · simp [FieldInit.phrase, Name.phrase, Expr.whole]

theorem record_gives {name : Name Span} {type : Name α} {inits : List (FieldInit α)} {note : α}
    (hname : name.map forget = type.map forget) (hopen : s.Spells [.symbol .leftBrace] u)
    (hinits : (Phrase.commas (FieldInit.phrases inits)).Between u v)
    (hclose : v.Spells [.symbol .rightBrace] t) :
    Gives False ((Phrase.commas (FieldInit.phrases inits)).nesting ≤ n)
      (fun value => value.map forget = (Expr.record type inits note).map forget)
      (record inner name) s t := by
  rw [FieldInit.phrases_eq_map] at hinits ⊢
  have hopen' := hopen.kind
  have hclose' := hclose.kind
  obtain ⟨-, rfl, -⟩ := hopen
  obtain ⟨-, rfl, -⟩ := hclose
  have helement (init : FieldInit α) : ReadsElement n .rightBrace (fieldInit inner) init.phrase
      fun value => value.map forget = init.map forget := by
    refine ⟨fun hspells hend => fieldInit_gives hinner hspells ?_, fun hspells => ?_⟩
    · rcases hend with hkind | hkind <;> rw [hkind] <;> rfl
    · obtain ⟨name, value, note⟩ := init
      obtain ⟨_, hname, -⟩ := hspells
      exact ⟨_, State.Spells.kind hname, by simp, by simp⟩
  have hinits := commaList_gives (by decide) (fun init _ => helement init) hinits hclose'
  refine .expect hopen' (.finish hinits fun values hvalues => .expect hclose' (.pure ?_))
  simp [Expr.map, FieldInit.mapList_eq_map, hname, hvalues]

theorem member_gives {expr : Expr α} {place : Place} (hmember : expr.isMember = true)
    (hspells : (expr.phrase place).Between s t) (hend : t.current.kind.endsName place = true) :
    Gives False ((expr.phrase place).nesting ≤ n)
      (fun value => value.map forget = expr.map forget) (member inner) s t := by
  cases expr with
  | ident name =>
      have hparen : t.current.kind ≠ .symbol .leftParen := by
        intro hkind
        rw [hkind] at hend
        cases hend
      have hkind := State.Spells.kind hspells
      obtain ⟨-, rfl, -⟩ := hspells
      refine .imp (.name hkind (.unlessAt hparen (.pure ?_))) ?_ fun _ hgood => hgood
      · simp [Expr.map, Name.map, forget]
      · simp [Expr.phrase, Name.phrase]
  | call callee args note =>
      obtain ⟨_, ⟨hname, rfl, -⟩, _, hopen, _, hargs, hclose⟩ := hspells
      refine .imp (.name (Token.kind_of_terminal? hname) (.whenAt hopen.kind
        (call_gives hinner ?_ hopen hargs hclose))) ?_ fun _ hgood => hgood
      · rfl
      · simp [Expr.phrase, Name.phrase]
  | _ => cases hmember

omit hinner in
theorem name_named_gives {name : Name α} {place : Place}
    (hspells : ((Expr.ident name).phrase place).Between s t)
    (hend : t.current.kind.endsName place = true) :
    Gives False (((Expr.ident name).phrase place).nesting ≤ n)
      (fun value => value.map forget = (Expr.ident name).map forget) (named inner place) s t := by
  have hparen : t.current.kind ≠ .symbol .leftParen := by
    intro hkind
    rw [hkind] at hend
    cases hend
  have hname := State.Spells.kind hspells
  obtain ⟨-, rfl, -⟩ := hspells
  have hbrace (hfree : place = .free) : s.advance.current.kind ≠ .symbol .leftBrace := by
    intro hkind
    rw [hkind, hfree] at hend
    cases hend
  have hplain : Gives False True
      (fun value : Expr Span => value.map forget = (Expr.ident name).map forget)
      (pure (.ident ⟨name.text, s.current.span⟩)) s.advance s.advance :=
    .pure (by simp [Expr.map, Name.map, forget])
  have hrest : Gives False True
      (fun value : Expr Span => value.map forget = (Expr.ident name).map forget)
      (if place = .free then
        isAt (.symbol .leftBrace) >>= fun found =>
          if found then record inner ⟨name.text, s.current.span⟩
          else pure (.ident ⟨name.text, s.current.span⟩)
      else pure (.ident ⟨name.text, s.current.span⟩)) s.advance s.advance := by
    split
    · exact .unlessAt (hbrace ‹_›) hplain
    · exact hplain
  refine .imp (.name hname (.unlessAt hparen hrest)) ?_ fun _ hgood => hgood
  simp [Expr.phrase, Name.phrase]

theorem call_named_gives {callee : Name α} {args : List (Expr α)} {note : α} {place : Place}
    (hspells : ((Expr.call callee args note).phrase place).Between s t) :
    Gives False (((Expr.call callee args note).phrase place).nesting ≤ n)
      (fun value => value.map forget = (Expr.call callee args note).map forget)
      (named inner place) s t := by
  obtain ⟨_, ⟨hname, rfl, -⟩, _, hopen, _, hargs, hclose⟩ := hspells
  refine .imp (.name (Token.kind_of_terminal? hname) (.whenAt hopen.kind
    (call_gives hinner ?_ hopen hargs hclose))) ?_ fun _ hgood => hgood
  · rfl
  · simp [Expr.phrase, Name.phrase]

theorem record_named_gives {type : Name α} {inits : List (FieldInit α)} {note : α} {place : Place}
    (hspells : ((Expr.record type inits note).phrase place).Between s t) :
    Gives False (((Expr.record type inits note).phrase place).nesting ≤ n)
      (fun value => value.map forget = (Expr.record type inits note).map forget)
      (named inner place) s t := by
  obtain ⟨_, ⟨hfree, rfl, -⟩, _, ⟨hname, rfl, -⟩, _, hopen, _, hinits, hclose⟩ := hspells
  obtain rfl : place = .free := of_decide_eq_true hfree
  have hbrace : s.advance.current.kind = .symbol .leftBrace := hopen.kind
  have hparen : s.advance.current.kind ≠ .symbol .leftParen := by simp [hbrace]
  have hname' : (⟨type.text, s.current.span⟩ : Name Span).map forget = type.map forget := rfl
  have hrest : Gives False ((Phrase.commas (FieldInit.phrases inits)).nesting ≤ n)
      (fun value : Expr Span => value.map forget = (Expr.record type inits note).map forget)
      (isAt (.symbol .leftBrace) >>= fun found =>
        if found then record inner ⟨type.text, s.current.span⟩
        else pure (.ident ⟨type.text, s.current.span⟩)) s.advance t :=
    .whenAt hbrace (record_gives hinner hname' hopen hinits hclose)
  refine .imp (.name (Token.kind_of_terminal? hname) (.unlessAt hparen hrest)) ?_
    fun _ hgood => hgood
  simp [Expr.phrase, Name.phrase]

omit hinner in
theorem primary_of_constant (inner : Level) (place : Place) {value : Constant}
    (h : s.current.terminal? = some value.terminal) :
    primary inner place s = constant value s := by
  have hkind := Token.kind_of_terminal? h
  rw [primary, current_bind]
  cases value with
  | number digits =>
      rw [← Token.text_of_terminal? h]
      simp only [hkind, Constant.terminal, Terminal.kind]
  | bool value =>
      cases value <;> simp only [hkind, Constant.terminal, Terminal.kind]
  | _ => simp only [hkind, Constant.terminal, Terminal.kind]

theorem primary_gives {expr : Expr α} {place : Place}
    (hspells : (expr.phrase place).Between s t)
    (hprimary : expr.isPrimary = true) (hend : t.current.kind.endsName place = true) :
    Gives False ((expr.phrase place).nesting ≤ n)
      (fun value => value.map forget = expr.map forget) (primary inner place) s t := by
  cases expr with
  | constant value note =>
      obtain ⟨hvalue, rfl, -⟩ := hspells
      have hrun : primary inner place s = .ok (.constant value s.current.span) s.advance :=
        primary_of_constant inner place hvalue
      exact ⟨fun _ => ⟨_, hrun, rfl⟩, fun hno => absurd (Nat.zero_le n) hno⟩
  | ident name =>
      have hkind : s.current.kind = .ident name.text := State.Spells.kind hspells
      refine .current ?_
      simp only [hkind]
      exact name_named_gives hspells hend
  | call callee args note =>
      have hkind : s.current.kind = .ident callee.text := by
        obtain ⟨_, hname, -⟩ := hspells
        exact State.Spells.kind hname
      refine .current ?_
      simp only [hkind]
      exact call_named_gives hinner hspells
  | record type inits note =>
      have hkind : s.current.kind = .ident type.text := by
        obtain ⟨_, ⟨-, rfl, -⟩, _, hname, -⟩ := hspells
        exact State.Spells.kind hname
      refine .current ?_
      simp only [hkind]
      exact record_named_gives hinner hspells
  | array elements note =>
      obtain ⟨_, ⟨hopen, rfl, -⟩, _, helements, hclose⟩ := hspells
      have hkind : s.current.kind = .symbol .leftBracket := Token.kind_of_terminal? hopen
      have hclose' := hclose.kind
      obtain ⟨-, rfl, -⟩ := hclose
      have hgives := exprs_give hinner rfl rfl (by decide) helements hclose'
      refine .current ?_
      simp only [hkind]
      refine .imp (.advance (.finish hgives fun values hvalues =>
        .expect hclose' (.pure ?_))) ?_ fun _ hgood => hgood
      · simp [Expr.map, Expr.mapList_eq_map, hvalues]
      · simp [Expr.phrase]
  | sizeOf type note =>
      obtain ⟨_, ⟨hsizeof, rfl, -⟩, _, ⟨hopen, rfl, -⟩, _, htype, hclose⟩ := hspells
      have hkind : s.current.kind = .keyword .sizeof := Token.kind_of_terminal? hsizeof
      have hclose' := hclose.kind
      obtain ⟨-, rfl, -⟩ := hclose
      have hgives := hinner.typeExpr htype (by rw [hclose']; rfl)
      refine .current ?_
      simp only [hkind]
      refine .imp (.advance (.expect (Token.kind_of_terminal? hopen)
        (.finish hgives fun value hvalue => .expect hclose' (.pure ?_)))) ?_ fun _ hgood => hgood
      · simp [Expr.map, hvalue]
      · simp [Expr.phrase]
  | group value note =>
      obtain ⟨_, ⟨hopen, rfl, -⟩, _, hvalue, hclose⟩ := hspells
      have hkind : s.current.kind = .symbol .leftParen := Token.kind_of_terminal? hopen
      have hclose' := hclose.kind
      obtain ⟨-, rfl, -⟩ := hclose
      have hgives := hinner.expr (Nat.zero_le _) hvalue (by rw [hclose']; rfl)
      refine .current ?_
      simp only [hkind]
      refine .imp (.advance (.finish hgives fun read hread =>
        .expect hclose' (.pure ?_))) ?_ fun _ hgood => hgood
      · simp [Expr.map, hread]
      · simp [Expr.phrase, Expr.whole]
  | binary op left right note => cases hprimary
  | unary op operand note => cases hprimary
  | cast operand type note => cases hprimary

theorem suffix_gives {op : BinaryOp} {left right : Expr α} {note : α} {place : Place}
    {base : Expr Span} (hbase : base.map forget = left.map forget)
    (hbehind : op.isPostfix = true) (hop : s.Spells [.symbol op.symbol] u)
    (hspells : (right.joined place op).Between u t)
    (hend : t.current.kind.endsName place = true) :
    Gives False ((right.joined place op).nesting ≤ n)
      (fun round => ∃ next, round = Round.more next ∧
        next.map forget = (Expr.binary op left right note).map forget)
      (suffix inner base) s t := by
  have hkind : s.current.kind = .symbol op.symbol := hop.kind
  obtain ⟨-, rfl, -⟩ := hop
  cases op with
  | path =>
      obtain ⟨_, ⟨hright, rfl, -⟩, hspells⟩ := hspells
      have hdot : s.current.kind ≠ .symbol .dot := by simp [hkind, BinaryOp.symbol]
      have hmember := member_gives hinner hright hspells hend
      refine .imp (.unlessTaken hdot (.whenTaken hkind
        (.finish hmember fun value hvalue => .pure ⟨_, rfl, ?_⟩))) ?_ fun _ hgood => hgood
      · simp [Expr.joined]
      · simp [Expr.map, hbase, hvalue]
  | member =>
      obtain ⟨_, ⟨hright, rfl, -⟩, hspells⟩ := hspells
      have hmember := member_gives hinner hright hspells hend
      refine .imp (.whenTaken hkind
        (.finish hmember fun value hvalue => .pure ⟨_, rfl, ?_⟩)) ?_ fun _ hgood => hgood
      · simp [Expr.joined]
      · simp [Expr.map, hbase, hvalue]
  | index =>
      obtain ⟨v, hspells, hclose⟩ := hspells
      have hclose' := hclose.kind
      obtain ⟨-, rfl, -⟩ := hclose
      have hdot : s.current.kind ≠ .symbol .dot := by simp [hkind, BinaryOp.symbol]
      have hcolons : s.current.kind ≠ .symbol .colonColon := by simp [hkind, BinaryOp.symbol]
      have hgives := hinner.expr (Nat.zero_le _) hspells (by rw [hclose']; rfl)
      refine .imp (.unlessTaken hdot (.unlessTaken hcolons (.whenTaken hkind
        (.finish hgives fun value hvalue => .expect hclose' (.pure ⟨_, rfl, ?_⟩))))) ?_
        fun _ hgood => hgood
      · simp [Expr.joined, Expr.whole]
      · simp [Expr.map, hbase, hvalue]
  | _ => cases hbehind

theorem postfix_continues {place : Place} :
    ∀ {expr : Expr α} {s t : State}, BinaryOp.member.precedence ≤ expr.precedence →
      (expr.phrase place).Between s t → t.current.kind.endsName place = true →
      Continues ((expr.phrase place).nesting ≤ n)
        (fun value => value.map forget = expr.map forget) (primary inner place)
        (suffix inner) s t
  | .binary op left right note, s, t, hprecedence, hspells, hend => by
      obtain ⟨hleft, u, hspells, v, hop, hright⟩ := Expr.between_binary.mp hspells
      have hbehind : op.isPostfix = true :=
        BinaryOp.isPostfix_of_le (Nat.le_trans (by decide) hprecedence)
      have hleft' : BinaryOp.member.precedence ≤ left.precedence :=
        Nat.le_trans hprecedence (Nat.le_trans op.precedence_le_leftPrecedence hleft)
      have hend' : u.current.kind.endsName place = true := by
        rw [hop.kind]
        cases op <;> rfl
      exact .imp (.more (postfix_continues hleft' hspells hend')
        (fun value hvalue => suffix_gives hinner hvalue hbehind hop hright hend)
        (Nat.lt_of_le_of_lt hright.length_le hop.length_lt)) Expr.nesting_binary
  | .unary op operand note, _, _, hprecedence, _, _ =>
      absurd hprecedence (show ¬ BinaryOp.member.precedence ≤ UnaryOp.precedence by decide)
  | .cast operand type note, _, _, hprecedence, _, _ =>
      absurd hprecedence (show ¬ BinaryOp.member.precedence ≤ InfixOp.cast.precedence by decide)
  | .constant value note, _, _, _, hspells, hend =>
      .of_gives (primary_gives hinner hspells rfl hend)
  | .ident name, _, _, _, hspells, hend =>
      .of_gives (primary_gives hinner hspells rfl hend)
  | .call callee args note, _, _, _, hspells, hend =>
      .of_gives (primary_gives hinner hspells rfl hend)
  | .record type inits note, _, _, _, hspells, hend =>
      .of_gives (primary_gives hinner hspells rfl hend)
  | .array elements note, _, _, _, hspells, hend =>
      .of_gives (primary_gives hinner hspells rfl hend)
  | .sizeOf type note, _, _, _, hspells, hend =>
      .of_gives (primary_gives hinner hspells rfl hend)
  | .group value note, _, _, _, hspells, hend =>
      .of_gives (primary_gives hinner hspells rfl hend)

omit hinner in
theorem unaryOp?_eq_none {a : Terminal} (h : a.beginsPrimary = true) :
    unaryOp? a.kind = none := by
  cases a with
  | symbol symbol =>
      simp only [Terminal.beginsPrimary, Bool.or_eq_true, decide_eq_true_eq] at h
      rcases h with rfl | rfl <;> rfl
  | _ => rfl

omit hinner in
theorem suffix_of_endsOperand (inner : Level) {place : Place}
    (hend : t.current.kind.endsOperand place = true) (base : Expr Span) :
    suffix inner base t = .ok (.last base) t := by
  have hsymbol (symbol : Symbol) (hsymbol : (TokenKind.symbol symbol).endsOperand place = false) :
      t.current.kind ≠ .symbol symbol := by
    intro hkind
    rw [hkind, hsymbol] at hend
    cases hend
  rw [suffix, take?_bind, if_neg (hsymbol .dot rfl)]
  simp only [Bool.false_eq_true, if_false]
  rw [take?_bind, if_neg (hsymbol .colonColon rfl)]
  simp only [Bool.false_eq_true, if_false]
  rw [take?_bind, if_neg (hsymbol .leftBracket rfl)]
  rfl

theorem operand_gives {expr : Expr α} {place : Place}
    (hprecedence : UnaryOp.precedence ≤ expr.precedence)
    (hspells : (expr.phrase place).Between s t)
    (hend : t.current.kind.endsOperand place = true) :
    Gives False ((expr.phrase place).nesting ≤ n)
      (fun value => value.map forget = expr.map forget) (operand inner place) s t := by
  by_cases htight : BinaryOp.member.precedence ≤ expr.precedence
  · obtain ⟨a, hkind, -, hprimary⟩ := expr.between_kind hspells
    have hunary : unaryOp? s.current.kind = none := by
      rw [hkind]
      exact unaryOp?_eq_none (hprimary htight)
    refine .current ?_
    simp only [hunary]
    exact (postfix_continues hinner htight hspells
      (TokenKind.endsName_of_endsOperand hend)).last (suffix_of_endsOperand inner hend)
  · cases expr with
    | unary op value note =>
        obtain ⟨_, ⟨hop, rfl, -⟩, _, ⟨hvalue, rfl, -⟩, hspells⟩ := hspells
        have hunary : unaryOp? s.current.kind = some op := by
          rw [Token.kind_of_terminal? hop]
          exact op.ofSymbol?_symbol
        have hgives := hinner.operand (of_decide_eq_true hvalue) hspells hend
        refine .current ?_
        simp only [hunary]
        refine .imp (.advance (.finish hgives fun read hread => .pure ?_)) ?_
          fun _ hgood => hgood
        · simp [Expr.map, hread]
        · simp [Expr.phrase, Expr.whole]
    | binary op left right note =>
        have hbehind := BinaryOp.isPostfix_of_le hprecedence
        refine absurd ?_ htight
        cases op <;> first | exact Nat.le_refl _ | cases hbehind
    | cast value type note =>
        exact absurd hprecedence (show ¬ UnaryOp.precedence ≤ InfixOp.cast.precedence by decide)
    | _ => exact absurd (Nat.le_refl _) htight

theorem operation_gives {op : BinaryOp} {left right : Expr α} {note : α} {place : Place}
    {least : Nat} {base : Expr Span} (hbase : base.map forget = left.map forget)
    (hbetween : op.isPostfix = false) (hleast : least ≤ op.precedence)
    (hspellsOp : s.Spells [.symbol op.symbol] u)
    (hspells : (right.joined place op).Between u t)
    (hend : t.current.kind.endsExpr place op.rightPrecedence = true) :
    Gives False ((right.joined place op).nesting ≤ n)
      (fun round => ∃ next, round = Round.more next ∧
        next.map forget = (Expr.binary op left right note).map forget)
      (operation inner place least base) s t := by
  have hjoined : right.joined place op =
      .seq (.provided (op.rightPrecedence ≤ right.precedence))
        (.deeper (right.phrase place)) := by
    cases op <;> first | rfl | cases hbetween
  rw [hjoined] at hspells ⊢
  obtain ⟨_, ⟨hright, rfl, -⟩, hspells⟩ := hspells
  have hop : InfixOp.ofKind? s.current.kind = some (.binary op) := by
    rw [hspellsOp.kind]
    exact InfixOp.ofKind?_symbol hbetween
  obtain ⟨-, rfl, -⟩ := hspellsOp
  have hgives := hinner.expr (of_decide_eq_true hright) hspells hend
  refine .current ?_
  simp only [hop]
  have hloose : ¬ (InfixOp.binary op).precedence < least := Nat.not_lt.mpr hleast
  rw [if_neg hloose]
  refine .imp (.advance (.finish hgives fun value hvalue => .pure ⟨_, rfl, ?_⟩)) ?_
    fun _ hgood => hgood
  · simp [Expr.whole]
  · simp [Expr.map, hbase, hvalue]

theorem cast_gives {operand : Expr α} {type : TypeExpr α} {note : α} {place : Place}
    {least : Nat} {base : Expr Span} (hbase : base.map forget = operand.map forget)
    (hleast : least ≤ InfixOp.cast.precedence) (hspellsOp : s.Spells [.keyword .as_] u)
    (hspells : type.phrase.Between u t) (hend : t.current.kind.endsOperand place = true) :
    Gives False ((Phrase.deeper type.phrase).nesting ≤ n)
      (fun round => ∃ next, round = Round.more next ∧
        next.map forget = (Expr.cast operand type note).map forget)
      (operation inner place least base) s t := by
  have hop : InfixOp.ofKind? s.current.kind = some .cast := by
    rw [hspellsOp.kind]
    rfl
  obtain ⟨-, rfl, -⟩ := hspellsOp
  have hend' := TokenKind.endsType_of_endsOperand hend
  refine .current ?_
  simp only [hop]
  rw [if_neg (Nat.not_lt.mpr hleast)]
  refine .advance (.finish (hinner.typeExpr hspells hend') fun value hvalue =>
    .pure ⟨_, rfl, ?_⟩)
  simp [Expr.map, hbase, hvalue]

/-- An expression: its first operand is read first, and each operator outside of
brackets, with what it joins, in a round. -/
theorem expression_continues {place : Place} {least : Nat} :
    ∀ {expr : Expr α} {s t : State}, least ≤ expr.precedence →
      (expr.phrase place).Between s t → expr.endsBefore place t.current.kind = true →
      Continues ((expr.phrase place).nesting ≤ n)
        (fun value => value.map forget = expr.map forget) (operand inner place)
        (operation inner place least) s t
  | .binary op left right note, s, t, hleast, hspells, hend => by
      cases hbetween : op.isPostfix with
      | true =>
          have hprecedence : UnaryOp.precedence ≤ op.precedence := by
            cases op <;> first | decide | cases hbetween
          exact .of_gives (operand_gives hinner hprecedence hspells
            (Expr.endsOperand_of_endsBefore hend))
      | false =>
          obtain ⟨hleft, u, hspells, v, hop, hright⟩ := Expr.between_binary.mp hspells
          have hleft' : least ≤ left.precedence :=
            Nat.le_trans hleast (Nat.le_trans op.precedence_le_leftPrecedence hleft)
          have hend' : left.endsBefore place u.current.kind = true := by
            rw [hop.kind]
            exact Expr.endsBefore_of_leftPrecedence_le (.binary op)
              (InfixOp.ofKind?_symbol hbetween) (BinaryOp.endsOperand_symbol hbetween place) hleft
          exact .imp (.more (expression_continues hleft' hspells hend')
            (fun value hvalue => operation_gives hinner hvalue hbetween hleast hop hright hend)
            (Nat.lt_of_le_of_lt hright.length_le hop.length_lt)) Expr.nesting_binary
  | .cast value type note, s, t, hleast, hspells, hend => by
      obtain ⟨_, ⟨hprecedence, rfl, -⟩, u, hvalue, v, hop, htype⟩ := hspells
      replace hprecedence : InfixOp.cast.leftPrecedence ≤ value.precedence :=
        of_decide_eq_true hprecedence
      replace htype : type.phrase.Between v t := htype
      have hend' : value.endsBefore place u.current.kind = true := by
        rw [hop.kind]
        exact Expr.endsBefore_of_leftPrecedence_le .cast rfl rfl hprecedence
      refine .imp (.more
        (expression_continues (Nat.le_trans hleast hprecedence) hvalue hend')
        (fun read hread => cast_gives hinner hread hleast hop htype
          (Expr.endsOperand_of_endsBefore hend))
        (Nat.lt_of_le_of_lt htype.length_le (State.Spells.length_lt hop))) ?_
      simp [Expr.phrase]
  | .unary op value note, _, _, _, hspells, hend =>
      .of_gives (operand_gives hinner (Nat.le_refl _) hspells hend)
  | .constant value note, _, _, _, hspells, hend =>
      .of_gives (operand_gives hinner (Nat.le_succ _) hspells hend)
  | .ident name, _, _, _, hspells, hend =>
      .of_gives (operand_gives hinner (Nat.le_succ _) hspells hend)
  | .call callee args note, _, _, _, hspells, hend =>
      .of_gives (operand_gives hinner (Nat.le_succ _) hspells hend)
  | .record type inits note, _, _, _, hspells, hend =>
      .of_gives (operand_gives hinner (Nat.le_succ _) hspells hend)
  | .array elements note, _, _, _, hspells, hend =>
      .of_gives (operand_gives hinner (Nat.le_succ _) hspells hend)
  | .sizeOf type note, _, _, _, hspells, hend =>
      .of_gives (operand_gives hinner (Nat.le_succ _) hspells hend)
  | .group value note, _, _, _, hspells, hend =>
      .of_gives (operand_gives hinner (Nat.le_succ _) hspells hend)

omit hinner in
theorem operation_of_endsExpr (inner : Level) {place : Place} {least : Nat}
    (hend : t.current.kind.endsExpr place least = true) (base : Expr Span) :
    operation inner place least base t = .ok (.last base) t := by
  rw [TokenKind.endsExpr, Bool.and_eq_true] at hend
  have hlt := hend.2
  rw [operation, current_bind]
  cases hop : InfixOp.ofKind? t.current.kind with
  | none => rfl
  | some op =>
      simp only [TokenKind.precedence?, hop, Option.map_some, Option.all_some,
        decide_eq_true_eq] at hlt
      simp only [if_pos hlt]
      rfl

theorem expression_gives {expr : Expr α} {place : Place} {least : Nat}
    (hleast : least ≤ expr.precedence) (hspells : (expr.phrase place).Between s t)
    (hend : t.current.kind.endsExpr place least = true) :
    Gives False ((expr.phrase place).nesting ≤ n)
      (fun value => value.map forget = expr.map forget) (expression inner place least) s t :=
  (expression_continues hinner hleast hspells
    (Expr.endsBefore_of_endsExpr hleast hend)).last (operation_of_endsExpr inner hend)

end Rule

end SourceFront
