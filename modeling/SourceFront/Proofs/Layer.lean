import SourceFront.Proofs.Brace
import SourceFront.Proofs.Progress
import SourceFront.Proofs.Recognition.Block
import SourceFront.Proofs.Within

/-!
The layers of expressions. An operator joins expressions of its own layer and of tighter
ones; the grammar that says so with a nonterminal for each layer assigns to the tokens of
every expression that is read just this expression.
-/

namespace SourceFront

/-- The layers of expressions, from the loosest to the tightest: those with an operator
outside of brackets, by this operator, and those without one. -/
inductive Layer where
  | assignment | or | and | equality | relation | sum | product | cast | unary | suffix | primary
  deriving DecidableEq, Repr

namespace Layer

/-- The place of the layer among all, from the loosest on. -/
def rank : Layer → Nat
  | assignment => 1
  | or => 2
  | and => 3
  | equality => 4
  | relation => 5
  | sum => 6
  | product => 7
  | cast => 8
  | unary => 9
  | suffix => 10
  | primary => 11

theorem rank_assignment : assignment.rank = 1 := rfl

theorem rank_or : or.rank = 2 := rfl

theorem rank_suffix : suffix.rank = 10 := rfl

/-- Tighter layers are greater. -/
instance : LE Layer := ⟨fun a b => a.rank ≤ b.rank⟩

instance : LT Layer := ⟨fun a b => a.rank < b.rank⟩

theorem le_iff {a b : Layer} : a ≤ b ↔ a.rank ≤ b.rank := Iff.rfl

theorem lt_iff {a b : Layer} : a < b ↔ a.rank < b.rank := Iff.rfl

theorem le_refl (layer : Layer) : layer ≤ layer := Nat.le_refl layer.rank

/-- The next layer that is tighter. -/
def tighter : Layer → Layer
  | assignment => or
  | or => and
  | and => equality
  | equality => relation
  | relation => sum
  | sum => product
  | product => cast
  | cast => unary
  | unary => suffix
  | suffix | primary => primary

theorem rank_tighter (layer : Layer) : layer.tighter.rank = min (layer.rank + 1) 11 := by
  cases layer <;> rfl

theorem rank_inj {a b : Layer} : a.rank = b.rank ↔ a = b := by
  cases a <;> cases b <;> decide

theorem rank_le (layer : Layer) : layer.rank ≤ 11 := by
  cases layer <;> decide

theorem assignment_le (layer : Layer) : assignment ≤ layer := by
  rw [le_iff]
  cases layer <;> decide

theorem unary_le_suffix : unary ≤ suffix := le_iff.mpr (by decide)

theorem cast_le_suffix : cast ≤ suffix := le_iff.mpr (by decide)

end Layer

/-- The layer that an operator makes up. -/
def BinaryOp.layer : BinaryOp → Layer
  | assign | addAssign | subAssign | mulAssign | divAssign | modAssign => .assignment
  | or => .or
  | and => .and
  | eq | ne => .equality
  | lt | le | gt | ge => .relation
  | add | sub => .sum
  | mul | div | mod => .product
  | path | member | index => .suffix

section Layered

variable {α : Type}

/-- The layer of the outermost operator. -/
def Expr.layer : Expr α → Layer
  | .binary op _ _ _ => op.layer
  | .cast _ _ _ => .cast
  | .unary _ _ _ => .unary
  | _ => .primary

/-- Whether the operands of the outermost operator are of layers that it may join. -/
def Expr.Grouped : Expr α → Prop
  | .binary .member base right _ | .binary .path base right _ =>
      Layer.suffix ≤ base.layer ∧ right.isMember = true
  | .binary .index base _ _ => Layer.suffix ≤ base.layer
  | .binary op left right _ =>
      if op.layer = .assignment then op.layer < left.layer ∧ op.layer ≤ right.layer
      else op.layer ≤ left.layer ∧ op.layer < right.layer
  | .unary _ operand _ => Layer.unary ≤ operand.layer
  | .cast operand _ _ => Layer.cast ≤ operand.layer
  | _ => True

/-- What the layered grammar derives. -/
inductive Derivable (α : Type) where
  | expr (layer : Layer) (e : Expr α)
  | args (exprs : List (Expr α))
  | field (init : FieldInit α)
  | fields (inits : List (FieldInit α))

/-- The layered grammar: what may be written with which tokens. Each layer contains the
next tighter one. -/
inductive Layered : Derivable α → List Token → Prop where
  | tighter {layer : Layer} {e : Expr α} {tokens : List Token}
      (h : Layered (.expr layer.tighter e) tokens) : Layered (.expr layer e) tokens
  | assign {op : BinaryOp} {left right : Expr α} {note : α} {front back : List Token}
      {token : Token} (hop : op.layer = .assignment)
      (hleft : Layered (.expr .or left) front) (htoken : token.kind = .symbol op.symbol)
      (hright : Layered (.expr .assignment right) back) :
      Layered (.expr .assignment (.binary op left right note)) (front ++ token :: back)
  | operate {op : BinaryOp} {left right : Expr α} {note : α} {front back : List Token}
      {token : Token} (hop : op.layer ≠ .assignment ∧ op.layer ≠ .suffix)
      (hleft : Layered (.expr op.layer left) front) (htoken : token.kind = .symbol op.symbol)
      (hright : Layered (.expr op.layer.tighter right) back) :
      Layered (.expr op.layer (.binary op left right note)) (front ++ token :: back)
  | cast {operand : Expr α} {type : TypeExpr α} {note : α} {front back : List Token}
      {token : Token} (hoperand : Layered (.expr .cast operand) front)
      (htoken : token.kind = .keyword .as_) (htype : type.phrase.Spelled .plain back) :
      Layered (.expr .cast (.cast operand type note)) (front ++ token :: back)
  | unary {op : UnaryOp} {operand : Expr α} {note : α} {token : Token} {tokens : List Token}
      (htoken : token.kind = .symbol op.symbol)
      (hoperand : Layered (.expr .unary operand) tokens) :
      Layered (.expr .unary (.unary op operand note)) (token :: tokens)
  | member {op : BinaryOp} {base right : Expr α} {note : α} {front back : List Token}
      {token : Token} (hop : op = .member ∨ op = .path)
      (hbase : Layered (.expr .suffix base) front) (htoken : token.kind = .symbol op.symbol)
      (hmember : right.isMember = true) (hright : Layered (.expr .primary right) back) :
      Layered (.expr .suffix (.binary op base right note)) (front ++ token :: back)
  | index {base value : Expr α} {note : α} {front back : List Token} {opening closing : Token}
      (hbase : Layered (.expr .suffix base) front)
      (hopening : opening.kind = .symbol .leftBracket)
      (hvalue : Layered (.expr .assignment value) back)
      (hclosing : closing.kind = .symbol .rightBracket) :
      Layered (.expr .suffix (.binary .index base value note))
        (front ++ opening :: (back ++ [closing]))
  | constant {value : Constant} {note : α} {token : Token}
      (h : token.terminal? = some value.terminal) :
      Layered (.expr .primary (.constant value note)) [token]
  | ident {name : Name α} {token : Token} (h : token.kind = .ident name.text) :
      Layered (.expr .primary (.ident name)) [token]
  | sizeOf {type : TypeExpr α} {note : α} {token opening closing : Token} {tokens : List Token}
      (htoken : token.kind = .keyword .sizeof) (hopening : opening.kind = .symbol .leftParen)
      (htype : type.phrase.Spelled .plain tokens)
      (hclosing : closing.kind = .symbol .rightParen) :
      Layered (.expr .primary (.sizeOf type note)) (token :: opening :: (tokens ++ [closing]))
  | group {value : Expr α} {note : α} {opening closing : Token} {tokens : List Token}
      (hopening : opening.kind = .symbol .leftParen)
      (hvalue : Layered (.expr .assignment value) tokens)
      (hclosing : closing.kind = .symbol .rightParen) :
      Layered (.expr .primary (.group value note)) (opening :: (tokens ++ [closing]))
  | array {elements : List (Expr α)} {note : α} {opening closing : Token} {tokens : List Token}
      (hopening : opening.kind = .symbol .leftBracket)
      (helements : Layered (.args elements) tokens)
      (hclosing : closing.kind = .symbol .rightBracket) :
      Layered (.expr .primary (.array elements note)) (opening :: (tokens ++ [closing]))
  | call {callee : Name α} {args : List (Expr α)} {note : α} {name opening closing : Token}
      {tokens : List Token} (hname : name.kind = .ident callee.text)
      (hopening : opening.kind = .symbol .leftParen) (hargs : Layered (.args args) tokens)
      (hclosing : closing.kind = .symbol .rightParen) :
      Layered (.expr .primary (.call callee args note)) (name :: opening :: (tokens ++ [closing]))
  | record {type : Name α} {inits : List (FieldInit α)} {note : α}
      {name opening closing : Token} {tokens : List Token}
      (hname : name.kind = .ident type.text) (hopening : opening.kind = .symbol .leftBrace)
      (hinits : Layered (.fields inits) tokens) (hclosing : closing.kind = .symbol .rightBrace) :
      Layered (.expr .primary (.record type inits note))
        (name :: opening :: (tokens ++ [closing]))
  | noArgs : Layered (.args []) []
  | lastArg {e : Expr α} {tokens : List Token} (h : Layered (.expr .assignment e) tokens) :
      Layered (.args [e]) tokens
  | moreArgs {e : Expr α} {exprs : List (Expr α)} {front back : List Token} {comma : Token}
      (h : Layered (.expr .assignment e) front) (hcomma : comma.kind = .symbol .comma)
      (hrest : Layered (.args exprs) back) : Layered (.args (e :: exprs)) (front ++ comma :: back)
  | field {name : Name α} {value : Expr α} {note : α} {token colon : Token}
      {tokens : List Token} (hname : token.kind = .ident name.text)
      (hcolon : colon.kind = .symbol .colon)
      (hvalue : Layered (.expr .assignment value) tokens) :
      Layered (.field ⟨name, value, note⟩) (token :: colon :: tokens)
  | noFields : Layered (.fields []) []
  | lastField {init : FieldInit α} {tokens : List Token} (h : Layered (.field init) tokens) :
      Layered (.fields [init]) tokens
  | moreFields {init : FieldInit α} {inits : List (FieldInit α)} {front back : List Token}
      {comma : Token} (h : Layered (.field init) front) (hcomma : comma.kind = .symbol .comma)
      (hrest : Layered (.fields inits) back) :
      Layered (.fields (init :: inits)) (front ++ comma :: back)

theorem Layered.loosen {layer layer' : Layer} {e : Expr α} {tokens : List Token}
    (hle : layer ≤ layer') (h : Layered (.expr layer' e) tokens) :
    Layered (.expr layer e) tokens := by
  by_cases hsame : layer = layer'
  · exact hsame ▸ h
  · have hrank := mt Layer.rank_inj.mp hsame
    have hle' := Layer.le_iff.mp hle
    have hbound := layer'.rank_le
    have htighter := layer.rank_tighter
    exact .tighter (Layered.loosen (Layer.le_iff.mpr (by omega)) h)
termination_by layer'.rank - layer.rank

namespace BinaryOp

theorem precedence_eq (op : BinaryOp) : op.precedence = op.layer.rank := by
  cases op <;> rfl

theorem isAssignment_iff {op : BinaryOp} : op.isAssignment = true ↔ op.layer = .assignment := by
  cases op <;> decide

end BinaryOp

theorem Expr.precedence_eq (e : Expr α) : e.precedence = min e.layer.rank Layer.suffix.rank := by
  cases e with
  | binary op => cases op <;> rfl
  | _ => rfl

theorem Expr.rank_le_precedence_iff {layer : Layer} {e : Expr α} (h : layer ≤ .suffix) :
    layer.rank ≤ e.precedence ↔ layer ≤ e.layer := by
  rw [e.precedence_eq, Nat.le_min, Layer.le_iff]
  exact and_iff_left h

theorem BinaryOp.leftPrecedence_le_iff {op : BinaryOp} {left : Expr α} :
    op.leftPrecedence ≤ left.precedence ↔
      (if op.layer = .assignment then Layer.or else op.layer) ≤ left.layer := by
  have hop : op.layer.rank ≤ 10 := by cases op <;> decide
  rw [leftPrecedence, left.precedence_eq, op.precedence_eq, Layer.le_iff,
    Layer.rank_suffix]
  simp only [isAssignment_iff]
  split
  next hassign =>
    rw [hassign, Layer.rank_assignment, Layer.rank_or]
    omega
  next => omega

theorem BinaryOp.rightPrecedence_le_iff {op : BinaryOp} {right : Expr α}
    (hop : op.layer ≠ .suffix) :
    op.rightPrecedence ≤ right.precedence ↔
      (if op.layer = .assignment then op.layer else op.layer.tighter) ≤ right.layer := by
  have hrank : op.layer.rank ≤ 7 := by
    revert hop
    cases op <;> decide
  rw [rightPrecedence, right.precedence_eq, op.precedence_eq, Layer.le_iff,
    Layer.rank_suffix]
  simp only [isAssignment_iff]
  split
  next => omega
  next =>
    rw [Layer.rank_tighter]
    omega

theorem Expr.joined_of_infix {op : BinaryOp} (hop : op.layer ≠ .suffix) (place : Place)
    (right : Expr α) :
    right.joined place op =
      .seq (.provided (op.rightPrecedence ≤ right.precedence))
        (.deeper (right.phrase place)) := by
  revert hop
  cases op <;> first | exact fun _ => rfl | exact fun hop => absurd rfl hop

theorem Expr.layer_of_isMember {e : Expr α} (h : e.isMember = true) : e.layer = .primary := by
  cases e <;> first | rfl | cases h

theorem Layered.of_suffix {op : BinaryOp} {base right : Expr α} {note : α} {place : Place}
    {front back : List Token} {token : Token} (hop : op.layer = .suffix)
    (hbase : Layered (.expr .suffix base) front) (htoken : token.kind = .symbol op.symbol)
    (hjoined : (right.joined place op).Spelled .plain back)
    (hright : ∀ {place : Place} {tokens : List Token}, (right.phrase place).Spelled .plain tokens →
      Layered (.expr right.layer right) tokens) :
    Layered (.expr .suffix (.binary op base right note)) (front ++ token :: back) := by
  cases op
  case index =>
    obtain ⟨tokens, _, rfl, hvalue, closing, rfl, hclosing⟩ := hjoined
    exact .index hbase htoken ((hright hvalue).loosen right.layer.assignment_le)
      (Token.kind_of_terminal? hclosing)
  case member | path =>
    obtain ⟨_, tokens, rfl, ⟨rfl, hmember⟩, hback⟩ := hjoined
    have hprimary := hright hback
    rw [Expr.layer_of_isMember hmember] at hprimary
    exact .member (by decide) hbase htoken hmember hprimary
  all_goals cases hop

mutual

/-- The grammar derives an expression from each way of writing it. -/
theorem Expr.layered : ∀ (e : Expr α) {place : Place} {tokens : List Token},
    (e.phrase place).Spelled .plain tokens → Layered (.expr e.layer e) tokens
  | .constant _ _, _, _, ⟨⟨_, rfl, htoken⟩, _⟩ => .constant htoken
  | .ident _, _, _, ⟨⟨_, rfl, htoken⟩, _⟩ => .ident (Token.kind_of_terminal? htoken)
  | .binary op left right note, place, _, h => by
      rw [Expr.phrase_binary] at h
      obtain ⟨⟨_, _, rfl, ⟨rfl, hleft⟩, front, _, rfl, hfront, _, back, rfl,
        ⟨token, rfl, htoken⟩, hjoined⟩, -⟩ := h
      have hkind := Token.kind_of_terminal? htoken
      have hleft := BinaryOp.leftPrecedence_le_iff.mp (of_decide_eq_true hleft)
      have hfront := left.layered hfront
      by_cases hsuffix : op.layer = .suffix
      · rw [hsuffix] at hleft
        rw [Expr.layer, hsuffix]
        exact .of_suffix hsuffix (hfront.loosen hleft) hkind hjoined right.layered
      · rw [Expr.joined_of_infix hsuffix] at hjoined
        obtain ⟨_, back, rfl, ⟨rfl, hright⟩, hback⟩ := hjoined
        have hright := (BinaryOp.rightPrecedence_le_iff hsuffix).mp (of_decide_eq_true hright)
        have hback := right.layered hback
        by_cases hassign : op.layer = .assignment
        · rw [if_pos hassign] at hleft hright
          rw [hassign] at hright
          rw [Expr.layer, hassign]
          exact .assign hassign (hfront.loosen hleft) hkind (hback.loosen hright)
        · rw [if_neg hassign] at hleft hright
          exact .operate ⟨hassign, hsuffix⟩ (hfront.loosen hleft) hkind (hback.loosen hright)
  | .unary _ operand _, _, _, ⟨⟨_, _, rfl, ⟨token, rfl, htoken⟩, _, _, rfl, ⟨rfl, hle⟩, h⟩, _⟩ => by
      have hle := (Expr.rank_le_precedence_iff Layer.unary_le_suffix).mp (of_decide_eq_true hle)
      exact .unary (Token.kind_of_terminal? htoken) ((operand.layered h).loosen hle)
  | .cast operand type note, place, _, ⟨⟨_, _, rfl, ⟨rfl, hle⟩, front, _, rfl, hfront, _, back, rfl,
      ⟨token, rfl, htoken⟩, hback⟩, _⟩ => by
      have hle := (Expr.rank_le_precedence_iff Layer.cast_le_suffix).mp (of_decide_eq_true hle)
      exact .cast ((operand.layered hfront).loosen hle) (Token.kind_of_terminal? htoken) hback
  | .call callee args _, _, _, h => by
      obtain ⟨⟨_, _, rfl, ⟨⟨name, rfl, hname⟩, -⟩, _, _, rfl, ⟨opening, rfl, hopening⟩, tokens, _,
        rfl, hargs, closing, rfl, hclosing⟩, -⟩ := h
      exact .call (Token.kind_of_terminal? hname) (Token.kind_of_terminal? hopening)
        (Expr.layered_args args hargs) (Token.kind_of_terminal? hclosing)
  | .record type inits _, _, _, h => by
      obtain ⟨⟨_, _, rfl, ⟨rfl, -⟩, _, _, rfl, ⟨⟨name, rfl, hname⟩, -⟩, _, _, rfl,
        ⟨opening, rfl, hopening⟩, tokens, _, rfl, hinits, closing, rfl, hclosing⟩, -⟩ := h
      exact .record (Token.kind_of_terminal? hname) (Token.kind_of_terminal? hopening)
        (FieldInit.layered_fields inits hinits) (Token.kind_of_terminal? hclosing)
  | .array elements _, _, _, h => by
      obtain ⟨⟨_, _, rfl, ⟨opening, rfl, hopening⟩, tokens, _, rfl, helements, closing, rfl,
        hclosing⟩, -⟩ := h
      exact .array (Token.kind_of_terminal? hopening) (Expr.layered_args elements helements)
        (Token.kind_of_terminal? hclosing)
  | .sizeOf type _, _, _, h => by
      obtain ⟨⟨_, _, rfl, ⟨token, rfl, htoken⟩, _, _, rfl, ⟨opening, rfl, hopening⟩, tokens, _,
        rfl, htype, closing, rfl, hclosing⟩, -⟩ := h
      exact .sizeOf (Token.kind_of_terminal? htoken) (Token.kind_of_terminal? hopening) htype
        (Token.kind_of_terminal? hclosing)
  | .group value _, _, _, h => by
      obtain ⟨⟨_, _, rfl, ⟨opening, rfl, hopening⟩, tokens, _, rfl, hvalue, closing, rfl,
        hclosing⟩, -⟩ := h
      exact .group (Token.kind_of_terminal? hopening)
        ((value.layered hvalue).loosen value.layer.assignment_le)
        (Token.kind_of_terminal? hclosing)

theorem Expr.layered_args : ∀ (exprs : List (Expr α)) {tokens : List Token},
    (Phrase.commas (Expr.phrases exprs)).Spelled .plain tokens → Layered (.args exprs) tokens
  | [], _, rfl => .noArgs
  | [e], _, ⟨front, _, rfl, hfront, hend⟩ => by
      have he := (e.layered hfront).loosen e.layer.assignment_le
      rcases hend with hend | hend
      · cases hend
        rw [List.append_nil]
        exact .lastArg he
      · obtain _ | ⟨hcomma, _ | _⟩ := hend
        exact .moreArgs he (Token.kind_of_terminal? hcomma) .noArgs
  | e :: next :: exprs, _, ⟨_, _, rfl, hfront, _, _, rfl, ⟨_, rfl, hcomma⟩, hback⟩ =>
      .moreArgs ((e.layered hfront).loosen e.layer.assignment_le)
        (Token.kind_of_terminal? hcomma) (Expr.layered_args (next :: exprs) hback)

theorem FieldInit.layered : ∀ (init : FieldInit α) {tokens : List Token},
    init.phrase.Spelled .plain tokens → Layered (.field init) tokens
  | ⟨_, value, _⟩, _, h => by
      obtain ⟨⟨_, _, rfl, ⟨⟨token, rfl, htoken⟩, -⟩, _, _, rfl, ⟨colon, rfl, hcolon⟩,
        hvalue⟩, -⟩ := h
      exact .field (Token.kind_of_terminal? htoken) (Token.kind_of_terminal? hcolon)
        ((value.layered hvalue).loosen value.layer.assignment_le)

theorem FieldInit.layered_fields : ∀ (inits : List (FieldInit α)) {tokens : List Token},
    (Phrase.commas (FieldInit.phrases inits)).Spelled .plain tokens →
      Layered (.fields inits) tokens
  | [], _, rfl => .noFields
  | [init], _, ⟨front, _, rfl, hfront, hend⟩ => by
      rcases hend with hend | hend
      · cases hend
        rw [List.append_nil]
        exact .lastField (init.layered hfront)
      · obtain _ | ⟨hcomma, _ | _⟩ := hend
        exact .moreFields (init.layered hfront) (Token.kind_of_terminal? hcomma) .noFields
  | init :: next :: inits, _, ⟨_, _, rfl, hfront, _, _, rfl, ⟨_, rfl, hcomma⟩, hback⟩ =>
      .moreFields (init.layered hfront) (Token.kind_of_terminal? hcomma)
        (FieldInit.layered_fields (next :: inits) hback)

end

/-- How what the grammar derives is written, and that an expression is of the layer it is
derived in or of a tighter one. -/
def Derivable.Written : Derivable α → List Token → Prop
  | .expr layer e, tokens => (e.phrase .free).Spelled .plain tokens ∧ layer ≤ e.layer
  | .args exprs, tokens => (Phrase.commas (Expr.phrases exprs)).Spelled .plain tokens
  | .field init, tokens => init.phrase.Spelled .plain tokens
  | .fields inits, tokens => (Phrase.commas (FieldInit.phrases inits)).Spelled .plain tokens

namespace Phrase

variable {token : Token} {front back : List Token}

theorem spelled_symbol {s : Symbol} (h : token.kind = .symbol s) :
    (symbol s : Phrase α).Spelled .plain [token] :=
  spelled_terminal (by simp [Orthography.plain, Token.terminal?, h])

theorem spelled_keyword {k : Keyword} (h : token.kind = .keyword k) :
    (keyword k : Phrase α).Spelled .plain [token] :=
  spelled_terminal (by simp [Orthography.plain, Token.terminal?, h])

theorem spelled_name {name : Name α} (h : token.kind = .ident name.text) :
    name.phrase.Spelled .plain [token] :=
  spelled_node (spelled_terminal (by simp [Orthography.plain, Token.terminal?, h])) trivial

theorem spelled_commas_cons {p : Phrase α} {ps : List (Phrase α)}
    (hp : p.Spelled .plain front) (hcomma : token.kind = .symbol .comma)
    (hps : (commas ps).Spelled .plain back) :
    (commas (p :: ps)).Spelled .plain (front ++ token :: back) := by
  have hcomma : token.terminal? = some (.symbol .comma) := by
    simp [Token.terminal?, hcomma]
  cases ps with
  | nil =>
      obtain rfl : back = [] := hps
      exact spelled_seq hp (.inr (.cons hcomma .nil))
  | cons next ps => exact spelled_seq hp (spelled_seq (spelled_terminal hcomma) hps)

theorem spelled_binary {op : BinaryOp} {left right : Expr α} {note : α}
    (hleft : op.leftPrecedence ≤ left.precedence)
    (hfront : (left.phrase .free).Spelled .plain front)
    (htoken : token.kind = .symbol op.symbol)
    (hback : (right.joined .free op).Spelled .plain back) :
    ((Expr.binary op left right note).phrase .free).Spelled .plain (front ++ token :: back) := by
  rw [Expr.phrase_binary]
  exact spelled_node (spelled_provided_seq (decide_eq_true hleft)
    (spelled_seq hfront (spelled_seq (spelled_symbol htoken) hback))) trivial

theorem spelled_operation {op : BinaryOp} {left right : Expr α} {note : α}
    (hop : op.layer ≠ .suffix)
    (hleft : (if op.layer = .assignment then Layer.or else op.layer) ≤ left.layer)
    (hfront : (left.phrase .free).Spelled .plain front) (htoken : token.kind = .symbol op.symbol)
    (hright : (if op.layer = .assignment then op.layer else op.layer.tighter) ≤ right.layer)
    (hback : (right.phrase .free).Spelled .plain back) :
    ((Expr.binary op left right note).phrase .free).Spelled .plain (front ++ token :: back) := by
  refine spelled_binary (BinaryOp.leftPrecedence_le_iff.mpr hleft) hfront htoken ?_
  rw [Expr.joined_of_infix hop]
  have hle := (BinaryOp.rightPrecedence_le_iff hop).mpr hright
  exact spelled_provided_seq (decide_eq_true hle) hback

end Phrase

open Phrase

/-- What the grammar derives is written so. -/
theorem Layered.written {form : Derivable α} {tokens : List Token} (h : Layered form tokens) :
    form.Written tokens := by
  induction h with
  | @tighter layer e tokens _ ih =>
      refine ⟨ih.1, Layer.le_iff.mpr ?_⟩
      have hle := Layer.le_iff.mp ih.2
      have hrank := layer.rank_tighter
      have hbound := layer.rank_le
      omega
  | @assign op left right note front back token hop _ htoken _ ih ih' =>
      have hsuffix : op.layer ≠ .suffix := by simp [hop]
      refine ⟨spelled_operation hsuffix ?_ ih.1 htoken ?_ ih'.1,
        Layer.le_iff.mpr (Nat.le_of_eq (by simp [Expr.layer, hop]))⟩
      · rw [if_pos hop]
        exact ih.2
      · rw [if_pos hop, hop]
        exact ih'.2
  | @operate op left right note front back token hop _ htoken _ ih ih' =>
      refine ⟨spelled_operation hop.2 ?_ ih.1 htoken ?_ ih'.1, Layer.le_refl _⟩
      · rw [if_neg hop.1]
        exact ih.2
      · rw [if_neg hop.1]
        exact ih'.2
  | @cast operand type note front back token _ htoken htype ih =>
      have hle := (Expr.rank_le_precedence_iff Layer.cast_le_suffix).mpr ih.2
      refine ⟨?_, Layer.le_refl _⟩
      exact spelled_node (spelled_provided_seq (decide_eq_true hle)
        (spelled_seq ih.1 (spelled_seq (spelled_keyword htoken) htype))) trivial
  | @unary op operand note token tokens htoken _ ih =>
      have hle := (Expr.rank_le_precedence_iff Layer.unary_le_suffix).mpr ih.2
      refine ⟨?_, Layer.le_refl _⟩
      exact spelled_node (spelled_seq (spelled_symbol htoken)
        (spelled_provided_seq (decide_eq_true hle) ih.1)) trivial
  | @member op base right note front back token hop _ htoken hmember _ ih ih' =>
      have hlayer : op.layer = .suffix := by rcases hop with rfl | rfl <;> rfl
      have hjoined : right.joined .free op =
          .seq (.provided right.isMember) (right.phrase .free) := by
        rcases hop with rfl | rfl <;> rfl
      refine ⟨spelled_binary ?_ ih.1 htoken ?_,
        Layer.le_iff.mpr (Nat.le_of_eq (by simp [Expr.layer, hlayer]))⟩
      · rw [BinaryOp.leftPrecedence_le_iff, hlayer]
        exact ih.2
      · rw [hjoined]
        exact spelled_provided_seq hmember ih'.1
  | @index base value note front back opening closing _ hopening _ hclosing ih ih' =>
      refine ⟨spelled_binary ?_ ih.1 hopening ?_, Layer.le_refl _⟩
      · rw [BinaryOp.leftPrecedence_le_iff]
        exact ih.2
      · exact spelled_seq ih'.1 (spelled_symbol hclosing)
  | constant h =>
      exact ⟨spelled_node (spelled_terminal h) trivial, Layer.le_refl _⟩
  | ident h => exact ⟨spelled_name h, Layer.le_refl _⟩
  | sizeOf htoken hopening htype hclosing =>
      refine ⟨?_, Layer.le_refl _⟩
      exact spelled_node (spelled_seq (spelled_keyword htoken) (spelled_seq
        (spelled_symbol hopening) (spelled_seq htype (spelled_symbol hclosing)))) trivial
  | group hopening _ hclosing ih =>
      refine ⟨?_, Layer.le_refl _⟩
      exact spelled_node (spelled_seq (spelled_symbol hopening)
        (spelled_seq ih.1 (spelled_symbol hclosing))) trivial
  | array hopening _ hclosing ih =>
      refine ⟨?_, Layer.le_refl _⟩
      exact spelled_node (spelled_seq (spelled_symbol hopening)
        (spelled_seq ih (spelled_symbol hclosing))) trivial
  | call hname hopening _ hclosing ih =>
      refine ⟨?_, Layer.le_refl _⟩
      exact spelled_node (spelled_seq (spelled_name hname) (spelled_seq (spelled_symbol hopening)
        (spelled_seq ih (spelled_symbol hclosing)))) trivial
  | record hname hopening _ hclosing ih =>
      refine ⟨?_, Layer.le_refl _⟩
      exact spelled_node (spelled_provided_seq rfl (spelled_seq (spelled_name hname)
        (spelled_seq (spelled_symbol hopening) (spelled_seq ih (spelled_symbol hclosing))))) trivial
  | noArgs | noFields => exact rfl
  | @lastArg e tokens _ ih => exact ⟨tokens, [], (List.append_nil _).symm, ih.1, .inl .nil⟩
  | moreArgs _ hcomma _ ih ih' => exact spelled_commas_cons ih.1 hcomma ih'
  | field hname hcolon _ ih =>
      exact spelled_node (spelled_seq (spelled_name hname)
        (spelled_seq (spelled_symbol hcolon) ih.1)) trivial
  | @lastField init tokens _ ih => exact ⟨tokens, [], (List.append_nil _).symm, ih, .inl .nil⟩
  | moreFields _ hcomma _ ih ih' => exact spelled_commas_cons ih hcomma ih'

theorem Expr.grouped_binary {op : BinaryOp} (hop : op.layer ≠ .suffix) (left right : Expr α)
    (note : α) :
    (binary op left right note).Grouped ↔
      if op.layer = .assignment then op.layer < left.layer ∧ op.layer ≤ right.layer
      else op.layer ≤ left.layer ∧ op.layer < right.layer := by
  revert hop
  cases op <;> first | exact fun _ => Iff.rfl | exact fun hop => absurd rfl hop

/-- The grammar joins to an operator only what it may join. -/
theorem Layered.grouped {layer : Layer} {e : Expr α} {tokens : List Token}
    (h : Layered (.expr layer e) tokens) : e.Grouped := by
  generalize hform : Derivable.expr layer e = form at h
  induction h generalizing layer with
  | tighter _ ih =>
      cases hform
      exact ih rfl
  | assign hop hleft _ hright =>
      cases hform
      rw [Expr.grouped_binary (by simp [hop]), if_pos hop, hop]
      exact ⟨hleft.written.2, hright.written.2⟩
  | @operate op left right _ _ _ _ hop hleft _ hright =>
      cases hform
      have hlt := Layer.le_iff.mp hright.written.2
      have hrank : op.layer.rank < 10 := by
        obtain ⟨-, hsuffix⟩ := hop
        revert hsuffix
        cases op <;> decide
      rw [op.layer.rank_tighter] at hlt
      rw [Expr.grouped_binary hop.2, if_neg hop.1]
      exact ⟨hleft.written.2, Layer.lt_iff.mpr (by omega)⟩
  | cast hoperand =>
      cases hform
      exact hoperand.written.2
  | unary _ hoperand =>
      cases hform
      exact hoperand.written.2
  | member hop hbase _ hmember =>
      cases hform
      rcases hop with rfl | rfl <;> exact ⟨hbase.written.2, hmember⟩
  | index hbase =>
      cases hform
      exact hbase.written.2
  | constant | ident | sizeOf | group | array | call | record =>
      cases hform
      trivial
  | _ => cases hform

/-- Expressions that the same tokens are written for have the same shape. -/
theorem Expr.shape_of_spelled {β : Type} {e : Expr α} {other : Expr β} {tokens : List Token}
    (h : (e.phrase .free).Spelled .plain tokens)
    (hother : (other.phrase .free).Spelled .plain tokens) :
    other.map forget = e.map forget := by
  let s : State := ⟨default, tokens, default, []⟩
  let n := max (e.whole .free).nesting (other.whole .free).nesting
  have hclean : s.Clean := ⟨rfl, h.kind_ne_invalid⟩
  have hahead : s.ahead = tokens ++ [] := (List.append_nil tokens).symm
  have hend : (s.skip tokens.length).current.kind.endsExpr .free 0 = true := by
    have hnone : (s.skip tokens.length).ahead = [] := by
      rw [State.skip_ahead, hahead, List.append_nil, List.drop_length]
    rw [State.current, hnone]
    rfl
  obtain ⟨value, hread, hshape⟩ := ((Level.allowing_recognises n).expr (Nat.zero_le _)
    (between_of_spelled h hahead hclean) hend).ok (Nat.le_max_left _ _)
  obtain ⟨value', hread', hshape'⟩ := ((Level.allowing_recognises n).expr (Nat.zero_le _)
    (between_of_spelled hother hahead hclean) hend).ok (Nat.le_max_right _ _)
  rw [hread] at hread'
  cases hread'
  exact hshape'.symm.trans hshape

/-- The grammar is unambiguous. -/
theorem Layered.unique {β : Type} {layer layer' : Layer} {e : Expr α} {other : Expr β}
    {tokens : List Token} (h : Layered (.expr layer e) tokens)
    (hother : Layered (.expr layer' other) tokens) : other.map forget = e.map forget :=
  Expr.shape_of_spelled h.written.1 hother.written.1

end Layered

/-- The tokens of a source that lie in a range. -/
def tokensWithin (source : String) (fileId : Nat) (span : Span) : List Token :=
  (bodyTokens source fileId).filter fun token => span.contains token.span

theorem Token.Placed.filter_contains {fileId length : Nat} {tokens part : List Token}
    {span : Span} (h : Token.Placed fileId length tokens) (hpart : part <:+: tokens)
    (hcovers : span.Covers part) :
    (tokens.filter fun token => span.contains token.span) = part := by
  obtain ⟨front, back, rfl⟩ := hpart
  obtain ⟨first, last, hfirst, hlast, rfl⟩ := hcovers
  have hfirst' := List.mem_of_mem_head? hfirst
  have hlast' := List.mem_of_mem_getLast? hlast
  obtain ⟨hfront, -, hback⟩ := List.pairwise_append.mp h.apart
  obtain ⟨-, -, hfront⟩ := List.pairwise_append.mp hfront
  have hordered := h.ordered.sublist ((List.sublist_append_right front part).trans
    (List.sublist_append_left _ back))
  have hbefore : (front.filter fun token =>
      Span.contains ⟨first.span.start, last.span.stop, first.span.fileId⟩ token.span) = [] := by
    refine List.filter_eq_nil_iff.mpr fun token hmem hinside => ?_
    have hplace := h.within token (by simp [hmem])
    have hstop := hfront token hmem first hfirst'
    have hstart := (Span.contains_iff.mp hinside).1
    simp only at hstart
    omega
  have hbehind : (back.filter fun token =>
      Span.contains ⟨first.span.start, last.span.stop, first.span.fileId⟩ token.span) = [] := by
    refine List.filter_eq_nil_iff.mpr fun token hmem hinside => ?_
    have hplace := h.within token (by simp [hmem])
    have hstart := hback last (by simp [hlast']) token hmem
    have hstop := (Span.contains_iff.mp hinside).2
    simp only at hstop
    omega
  have hinside : (part.filter fun token =>
      Span.contains ⟨first.span.start, last.span.stop, first.span.fileId⟩ token.span) = part := by
    refine List.filter_eq_self.mpr fun token hmem => Span.contains_iff.mpr ?_
    exact ⟨hordered.head_start_le hfirst hmem, hordered.stop_le_last hlast hmem⟩
  rw [List.filter_append, List.filter_append, hbefore, hbehind, hinside, List.nil_append,
    List.append_nil]

theorem expr_spelled {source : String} {fileId : Nat} {expr : Expr Span}
    (hmem : expr ∈ (analyse source fileId).module.exprs) :
    ∃ place part, part <:+: bodyTokens source fileId ∧ expr.note.Covers part ∧
      (expr.phrase place).Spelled .plain part := by
  obtain ⟨⟨module, after⟩, hread⟩ : ∃ result,
      (Reading.ofSource source fileId).readModule = result := ⟨_, rfl⟩
  rw [analyse_eq hread] at hmem
  obtain ⟨hderives, -⟩ := ofSource_readModule hread fun _ => trivial
  obtain ⟨place, hwithin⟩ := module.phrase_contains expr hmem
  obtain ⟨part, hpart, hexpr⟩ := hwithin.spelled hderives
  have hplaced := Token.Placed.of_follow (bodyTokens_follow source fileId)
  have hcovers := Phrase.Derives.exprCovers hexpr (hplaced.ordered.sublist hpart.sublist)
  have hgaps (front : List Token) : ¬ (expr.phrase place).Begins front := fun hbegins =>
    ((expr.braced place).opened hbegins).1
  exact ⟨place, part, hpart, hcovers, hexpr.plain (fun _ _ htoken => htoken) hgaps⟩

theorem expr_tokensWithin {source : String} {fileId : Nat} {expr : Expr Span}
    (hmem : expr ∈ (analyse source fileId).module.exprs) :
    ∃ place, (expr.phrase place).Spelled .plain (tokensWithin source fileId expr.note) := by
  obtain ⟨place, part, hpart, hcovers, hexpr⟩ := expr_spelled hmem
  have hplaced := Token.Placed.of_follow (bodyTokens_follow source fileId)
  exact ⟨place, by rwa [tokensWithin, hplaced.filter_contains hpart hcovers]⟩

theorem Rule.precedence?_of_operation {inner : Level} {place : Place} {left last : Expr Span}
    {s t : State} (h : operation inner place 0 left s = .ok (.last last) t) :
    t.current.kind.precedence? = none := by
  rw [operation, current_bind] at h
  cases hop : InfixOp.ofKind? s.current.kind with
  | none =>
      rw [hop] at h
      cases h
      simp [TokenKind.precedence?, hop]
  | some op =>
      rw [hop] at h
      dsimp only at h
      rw [if_neg (Nat.not_lt_zero _)] at h
      cases op with
      | cast =>
          obtain ⟨_, _, -, h⟩ := bind_eq_ok.mp h
          obtain ⟨_, _, -, h⟩ := bind_eq_ok.mp h
          cases h
      | binary op =>
          obtain ⟨_, _, -, h⟩ := bind_eq_ok.mp h
          obtain ⟨_, _, -, h⟩ := bind_eq_ok.mp h
          cases h

theorem Level.precedence?_of_expr {n : Nat} {place : Place} {s t : State} {value : Expr Span}
    (h : (Level.allowing n).expr place 0 s = .ok value t) :
    t.current.kind.precedence? = none := by
  cases n with
  | zero => cases h
  | succ n =>
      obtain ⟨first, u, -, h⟩ := Rule.bind_eq_ok.mp h
      exact Rule.iterate_ends (Q := fun t => t.current.kind.precedence? = none)
        (Rule.operation_advances (Level.allowing_framed n) place 0)
        (fun _ _ _ _ hround => Rule.precedence?_of_operation hround) h

/-- In the tree of any source, each expression is the only one that the layered grammar
derives from the tokens of its range, and its operands are of the layers that its operator
may join. Where a whole expression has been read, no operator comes next. -/
theorem analyse_exprs_layered (source : String) (fileId : Nat) :
    (∀ expr ∈ (analyse source fileId).module.exprs,
      Layered (.expr .assignment expr) (tokensWithin source fileId expr.note) ∧
      (∀ {α : Type} (other : Expr α),
        Layered (.expr .assignment other) (tokensWithin source fileId expr.note) →
          other.map forget = expr.map forget) ∧
      expr.Grouped) ∧
    ∀ {n : Nat} {place : Place} {s t : State} {value : Expr Span},
      (Level.allowing n).expr place 0 s = .ok value t → t.current.kind.precedence? = none := by
  refine ⟨fun expr hmem => ?_, Level.precedence?_of_expr⟩
  obtain ⟨place, hspelled⟩ := expr_tokensWithin hmem
  have hlayered := (expr.layered hspelled).loosen expr.layer.assignment_le
  exact ⟨hlayered, fun other hother => hlayered.unique hother, hlayered.grouped⟩

example : (analyse "let x = -a.b as int + 1 * 2;" 0).module.exprs.map Expr.layer =
    [.sum, .cast, .unary, .suffix, .primary, .primary, .product, .primary, .primary] := by
  decide +kernel

end SourceFront
