import SourceFront.Grammar.Recovery
import SourceFront.Proofs.Spelling

/-!
Braces. What is written to its end closes each brace that it opens; what breaks off
between two statements leaves braces open.
-/

namespace SourceFront

/-- The number of braces open behind the token if `depth` are open before it. -/
def Token.braces (depth : Nat) (token : Token) : Nat :=
  match token.kind with
  | .symbol .leftBrace => depth + 1
  | .symbol .rightBrace => depth - 1
  | _ => depth

theorem Token.braces_left {token : Token} (h : token.kind = .symbol .leftBrace) (depth : Nat) :
    token.braces depth = depth + 1 := by
  rw [braces, h]

theorem Token.braces_right {token : Token} (h : token.kind = .symbol .rightBrace) (depth : Nat) :
    token.braces depth = depth - 1 := by
  rw [braces, h]

theorem openBraces_eq (tokens : List Token) : openBraces tokens = tokens.foldl Token.braces 0 :=
  rfl

/-- Each brace that the tokens open is closed behind it, and none of them is the end. -/
inductive Balanced : List Token → Prop where
  | nil : Balanced []
  | token {token : Token} {tokens : List Token} (hleft : token.kind ≠ .symbol .leftBrace)
      (hright : token.kind ≠ .symbol .rightBrace) (hgoes : token.kind ≠ .eof)
      (hrest : Balanced tokens) : Balanced (token :: tokens)
  | braces {left right : Token} {inner tokens : List Token}
      (hleft : left.kind = .symbol .leftBrace) (hinner : Balanced inner)
      (hright : right.kind = .symbol .rightBrace) (hrest : Balanced tokens) :
      Balanced (left :: inner ++ right :: tokens)

/-- The tokens open a brace that they do not close. -/
def Opened (tokens : List Token) : Prop :=
  ∀ depth, depth < tokens.foldl Token.braces depth

namespace Balanced

variable {tokens front back : List Token}

theorem append (h : Balanced front) (h' : Balanced back) : Balanced (front ++ back) := by
  induction h with
  | nil => exact h'
  | token hleft hright hgoes _ ih => exact .token hleft hright hgoes ih
  | @braces left right inner tokens hleft hinner hright _ _ ih =>
      have hbraces := Balanced.braces hleft hinner hright ih
      rwa [← List.cons_append, ← List.append_assoc] at hbraces

theorem foldl_braces (h : Balanced tokens) (depth : Nat) :
    tokens.foldl Token.braces depth = depth := by
  induction h generalizing depth with
  | nil => rfl
  | @token token tokens hleft hright _ _ ih =>
      have hsame : Token.braces depth token = depth := by
        unfold Token.braces
        split <;> first | contradiction | rfl
      rw [List.foldl_cons, hsame, ih]
  | braces hleft _ hright _ ih ih' =>
      rw [List.foldl_append, List.foldl_cons, List.foldl_cons, ih, Token.braces_left hleft,
        Token.braces_right hright]
      exact ih' depth

theorem statementRest (h : Balanced tokens) (inFor : Bool) (depth : Nat) (rest : List Token) :
    SourceFront.statementRest inFor (depth + 1) false (tokens ++ rest) =
      tokens.length + SourceFront.statementRest inFor (depth + 1) false rest := by
  induction h generalizing depth rest with
  | nil => simp
  | @token token tokens hleft hright hgoes _ ih =>
      have hstep : SourceFront.statementRest inFor (depth + 1) false (token :: (tokens ++ rest)) =
          1 + SourceFront.statementRest inFor (depth + 1) false (tokens ++ rest) := by
        rw [SourceFront.statementRest.eq_def]
        dsimp only
        split <;> first | contradiction | simp
      rw [List.cons_append, hstep, ih, List.length_cons]
      omega
  | @braces left right inner tokens hleft _ hright _ ih ih' =>
      have hopen : SourceFront.statementRest inFor (depth + 1) false
          (left :: (inner ++ right :: (tokens ++ rest))) =
          1 + SourceFront.statementRest inFor (depth + 2) false
            (inner ++ right :: (tokens ++ rest)) := by
        simp only [SourceFront.statementRest, hleft]
      have hclose : SourceFront.statementRest inFor (depth + 2) false
          (right :: (tokens ++ rest)) =
          1 + SourceFront.statementRest inFor (depth + 1) false (tokens ++ rest) := by
        simp only [SourceFront.statementRest, hright]
      rw [List.append_assoc, List.cons_append, List.cons_append, hopen, ih, hclose, ih']
      simp only [List.length_append, List.length_cons]
      omega

end Balanced

namespace Opened

variable {front back : List Token}

theorem behind (hfront : Balanced front) (hback : Opened back) : Opened (front ++ back) := by
  intro depth
  rw [List.foldl_append, hfront.foldl_braces]
  exact hback depth

theorem leftBrace {left : Token} (hleft : left.kind = .symbol .leftBrace)
    (h : ∀ depth, depth ≤ back.foldl Token.braces depth) : Opened (left :: back) := by
  intro depth
  rw [List.foldl_cons, Token.braces_left hleft]
  exact h (depth + 1)

end Opened

theorem statementRest_fresh (inFor : Bool) (depth : Nat) (fresh : Bool) (tokens : List Token) :
    statementRest inFor (depth + 1) fresh tokens =
      statementRest inFor (depth + 1) false tokens := by
  cases tokens with
  | nil => rfl
  | cons token tokens =>
      unfold statementRest
      split <;> simp

namespace Phrase

variable {α : Type} {gaps : Prop} {p q : Phrase α} {ps : List (Phrase α)}

/-- Whether `tokens` begin a spelling of the phrase and break off at a gap. -/
def Begins : Phrase α → List Token → Prop
  | .gap, tokens => tokens = []
  | .seq first second, tokens =>
      first.Begins tokens ∨
        ∃ front back, tokens = front ++ back ∧ first.Spelled .plain front ∧ second.Begins back
  | .deeper inner, tokens | .node _ inner, tokens => inner.Begins tokens
  | .empty, _ | .terminal _, _ | .either _ _, _ | .provided _, _ => False

theorem Begins.behind {p q : Phrase α} {tokens : List Token} (n : Nat)
    (hholds : p.holds = true) (hp : (tokens.take n).map Token.terminal? = p.terminals.map some)
    (hq : q.Begins (tokens.drop n)) : (seq p q).Begins tokens :=
  .inr ⟨_, _, (List.take_append_drop n tokens).symm, spelled_of_terminals hholds hp, hq⟩

theorem Spelled.plain {o : Orthography α} {p : Phrase α} {tokens : List Token}
    (h : p.Spelled o tokens)
    (htoken : ∀ a token, o.token a token → token.terminal? = some a)
    (hbegins : ∀ front, ¬ p.Begins front) : p.Spelled .plain tokens := by
  induction p generalizing tokens with
  | empty | provided => exact h
  | terminal a =>
      obtain ⟨token, rfl, hspelled⟩ := h
      exact spelled_terminal (htoken a token hspelled)
  | either usual other =>
      exact Or.imp (·.imp fun _ _ => htoken _ _) (·.imp fun _ _ => htoken _ _) h
  | gap => exact absurd rfl (hbegins [])
  | seq first second ihFirst ihSecond =>
      obtain ⟨front, back, rfl, hfirst, hsecond⟩ := h
      have hfront := ihFirst hfirst fun tokens htokens => hbegins tokens (.inl htokens)
      exact spelled_seq hfront (ihSecond hsecond fun tokens htokens =>
        hbegins _ (.inr ⟨front, tokens, rfl, hfront, htokens⟩))
  | deeper inner ih => exact ih h hbegins
  | node note inner ih => exact ⟨ih h.1 hbegins, trivial⟩

/-- A phrase that closes the braces that it opens. If it breaks off at a gap, which it can
only if it may have `gaps`, a brace is open. -/
structure Braced (gaps : Prop) (p : Phrase α) : Prop where
  closed : ∀ {tokens : List Token}, p.Spelled .plain tokens → Balanced tokens
  opened : ∀ {tokens : List Token}, p.Begins tokens → gaps ∧ Opened tokens

end Phrase

/-- Whether the terminal is a brace. -/
def Terminal.isBrace : Terminal → Bool
  | .symbol .leftBrace | .symbol .rightBrace => true
  | _ => false

theorem Balanced.of_terminals {terminals : List Terminal} {tokens : List Token}
    (h : List.Forall₂ (fun (a : Terminal) (token : Token) => token.terminal? = some a) terminals
      tokens)
    (hbraces : ∀ a ∈ terminals, a.isBrace = false) : Balanced tokens := by
  induction h with
  | nil => exact .nil
  | @cons a token terminals tokens hterminal _ ih =>
      have hbrace := hbraces a List.mem_cons_self
      have hrest := ih fun other hmem => hbraces other (List.mem_cons_of_mem a hmem)
      refine .token ?_ ?_ ?_ hrest <;> intro hkind <;>
        simp [Token.terminal?, hkind] at hterminal <;> subst hterminal <;> cases hbrace

namespace Phrase.Braced

variable {α : Type} {gaps : Prop} {p q : Phrase α} {ps : List (Phrase α)}

theorem empty : (.empty : Phrase α).Braced gaps where
  closed h := h ▸ .nil
  opened := False.elim

theorem terminal {a : Terminal} (h : a.isBrace = false) : (.terminal a : Phrase α).Braced gaps where
  closed := by
    rintro _ ⟨token, rfl, hterminal⟩
    exact .of_terminals (.cons hterminal .nil) (by simpa using h)
  opened := False.elim

theorem either {usual other : List Terminal} (husual : ∀ a ∈ usual, a.isBrace = false)
    (hother : ∀ a ∈ other, a.isBrace = false) : (.either usual other : Phrase α).Braced gaps where
  closed h := h.elim (.of_terminals · husual) (.of_terminals · hother)
  opened := False.elim

theorem provided (holds : Bool) : (.provided holds : Phrase α).Braced gaps where
  closed h := h.1 ▸ .nil
  opened := False.elim

theorem seq (hp : p.Braced gaps) (hq : q.Braced gaps) : (.seq p q : Phrase α).Braced gaps where
  closed := by
    rintro _ ⟨front, back, rfl, hfront, hback⟩
    exact (hp.closed hfront).append (hq.closed hback)
  opened := by
    rintro tokens (h | ⟨front, back, rfl, hfront, hback⟩)
    · exact hp.opened h
    · obtain ⟨hgaps, hopened⟩ := hq.opened hback
      exact ⟨hgaps, hopened.behind (hp.closed hfront)⟩

theorem deeper (h : p.Braced gaps) : (.deeper p : Phrase α).Braced gaps where
  closed := h.closed
  opened := h.opened

theorem node {note : α} (h : p.Braced gaps) : (.node note p : Phrase α).Braced gaps where
  closed hspelled := h.closed hspelled.1
  opened := h.opened

theorem nil : (concat [] : Phrase α).Braced gaps :=
  empty

theorem cons (hp : p.Braced gaps) (hps : (concat ps).Braced gaps) :
    (concat (p :: ps)).Braced gaps := by
  cases ps with
  | nil => exact hp
  | cons next ps => exact seq hp hps

theorem concat (h : ∀ p ∈ ps, p.Braced gaps) : (Phrase.concat ps).Braced gaps := by
  induction ps with
  | nil => exact nil
  | cons p ps ih =>
      exact cons (h p List.mem_cons_self) (ih fun q hmem => h q (List.mem_cons_of_mem p hmem))

theorem comma : (symbol .comma : Phrase α).Braced gaps :=
  terminal rfl

theorem commas (h : ∀ p ∈ ps, p.Braced gaps) : (commas ps).Braced gaps := by
  induction ps with
  | nil => exact empty
  | cons p ps ih =>
      have hp := h p List.mem_cons_self
      have hps := ih fun q hmem => h q (List.mem_cons_of_mem p hmem)
      cases ps with
      | nil => exact seq hp (either (by simp) (by simp [Terminal.isBrace]))
      | cons next ps => exact cons hp (cons comma (cons hps nil))

theorem commaEnded (h : ∀ p ∈ ps, p.Braced gaps) : (commaEnded ps).Braced gaps := by
  induction ps with
  | nil => exact empty
  | cons p ps ih =>
      have hps := ih fun q hmem => h q (List.mem_cons_of_mem p hmem)
      exact cons (h p List.mem_cons_self) (cons comma (cons hps nil))

theorem led (hq : q.Braced gaps) (h : ∀ p ∈ ps, p.Braced gaps) : (led q ps).Braced gaps := by
  induction ps with
  | nil => exact empty
  | cons p ps ih =>
      have hps := ih fun q hmem => h q (List.mem_cons_of_mem p hmem)
      exact cons hq (cons (h p List.mem_cons_self) (cons hps nil))

theorem separated (hq : q.Braced gaps) (h : ∀ p ∈ ps, p.Braced gaps) :
    (separated q ps).Braced gaps := by
  cases ps with
  | nil => exact provided false
  | cons p ps =>
      exact seq (h p List.mem_cons_self) (led hq fun q hmem => h q (List.mem_cons_of_mem p hmem))

theorem params (h : ∀ p ∈ ps, p.Braced gaps) (variadic : Bool) :
    (params ps variadic).Braced gaps := by
  cases variadic with
  | false => exact commas h
  | true => exact seq (commaEnded h) (terminal rfl)

/-- What stands between braces closes those that it opens. -/
theorem enclosed (hclosed : ∀ {tokens : List Token}, p.Spelled .plain tokens → Balanced tokens)
    (hopened : ∀ {tokens : List Token}, p.Begins tokens →
      gaps ∧ ∀ depth, depth ≤ tokens.foldl Token.braces depth) :
    (Phrase.concat [symbol .leftBrace, p, symbol .rightBrace]).Braced gaps where
  closed := by
    rintro _ ⟨_, _, rfl, ⟨left, rfl, hleft⟩, inner, _, rfl, hinner, right, rfl, hright⟩
    exact .braces (Token.kind_of_terminal? hleft) (hclosed hinner)
      (Token.kind_of_terminal? hright) .nil
  opened := by
    rintro tokens (h | ⟨_, back, rfl, ⟨left, rfl, hleft⟩, hback | ⟨_, _, -, -, h⟩⟩)
    · exact h.elim
    · obtain ⟨hgaps, hle⟩ := hopened hback
      exact ⟨hgaps, .leftBrace (Token.kind_of_terminal? hleft) hle⟩
    · exact h.elim

theorem braces (h : p.Braced gaps) :
    (Phrase.concat [symbol .leftBrace, p, symbol .rightBrace]).Braced gaps :=
  enclosed h.closed fun hbegins =>
    ⟨(h.opened hbegins).1, fun depth => Nat.le_of_lt ((h.opened hbegins).2 depth)⟩

theorem closed_gapped (h : ∀ p ∈ ps, p.Braced gaps) {tokens : List Token}
    (hspelled : (gapped ps).Spelled .plain tokens) : Balanced tokens := by
  induction ps generalizing tokens with
  | nil =>
      obtain rfl : tokens = [] := hspelled
      exact .nil
  | cons p ps ih =>
      obtain ⟨_, _, rfl, rfl, front, back, rfl, hfront, hback⟩ := hspelled
      exact ((h p List.mem_cons_self).closed hfront).append
        (ih (fun q hmem => h q (List.mem_cons_of_mem p hmem)) hback)

theorem le_of_begins_gapped (h : ∀ p ∈ ps, p.Braced gaps) {tokens : List Token}
    (hbegins : (gapped ps).Begins tokens) (depth : Nat) :
    depth ≤ tokens.foldl Token.braces depth := by
  induction ps generalizing tokens with
  | nil =>
      obtain rfl : tokens = [] := hbegins
      exact Nat.le_refl depth
  | cons p ps ih =>
      rcases hbegins with rfl | ⟨_, _, rfl, rfl, hbegins | ⟨front, back, rfl, hfront, hback⟩⟩
      · exact Nat.le_refl depth
      · exact Nat.le_of_lt (((h p List.mem_cons_self).opened hbegins).2 depth)
      · rw [List.nil_append, List.foldl_append,
          ((h p List.mem_cons_self).closed hfront).foldl_braces]
        exact ih (fun q hmem => h q (List.mem_cons_of_mem p hmem)) hback

theorem block (h : ∀ p ∈ ps, p.Braced gaps) (hgaps : gaps) :
    (Phrase.concat [symbol .leftBrace, gapped ps, symbol .rightBrace]).Braced gaps :=
  enclosed (closed_gapped h) fun hbegins => ⟨hgaps, le_of_begins_gapped h hbegins⟩

end Phrase.Braced

variable {α : Type} {gaps : Prop}

theorem Name.braced (name : Name α) : name.phrase.Braced gaps :=
  .node (.terminal rfl)

theorem Constant.braced (value : Constant) :
    (.terminal value.terminal : Phrase α).Braced gaps := by
  refine .terminal ?_
  cases value with
  | bool value => cases value <;> rfl
  | _ => rfl

theorem Phrase.stars_braced (n : Nat) : (stars n : Phrase α).Braced gaps := by
  induction n with
  | zero => exact .empty
  | succ n ih => exact .cons (.terminal rfl) (.cons ih .nil)

mutual

theorem TypeExpr.braced : ∀ type : TypeExpr α, type.phrase.Braced gaps
  | ⟨pointers, base, sizes, _⟩ =>
      .node (.cons (.provided _) (.cons (.provided _) (.cons (Phrase.stars_braced pointers)
        (.cons base.braced (.cons (.concat (TypeExpr.sizes_braced sizes)) .nil)))))

theorem TypeBase.braced : ∀ base : TypeBase α, base.phrase.Braced gaps
  | .anyPointer => .cons (.terminal rfl) (.cons (.terminal rfl) .nil)
  | .primitive type => by
      refine .terminal ?_
      cases type <;> rfl
  | .named name => name.braced
  | .function types variadic result =>
      .cons (.terminal rfl) (.cons (.terminal rfl) (.cons
        (.params (TypeExpr.list_braced types) variadic)
        (.cons (.terminal rfl) (.cons (TypeExpr.result_braced result) .nil))))

theorem TypeExpr.result_braced :
    ∀ result : Option (TypeExpr α), (TypeExpr.resultPhrase result).Braced gaps
  | none => .either (by simp) (by simp [Terminal.isBrace])
  | some type => .cons (.terminal rfl) (.cons (.deeper type.braced) .nil)

theorem TypeExpr.list_braced :
    ∀ types : List (TypeExpr α), ∀ p ∈ TypeExpr.phrases types, p.Braced gaps
  | [], _, hmem => nomatch hmem
  | type :: types, p, hmem => by
      rcases List.mem_cons.mp hmem with rfl | hmem
      · exact .deeper type.braced
      · exact TypeExpr.list_braced types p hmem

theorem TypeExpr.sizes_braced :
    ∀ sizes : List (Expr α), ∀ p ∈ TypeExpr.sizePhrases sizes, p.Braced gaps
  | [], _, hmem => nomatch hmem
  | size :: sizes, p, hmem => by
      rcases List.mem_cons.mp hmem with rfl | hmem
      · exact .cons (.terminal rfl) (.cons (.deeper (size.braced .free))
          (.cons (.terminal rfl) .nil))
      · exact TypeExpr.sizes_braced sizes p hmem

theorem Expr.braced (place : Place) : ∀ expr : Expr α, (expr.phrase place).Braced gaps
  | .constant value _ => .node value.braced
  | .ident name => name.braced
  | .binary op left right _ => by
      refine .node (.cons (.provided _) (.cons (left.braced place) (.cons ?_ (.cons ?_ .nil))))
      · refine .terminal ?_
        cases op <;> rfl
      · split
        · exact .seq (.deeper (right.braced .free)) (.terminal rfl)
        · exact .seq (.provided _) (right.braced place)
        · exact .seq (.provided _) (right.braced place)
        · exact .seq (.provided _) (.deeper (right.braced place))
  | .unary op operand _ => by
      refine .node (.cons ?_ (.cons (.provided _) (.cons (.deeper (operand.braced place)) .nil)))
      refine .terminal ?_
      cases op <;> rfl
  | .cast operand type _ =>
      .node (.cons (.provided _) (.cons (operand.braced place) (.cons (.terminal rfl)
        (.cons (.deeper type.braced) .nil))))
  | .call callee args _ =>
      .node (.cons callee.braced (.cons (.terminal rfl) (.cons (.commas (Expr.list_braced args))
        (.cons (.terminal rfl) .nil))))
  | .record type inits _ =>
      .node (.cons (.provided _) (.cons type.braced
        (.braces (.commas (FieldInit.list_braced inits)))))
  | .array elements _ =>
      .node (.cons (.terminal rfl) (.cons (.commas (Expr.list_braced elements))
        (.cons (.terminal rfl) .nil)))
  | .sizeOf type _ =>
      .node (.cons (.terminal rfl) (.cons (.terminal rfl) (.cons (.deeper type.braced)
        (.cons (.terminal rfl) .nil))))
  | .group inner _ =>
      .node (.cons (.terminal rfl) (.cons (.deeper (inner.braced .free)) (.cons (.terminal rfl)
        .nil)))

theorem Expr.list_braced : ∀ exprs : List (Expr α), ∀ p ∈ Expr.phrases exprs, p.Braced gaps
  | [], _, hmem => nomatch hmem
  | expr :: exprs, p, hmem => by
      rcases List.mem_cons.mp hmem with rfl | hmem
      · exact .deeper (expr.braced .free)
      · exact Expr.list_braced exprs p hmem

theorem FieldInit.braced : ∀ init : FieldInit α, init.phrase.Braced gaps
  | ⟨name, value, _⟩ =>
      .node (.cons name.braced (.cons (.terminal rfl) (.cons (.deeper (value.braced .free)) .nil)))

theorem FieldInit.list_braced :
    ∀ inits : List (FieldInit α), ∀ p ∈ FieldInit.phrases inits, p.Braced gaps
  | [], _, hmem => nomatch hmem
  | init :: inits, p, hmem => by
      rcases List.mem_cons.mp hmem with rfl | hmem
      · exact init.braced
      · exact FieldInit.list_braced inits p hmem

end

theorem Expr.whole_braced (place : Place) (expr : Expr α) : (expr.whole place).Braced gaps :=
  .deeper (expr.braced place)

theorem TypeExpr.annotation_braced (type : Option (TypeExpr α)) :
    (TypeExpr.annotation type).Braced gaps := by
  cases type with
  | none => exact .empty
  | some type => exact .cons (.terminal rfl) (.cons (.deeper type.braced) .nil)

theorem Binding.braced (k : Keyword) (binding : Binding α) : (binding.phrase k).Braced gaps :=
  .node (.seq (.terminal rfl) (.cons binding.name.braced
    (.cons (TypeExpr.annotation_braced binding.type) (.cons (.terminal rfl)
      (.cons (binding.value.whole_braced .free) (.cons (.terminal rfl) .nil))))))

theorem Pattern.braced (pattern : Pattern α) : pattern.phrase.Braced gaps := by
  cases pattern with
  | path segments note =>
      refine .node (.seq (.provided _) (.separated (.either ?_ ?_) ?_))
      · simp [Terminal.isBrace]
      · simp [Terminal.isBrace]
      · intro p hmem
        obtain ⟨name, -, rfl⟩ := List.mem_map.mp hmem
        exact name.braced
  | _ => exact .node (.terminal rfl)

theorem ForInit.braced (init : ForInit α) : init.phrase.Braced gaps := by
  cases init with
  | let_ binding => exact binding.braced .let_
  | expr value => exact .seq (value.whole_braced .free) (.terminal rfl)

theorem returnPhrase_braced (value : Option (Expr α)) (note : α) :
    (returnPhrase value note).Braced gaps := by
  refine .node (.cons (.terminal rfl) (.cons ?_ (.cons (.terminal rfl) .nil)))
  cases value with
  | none => exact .empty
  | some value => exact value.whole_braced .free

theorem jumpPhrase_braced (k : Keyword) (note : α) : (jumpPhrase k note).Braced gaps :=
  .node (.seq (.terminal rfl) (.terminal rfl))

mutual

theorem Block.braced : ∀ body : Block α, body.phrase.Braced True
  | ⟨stmts, _⟩ => .node (.block (Stmt.list_braced stmts) trivial)

theorem Stmt.braced : ∀ stmt : Stmt α, stmt.phrase.Braced True
  | .let_ binding => binding.braced .let_
  | .const binding => binding.braced .const
  | .block body => .deeper body.braced
  | .return_ value note => returnPhrase_braced value note
  | .if_ branch => branch.braced
  | .loop body _ => .node (.seq (.terminal rfl) (.deeper body.braced))
  | .while_ cond body _ =>
      .node (.cons (.terminal rfl) (.cons (cond.whole_braced .beforeBlock)
        (.cons (.deeper body.braced) .nil)))
  | .for_ init cond step body _ =>
      .node (.cons (.terminal rfl) (.cons init.braced (.cons (cond.whole_braced .beforeBlock)
        (.cons (.terminal rfl) (.cons (step.whole_braced .beforeBlock)
          (.cons (.deeper body.braced) .nil))))))
  | .match_ choice => choice.braced
  | .break_ note => jumpPhrase_braced .break_ note
  | .continue_ note => jumpPhrase_braced .continue_ note
  | .expr value _ => .node (.seq (value.whole_braced .free) (.terminal rfl))

theorem Stmt.list_braced : ∀ stmts : List (Stmt α), ∀ p ∈ Stmt.phrases stmts, p.Braced True
  | [], _, hmem => nomatch hmem
  | stmt :: stmts, p, hmem => by
      rcases List.mem_cons.mp hmem with rfl | hmem
      · exact stmt.braced
      · exact Stmt.list_braced stmts p hmem

theorem IfStmt.braced : ∀ branch : IfStmt α, branch.phrase.Braced True
  | ⟨cond, thenBlock, otherwise, _⟩ =>
      .node (.cons (.terminal rfl) (.cons (cond.whole_braced .beforeBlock)
        (.cons (.deeper thenBlock.braced) (.cons (ElseBranch.option_braced otherwise) .nil))))

theorem ElseBranch.option_braced :
    ∀ branch : Option (ElseBranch α), (ElseBranch.optionPhrase branch).Braced True
  | none => .empty
  | some (.if_ branch) => .seq (.terminal rfl) (.deeper branch.braced)
  | some (.block body) => .seq (.terminal rfl) (.deeper body.braced)

theorem MatchStmt.braced : ∀ choice : MatchStmt α, choice.phrase.Braced True
  | ⟨subject, arms, _⟩ =>
      .node (.cons (.terminal rfl) (.cons (subject.whole_braced .beforeBlock)
        (.braces (.concat (MatchArm.list_braced arms)))))

theorem MatchArm.braced : ∀ arm : MatchArm α, arm.phrase.Braced True
  | ⟨patterns, body, _⟩ => by
      refine .node (.cons (.separated (.terminal rfl) fun p hmem => ?_) (.cons (.terminal rfl)
        (.cons body.braced .nil)))
      obtain ⟨pattern, -, rfl⟩ := List.mem_map.mp hmem
      exact pattern.braced

theorem MatchArm.list_braced :
    ∀ arms : List (MatchArm α), ∀ p ∈ MatchArm.phrases arms, p.Braced True
  | [], _, hmem => nomatch hmem
  | arm :: arms, p, hmem => by
      rcases List.mem_cons.mp hmem with rfl | hmem
      · exact arm.braced
      · exact MatchArm.list_braced arms p hmem

theorem ArmBody.braced : ∀ body : ArmBody α, body.phrase.Braced True
  | .block body => .deeper body.braced
  | .return_ value note => returnPhrase_braced value note
  | .match_ choice => .deeper choice.braced
  | .break_ note => jumpPhrase_braced .break_ note
  | .continue_ note => jumpPhrase_braced .continue_ note
  | .expr value => .seq (value.whole_braced .free) (.terminal rfl)

end

theorem TypedName.braced (typed : TypedName α) : typed.phrase.Braced gaps :=
  .node (.cons typed.name.braced (.cons (.terminal rfl) (.cons (.deeper typed.type.braced) .nil)))

theorem TypedName.list_braced (fields : List (TypedName α)) :
    ∀ p ∈ fields.map TypedName.phrase, p.Braced gaps := by
  intro p hmem
  obtain ⟨typed, -, rfl⟩ := List.mem_map.mp hmem
  exact typed.braced

theorem Prototype.braced (proto : Prototype α) : proto.phrase.Braced gaps :=
  .node (.cons proto.name.braced (.cons (.terminal rfl)
    (.cons (.params (TypedName.list_braced proto.params) proto.variadic)
      (.cons (.terminal rfl) (.cons (TypeExpr.result_braced proto.result) .nil)))))

theorem RecordDef.braced (k : Keyword) (record : RecordDef α) : (record.phrase k).Braced gaps :=
  .node (.cons (.terminal rfl) (.cons record.name.braced
    (.braces (.commas (TypedName.list_braced record.fields)))))

theorem Variant.braced (variant : Variant α) : variant.phrase.Braced gaps := by
  refine .node (.seq variant.name.braced ?_)
  cases variant.value with
  | none => exact .empty
  | some value => exact .seq (.terminal rfl) (value.whole_braced .free)

theorem EnumDef.braced (enum : EnumDef α) : enum.phrase.Braced gaps := by
  refine .node (.cons (.terminal rfl) (.cons enum.name.braced (.braces (.commas fun p hmem => ?_))))
  obtain ⟨variant, -, rfl⟩ := List.mem_map.mp hmem
  exact variant.braced

theorem Import.braced (source : Import α) : source.phrase.Braced gaps :=
  .node (.seq (.terminal rfl) (.terminal rfl))

theorem ConstantDef.braced (constant : ConstantDef α) : constant.phrase.Braced gaps := by
  refine .node (.cons (.terminal rfl) (.cons constant.name.braced (.cons ?_
    (.cons (.terminal rfl) .nil))))
  cases constant.value with
  | expr type value =>
      exact .cons (TypeExpr.annotation_braced type) (.cons (.terminal rfl)
        (.cons (value.whole_braced .free) .nil))
  | import_ source => exact .seq (.terminal rfl) source.braced

theorem Phrase.Braced.of_gaps {p : Phrase α} (h : p.Braced True) (hgaps : gaps) :
    p.Braced gaps where
  closed := h.closed
  opened hbegins := ⟨hgaps, (h.opened hbegins).2⟩

theorem FunctionDef.braced (function : FunctionDef α) : function.phrase.Braced True :=
  .node (.cons (.terminal rfl) (.cons function.proto.braced (.cons (.deeper function.body.braced)
    .nil)))

theorem Definition.braced {definition : Definition α}
    (h : ∀ function, definition = .function function → gaps) : definition.phrase.Braced gaps := by
  have hoptional : (.either [.symbol .semicolon] [] : Phrase α).Braced gaps :=
    .either (by simp [Terminal.isBrace]) (by simp)
  cases definition with
  | function function => exact function.braced.of_gaps (h function rfl)
  | struct record => exact record.braced .struct
  | union record => exact record.braced .union
  | enum enum => exact enum.braced
  | externalFunction proto =>
      exact .cons (.terminal rfl) (.cons (.either (by simp [Terminal.isBrace]) (by simp))
        (.cons proto.braced (.cons hoptional .nil)))
  | externalVariable typed =>
      exact .seq (.node (.cons (.terminal rfl) (.cons typed.name.braced (.cons (.terminal rfl)
        (.cons (.deeper typed.type.braced) .nil))))) hoptional
  | constant constant => exact constant.braced
  | variable_ binding => exact binding.braced .let_

theorem Declaration.pub_braced (isPublic : Bool) :
    (if isPublic then .keyword .pub else .empty : Phrase α).Braced gaps := by
  cases isPublic with
  | false => exact .empty
  | true => exact .terminal rfl

theorem Item.braced (item : Item α) : item.phrase.Braced True := by
  cases item with
  | import_ source =>
      exact .node (.cons (.terminal rfl) (.cons (.terminal rfl) (.cons (.terminal rfl) .nil)))
  | declaration decl =>
      exact .node (.seq (Declaration.pub_braced decl.isPublic)
        (Definition.braced fun _ _ => trivial))

theorem Module.balanced {module : Module α} {tokens : List Token}
    (h : module.phrase.Spelled .plain tokens) : Balanced tokens := by
  have hitems : ∀ p ∈ module.items.map Item.phrase, p.Braced True := by
    intro p hmem
    obtain ⟨item, -, rfl⟩ := List.mem_map.mp hmem
    exact item.braced
  exact Phrase.Braced.closed_gapped hitems h

end SourceFront
