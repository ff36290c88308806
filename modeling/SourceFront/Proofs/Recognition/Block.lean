import SourceFront.Proofs.Recognition.Match

/-!
The blocks that are written are those that are read, at each level of nesting.
-/

namespace SourceFront

variable {α : Type}

theorem Stmt.between_kind {stmt : Stmt α} {s t : State} (h : stmt.phrase.Between s t) :
    ∃ a : Terminal, s.current.kind = a.kind ∧ a.kind ≠ .keyword .else_ ∧
      a.kind ≠ .symbol .rightBrace ∧ a.kind.beginsItemOnly = false := by
  have hkeyword {k : Keyword} {phrase : Phrase α}
      (h : (Phrase.seq (.keyword k) phrase).Between s t) (helse : k ≠ .else_)
      (hitem : (TokenKind.keyword k).beginsItemOnly = false) :
      ∃ a : Terminal, s.current.kind = a.kind ∧ a.kind ≠ .keyword .else_ ∧
        a.kind ≠ .symbol .rightBrace ∧ a.kind.beginsItemOnly = false :=
    ⟨.keyword k, Rule.keyword_kind h, by simpa [Terminal.kind] using helse,
      by simp [Terminal.kind], hitem⟩
  cases stmt with
  | expr value note =>
      obtain ⟨u, hvalue, -⟩ := h
      obtain ⟨a, hkind, hbegins, -⟩ := value.between_kind hvalue
      refine ⟨a, hkind, ?_, ?_, (Terminal.beginsStatement_of_beginsExpr hbegins).2.1⟩
      · rintro hkind
        cases a <;> cases hkind
        cases hbegins
      · rintro hkind
        cases a <;> cases hkind
        cases hbegins
  | block body =>
      refine ⟨.symbol .leftBrace, Rule.block_kind h, ?_⟩
      exact ⟨by simp [Terminal.kind], by simp [Terminal.kind], rfl⟩
  | if_ branch =>
      cases branch
      exact hkeyword h (by decide) rfl
  | match_ choice =>
      cases choice
      exact hkeyword h (by decide) rfl
  | _ => exact hkeyword h (by decide) rfl

theorem Stmt.isSolid_phrase (stmt : Stmt α) : stmt.phrase.isSolid = true := by
  cases stmt with
  | let_ binding | const binding => simp [phrase, Binding.phrase]
  | block body =>
      cases body
      simp [phrase, Block.phrase]
  | return_ value note => simp [phrase, returnPhrase]
  | if_ branch =>
      cases branch
      simp [phrase, IfStmt.phrase]
  | match_ choice =>
      cases choice
      simp [phrase, MatchStmt.phrase]
  | break_ note | continue_ note => simp [phrase, jumpPhrase]
  | _ => simp [phrase]

namespace Rule

variable {n : Nat} {inner : Level} {s t : State}

theorem statement_of_expr (inner : Level) (hstatement : s.current.kind.beginsStatement = false)
    (hblock : s.current.kind ≠ .symbol .leftBrace) :
    statement inner s = (inner.freeExpr >>= fun value => expect .semicolon >>= fun _ =>
      spanFrom value.note >>= fun span => pure (.expr value span)) s := by
  rw [statement, current_bind]
  generalize s.current.kind = kind at hstatement hblock
  cases kind with
  | keyword k => cases k <;> first | rfl | cases hstatement
  | symbol symbol => cases symbol <;> first | rfl | exact absurd rfl hblock
  | _ => rfl

theorem Gives.recover {β : Type} {fits : Prop} {good : β → Prop} {rule : Rule β}
    {resume : State → State → State} (h : Gives True fits good rule s t)
    (hframed : rule.Framed) (hresume : State.Resumption resume) :
    Gives True fits (fun value => ∃ found, value = some found ∧ good found)
      (Rule.recover rule resume) s t where
  ok hyes := by
    obtain ⟨value, hrule, hvalue⟩ := h.ok hyes
    exact ⟨some value, by rw [Rule.recover, hrule], value, rfl, hvalue⟩
  refused hno := by
    have hrefused := h.refused hno
    rw [Rule.recover]
    cases hrule : rule s with
    | ok value u =>
        rw [hrule] at hrefused
        exact hrefused
    | error problem u =>
        rw [hrule] at hrefused
        obtain ⟨hspan, -⟩ := hframed.error hrule
        obtain ⟨tokens, hpasses⟩ := hresume.passes s (u.report problem)
        rcases hrefused with ⟨hcause, hclean⟩ | ⟨-, hspoiled⟩
        · have hreport : (u.report problem).problems = [problem] := by
            rw [State.report, if_neg fun hinvalid => hclean.current_ne_invalid hinvalid.1]
            simp [hclean.1]
          have hspoiled : (u.report problem).Spoiled := ⟨problem, [], hreport, hcause⟩
          exact ⟨trivial, hspoiled.trans hpasses⟩
        · exact ⟨trivial, hspoiled.trans ((State.passes_report hspan).trans hpasses)⟩

variable (hinner : inner.Recognises α n) (hframed : inner.Framed)
include hinner

theorem loop_gives {body : Block α} {note : α}
    (hspells : (Stmt.loop body note).phrase.Between s t) :
    Gives True ((Stmt.loop body note).phrase.nesting ≤ n)
      (fun value => value.map forget = (Stmt.loop body note).map forget)
      (statement inner) s t := by
  obtain ⟨_, ⟨hloop, rfl, -⟩, hbody⟩ := hspells
  replace hbody : body.phrase.Between s.advance t := hbody
  have hkind : s.current.kind = .keyword .loop := Token.kind_of_terminal? hloop
  refine .current ?_
  simp only [hkind]
  refine .imp (.advance (.finishLoose (hinner.block hbody) (fun _ => .pure _)
    fun value hvalue => .pure ?_)) ?_ fun _ hgood => hgood
  · simp [Stmt.map, hvalue]
  · simp [Stmt.phrase]

theorem while_gives {cond : Expr α} {body : Block α} {note : α}
    (hspells : (Stmt.while_ cond body note).phrase.Between s t) :
    Gives True ((Stmt.while_ cond body note).phrase.nesting ≤ n)
      (fun value => value.map forget = (Stmt.while_ cond body note).map forget)
      (statement inner) s t := by
  obtain ⟨_, ⟨hwhile, rfl, -⟩, u, hcond, hbody⟩ := hspells
  replace hbody : body.phrase.Between u t := hbody
  have hkind : s.current.kind = .keyword .while_ := Token.kind_of_terminal? hwhile
  have hbrace : u.current.kind.endsExpr .beforeBlock 0 = true := by
    rw [block_kind hbody]
    rfl
  have hcond := hinner.expr (Nat.zero_le _) hcond hbrace
  have hbody := hinner.block hbody
  refine .current ?_
  simp only [hkind]
  refine .imp (.advance (.bind hcond fun cond' hcond' =>
    .finishLoose hbody (fun _ => .pure _) fun body' hbody' => .pure ?_)) ?_
    fun _ hgood => hgood
  · simp [Stmt.map, hcond', hbody']
  · simp [Stmt.phrase]

theorem exprStatement_gives {value : Expr α} {note : α}
    (hspells : (Stmt.expr value note).phrase.Between s t) :
    Gives True ((Stmt.expr value note).phrase.nesting ≤ n)
      (fun read => read.map forget = (Stmt.expr value note).map forget)
      (statement inner) s t := by
  obtain ⟨u, hvalue, hsemicolon⟩ := hspells
  obtain ⟨a, hkind, hbegins, -⟩ := value.between_kind hvalue
  obtain ⟨hstatement, -, hblock⟩ := Terminal.beginsStatement_of_beginsExpr hbegins
  have hgives := freeExpr_gives hinner hvalue hsemicolon rfl
  have hsemicolon' := State.Spells.kind hsemicolon
  obtain ⟨-, rfl, -⟩ := hsemicolon
  refine .congr (statement_of_expr inner (hkind ▸ hstatement) (hkind ▸ hblock)) ?_
  refine .imp (.finish hgives fun read hread => .expect hsemicolon' (.spanFrom (.pure ?_)))
    ?_ fun _ hgood => hgood
  · simp [Stmt.map, hread, forget]
  · simp [Stmt.phrase]

include hframed

theorem statement_gives {stmt : Stmt α} (hspells : stmt.phrase.Between s t)
    (hend : t.current.kind ≠ .keyword .else_) :
    Gives True (stmt.phrase.nesting ≤ n) (fun value => value.map forget = stmt.map forget)
      (statement inner) s t := by
  cases stmt with
  | let_ binding =>
      have hkind : s.current.kind = .keyword .let_ := keyword_kind hspells
      refine .current ?_
      simp only [hkind]
      refine .finish (binding_gives hinner hspells) fun value hvalue => .pure ?_
      simp [Stmt.map, hvalue]
  | const binding =>
      have hkind : s.current.kind = .keyword .const := keyword_kind hspells
      refine .current ?_
      simp only [hkind]
      refine .finish (binding_gives hinner hspells) fun value hvalue => .pure ?_
      simp [Stmt.map, hvalue]
  | block body =>
      replace hspells : body.phrase.Between s t := hspells
      have hkind := block_kind hspells
      refine .current ?_
      simp only [hkind]
      refine .finishLoose (hinner.block hspells) (fun _ => .pure _) fun value hvalue => .pure ?_
      simp [Stmt.map, hvalue]
  | return_ value note =>
      have hkind : s.current.kind = .keyword .return_ := keyword_kind hspells
      refine .current ?_
      simp only [hkind]
      refine .finish (return_gives hinner hspells) fun read hread => .pure ?_
      simp [Stmt.map, hread]
  | if_ branch =>
      replace hspells : branch.phrase.Between s t := hspells
      have hkind : s.current.kind = .keyword .if_ := by
        cases branch
        exact keyword_kind hspells
      refine .current ?_
      simp only [hkind]
      refine .finishLoose (branch_gives hinner hframed hspells hend) (fun _ => .pure _)
        fun value hvalue => .pure ?_
      simp [Stmt.map, hvalue]
  | loop body note => exact loop_gives hinner hspells
  | while_ cond body note => exact while_gives hinner hspells
  | for_ init cond step body note =>
      have hkind : s.current.kind = .keyword .for_ := keyword_kind hspells
      refine .current ?_
      simp only [hkind]
      exact for_gives hinner hspells
  | match_ choice =>
      replace hspells : choice.phrase.Between s t := hspells
      have hkind : s.current.kind = .keyword .match_ := by
        cases choice
        exact keyword_kind hspells
      refine .current ?_
      simp only [hkind]
      refine .finishLoose (choice_gives hinner hframed hspells) (fun _ => .pure _)
        fun value hvalue => .pure ?_
      simp [Stmt.map, hvalue]
  | break_ note =>
      have hkind : s.current.kind = .keyword .break_ := keyword_kind hspells
      refine .current ?_
      simp only [hkind]
      exact .finish (jump_gives hspells) fun value _ => .pure rfl
  | continue_ note =>
      have hkind : s.current.kind = .keyword .continue_ := keyword_kind hspells
      refine .current ?_
      simp only [hkind]
      exact .finish (jump_gives hspells) fun value _ => .pure rfl
  | expr value note => exact exprStatement_gives hinner hspells

theorem blockRound_readsRun {ends : TokenKind → Prop}
    (hends : ∀ token : Token, ends token.kind → endsBlock token = true) (stmts : List (Stmt α)) :
    ReadsRun True n ends (· ≠ .keyword .else_) (blockRound inner)
      (fun read shapes => read.map (Stmt.map forget) = shapes) Stmt.phrase (Stmt.map forget)
      stmts where
  framed _ := blockRound_framed hframed
  solid stmt _ := stmt.isSolid_phrase
  ended kind hkind := by
    rintro rfl
    have helse := hends ⟨.keyword .else_, "", ⟨0, 0, 0⟩⟩ hkind
    cases helse
  head := by
    intro stmt _ s t hspells
    obtain ⟨a, hkind, helse, -⟩ := stmt.between_kind hspells
    rwa [hkind]
  last := by
    intro s read shapes hread hend
    refine .current ?_
    rw [if_pos (hends _ hend)]
    exact .pure ⟨_, rfl, hread⟩
  more := by
    intro stmt hmem s t read shapes hread hspells hend
    have hends : ¬ endsBlock s.current = true := by
      obtain ⟨a, hkind, -, hbrace, hitem⟩ := stmt.between_kind hspells
      have hmore : a.kind ≠ .eof := by cases a <;> simp [Terminal.kind]
      simp [endsBlock, Token.isEof, hkind, hbrace, hitem, hmore]
    refine .current ?_
    rw [if_neg hends]
    refine .finishLoose ((statement_gives hinner hframed hspells hend).recover
      (statement_framed hframed) State.skipStatement_resumption) (fun _ => .pure _) ?_
    rintro _ ⟨value, rfl, hvalue⟩
    exact .pure ⟨_, rfl, by simp [hread, hvalue]⟩

/-- The statements of a block, up to a token at which the block ends. -/
theorem stmts_give {stmts : List (Stmt α)}
    (hspells : (Phrase.gapped (Stmt.phrases stmts)).Between s t)
    (hend : endsBlock t.current = true) :
    Gives True ((Phrase.gapped (Stmt.phrases stmts)).nesting ≤ n)
      (fun read => read.map (Stmt.map forget) = stmts.map (Stmt.map forget))
      (iterate (blockRound inner) []) s t := by
  rw [Phrase.between_gapped, Stmt.phrases_eq_map] at hspells
  have hends (token : Token) (hkind : t.current.kind = token.kind) : endsBlock token = true := by
    rw [endsBlock, Token.isEof, ← hkind]
    exact hend
  have hnone : ([] : List (Stmt Span)).map (Stmt.map forget) = [] := rfl
  refine ((blockRound_readsRun hinner hframed hends stmts).gives hnone hspells rfl).imp ?_
    fun _ hgood => hgood
  rw [Phrase.nesting_gapped_le, Phrase.nesting_concat_le, Stmt.phrases_eq_map]

theorem block_gives {body : Block α} (hspells : body.phrase.Between s t) :
    Gives True (body.phrase.nesting ≤ n) (fun value => value.map forget = body.map forget)
      (block inner) s t := by
  obtain ⟨stmts, note⟩ := body
  obtain ⟨_, ⟨hopen, rfl, -⟩, u, hstmts, hclose⟩ := hspells
  have hclose' := State.Spells.kind hclose
  obtain ⟨-, rfl, -⟩ := hclose
  have hgives := stmts_give hinner hframed hstmts (by simp [endsBlock, hclose', Terminal.kind])
  refine .imp (.expect (Token.kind_of_terminal? hopen) (.finishLoose hgives
    (fun _ => .bind (.expect _) fun _ => .bind (.spanFrom _) fun _ => .pure _)
    fun stmts' hstmts' => .expect hclose' (.spanFrom (.pure ?_)))) ?_ fun _ hgood => hgood
  · simp [Block.map, Stmt.mapList_eq_map, hstmts']
  · simp [Block.phrase]

end Rule

namespace Level

theorem lowest_recognises : lowest.Recognises α 0 where
  expr _ hspells _ := .refuse hspells.clean (by simp [Expr.whole])
  operand _ hspells _ := .refuse hspells.clean (by simp [Expr.whole])
  typeExpr hspells _ := .refuse hspells.clean (by simp)
  block hspells := .refuse hspells.clean (by simp)
  branch hspells _ := .refuse hspells.clean (by simp)
  choice hspells := .refuse hspells.clean (by simp)

theorem Recognises.above {n : Nat} {level : Level} (h : level.Recognises α n)
    (hframed : level.Framed) : level.above.Recognises α (n + 1) where
  expr hleast hspells hend :=
    (Rule.expression_gives h hleast hspells hend).imp (by simp [Expr.whole])
      fun _ hgood => hgood
  operand hprecedence hspells hend :=
    (Rule.operand_gives h hprecedence hspells hend).imp (by simp [Expr.whole])
      fun _ hgood => hgood
  typeExpr hspells hend :=
    (Rule.typeExpr_gives h hspells hend).imp (by simp) fun _ hgood => hgood
  block hspells := (Rule.block_gives h hframed hspells).imp (by simp) fun _ hgood => hgood
  branch hspells hend :=
    (Rule.branch_gives h hframed hspells hend).imp (by simp) fun _ hgood => hgood
  choice hspells := (Rule.choice_gives h hframed hspells).imp (by simp) fun _ hgood => hgood

/-- The level that allows `n` phrases nested in one another reads those that are. -/
theorem allowing_recognises (n : Nat) : (allowing n).Recognises α n := by
  induction n with
  | zero => exact lowest_recognises
  | succ n ih => exact ih.above (allowing_framed n)

end Level

end SourceFront
