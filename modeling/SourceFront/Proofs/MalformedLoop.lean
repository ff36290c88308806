import SourceFront.Proofs.Malformed

/-!
Malformed headers of `for` loops. The semicolons of a header do not end the statement: it goes
on through the brace that closes the body of the loop.
-/

namespace SourceFront

open Rule

namespace Rule

variable {n : Nat} {problem : Problem} {s t : State}

theorem passes_of_for (hfor : s.current.kind = .keyword .for_)
    (h : statement (Level.allowing n) s = .error problem t) :
    ∃ tokens, s.advance.Passes tokens t := by
  have hframed := Level.allowing_framed n
  rw [statement, current_bind, hfor] at h
  refine (Framed.error (.bind (forInit_framed hframed) fun _ => .bind (hframed.expr _ _) fun _ =>
    .bind (.expect _) fun _ => .bind (hframed.expr _ _) fun _ => .bind hframed.block fun _ =>
      .pure _) h).2

theorem passes_of_for_let (hfor : s.current.kind = .keyword .for_)
    (hlet : s.advance.current.kind = .keyword .let_)
    (h : statement (Level.allowing n) s = .error problem t) :
    ∃ tokens, s.advance.advance.Passes tokens t := by
  have hframed := Level.allowing_framed n
  rw [statement, current_bind, hfor] at h
  dsimp only at h
  rw [for_, advance_bind, forInit, bind_apply, isAt_bind, decide_eq_true hlet, if_pos rfl,
    ← bind_apply, binding] at h
  -- What is left is the binding without its keyword, and the rest of the loop.
  refine (Framed.error (.bind (.bind (.bind name_framed fun _ => ?_) fun _ => .pure _) fun _ =>
    .bind (hframed.expr _ _) fun _ => .bind (.expect _) fun _ => .bind (hframed.expr _ _) fun _ =>
      .bind hframed.block fun _ => .pure _) h).2
  exact .bind (typeAnnotation?_framed hframed) fun _ => .bind (.expect _) fun _ =>
    .bind (hframed.expr _ _) fun _ => .bind (.expect _) fun _ => .bind (.spanFrom _) fun _ =>
      .pure _

end Rule

/-- What stands between the keyword of a `for` loop and its body. -/
def Stmt.header {α : Type} (init : ForInit α) (cond step : Expr α) : Phrase α :=
  .concat [init.phrase, cond.whole .beforeBlock, .symbol .semicolon, step.whole .beforeBlock]

/-- Whether the tokens may stand between the keyword of a `for` loop and its body. -/
def Token.IsHeader (tokens : List Token) : Prop :=
  ∃ (init : ForInit Span) (cond step : Expr Span),
    (Stmt.header init cond step).Spelled .plain tokens

theorem Token.IsHeader.balanced {tokens : List Token} (h : IsHeader tokens) : Balanced tokens := by
  obtain ⟨init, cond, step, hspelled⟩ := h
  have hbraced : (Stmt.header init cond step).Braced False :=
    .cons init.braced (.cons (cond.whole_braced .beforeBlock) (.cons (.terminal rfl)
      (.cons (step.whole_braced .beforeBlock) .nil)))
  exact hbraced.closed hspelled

theorem Token.IsHeader.spelled_for {header body : List Token} {start left right : Token}
    (h : IsHeader header) {stmts : List (Stmt Span)}
    (hbody : (Phrase.concat (stmts.map Stmt.phrase)).Spelled .plain body)
    (hstart : start.kind = .keyword .for_) (hleft : left.kind = .symbol .leftBrace)
    (hright : right.kind = .symbol .rightBrace) :
    ∃ stmt : Stmt Span,
      stmt.phrase.Spelled .plain (start :: header ++ (left :: body ++ [right])) := by
  obtain ⟨init, cond, step, front, _, rfl, hinit, middle, _, rfl, hcond, _, back, rfl, hsemicolon,
    hstep⟩ := h
  have hfor : (Phrase.keyword .for_ : Phrase Span).Spelled .plain [start] :=
    Phrase.spelled_terminal (by simp [Orthography.plain, Token.terminal?, hstart])
  have hopen : (Phrase.symbol .leftBrace : Phrase Span).Spelled .plain [left] :=
    Phrase.spelled_terminal (by simp [Orthography.plain, Token.terminal?, hleft])
  have hclose : (Phrase.symbol .rightBrace : Phrase Span).Spelled .plain [right] :=
    Phrase.spelled_terminal (by simp [Orthography.plain, Token.terminal?, hright])
  have hblock : (⟨stmts, start.span⟩ : Block Span).phrase.Spelled .plain
      ([left] ++ (body ++ [right])) := by
    refine Phrase.spelled_node (Phrase.spelled_seq hopen (Phrase.spelled_seq ?_ hclose)) trivial
    rw [Stmt.phrases_eq_map]
    exact Phrase.spelled_gapped rfl hbody
  have hwhole := Phrase.spelled_seq hfor (Phrase.spelled_seq hinit (Phrase.spelled_seq hcond
    (Phrase.spelled_seq hsemicolon (Phrase.spelled_seq hstep hblock))))
  refine ⟨.for_ init cond step ⟨stmts, start.span⟩ start.span, Phrase.spelled_node ?_ trivial⟩
  simp only [List.append_assoc, List.cons_append, List.nil_append] at hwhole ⊢
  exact hwhole

/-- A `for` loop with a body of statements and, before it, valid tokens that are no header. They
close the braces that they open, and but for a `let` in front no keyword among them begins a
statement or an item. -/
structure MalformedLoop (tokens header body : List Token) : Prop where
  written : ∃ start left right, tokens = start :: header ++ (left :: body ++ [right]) ∧
    start.kind = .keyword .for_ ∧ left.kind = .symbol .leftBrace ∧
    right.kind = .symbol .rightBrace
  valid : ∀ token ∈ header, token.kind ≠ .invalid
  balanced : Balanced header
  head : ∀ token ∈ header.head?, token.kind = .keyword .let_ ∨
    token.kind.beginsItemOnly = false ∧ token.kind.beginsStatement = false
  tail : ∀ token ∈ header.tail,
    token.kind.beginsItemOnly = false ∧ token.kind.beginsStatement = false
  stmts : ∃ stmts : List (Stmt Span), (Phrase.concat (stmts.map Stmt.phrase)).Spelled .plain body
  refuted : ¬ Token.IsHeader header

/-- A malformed loop within which the rule for a statement fails at the level `n`. No beginning of
the header is one that a brace follows, and behind the place of the failure no closing brace is
left in the header. -/
structure MalformedLoop.Caught (n : Nat) (tokens header body : List Token) : Prop
    extends MalformedLoop tokens header body where
  late : ∀ front token back, header = front ++ token :: back →
    token.kind = .symbol .leftBrace → ¬ Token.IsHeader front
  within : (Level.allowing n).unread tokens ≠ []
  closed : ∀ token ∈ ((Level.allowing n).unread tokens).take
    (((Level.allowing n).unread tokens).length - (body.length + 2)),
    token.kind ≠ .symbol .rightBrace

namespace MalformedLoop

variable {tokens header body : List Token} {n : Nat}

theorem body_balanced (h : MalformedLoop tokens header body) : Balanced body := by
  obtain ⟨stmts, hspelled⟩ := h.stmts
  have hbraced : (Phrase.concat (stmts.map Stmt.phrase)).Braced True := by
    refine .concat fun p hmem => ?_
    obtain ⟨stmt, -, rfl⟩ := List.mem_map.mp hmem
    exact stmt.braced
  exact hbraced.closed hspelled

theorem kind_ne_invalid (h : MalformedLoop tokens header body) :
    ∀ token ∈ tokens, token.kind ≠ .invalid := by
  obtain ⟨start, left, right, rfl, hstart, hleft, hright⟩ := h.written
  obtain ⟨stmts, hspelled⟩ := h.stmts
  have hbody := hspelled.kind_ne_invalid
  simp only [List.cons_append, List.mem_cons, List.mem_append, List.not_mem_nil, or_false]
  rintro token (rfl | hmem | rfl | hmem | rfl)
  · simp [hstart]
  · exact h.valid token hmem
  · simp [hleft]
  · exact hbody token hmem
  · simp [hright]

theorem ofTokens_ahead (h : MalformedLoop tokens header body) :
    (State.ofTokens tokens).ahead = tokens ∧ (State.ofTokens tokens).problems = [] := by
  obtain ⟨start, left, right, htokens, -, -, hright⟩ := h.written
  have hends : tokens = (start :: header ++ left :: body) ++ [right] := by simp [htokens]
  refine State.ofTokens_ahead ?_
  rw [hends, List.getLast?_concat]
  simp [Token.isEof, hright]

theorem of_rejects (n : Nat) {start left right : Token}
    (hwritten : tokens = start :: header ++ (left :: body ++ [right]) ∧
      start.kind = .keyword .for_ ∧ left.kind = .symbol .leftBrace ∧
      right.kind = .symbol .rightBrace)
    (h : (Level.allowing n).rejects tokens = true ∧
      (∀ token ∈ header, token.kind ≠ .invalid) ∧ Balanced header ∧
      (∀ token ∈ header.head?, token.kind = .keyword .let_ ∨
        token.kind.beginsItemOnly = false ∧ token.kind.beginsStatement = false) ∧
      ∀ token ∈ header.tail,
        token.kind.beginsItemOnly = false ∧ token.kind.beginsStatement = false)
    {stmts : List (Stmt Span)}
    (hbody : (Phrase.concat (stmts.map Stmt.phrase)).Spelled .plain body) :
    MalformedLoop tokens header body := by
  obtain ⟨hrejects, hvalid, hbalanced, hhead, htail⟩ := h
  refine ⟨⟨start, left, right, hwritten⟩, hvalid, hbalanced, hhead, htail, ⟨stmts, hbody⟩,
    fun hheader => ?_⟩
  obtain ⟨rfl, hstart, hleft, hright⟩ := hwritten
  obtain ⟨stmt, hspelled⟩ := hheader.spelled_for hbody hstart hleft hright
  exact Stmt.not_spelled_of_rejects hrejects stmt hspelled

theorem header_early (h : MalformedLoop tokens header body) {start token : Token}
    {front rest : List Token} (htokens : tokens = start :: front ++ token :: rest)
    (htoken : token.kind = .symbol .leftBrace) (hheader : Token.IsHeader front) :
    ∃ back, header = front ++ token :: back := by
  obtain ⟨start', left, right, htokens', -, hleft, hright⟩ := h.written
  have hrest : header ++ (left :: body ++ [right]) = front ++ token :: rest := by
    rw [htokens', List.cons_append, List.cons_append] at htokens
    exact (List.cons.inj htokens).2
  rcases List.append_eq_append_iff.mp hrest with ⟨middle, rfl, hmiddle⟩ | ⟨middle, rfl, hmiddle⟩
  · cases middle with
    | nil => exact absurd (by simpa using hheader) h.refuted
    | cons other middle =>
        -- The header would close the brace that opens the body, but the body does not.
        obtain ⟨rfl, hinner⟩ := List.cons.inj hmiddle
        have hclosed := hheader.balanced.foldl_braces 0
        rw [List.foldl_append, h.balanced.foldl_braces, List.foldl_cons,
          Token.braces_left hleft, Nat.zero_add] at hclosed
        have hbody : ∃ back, body = middle ++ back := by
          rcases List.append_eq_append_iff.mp hinner with ⟨back, -, hback⟩ | ⟨back, hback, -⟩
          · cases back with
            | nil =>
                obtain ⟨rfl, -⟩ := List.cons.inj hback
                exact absurd (htoken.symm.trans hright) (by simp)
            | cons => simp at hback
          · exact ⟨back, hback⟩
        obtain ⟨back, hback⟩ := hbody
        have := Balanced.le_foldl (hback ▸ h.body_balanced) 1
        omega
  · cases middle with
    | nil => exact absurd (by simpa using hheader) h.refuted
    | cons other middle =>
        obtain ⟨rfl, -⟩ := List.cons.inj hmiddle
        exact ⟨middle, rfl⟩

/-- Alone, such a loop is no statement: the rule fails at one of its tokens, if it is not
misled by a brace in the header. -/
theorem exists_fails (h : MalformedLoop tokens header body) (n : Nat)
    (hearly : ∀ front token back, header = front ++ token :: back →
      token.kind = .symbol .leftBrace → ¬ Token.IsHeader front) :
    ∃ problem t, (statement (Level.allowing n)).Fails problem (State.ofTokens tokens) t := by
  obtain ⟨halone, hquiet⟩ := h.ofTokens_ahead
  generalize State.ofTokens tokens = alone at halone hquiet
  obtain ⟨start, left, right, htokens, hstart, -, -⟩ := h.written
  have hcurrent : alone.current = start := State.current_of_ahead (halone.trans htokens)
  have hconfined := Level.allowing_confined n
  have hexprs : (Level.allowing n).DerivesExprs False := (Level.allowing_derivesStmts n).exprs
  have hfor (problems : List Problem) : statement (Level.allowing n) (alone.noting problems) =
      for_ (Level.allowing n) (alone.noting problems) := by
    have hkind : (alone.noting problems).current.kind = .keyword .for_ := by
      rw [← hstart, ← hcurrent]
      rfl
    rw [statement, current_bind, hkind]
  have hfails : ∃ problem t, (for_ (Level.allowing n)).Fails problem alone t := by
    have hsemicolon : alone.current.kind ≠ .symbol .semicolon := by simp [hcurrent, hstart]
    refine Fails.bind (.advance_apply hsemicolon) fun _ u hadvance _ => ?_
    cases hadvance
    refine Fails.bind (forInit_confined hconfined _) fun init v hinit _ => ?_
    refine Fails.bind (hconfined.expr _ _ v) fun cond w hcond _ => ?_
    refine Fails.bind (.semicolon w) fun _ x hexpect _ => ?_
    refine Fails.bind (hconfined.expr _ _ x) fun step y hstep _ => ?_
    refine (block_refused n fun hbrace => ?_).fails _
    obtain ⟨front, hfront, hinit'⟩ := forInit_derives hexprs hinit
    obtain ⟨middle, hmiddle, hcond'⟩ := condition_derives hexprs hcond
    obtain ⟨back, hback, hstep'⟩ := condition_derives hexprs hstep
    obtain ⟨hkind, rfl, rfl⟩ := expect_eq_ok.mp hexpect
    have hreads := hfront.trans (hmiddle.trans ((State.reads_symbol hkind).trans hback))
    have hspelled := Phrase.spelled_seq hinit' (Phrase.spelled_seq hcond' (Phrase.spelled_seq
      (Phrase.derives_symbol hkind) hstep'))
    generalize front ++ (middle ++ ([w.current] ++ back)) = read at hreads hspelled
    obtain ⟨more, hmore⟩ := State.ahead_of_current (s := y) (by simp [hbrace])
    have hwritten : tokens = start :: read ++ y.current :: more := by
      rw [List.cons_append, ← hmore, ← hreads.ahead, State.advance, halone, htokens]
      rfl
    have hheader : Token.IsHeader read := by
      refine ⟨init, cond, step, Phrase.Derives.plain hspelled fun token hmem => ?_⟩
      exact h.kind_ne_invalid token (by simp [hwritten, hmem])
    obtain ⟨back, hback⟩ := h.header_early hwritten hbrace hheader
    exact hearly read y.current back hback hbrace hheader
  obtain ⟨problem, t, hreads, hrun⟩ := hfails
  exact ⟨problem, t, hreads, fun problems => (hfor problems).trans (hrun problems)⟩

theorem statementRest_header (h : MalformedLoop tokens header body) {left right : Token}
    {front back : List Token} (hleft : left.kind = .symbol .leftBrace)
    (hright : right.kind = .symbol .rightBrace) (hheader : header = front ++ back)
    (hbraces : Token.Unbraced back) (hgoes : ∀ token ∈ header, token.kind ≠ .eof)
    (hkeyword : ∀ token ∈ back,
      token.kind.beginsItemOnly = false ∧ token.kind.beginsStatement = false)
    (rest : List Token) :
    statementRest true 0 false (back ++ (left :: body ++ [right]) ++ rest) =
      (back ++ (left :: body ++ [right])).length := by
  have hbody : statementRest true 0 false (left :: (body ++ right :: rest)) = body.length + 2 := by
    have hclose : statementRest true 1 false (right :: rest) = 1 := by
      simp [statementRest, hright]
    simp only [statementRest, hleft]
    rw [h.body_balanced.statementRest true 0, hclose]
    omega
  rw [List.append_assoc, List.append_assoc, List.cons_append, List.singleton_append,
    statementRest_of_unbraced _ hbraces (fun token hmem => hgoes token (by simp [hheader, hmem]))
      (fun _ _ _ => rfl) hkeyword, hbody]
  simp only [List.length_append, List.length_cons, List.length_nil]

theorem statementRest_body (h : MalformedLoop tokens header body) {right : Token}
    {front back : List Token} (hright : right.kind = .symbol .rightBrace)
    (hbody : body = front ++ back) (hgoes : ∀ token ∈ body, token.kind ≠ .eof)
    (rest : List Token) :
    statementRest true (front.foldl Token.braces 1) false (back ++ right :: rest) =
      back.length + 1 := by
  have hclose : statementRest true 1 false (right :: rest) = 1 := by
    simp [statementRest, hright]
  have hwhole := h.body_balanced.statementRest true 0 (right :: rest)
  have hopen : ∀ begun, begun <+: front → 0 < begun.foldl Token.braces 1 := by
    rintro begun ⟨more, rfl⟩
    have hcut : Balanced (begun ++ (more ++ back)) := by
      rw [← List.append_assoc, ← hbody]
      exact h.body_balanced
    exact hcut.le_foldl 1
  rw [hbody, List.append_assoc, statementRest_of_open
    (fun token hmem => hgoes token (by simp [hbody, hmem])) hopen, hclose,
    List.length_append] at hwhole
  omega

/-- Wherever the rule fails within such a loop, with no closing brace of the header left, the
statement goes on through the brace that closes the body. -/
theorem statementRest_left (h : MalformedLoop tokens header body) {left right : Token}
    {passed unread : List Token} (hleft : left.kind = .symbol .leftBrace)
    (hright : right.kind = .symbol .rightBrace)
    (hrest : header ++ (left :: body ++ [right]) = passed ++ unread) (hunread : unread ≠ [])
    (hclosed : ∀ token ∈ unread.take (unread.length - (body.length + 2)),
      token.kind ≠ .symbol .rightBrace)
    (hgoes : ∀ token, token ∈ header ∨ token ∈ body → token.kind ≠ .eof)
    (hkeyword : ∀ back, header = passed ++ back → ∀ token ∈ back,
      token.kind.beginsItemOnly = false ∧ token.kind.beginsStatement = false)
    (rest : List Token) :
    statementRest true (passed.foldl Token.braces 0) false (unread ++ rest) = unread.length := by
  -- The rule fails in the header, or at the brace behind it.
  have hheader (back : List Token) (hback : header = passed ++ back)
      (hleft' : unread = back ++ (left :: body ++ [right])) :
      statementRest true (passed.foldl Token.braces 0) false (unread ++ rest) =
        unread.length := by
    have hcount : unread.length - (body.length + 2) = back.length := by simp [hleft']
    rw [hcount, hleft', List.take_left] at hclosed
    obtain ⟨hnone, hunbraced⟩ := Balanced.unbraced_of_unclosed (hback ▸ h.balanced) hclosed
    rw [← openBraces_eq, hnone, hleft']
    exact h.statementRest_header hleft hright hback hunbraced
      (fun token hmem => hgoes token (.inl hmem)) (hkeyword back hback) rest
  rcases List.append_eq_append_iff.mp hrest with ⟨middle, hmiddle, htail⟩ | ⟨back, hback, hleft'⟩
  · cases middle with
    | nil => exact hheader [] (by simpa using hmiddle.symm) htail.symm
    | cons other middle =>
        obtain ⟨rfl, hinner⟩ := List.cons.inj htail
        obtain ⟨back, last, rfl⟩ := (List.eq_nil_or_concat' unread).resolve_left hunread
        obtain ⟨hbody, rfl⟩ : body = middle ++ back ∧ right = last := by
          have hinner' : body ++ [right] = (middle ++ back) ++ [last] := by
            rw [List.append_assoc]
            exact hinner
          simpa using List.append_inj' hinner' rfl
        rw [hmiddle, List.foldl_append, h.balanced.foldl_braces, List.foldl_cons,
          Token.braces_left hleft, List.append_assoc, List.length_append]
        exact h.statementRest_body hright hbody (fun token hmem => hgoes token (.inr hmem)) rest
  · exact hheader back hback hleft'

theorem kind_of_left (h : MalformedLoop tokens header body) {problem : Problem} {t : State}
    {read back : List Token}
    (hfails : (statement (Level.allowing n)).Fails problem (State.ofTokens tokens) t)
    (hheader : header = read ++ back)
    (hpasses : (State.ofTokens tokens).advance.Passes read t) :
    ∀ token ∈ back, token.kind.beginsItemOnly = false ∧ token.kind.beginsStatement = false := by
  intro token hmem
  obtain ⟨halone, hquiet⟩ := h.ofTokens_ahead
  obtain ⟨start, left, right, htokens, hstart, -, -⟩ := h.written
  cases read with
  | cons first read => exact h.tail token (by simp [hheader, hmem])
  | nil =>
      obtain rfl : header = back := hheader
      obtain ⟨first, others, rfl⟩ := List.exists_cons_of_ne_nil (List.ne_nil_of_mem hmem)
      rcases List.mem_cons.mp hmem with rfl | hmem
      · refine (h.head token rfl).resolve_left fun hlet => ?_
        have hahead : (State.ofTokens tokens).advance.ahead =
            token :: (others ++ (left :: body ++ [right])) := by
          rw [State.advance, halone, htokens]
          rfl
        have hkind : (State.ofTokens tokens).current.kind = .keyword .for_ := by
          rw [State.current_of_ahead (halone.trans htokens), hstart]
        obtain ⟨more, hmore⟩ := passes_of_for_let hkind
          (by rw [State.current_of_ahead hahead, hlet]) hfails.eq_error
        have hlength := hmore.length_le
        have hsame : t.ahead = _ := hpasses.ahead.symm
        have hlt := (State.reads_advance_of_ahead hahead).length_lt (by simp)
        rw [hsame] at hlength
        omega
      · exact h.tail token hmem

/-- A `for` loop with a malformed header is given up if it is caught. -/
theorem Caught.givesUp (h : Caught n tokens header body) : (Level.allowing n).GivesUp tokens := by
  obtain ⟨h, hearly, hunread, hclosed⟩ := h
  obtain ⟨halone, hquiet⟩ := h.ofTokens_ahead
  obtain ⟨start, left, right, htokens, hstart, hleft, hright⟩ := h.written
  obtain ⟨problem, t, hfails⟩ := h.exists_fails n hearly
  rw [hfails.unread_eq] at hunread hclosed
  have hcurrent : (State.ofTokens tokens).current = start :=
    State.current_of_ahead (halone.trans htokens)
  have hfirst : tokens.head? = some start := by simp [htokens]
  have hitem : start.kind.beginsItemOnly = false := by
    rw [hstart]
    rfl
  refine Level.givesUp_of_fails hfails halone hfirst (by simp [hstart]) hitem (by simp [hstart])
    h.kind_ne_invalid hunread fun read rest hread hgoes => ?_
  obtain ⟨passed, hpassed⟩ := passes_of_for (by rw [hcurrent, hstart]) hfails.eq_error
  have hrest : header ++ (left :: body ++ [right]) = passed ++ t.ahead := by
    rw [← hpassed.ahead, State.advance, halone, htokens]
    rfl
  obtain rfl : read = start :: passed := by
    rw [htokens, List.cons_append, hrest, ← List.cons_append] at hread
    exact (List.append_cancel_right hread).symm
  have hopen : openBraces (start :: passed) = passed.foldl Token.braces 0 := by
    rw [openBraces_eq, List.foldl_cons, Token.braces, hstart]
  rw [hopen, hstart, decide_eq_true rfl, List.isEmpty_cons]
  refine h.statementRest_left hleft hright hrest hunread hclosed (fun token hmem => ?_)
    (fun back hback => h.kind_of_left hfails hback hpassed) rest
  refine hgoes token ?_
  rw [htokens]
  simp only [List.cons_append, List.mem_cons, List.mem_append]
  tauto

end MalformedLoop

end SourceFront
