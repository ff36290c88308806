import SourceFront.Proofs.Balance
import SourceFront.Proofs.Confinement
import SourceFront.Proofs.Derivation.Statement
import SourceFront.Proofs.Isolation

/-!
Malformed statements in a block. The rule for a statement fails at one of their tokens, and
the rest of them is passed over.
-/

namespace SourceFront

theorem State.skip_eq (n : Nat) (s : State) :
    s.skip n = ⟨(s.skip n).last, s.ahead.drop n, s.stop, s.problems⟩ :=
  calc s.skip n = ⟨(s.skip n).last, (s.skip n).ahead, (s.skip n).stop, (s.skip n).problems⟩ := rfl
    _ = _ := by rw [skip_ahead, skip_stop, skip_problems]

namespace Rule

variable {α β : Type} {level : Level} {problem : Problem} {s t : State} {rest : List Token}

theorem advance_forgets : advance.Forgets := by
  intro s last hne
  left
  rw [advance_apply, advance_apply, advance_last hne]
  rfl

theorem expect_forgets (symbol : Symbol) : (expect symbol).Forgets :=
  .isAt fun _ => .ite advance_forgets (.refuse _)

theorem name_forgets : name.Forgets := by
  refine .current fun token => ?_
  split
  · exact .advance _
  · exact .refuse _

theorem primary_forgets (place : Place) : (primary level place).Forgets := by
  refine .current fun token => ?_
  generalize token.kind = kind
  cases kind with
  | number | string | char => exact .advance _
  | ident => exact .bind name_forgets _
  | keyword word =>
      cases word with
      | true_ | false_ | null | sizeof => exact .advance _
      | _ => exact .refuse _
  | symbol sign =>
      cases sign with
      | leftParen | leftBracket => exact .advance _
      | _ => exact .refuse _
  | _ => exact .refuse _

theorem operand_forgets (place : Place) : (operand level place).Forgets := by
  refine .current fun token => ?_
  split
  · exact .advance _
  · exact .bind (primary_forgets place) _

theorem freeExpr_forgets (n : Nat) : (Level.allowing n).freeExpr.Forgets := by
  cases n with
  | zero => exact .refuse _
  | succ n => exact .bind (operand_forgets .free) _

theorem block_forgets (n : Nat) : (Level.allowing n).block.Forgets := by
  cases n with
  | zero => exact .refuse _
  | succ n => exact .bind (expect_forgets .leftBrace) _

theorem statement_forgets (n : Nat) : (statement (Level.allowing n)).Forgets := by
  refine .current fun token => ?_
  split
  case h_3 => exact .bind (block_forgets n) _
  case h_12 => exact .bind (freeExpr_forgets n) _
  case h_6 | h_7 | h_8 => exact .advance _
  all_goals exact .bind (.advance _) _

/-- From `s` the rule fails with the problem at `t`. Nothing is reported before, and what was
reported before makes no difference. -/
structure Fails (rule : Rule α) (problem : Problem) (s t : State) : Prop where
  reads : ∃ tokens, s.Reads tokens t
  run : ∀ problems, rule (s.noting problems) = .error problem (t.noting problems)

theorem Fails.eq_error {rule : Rule α} (h : rule.Fails problem s t) :
    rule s = .error problem t := by
  obtain ⟨tokens, hreads⟩ := h.reads
  calc rule s = .error problem (t.noting s.problems) := h.run s.problems
    _ = .error problem t := by rw [← hreads.quiet]; rfl

/-- What is reported where the rule for a statement fails on some tokens, it reports there also
if more tokens follow them, whatever stands in front. -/
theorem Fails.anywhere {n : Nat} {alone : State}
    (h : (statement (Level.allowing n)).Fails problem alone t) (hne : t.ahead ≠ [])
    (hahead : s.ahead = alone.ahead ++ rest) :
    ∃ last, statement (Level.allowing n) s =
      .error problem ⟨last, t.ahead ++ rest, s.stop, s.problems⟩ := by
  have hextend := (statement_framed (Level.allowing_framed n)).extend_error (h.run s.problems) hne
    rest s.stop
  obtain ⟨tokens, hreads⟩ := h.reads
  have hs : { (alone.noting s.problems).extend rest s.stop with last := s.last } = s := by
    simp only [State.extend, State.noting, ← hahead]
  rcases statement_forgets n ((alone.noting s.problems).extend rest s.stop) s.last
    (List.append_ne_nil_of_left_ne_nil (hreads.toPasses.ahead_ne_nil hne) rest) with
    hsame | ⟨problem', hfails, hfails'⟩
  · rw [hs, hextend] at hsame
    exact ⟨_, hsame⟩
  · rw [hextend] at hfails
    injection hfails with hproblem hstate
    rw [hs, ← hproblem] at hfails'
    refine ⟨s.last, hfails'.trans ?_⟩
    have hend : t.ahead ++ rest = s.ahead := by
      simpa [State.extend, State.noting, hahead] using congrArg State.ahead hstate
    rw [hend]

theorem Fails.bind {full : Bool} {rule : Rule α} {next : α → Rule β} (hrule : Confined full rule s)
    (hnext : ∀ value t, rule s = .ok value t → (∃ tokens, s.Reads tokens t) →
      ∃ problem u, (next value).Fails problem t u) :
    ∃ problem u, (rule >>= next).Fails problem s u := by
  cases hrun : rule s with
  | error problem t =>
      obtain ⟨⟨tokens, hreads, -⟩, hnoting⟩ := hrule.error hrun
      exact ⟨problem, t, ⟨tokens, hreads⟩, fun problems => bind_of_error (hnoting problems) _⟩
  | ok value t =>
      obtain ⟨⟨front, hfront, -⟩, hnoting⟩ := hrule.ok hrun
      obtain ⟨problem, u, ⟨back, hback⟩, hfails⟩ := hnext value t hrun ⟨front, hfront⟩
      refine ⟨problem, u, ⟨_, hfront.trans hback⟩, fun problems => ?_⟩
      rw [bind_of_ok (hnoting problems)]
      exact hfails problems

theorem IsRefused.fails {rule : Rule α} (h : rule.IsRefused s) (next : α → Rule β) :
    ∃ problem t, (rule >>= next).Fails problem s t := by
  obtain ⟨problem, hrefused⟩ := h
  exact ⟨problem, s, ⟨[], .refl s⟩, fun problems => bind_of_error (hrefused problems) _⟩

end Rule

open Rule

/-- What is left of the tokens where the rule for a statement ends or fails, if it reads them
alone. -/
def Level.unread (level : Level) (tokens : List Token) : List Token :=
  match statement level (State.ofTokens tokens) with
  | .ok _ t | .error _ t => t.ahead

theorem Rule.Fails.unread_eq {level : Level} {tokens : List Token} {problem : Problem} {t : State}
    (h : (statement level).Fails problem (State.ofTokens tokens) t) :
    level.unread tokens = t.ahead := by
  rw [Level.unread, h.eq_error]

/-- The tokens are passed over as one statement that is malformed, wherever in a block they
stand, and one problem of one of them is left. -/
structure Level.GivesUp (level : Level) (tokens : List Token) : Prop where
  head : ∃ token ∈ tokens.head?, token.kind ≠ .keyword .else_
  round : ∀ {s : State} {rest : List Token}, s.ahead = tokens ++ rest → s.Orderly →
    ∃ problem last, (∃ token ∈ tokens, problem.span = token.span) ∧
      ∀ read, blockRound level read s =
        .ok (.more read) ⟨last, rest, s.stop, s.problems ++ [problem]⟩

/-- One problem of one of the tokens is left, but a closing brace before the last of them is taken
for the end of the statement: what stands behind the brace is read as statements of their own. -/
def Level.StopsShort (level : Level) (tokens : List Token) : Prop :=
  ∀ {s : State} {rest : List Token}, s.ahead = tokens ++ rest → s.Orderly →
    ∃ front close back problem last, tokens = front ++ close :: back ∧
      close.kind = .symbol .rightBrace ∧ back ≠ [] ∧
      (∃ token ∈ tokens, problem.span = token.span) ∧
      ∀ read, blockRound level read s =
        .ok (.more read) ⟨last, back ++ rest, s.stop, s.problems ++ [problem]⟩

theorem Rule.Fails.span_eq {n : Nat} {problem : Problem} {s t : State} {token : Token}
    {left : List Token} (h : (statement (Level.allowing n)).Fails problem s t)
    (hcons : t.ahead = token :: left) : problem.span = token.span := by
  have herror := (statement_framed (Level.allowing_framed n)).error (h.run [])
  rw [herror.1]
  exact congrArg Token.span (State.current_of_ahead hcons)

theorem Level.recover_of_fails {n count : Nat} {tokens rest : List Token} {problem : Problem}
    {alone s t : State} (hfails : (statement (allowing n)).Fails problem alone t)
    (halone : alone.ahead = tokens) (hvalid : ∀ token ∈ tokens, token.kind ≠ .invalid)
    (hleft : t.ahead ≠ []) (hahead : s.ahead = tokens ++ rest)
    (hfresh : ∀ earlier ∈ s.problems, earlier.start < problem.start)
    (hcount : ∀ read, tokens = read ++ t.ahead → statementRest (s.current.kind = .keyword .for_)
      (openBraces read) read.isEmpty (t.ahead ++ rest) = count) :
    ∃ last, recover (statement (allowing n)) State.skipStatement s =
      .ok none ⟨last, (t.ahead ++ rest).drop count, s.stop, s.problems ++ [problem]⟩ := by
  obtain ⟨last, hrun⟩ := hfails.anywhere hleft (hahead.trans (by rw [halone]))
  obtain ⟨read, hreads⟩ := hfails.reads
  have htokens : tokens = read ++ t.ahead := halone ▸ hreads.ahead
  obtain ⟨token, left, hcons⟩ := List.exists_cons_of_ne_nil hleft
  generalize hu : (⟨last, t.ahead ++ rest, s.stop, s.problems⟩ : State) = u at hrun
  have hpasses : ∃ passed, s.Passes passed u :=
    ((statement_framed (allowing_framed n)).error hrun).2
  obtain ⟨passed, hpassed⟩ := hpasses
  obtain rfl : passed = read := by
    have hsame := hpassed.ahead
    rw [← hu, hahead, htokens, List.append_assoc] at hsame
    exact (List.append_cancel_right hsame).symm
  have hreport : u.report problem = u.noting (s.problems ++ [problem]) := by
    have huproblems : u.problems = s.problems := by rw [← hu]
    have hucurrent : u.current = token := by
      rw [← hu]
      exact State.current_of_ahead
        (show t.ahead ++ rest = token :: (left ++ rest) by rw [hcons]; rfl)
    have hvalid' : u.current.kind ≠ .invalid :=
      hucurrent ▸ hvalid token (by simp [htokens, hcons])
    rw [← huproblems] at hfresh ⊢
    exact State.report_of_fresh hvalid' hfresh
  have hahead' : (u.noting (s.problems ++ [problem])).ahead = t.ahead ++ rest := by rw [← hu]; rfl
  have hskip : State.skipStatement s (u.noting (s.problems ++ [problem])) =
      (u.noting (s.problems ++ [problem])).skip count := by
    have hread : State.readSince s (u.noting (s.problems ++ [problem])) = passed :=
      show State.readSince s u = passed from State.readSince_of_passes hpassed
    rw [State.skipStatement, hread, hahead', hcount passed htokens]
  refine ⟨((u.noting (s.problems ++ [problem])).skip count).last, ?_⟩
  rw [recover, hrun]
  dsimp only
  rw [hreport, hskip, State.skip_eq, hahead', ← hu]
  rfl

theorem Rule.blockRound_of_recover {level : Level} {found : Option (Stmt Span)} {s t : State}
    (hends : endsBlock s.current = false)
    (h : recover (statement level) State.skipStatement s = .ok found t)
    (read : List (Stmt Span)) :
    blockRound level read s = .ok (.more (read ++ found.toList)) t := by
  rw [blockRound, current_bind, hends, if_neg Bool.false_ne_true, bind_of_ok h, pure_apply]

theorem Level.round_of_fails {n count : Nat} {tokens rest : List Token} {first : Token}
    {problem : Problem} {alone s t : State}
    (hfails : (statement (allowing n)).Fails problem alone t)
    (halone : alone.ahead = tokens) (hfirst : tokens.head? = some first)
    (hright : first.kind ≠ .symbol .rightBrace) (hitem : first.kind.beginsItemOnly = false)
    (hvalid : ∀ token ∈ tokens, token.kind ≠ .invalid) (hleft : t.ahead ≠ [])
    (hahead : s.ahead = tokens ++ rest) (horderly : s.Orderly)
    (hcount : ∀ read, tokens = read ++ t.ahead → statementRest (first.kind = .keyword .for_)
      (openBraces read) read.isEmpty (t.ahead ++ rest) = count) :
    ∃ last, (∃ token ∈ t.ahead.head?, problem.span = token.span) ∧
      ∀ read, blockRound (allowing n) read s =
        .ok (.more read) ⟨last, (t.ahead ++ rest).drop count, s.stop, s.problems ++ [problem]⟩ := by
  have hfirst' : s.current = first := by
    obtain ⟨others, rfl⟩ := List.head?_eq_some_iff.mp hfirst
    exact State.current_of_ahead hahead
  have hends : endsBlock first = false := by
    have hgoes := horderly.goes first (by simp [hahead, List.mem_of_mem_head? hfirst])
    simp [endsBlock, Token.isEof, hgoes, hright, hitem]
  obtain ⟨token, left, hcons⟩ := List.exists_cons_of_ne_nil hleft
  have hspan := hfails.span_eq hcons
  obtain ⟨read, hreads⟩ := hfails.reads
  have hmem : token ∈ s.ahead := by
    rw [hahead, ← halone, hreads.ahead, hcons]
    simp
  obtain ⟨last, hrecover⟩ := recover_of_fails hfails halone hvalid hleft hahead
    (horderly.fresh hmem hspan) (hfirst' ▸ hcount)
  refine ⟨last, ⟨token, by simp [hcons], hspan⟩, fun read => ?_⟩
  rw [blockRound_of_recover (hfirst'.symm ▸ hends) hrecover, Option.toList_none, List.append_nil]

/-- Where the rule for a statement fails among the tokens, and the rest of the statement is what
is left of them, they are given up. -/
theorem Level.givesUp_of_fails {n : Nat} {tokens : List Token} {first : Token} {problem : Problem}
    {alone t : State} (hfails : (statement (allowing n)).Fails problem alone t)
    (halone : alone.ahead = tokens) (hfirst : tokens.head? = some first)
    (hright : first.kind ≠ .symbol .rightBrace) (hitem : first.kind.beginsItemOnly = false)
    (helse : first.kind ≠ .keyword .else_)
    (hvalid : ∀ token ∈ tokens, token.kind ≠ .invalid) (hleft : t.ahead ≠ [])
    (hrest : ∀ read rest, tokens = read ++ t.ahead → (∀ token ∈ tokens, token.kind ≠ .eof) →
      statementRest (first.kind = .keyword .for_) (openBraces read) read.isEmpty
        (t.ahead ++ rest) = t.ahead.length) :
    (allowing n).GivesUp tokens where
  head := ⟨first, hfirst, helse⟩
  round := by
    intro s rest hahead horderly
    have hgoes : ∀ token ∈ tokens, token.kind ≠ .eof := fun token hmem =>
      horderly.goes token (by simp [hahead, hmem])
    obtain ⟨last, ⟨token, hmem, hspan⟩, hround⟩ := round_of_fails hfails halone hfirst hright hitem
      hvalid hleft hahead horderly fun read hread => hrest read rest hread hgoes
    rw [List.drop_left] at hround
    obtain ⟨read, hreads⟩ := hfails.reads
    refine ⟨problem, last, ⟨token, ?_, hspan⟩, hround⟩
    rw [← halone, hreads.ahead]
    exact List.mem_append_right read (List.mem_of_mem_head? hmem)

theorem Phrase.Derives.plain {p : Phrase Span} {tokens : List Token} (h : p.Derives False tokens)
    (hvalid : ∀ token ∈ tokens, token.kind ≠ .invalid) : p.Spelled .plain tokens := by
  refine h.imp (fun _ _ _ htoken => htoken) (fun _ _ _ _ => trivial) fun part hpart hgap => ?_
  rcases hgap with rfl | hfalse | ⟨token, hmem, hkind⟩
  · rfl
  · exact hfalse.elim
  · exact absurd hkind (hvalid token (hpart.subset hmem))

theorem Token.Inline.eq_of_append {front front' rest rest' : List Token} {token token' : Token}
    (h : Inline front) (h' : Inline front') (htoken : token.kind = .symbol .semicolon)
    (htoken' : token'.kind = .symbol .semicolon)
    (heq : front ++ token :: rest = front' ++ token' :: rest') :
    front = front' ∧ token = token' ∧ rest = rest' := by
  rcases List.append_eq_append_iff.mp heq with ⟨middle, rfl, hmiddle⟩ | ⟨middle, rfl, hmiddle⟩ <;>
    cases middle with
    | nil => simpa [eq_comm] using hmiddle
    | cons other middle =>
        obtain ⟨rfl, -⟩ := List.cons.inj hmiddle
        first
          | exact absurd htoken (h' _ (by simp))
          | exact absurd htoken' (h _ (by simp))

/-- Whether the rule for a statement does not read the tokens to their end, for another reason
than their nesting. -/
def Level.rejects (level : Level) (tokens : List Token) : Bool :=
  match statement level (State.ofTokens tokens) with
  | .ok _ t => t.problems.isEmpty && !t.ahead.isEmpty
  | .error problem t => t.problems.isEmpty && problem.cause ≠ .nestingTooDeep Level.limit

theorem Stmt.not_spelled_of_rejects {α : Type} {n : Nat} {tokens : List Token}
    (h : (Level.allowing n).rejects tokens = true) (stmt : Stmt α) :
    ¬ stmt.phrase.Spelled .plain tokens := by
  intro hspelled
  have hends : ∀ token ∈ tokens.getLast?, token.isEof = false := by
    intro token hlast
    obtain ⟨a, hterminal⟩ := hspelled.exists_terminal (fun _ hgap => hgap) token
      (List.mem_of_getLast? hlast)
    rw [Token.isEof, Token.kind_of_terminal? hterminal]
    cases a <;> rfl
  obtain ⟨halone, hquiet⟩ := State.ofTokens_ahead hends
  rw [Level.rejects] at h
  generalize State.ofTokens tokens = alone at h halone hquiet
  have hclean : alone.Clean := ⟨hquiet, halone ▸ hspelled.kind_ne_invalid⟩
  have hbetween := Phrase.between_of_spelled hspelled
    (halone.trans (List.append_nil tokens).symm) hclean
  have hend : (alone.skip tokens.length).current.kind ≠ .keyword .else_ := by
    rw [State.current, State.skip_ahead, halone, List.drop_length]
    simp [Token.eof]
  have hgives := statement_gives (Level.allowing_recognises n) (Level.allowing_framed n)
    hbetween hend
  by_cases hfits : stmt.phrase.nesting ≤ n
  · obtain ⟨value, hrun, -⟩ := hgives.ok hfits
    simp [hrun, State.skip_ahead, halone] at h
  · have hrefused := hgives.refused hfits
    cases hrun : statement (Level.allowing n) alone with
    | ok value t =>
        rw [hrun] at h hrefused
        obtain ⟨-, problem, later, hproblems, -⟩ := hrefused
        simp [hproblems] at h
    | error problem t =>
        rw [hrun] at h hrefused
        rcases hrefused with ⟨hcause, -⟩ | ⟨-, problem, later, hproblems, -⟩
        · simp [hcause] at h
        · simp [hproblems] at h

/-- Valid tokens up to a semicolon that spell no statement. Only the first of them may begin a
statement, and it may stand in a block. -/
structure Malformed (tokens : List Token) : Prop where
  ends : ∃ front semicolon, tokens = front ++ [semicolon] ∧ Token.Inline front ∧
    semicolon.kind = .symbol .semicolon
  valid : ∀ token ∈ tokens, token.kind ≠ .invalid
  head : ∀ token ∈ tokens.head?, token.kind.beginsItemOnly = false ∧
    token.kind ≠ .keyword .else_ ∧ token.kind ≠ .keyword .for_
  tail : ∀ token ∈ tokens.tail,
    token.kind.beginsItemOnly = false ∧ token.kind.beginsStatement = false
  refuted : ∀ stmt : Stmt Span, ¬ stmt.phrase.Spelled .plain tokens

/-- A malformed statement that begins with no block and closes the braces it opens. -/
structure MalformedBraced (tokens : List Token) : Prop extends Malformed tokens where
  plain : ∀ token ∈ tokens.head?, token.kind.opensBlock = false
  balanced : Balanced tokens

namespace Malformed

variable {tokens read left : List Token} {alone : State} {n : Nat}

theorem of_rejects (n : Nat) (h : (Level.allowing n).rejects tokens = true ∧
      (∀ token ∈ tokens.dropLast, token.kind ≠ .symbol .semicolon) ∧
      tokens.getLast?.map Token.kind = some (.symbol .semicolon) ∧
      (∀ token ∈ tokens, token.kind ≠ .invalid) ∧
      (∀ token ∈ tokens.head?, token.kind.beginsItemOnly = false ∧
        token.kind ≠ .keyword .else_ ∧ token.kind ≠ .keyword .for_) ∧
      ∀ token ∈ tokens.tail,
        token.kind.beginsItemOnly = false ∧ token.kind.beginsStatement = false) :
    Malformed tokens := by
  obtain ⟨hrejects, hinline, hlast, hvalid, hhead, htail⟩ := h
  obtain ⟨semicolon, hsome, hkind⟩ := Option.map_eq_some_iff.mp hlast
  have hends := (List.dropLast_append_getLast? semicolon hsome).symm
  exact ⟨⟨tokens.dropLast, semicolon, hends, hinline, hkind⟩, hvalid, hhead, htail,
    Stmt.not_spelled_of_rejects hrejects⟩

theorem left_ends (h : Malformed tokens) (htokens : tokens = read ++ left) (hleft : left ≠ []) :
    ∃ front semicolon, left = front ++ [semicolon] ∧ Token.Inline front ∧
      semicolon.kind = .symbol .semicolon := by
  obtain ⟨front, semicolon, hends, hinline, hsemicolon⟩ := h.ends
  obtain ⟨middle, last, rfl⟩ := (List.eq_nil_or_concat' left).resolve_left hleft
  obtain ⟨rfl, rfl⟩ : front = read ++ middle ∧ semicolon = last := by
    rw [htokens, ← List.append_assoc] at hends
    simpa [eq_comm] using List.append_inj' hends rfl
  exact ⟨middle, semicolon, rfl, fun token hmem => hinline token (by simp [hmem]), hsemicolon⟩

theorem left_keywords (h : Malformed tokens) (htokens : tokens = read ++ left) :
    (read.isEmpty = false → ∀ token ∈ left.head?,
      token.kind.beginsItemOnly = false ∧ token.kind.beginsStatement = false) ∧
    ∀ token ∈ left.tail,
      token.kind.beginsItemOnly = false ∧ token.kind.beginsStatement = false := by
  constructor
  · refine fun hread token hmem => h.tail token ?_
    cases read with
    | nil => cases hread
    | cons => simp [htokens, List.mem_of_mem_head? hmem]
  · refine fun token hmem => h.tail token ?_
    cases read <;> simp [htokens, hmem, List.mem_of_mem_tail hmem]

theorem statementRest_left (h : Malformed tokens) (htokens : tokens = read ++ left)
    (hleft : left ≠ []) (hbraces : Token.Unbraced left)
    (hgoes : ∀ token ∈ tokens, token.kind ≠ .eof) (rest : List Token) :
    statementRest false 0 read.isEmpty (left ++ rest) = left.length := by
  obtain ⟨hfirst, hkeyword⟩ := h.left_keywords htokens
  obtain ⟨front, semicolon, rfl, hinline, hsemicolon⟩ := h.left_ends htokens hleft
  replace hgoes : ∀ token ∈ front, token.kind ≠ .eof := fun token hmem =>
    hgoes token (by simp [htokens, hmem])
  have hend : statementRest false 0 false (semicolon :: rest) = 1 := by
    simp [statementRest, hsemicolon]
  rw [List.append_assoc, List.singleton_append]
  cases front with
  | nil => simp [statementRest, hsemicolon]
  | cons token front =>
      obtain ⟨⟨hopen, hclose⟩, hbraces⟩ := List.forall_mem_cons.mp hbraces
      obtain ⟨hline, hinline⟩ := List.forall_mem_cons.mp hinline
      obtain ⟨hgo, hgoes⟩ := List.forall_mem_cons.mp hgoes
      rw [List.cons_append, statementRest_cons _ hgo (fun hkind => absurd hkind hline)
        (absurd · hclose) fun hfresh _ => hfirst hfresh token rfl, Token.braces_other hopen hclose,
        statementRest_of_unbraced _ (fun other hmem => hbraces other (by simp [hmem])) hgoes
          (fun other hmem hkind => absurd hkind (hinline other hmem))
          fun other hmem => hkeyword other (by simp [hmem]), hend]
      simp only [List.length_append, List.length_cons, List.length_nil]
      omega

theorem exists_fails (h : Malformed tokens) (halone : alone.ahead = tokens)
    (hquiet : alone.problems = [])
    (hconfined : Confined true (statement (Level.allowing n)) alone) :
    ∃ problem t, (statement (Level.allowing n)).Fails problem alone t ∧ t.ahead ≠ [] := by
  obtain ⟨front, semicolon, hends, hinline, hsemicolon⟩ := h.ends
  cases hrun : statement (Level.allowing n) alone with
  | error problem t =>
      obtain ⟨⟨read, hreads, hread⟩, hnoting⟩ := hconfined.error hrun
      refine ⟨problem, t, ⟨⟨read, hreads⟩, hnoting⟩, fun hnil => ?_⟩
      obtain rfl : tokens = read := by simpa [halone, hnil] using hreads.ahead
      exact hread semicolon (by simp [hends]) hsemicolon
  | ok value t =>
      obtain ⟨⟨read, hreads, front', semicolon', rfl, hinline', hsemicolon'⟩, -⟩ :=
        hconfined.ok hrun
      have hcut : front ++ semicolon :: [] = front' ++ semicolon' :: t.ahead := by
        rw [← hends, ← halone, hreads.ahead, List.append_assoc, List.singleton_append]
      obtain ⟨hfront, rfl, hnil⟩ := hinline.eq_of_append hinline' hsemicolon hsemicolon' hcut
      have hquiet' : t.problems = [] := hreads.quiet.trans hquiet
      obtain ⟨written, hwritten, hderives⟩ : alone.PassesPhrase False value.phrase t :=
        statement_derives (Level.allowing_derivesStmts n) hrun fun hne => hne hquiet'
      obtain rfl : tokens = written := by simpa [halone, ← hnil] using hwritten.ahead
      exact absurd (hderives.plain h.valid) (h.refuted value)

theorem ofTokens_ahead (h : Malformed tokens) :
    (State.ofTokens tokens).ahead = tokens ∧ (State.ofTokens tokens).problems = [] := by
  obtain ⟨front, semicolon, hends, -, hsemicolon⟩ := h.ends
  exact State.ofTokens_ahead (by simp [hends, Token.isEof, hsemicolon])

theorem head?_eq (h : Malformed tokens) :
    tokens.head? = some (State.ofTokens tokens).current := by
  obtain ⟨front, semicolon, hends, -, -⟩ := h.ends
  obtain ⟨first, others, hcons⟩ := List.exists_cons_of_ne_nil (l := tokens) (by simp [hends])
  rw [State.current_of_ahead (h.ofTokens_ahead.1.trans hcons), hcons, List.head?_cons]

theorem givesUp_of_confined (h : Malformed tokens)
    (hright : (State.ofTokens tokens).current.kind ≠ .symbol .rightBrace)
    (hconfined : Confined true (statement (Level.allowing n)) (State.ofTokens tokens))
    (hrest : ∀ problem t read,
      (statement (Level.allowing n)).Fails problem (State.ofTokens tokens) t →
      tokens = read ++ t.ahead → openBraces read = 0 ∧ Token.Unbraced t.ahead) :
    (Level.allowing n).GivesUp tokens := by
  obtain ⟨halone, hquiet⟩ := h.ofTokens_ahead
  obtain ⟨problem, t, hfails, hleft⟩ := h.exists_fails halone hquiet hconfined
  obtain ⟨hitem, helse, hfor⟩ := h.head _ h.head?_eq
  refine Level.givesUp_of_fails hfails halone h.head?_eq hright hitem helse h.valid hleft
    fun read rest htokens hgoes => ?_
  obtain ⟨hopen, hbraces⟩ := hrest problem t read hfails htokens
  rw [hopen, decide_eq_false hfor]
  exact h.statementRest_left htokens hleft hbraces hgoes rest

theorem givesUp (h : Malformed tokens) (hbraces : Token.Unbraced tokens) (n : Nat) :
    (Level.allowing n).GivesUp tokens := by
  have hfirst := hbraces _ (List.mem_of_mem_head? h.head?_eq)
  refine h.givesUp_of_confined hfirst.2 ?_ fun problem t read _ htokens => ?_
  · refine statement_confined_of_unbraced n (h.head _ h.head?_eq).2.2 fun token hmem => ?_
    rw [h.ofTokens_ahead.1] at hmem
    exact (hbraces token hmem).1
  · refine ⟨Token.Unbraced.openBraces fun token hmem => ?_, fun token hmem => ?_⟩
    · exact hbraces token (by simp [htokens, hmem])
    · exact hbraces token (by rw [htokens]; simp [hmem])

end Malformed

namespace MalformedBraced

variable {tokens : List Token} {n : Nat}

theorem confined (h : MalformedBraced tokens) {alone : State} (halone : alone.ahead = tokens) :
    Confined true (statement (Level.allowing n)) alone := by
  obtain ⟨rest, hrest⟩ := List.head?_eq_some_iff.mp h.head?_eq
  refine statement_confined (Level.allowing_confined n) ?_
  rw [State.current_of_ahead (halone.trans hrest)]
  exact h.plain _ h.head?_eq

theorem givesUp (h : MalformedBraced tokens)
    (hunread : ∀ token ∈ (Level.allowing n).unread tokens, token.kind ≠ .symbol .rightBrace) :
    (Level.allowing n).GivesUp tokens := by
  refine h.givesUp_of_confined (h.balanced.head_kind _ h.head?_eq) (h.confined h.ofTokens_ahead.1)
    fun problem t read hfails htokens => ?_
  refine Balanced.unbraced_of_unclosed (htokens ▸ h.balanced) fun token hmem => hunread token ?_
  rwa [hfails.unread_eq]

/-- If a closing brace is left there, recovery stops at one of those that are left. -/
theorem stopsShort (h : MalformedBraced tokens)
    (hunread : ∃ token ∈ (Level.allowing n).unread tokens, token.kind = .symbol .rightBrace) :
    (Level.allowing n).StopsShort tokens := by
  intro s rest hahead horderly
  have hfirst := h.head?_eq
  obtain ⟨halone, hquiet⟩ := h.ofTokens_ahead
  obtain ⟨problem, t, hfails, hleft⟩ := h.exists_fails halone hquiet (h.confined halone)
  obtain ⟨hitem, helse, hfor⟩ := h.head _ hfirst
  obtain ⟨read, hreads⟩ := hfails.reads
  have htokens : tokens = read ++ t.ahead := halone ▸ hreads.ahead
  rw [hfails.unread_eq] at hunread
  have hgoes : ∀ token ∈ t.ahead, token.kind ≠ .eof := fun token hmem =>
    horderly.goes token (by simp [hahead, htokens, hmem])
  obtain ⟨hfresh, hkeyword⟩ := h.left_keywords htokens
  obtain ⟨front, semicolon, hends, hinline, hsemicolon⟩ := h.left_ends htokens hleft
  obtain ⟨passed, close, back, hcut, hclose, hcount⟩ := statementRest_of_closed
    (htokens ▸ h.balanced) hunread (by rwa [hends, List.dropLast_concat]) hgoes hfresh hkeyword rest
  have hcount' (read' : List Token) (hread' : tokens = read' ++ t.ahead) :
      statementRest ((State.ofTokens tokens).current.kind = .keyword .for_) (openBraces read')
        read'.isEmpty (t.ahead ++ rest) = passed.length + 1 := by
    rw [List.append_cancel_right (hread'.symm.trans htokens), decide_eq_false hfor, hcount]
  obtain ⟨last, ⟨token, hmem, hspan⟩, hround⟩ := Level.round_of_fails hfails halone hfirst
    (h.balanced.head_kind _ hfirst) hitem h.valid hleft hahead horderly hcount'
  refine ⟨read ++ passed, close, back, problem, last, by rw [htokens, hcut, List.append_assoc],
    hclose, ?_, ⟨token, ?_, hspan⟩, ?_⟩
  · rintro rfl
    obtain ⟨-, hlast⟩ := List.append_inj' (hcut.symm.trans hends) rfl
    rw [List.cons.inj hlast |>.1, hsemicolon] at hclose
    cases hclose
  · rw [htokens]
    exact List.mem_append_right read (List.mem_of_mem_head? hmem)
  · have hdrop : (t.ahead ++ rest).drop (passed.length + 1) = back ++ rest := by
      rw [hcut, ← List.singleton_append, ← List.append_assoc, List.append_assoc]
      exact List.drop_left' (by simp)
    rwa [hdrop] at hround

end MalformedBraced

end SourceFront
