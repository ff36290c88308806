import SourceFront.Proofs.Strewn.Basic

/-!
The rules for statements weather what is strewn into their blocks. A block passes over each run
with one problem; whatever stands around the block does not notice.
-/

namespace SourceFront

namespace Terminal

theorem kind_ne_invalid (a : Terminal) : a.kind ≠ .invalid := by
  cases a <;> exact nofun

theorem kind_ne_eof (a : Terminal) : a.kind ≠ .eof := by
  cases a <;> exact nofun

theorem opensBlock_of_beginsExpr {a : Terminal} (h : a.beginsExpr = true) :
    a.kind.opensBlock = false := by
  cases a with
  | keyword k => cases k <;> first | rfl | cases h
  | symbol s => cases s <;> first | rfl | cases h
  | _ => rfl

end Terminal

namespace Rule

variable {α β : Type} {level : Level} {s t : State}

section Closed

variable (h : level.Framed)
include h

theorem return_closed : (return_ level).Closed := by
  unfold return_
  refine .behind .advance fun _ => .behind (.isAt _) fun _ => ?_
  extract_lets rest
  have hrest (value : Option (Expr Span)) : (rest value).Closed :=
    .before (.expect _) fun _ => .spanFrom
  exact .ite (.behind (.pure _) hrest) (.behind (h.expr _ _) fun _ => .behind (.pure _) hrest)

omit h in
theorem jump_closed : jump.Closed :=
  .behind .advance fun _ => .before (.expect _) fun _ _ _ _ hrun _ _ => by
    cases hrun
    rfl

omit h in
theorem closed_at_current {next : Token → Rule α} {value : α} (hnext : (next s.current).Closed)
    (hends : s.EndsItem) (hrun : (current >>= next) s = .ok value t) :
    s.ahead ≠ [] ∧ ∀ more stop,
      (current >>= next) (s.extend more stop) = .ok value (t.extend more stop) := by
  obtain ⟨hne, hextend⟩ := hnext s t value hends hrun
  refine ⟨hne, fun more stop => ?_⟩
  rw [current_bind, State.extend_current more stop hne]
  exact hextend more stop

theorem statement_closed {value : Stmt Span} (hblock : s.current.kind.opensBlock = false)
    (hends : s.EndsItem) (hrun : statement level s = .ok value t) :
    s.ahead ≠ [] ∧ ∀ more stop,
      statement level (s.extend more stop) = .ok value (t.extend more stop) := by
  refine closed_at_current ?_ hends hrun
  split
  case h_1 | h_2 => exact .before (binding_closed h) fun _ => .pure _
  case h_4 => exact .before (return_closed h) fun _ => .pure _
  case h_10 | h_11 => exact .before jump_closed fun _ => .pure _
  case h_12 => exact .behind (h.expr _ _) fun _ => .before (.expect _) fun _ => .spanFrom
  all_goals
    rename_i hkind
    simp [hkind, TokenKind.opensBlock] at hblock

end Closed

variable {straying : Straying} {stop : Span} {next : Option Token → Prop} {bits : List Bit}
  {n : Nat} {allowed : Nat → List Token → Prop}

theorem statement_plain {stmt : Stmt α} (hstrewn : stmt.phrase.Strewn allowed n bits)
    (hbraced : stmt.phrase.Braced False)
    (hblock : ∀ {s t : State}, stmt.phrase.Between s t → s.current.kind.opensBlock = false) :
    Weathers straying stop none next bits (statement (Level.allowing n)) := by
  have hframed := Level.allowing_framed n
  obtain ⟨tokens, rfl, hspelled⟩ := hstrewn.plain fun front hbegins => (hbraced.opened hbegins).1
  obtain ⟨alone, halone⟩ : ∃ alone : State, alone = ⟨stop, tokens, stop, []⟩ := ⟨_, rfl⟩
  have hahead : alone.ahead = tokens := by rw [halone]
  have hclean : alone.Clean :=
    ⟨by rw [halone], fun token hmem => hspelled.kind_ne_invalid token (hahead ▸ hmem)⟩
  have hbetween := Phrase.between_of_spelled hspelled (hahead.trans (List.append_nil _).symm) hclean
  have hskip : alone.skip tokens.length = ⟨(alone.skip tokens.length).last, [], stop, []⟩ := by
    rw [State.skip_eq, hahead, List.drop_length, halone]
  generalize alone.skip tokens.length = t at hskip hbetween
  have hend : t.current.kind ≠ .keyword .else_ := by
    rw [hskip]
    exact nofun
  obtain ⟨value, hrun, -⟩ :=
    (statement_gives (Level.allowing_recognises n) hframed hbetween hend).ok hstrewn.fits
  have hblock := hblock hbetween
  have hends : alone.EndsItem := by
    obtain ⟨⟨read, hreads, front, semicolon, rfl, -, hsemicolon⟩, -⟩ :=
      (statement_confined (Level.allowing_confined n) hblock).ok hrun
    have hread := hreads.ahead
    rw [hskip, List.append_nil] at hread
    intro token hlast
    obtain rfl : semicolon = token := by simpa [hread] using hlast
    simp [Token.endsItem, hsemicolon]
  refine ⟨value, t.last, fun strewn s rest hfaces _ => ⟨t.last, [], by simp, ?_,
    hfaces.steady_behind t.last, ?_⟩⟩
  · rw [Bit.sites_map]
    exact .nil
  have hnoting := (statement_framed hframed).quiet hrun hclean (by rw [hskip]) s.problems
  obtain ⟨hne, hextend⟩ := statement_closed hframed
    (show (alone.noting s.problems).current.kind.opensBlock = false from hblock) hends hnoting
  have hs : { (alone.noting s.problems).extend rest s.stop with last := s.last } = s := by
    have hfaces' := hfaces.ahead
    rw [Bit.tokens_map] at hfaces'
    simp only [State.extend, State.noting, hahead, ← hfaces']
  have ht : (t.noting s.problems).extend rest s.stop =
      ⟨t.last, rest, s.stop, s.problems ++ []⟩ := by
    rw [hskip]
    simp [State.extend, State.noting]
  rcases statement_forgets n ((alone.noting s.problems).extend rest s.stop) s.last
    (List.append_ne_nil_of_left_ne_nil hne rest) with hsame | ⟨problem, hfails, -⟩
  · rw [hs] at hsame
    rw [hsame, hextend, ht]
  · cases (hextend rest s.stop).symm.trans hfails

theorem expr_weathers {expr : Expr α} {place : Place} {token : Token} {symbol : Symbol}
    {span : Span} (hstrewn : (expr.whole place).Strewn allowed n bits)
    (hkind : token.kind = .symbol symbol)
    (hend : (TokenKind.symbol symbol).endsExpr place 0 = true) :
    Weathers straying stop (some span) (· = some token) bits ((Level.allowing n).expr place 0) :=
  .of_gives hstrewn (expr.whole_braced place) ((Level.allowing_framed n).expr place 0)
    (by simp [hkind]) fun hspells hcurrent =>
      (Level.allowing_recognises n).expr (Nat.zero_le _) hspells (by simpa [hcurrent, hkind])

theorem block_head {body : Block α} (hstrewn : (Phrase.deeper body.phrase).Strewn allowed n bits) :
    ∃ left rest, bits = .token left :: rest ∧ left.kind = .symbol .leftBrace := by
  obtain ⟨m, -, hbody⟩ := hstrewn
  cases body
  obtain ⟨left, rest, rfl, hterminal, -⟩ := Phrase.Strewn.terminal_seq hbody
  exact ⟨left, rest, rfl, Token.kind_of_terminal? hterminal⟩

theorem branch_head {branch : IfStmt α} (hstrewn : branch.phrase.Strewn allowed n bits) :
    ∃ first rest, bits = .token first :: rest ∧ first.kind = .keyword .if_ := by
  cases branch
  obtain ⟨first, rest, rfl, hterminal, -⟩ := Phrase.Strewn.terminal_seq hstrewn
  exact ⟨first, rest, rfl, Token.kind_of_terminal? hterminal⟩

theorem plain_head {p : Phrase α} {good : Terminal → Prop} (hstrewn : p.Strewn allowed n bits)
    (hbraced : p.Braced False)
    (hkind : ∀ {s t : State}, p.Between s t → ∃ a : Terminal, s.current.kind = a.kind ∧ good a) :
    ∃ first rest, bits = .token first :: rest ∧ ∃ a : Terminal, first.kind = a.kind ∧ good a := by
  obtain ⟨tokens, rfl, hspelled⟩ := hstrewn.plain fun front hbegins => (hbraced.opened hbegins).1
  have hbetween : p.Between ⟨⟨0, 0, 0⟩, tokens, ⟨0, 0, 0⟩, []⟩ _ :=
    Phrase.between_of_spelled hspelled (List.append_nil tokens).symm
      ⟨rfl, hspelled.kind_ne_invalid⟩
  obtain ⟨a, hfirst, hgood⟩ := hkind hbetween
  cases tokens with
  | nil => cases a <;> cases hfirst
  | cons first rest => exact ⟨first, rest.map .token, List.map_cons, a, hfirst, hgood⟩

theorem expr_head {expr : Expr α} {place : Place}
    (hstrewn : (expr.whole place).Strewn allowed n bits) :
    ∃ first rest, bits = .token first :: rest ∧ ∃ a : Terminal, first.kind = a.kind :=
  have ⟨first, rest, hbits, a, hkind, _⟩ :=
    plain_head hstrewn (expr.whole_braced place) Expr.between_kind
  ⟨first, rest, hbits, a, hkind⟩

theorem patterns_braced (patterns : List (Pattern α)) :
    (Phrase.separated (.symbol .pipe) (patterns.map Pattern.phrase)).Braced False :=
  .separated (.terminal rfl) fun p hmem => by
    obtain ⟨pattern, -, rfl⟩ := List.mem_map.mp hmem
    exact pattern.braced

theorem arm_head {arm : MatchArm α} (hstrewn : arm.phrase.Strewn allowed n bits) :
    ∃ first rest, bits = .token first :: rest ∧
      ∃ a : Terminal, first.kind = a.kind ∧ a.kind ≠ .symbol .rightBrace := by
  obtain ⟨patterns, body, note⟩ := arm
  obtain ⟨front, back, rfl, hpatterns, -⟩ := hstrewn
  obtain ⟨first, rest, rfl, hfirst⟩ :=
    plain_head hpatterns (patterns_braced patterns) Pattern.patterns_kind
  exact ⟨first, rest ++ back, rfl, hfirst⟩

theorem choice_head {choice : MatchStmt α} (hstrewn : choice.phrase.Strewn allowed n bits) :
    ∃ first rest, bits = .token first :: rest ∧ first.kind = .keyword .match_ := by
  cases choice
  obtain ⟨first, rest, rfl, hterminal, -⟩ := Phrase.Strewn.terminal_seq hstrewn
  exact ⟨first, rest, rfl, Token.kind_of_terminal? hterminal⟩

theorem stmt_head {stmt : Stmt α} (hstrewn : stmt.phrase.Strewn allowed n bits) :
    ∃ first rest, bits = .token first :: rest ∧ first.kind ≠ .keyword .else_ ∧
      endsBlock first = false := by
  have hplain (hbraced : stmt.phrase.Braced False) :
      ∃ first rest, bits = .token first :: rest ∧ first.kind ≠ .keyword .else_ ∧
        endsBlock first = false := by
    obtain ⟨first, rest, hbits, a, hkind, helse, hbrace, hitem⟩ :=
      plain_head hstrewn hbraced Stmt.between_kind
    refine ⟨first, rest, hbits, hkind ▸ helse, ?_⟩
    simp [endsBlock, Token.isEof, hkind, hbrace, hitem, a.kind_ne_eof]
  have hkeyword {k : Keyword} {phrase : Phrase α}
      (hphrase : (Phrase.seq (.keyword k) phrase).Strewn allowed n bits)
      (helse : k ≠ .else_) (hitem : (TokenKind.keyword k).beginsItemOnly = false) :
      ∃ first rest, bits = .token first :: rest ∧ first.kind ≠ .keyword .else_ ∧
        endsBlock first = false := by
    obtain ⟨first, rest, hbits, hterminal, -⟩ := Phrase.Strewn.terminal_seq hphrase
    have hkind : first.kind = .keyword k := Token.kind_of_terminal? hterminal
    refine ⟨first, rest, hbits, by simpa [hkind] using helse, ?_⟩
    simp [endsBlock, Token.isEof, hkind, hitem]
  cases stmt with
  | let_ binding => exact hplain (binding.braced .let_)
  | const binding => exact hplain (binding.braced .const)
  | return_ value note => exact hplain (returnPhrase_braced value note)
  | break_ note => exact hplain (jumpPhrase_braced .break_ note)
  | continue_ note => exact hplain (jumpPhrase_braced .continue_ note)
  | expr value note => exact hplain (.node (.seq (value.whole_braced .free) (.terminal rfl)))
  | block body =>
      obtain ⟨left, rest, hbits, hleft⟩ := block_head hstrewn
      refine ⟨left, rest, hbits, by simp [hleft], ?_⟩
      simp [endsBlock, Token.isEof, hleft, TokenKind.beginsItemOnly]
  | if_ branch =>
      cases branch
      exact hkeyword hstrewn (by simp) rfl
  | match_ choice =>
      cases choice
      exact hkeyword hstrewn (by simp) rfl
  | loop | while_ | for_ => exact hkeyword hstrewn (by simp) rfl

end Rule

/-- The rules of the level that allows `n` phrases nested in one another weather what is strewn
into the blocks that they read. -/
structure Level.Weathers (straying : Straying) (α : Type) (stop : Span) (n : Nat) : Prop where
  block : ∀ {body : Block α} {bits : List Bit},
    (Phrase.deeper body.phrase).Strewn straying.allowed n bits →
      Rule.Weathers straying stop none (fun _ => True) bits (Level.allowing n).block
  branch : ∀ {branch : IfStmt α} {bits : List Bit},
    (Phrase.deeper branch.phrase).Strewn straying.allowed n bits →
      Rule.Weathers straying stop none (∀ token ∈ ·, token.kind ≠ .keyword .else_) bits
        (Level.allowing n).branch
  choice : ∀ {choice : MatchStmt α} {bits : List Bit},
    (Phrase.deeper choice.phrase).Strewn straying.allowed n bits →
      Rule.Weathers straying stop none (fun _ => True) bits (Level.allowing n).choice

namespace Rule

variable {α : Type} {straying : Straying} {stop : Span} {n : Nat} {bits : List Bit}

section

variable (h : Level.Weathers straying α stop n)
include h

theorem body_weathers {body : Block α} {span : Span} {next : Option Token → Prop}
    (hstrewn : (Phrase.deeper body.phrase).Strewn straying.allowed n bits) :
    Weathers straying stop (some span) next bits (Level.allowing n).block :=
  (h.block hstrewn).forget.weaken fun _ _ => trivial

theorem while_weathers {cond : Expr α} {body : Block α} {note : α} {next : Option Token → Prop}
    (hstrewn : (Stmt.while_ cond body note).phrase.Strewn straying.allowed n bits) :
    Weathers straying stop none next bits (statement (Level.allowing n)) := by
  obtain ⟨first, _, rfl, hterminal, front, back, rfl, hcond, hbody⟩ :=
    Phrase.Strewn.terminal_seq hstrewn
  obtain ⟨left, rest, rfl, hleft⟩ := block_head hbody
  have hkind : first.kind = .keyword .while_ := Token.kind_of_terminal? hterminal
  refine .current ?_
  simp only [hkind]
  refine .advance (.bind (expr_weathers hcond hleft rfl) (fun _ _ _ => rfl) fun cond after => ?_)
  exact .map (body_weathers h hbody)

theorem loop_weathers {body : Block α} {note : α} {next : Option Token → Prop}
    (hstrewn : (Stmt.loop body note).phrase.Strewn straying.allowed n bits) :
    Weathers straying stop none next bits (statement (Level.allowing n)) := by
  obtain ⟨first, rest, rfl, hterminal, hbody⟩ := Phrase.Strewn.terminal_seq hstrewn
  have hkind : first.kind = .keyword .loop := Token.kind_of_terminal? hterminal
  refine .current ?_
  simp only [hkind]
  exact .advance (.map (body_weathers h hbody))

theorem for_weathers {init : ForInit α} {cond step : Expr α} {body : Block α} {note : α}
    {next : Option Token → Prop}
    (hstrewn : (Stmt.for_ init cond step body note).phrase.Strewn straying.allowed n bits) :
    Weathers straying stop none next bits (statement (Level.allowing n)) := by
  obtain ⟨first, _, rfl, hterminal, initBits, _, rfl, hinit, condBits, _, rfl, hcond, hrest⟩ :=
    Phrase.Strewn.terminal_seq hstrewn
  obtain ⟨semicolon, _, rfl, hsemicolon, stepBits, bodyBits, rfl, hstep, hbody⟩ :=
    Phrase.Strewn.terminal_seq hrest
  obtain ⟨left, rest, rfl, hleft⟩ := block_head hbody
  obtain ⟨token, condRest, rfl, a, htoken⟩ := expr_head hcond
  have hkind : first.kind = .keyword .for_ := Token.kind_of_terminal? hterminal
  have hsemicolon' : semicolon.kind = .symbol .semicolon := Token.kind_of_terminal? hsemicolon
  have hinit' : Weathers straying stop (some first.span) (· = some token) initBits
      (forInit (Level.allowing n)) :=
    .of_gives hinit init.braced (forInit_framed (Level.allowing_framed n))
      (by simp [htoken, a.kind_ne_invalid])
      fun hspells _ => forInit_gives (Level.allowing_recognises n) hspells
  refine .current ?_
  simp only [hkind]
  refine .advance (.bind hinit' (fun _ _ _ => rfl) fun init after => ?_)
  refine .bind (expr_weathers hcond hsemicolon' rfl) (fun _ _ _ => rfl) fun cond after => ?_
  refine .expect hsemicolon' (.bind (expr_weathers hstep hleft rfl) (fun _ _ _ => rfl)
    fun step after => ?_)
  exact .map (body_weathers h hbody)

theorem branch_weathers {branch : IfStmt α}
    (hstrewn : branch.phrase.Strewn straying.allowed n bits) :
    Weathers straying stop none (∀ token ∈ ·, token.kind ≠ .keyword .else_) bits
      (Rule.branch (Level.allowing n)) := by
  obtain ⟨cond, thenBlock, otherwise, note⟩ := branch
  obtain ⟨first, _, rfl, hterminal, condBits, _, rfl, hcond, thenBits, restBits, rfl, hthen,
    hotherwise⟩ := Phrase.Strewn.terminal_seq hstrewn
  obtain ⟨left, rest, rfl, hleft⟩ := block_head hthen
  unfold Rule.branch
  refine .advance (.bind (expr_weathers hcond hleft rfl) (fun _ _ _ => rfl) fun cond after => ?_)
  refine .bind (h.block hthen).forget (fun _ _ _ => trivial) fun thenBlock after => ?_
  rcases otherwise with _ | branch | body
  · obtain ⟨_, rfl, rfl⟩ := hotherwise
    exact .untaken (fun _ _ hnext => hnext) (by simp) (.given (.spanFrom (.pure _)))
  · obtain ⟨elseToken, rest, rfl, helse, hbranch⟩ := Phrase.Strewn.terminal_seq hotherwise
    obtain ⟨m, hm, hinner⟩ := id hbranch
    obtain ⟨ifToken, rest, rfl, hif⟩ := branch_head hinner
    refine .taken (Token.kind_of_terminal? helse) (.isAt ?_)
    rw [decide_eq_true hif, if_pos rfl, ← List.append_nil (.token ifToken :: rest)]
    exact .bind (h.branch hbranch).forget (fun _ _ hnext => hnext) fun _ _ =>
      .given (.spanFrom (.pure _))
  · obtain ⟨elseToken, rest, rfl, helse, hbody⟩ := Phrase.Strewn.terminal_seq hotherwise
    obtain ⟨left, rest, rfl, hleft⟩ := block_head hbody
    refine .taken (Token.kind_of_terminal? helse) (.isAt ?_)
    rw [decide_eq_false (by simp [hleft]), if_neg Bool.false_ne_true,
      ← List.append_nil (.token left :: rest)]
    exact .bind (h.block hbody).forget (fun _ _ _ => trivial) fun _ _ =>
      .given (.spanFrom (.pure _))

theorem armBody_weathers {body : ArmBody α} {token : Token} {span : Span}
    (hstrewn : body.phrase.Strewn straying.allowed n bits) (hvalid : token.kind ≠ .invalid) :
    Weathers straying stop (some span) (· = some token) bits (armBody (Level.allowing n)) := by
  have hplain (hbraced : body.phrase.Braced False) :
      Weathers straying stop (some span) (· = some token) bits (armBody (Level.allowing n)) :=
    .of_gives hstrewn hbraced (armBody_framed (Level.allowing_framed n)) (by simpa using hvalid)
      fun hspells _ => armBody_gives (Level.allowing_recognises n) hspells
  cases body with
  | block body =>
      obtain ⟨left, rest, rfl, hleft⟩ := block_head hstrewn
      refine .current ?_
      simp only [hleft]
      exact .map (body_weathers h hstrewn)
  | match_ choice =>
      obtain ⟨m, hm, hchoice⟩ := id hstrewn
      obtain ⟨first, rest, rfl, hmatch⟩ := choice_head hchoice
      refine .current ?_
      simp only [hmatch]
      exact .map ((h.choice hstrewn).forget.weaken fun _ _ => trivial)
  | return_ value note => exact hplain (returnPhrase_braced value note)
  | break_ note | continue_ note => exact hplain (jumpPhrase_braced _ note)
  | expr value => exact hplain (.seq (value.whole_braced .free) (.terminal rfl))

theorem arm_weathers {arm : MatchArm α} {token : Token} {span : Span}
    (hstrewn : arm.phrase.Strewn straying.allowed n bits) (hvalid : token.kind ≠ .invalid) :
    Weathers straying stop (some span) (· = some token) bits (Rule.arm (Level.allowing n)) := by
  obtain ⟨first, rest, rfl, -⟩ := arm_head hstrewn
  obtain ⟨patterns, body, note⟩ := arm
  obtain ⟨front, back, hbits, hpatterns, hrest⟩ := hstrewn
  obtain ⟨arrow, bodyBits, rfl, harrow, hbody⟩ := Phrase.Strewn.terminal_seq hrest
  have harrow' : arrow.kind = .symbol .fatArrow := Token.kind_of_terminal? harrow
  have hpatterns' (span : Span) :
      Weathers straying stop (some span) (· = some arrow) front Rule.patterns :=
    .of_gives hpatterns (patterns_braced patterns) patterns_framed (by simp [harrow'])
      fun hspells hcurrent => (patterns_gives hspells (by simpa [hcurrent])).imp
        (iff_true_intro ((Phrase.nesting_patterns patterns).trans_le (Nat.zero_le n)))
        fun _ hgood => hgood
  refine .current ?_
  rw [hbits]
  refine .bind (hpatterns' span) (fun _ _ _ => rfl) fun patterns after => .expect harrow' ?_
  rw [← List.append_nil bodyBits]
  exact .bind (armBody_weathers h hbody hvalid) (fun _ _ hnext => hnext) fun body after =>
    .spanFrom (.pure _)

theorem arms_weathers {arms : List (MatchArm α)} {close : Token} {span : Span}
    (hstrewn : (Phrase.concat (arms.map MatchArm.phrase)).Strewn straying.allowed n bits)
    (hclose : close.kind = .symbol .rightBrace) (read : List (MatchArm Span)) :
    Weathers straying stop (some span) (· = some close) bits
      (iterate (armRound (Level.allowing n)) read) := by
  induction arms generalizing bits span read with
  | nil =>
      obtain ⟨_, rfl, rfl⟩ := hstrewn
      have hlast (s : State) (_ : s.stop = stop) (hnext : s.ahead.head? = some close) :
          armRound (Level.allowing n) read s = .ok (.last read) s := by
        obtain ⟨rest, hrest⟩ := List.head?_eq_some_iff.mp hnext
        have hcurrent : s.current.kind = .symbol .rightBrace := by
          rw [State.current_of_ahead hrest, hclose]
        rw [armRound, isAtClose_bind, hcurrent]
        rfl
      exact .iterate_last hlast
  | cons arm arms ih =>
      obtain ⟨front, back, rfl, harm, hrest⟩ := hstrewn.concat_cons
      obtain ⟨first, more, rfl, a, hfirst, hbrace⟩ := arm_head harm
      obtain ⟨follow, hvalid, hfollow⟩ : ∃ follow : Token, follow.kind ≠ .invalid ∧
          ∀ strewn tokens, tokens.head? = some close →
            (Bit.tokens strewn back ++ tokens).head? = some follow := by
        cases arms with
        | nil =>
            obtain ⟨_, rfl, rfl⟩ := hrest
            exact ⟨close, by simp [hclose], fun _ _ hnext => hnext⟩
        | cons arm arms =>
            obtain ⟨_, _, rfl, harm, -⟩ := hrest.concat_cons
            obtain ⟨follow, rest, rfl, a, hfollow, -⟩ := arm_head harm
            exact ⟨follow, by simp [hfollow, a.kind_ne_invalid], fun _ _ _ => rfl⟩
      have hround (s t : State) (arm : MatchArm Span) (hcurrent : s.current = first)
          (harm : Rule.arm (Level.allowing n) s = .ok arm t) :
          armRound (Level.allowing n) read s = .ok (.more (read ++ [arm])) t := by
        have hmore :
            (decide (s.current.kind = .symbol .rightBrace) || s.current.isEof) = false := by
          simp [hcurrent, Token.isEof, hfirst, hbrace, a.kind_ne_eof]
        rw [armRound, isAtClose_bind, hmore, if_neg Bool.false_ne_true, bind_of_ok harm, pure_apply]
      exact .iterate_more (arm_weathers h harm hvalid) hround hfollow fun arm after => ih hrest _

theorem choice_weathers {choice : MatchStmt α} {next : Option Token → Prop}
    (hstrewn : choice.phrase.Strewn straying.allowed n bits) :
    Weathers straying stop none next bits (Rule.choice (Level.allowing n)) := by
  obtain ⟨subject, arms, note⟩ := choice
  obtain ⟨first, _, rfl, hterminal, front, _, rfl, hsubject, hrest⟩ :=
    Phrase.Strewn.terminal_seq hstrewn
  obtain ⟨left, _, rfl, hleft, armBits, _, rfl, harms, hright⟩ := Phrase.Strewn.terminal_seq hrest
  obtain ⟨right, rfl, hterminal'⟩ := Phrase.Strewn.terminal hright
  have hleft' : left.kind = .symbol .leftBrace := Token.kind_of_terminal? hleft
  have hright' : right.kind = .symbol .rightBrace := Token.kind_of_terminal? hterminal'
  rw [MatchArm.phrases_eq_map] at harms
  refine .advance (.bind (expr_weathers hsubject hleft' rfl) (fun _ _ _ => rfl)
    fun subject after => ?_)
  refine .expect hleft' (.bind (arms_weathers h harms hright' []) (fun _ _ _ => rfl)
    fun arms after => ?_)
  exact .expect hright' (.spanFrom (.pure _))

theorem statement_weathers {stmt : Stmt α} (hstrewn : stmt.phrase.Strewn straying.allowed n bits) :
    Weathers straying stop none (∀ token ∈ ·, token.kind ≠ .keyword .else_) bits
      (statement (Level.allowing n)) := by
  have hkeyword {k : Keyword} {phrase : Phrase α} {s t : State}
      (hbetween : (Phrase.seq (.keyword k) phrase).Between s t)
      (hblock : (TokenKind.keyword k).opensBlock = false) :
      s.current.kind.opensBlock = false := by
    rwa [keyword_kind hbetween]
  cases stmt with
  | let_ binding => exact statement_plain hstrewn (binding.braced .let_) (hkeyword · rfl)
  | const binding => exact statement_plain hstrewn (binding.braced .const) (hkeyword · rfl)
  | return_ value note =>
      exact statement_plain hstrewn (returnPhrase_braced value note) (hkeyword · rfl)
  | break_ note => exact statement_plain hstrewn (jumpPhrase_braced .break_ note) (hkeyword · rfl)
  | continue_ note =>
      exact statement_plain hstrewn (jumpPhrase_braced .continue_ note) (hkeyword · rfl)
  | expr value note =>
      refine statement_plain hstrewn (.node (.seq (value.whole_braced .free) (.terminal rfl)))
        fun hbetween => ?_
      obtain ⟨u, hvalue, -⟩ := hbetween
      obtain ⟨a, hkind, hbegins, -⟩ := value.between_kind hvalue
      rw [hkind, Terminal.opensBlock_of_beginsExpr hbegins]
  | block body =>
      obtain ⟨left, rest, rfl, hleft⟩ := block_head hstrewn
      refine .current ?_
      simp only [hleft]
      exact .map ((h.block hstrewn).weaken fun _ _ => trivial)
  | if_ branch =>
      replace hstrewn : branch.phrase.Strewn straying.allowed n bits := hstrewn
      obtain ⟨first, rest, rfl, hfirst⟩ := branch_head hstrewn
      refine .current ?_
      simp only [hfirst]
      exact .map (branch_weathers h hstrewn)
  | loop body note => exact loop_weathers h hstrewn
  | while_ cond body note => exact while_weathers h hstrewn
  | for_ init cond step body note => exact for_weathers h hstrewn
  | match_ choice =>
      replace hstrewn : choice.phrase.Strewn straying.allowed n bits := hstrewn
      obtain ⟨first, rest, rfl, hfirst⟩ := choice_head hstrewn
      refine .current ?_
      simp only [hfirst]
      exact .map (choice_weathers h hstrewn)

end

section Block

variable {next : Option Token → Prop} {gap : List Bit} {tokens : List Token} {strewn : Bool}

theorem gap_head (hgap : (.gap : Phrase α).Strewn straying.allowed n gap)
    (htokens : ∀ token ∈ tokens.head?, token.kind ≠ .keyword .else_) :
    ∀ token ∈ (Bit.tokens strewn gap ++ tokens).head?, token.kind ≠ .keyword .else_ := by
  induction gap with
  | nil => exact htokens
  | cons bit gap ih =>
      obtain ⟨run, rfl, hrun⟩ := hgap bit List.mem_cons_self
      have hrest := ih fun other hmem => hgap other (List.mem_cons_of_mem _ hmem)
      cases strewn with
      | false => exact hrest
      | true =>
          obtain ⟨first, hfirst, helse⟩ := straying.head hrun
          obtain ⟨more, rfl⟩ := List.head?_eq_some_iff.mp hfirst
          rintro token hmem
          obtain rfl : first = token := by simpa [Bit.tokens_stray] using hmem
          exact helse

theorem stmts_head {stmts : List (Stmt α)}
    (hstrewn : (Phrase.gapped (stmts.map Stmt.phrase)).Strewn straying.allowed n bits)
    (htokens : ∀ token ∈ tokens.head?, token.kind ≠ .keyword .else_) :
    ∀ token ∈ (Bit.tokens strewn bits ++ tokens).head?, token.kind ≠ .keyword .else_ := by
  cases stmts with
  | nil => exact gap_head (α := α) hstrewn htokens
  | cons stmt stmts =>
      obtain ⟨gap, _, rfl, hgap, front, back, rfl, hstmt, -⟩ := hstrewn
      obtain ⟨first, rest, rfl, helse, -⟩ := stmt_head hstmt
      rw [Bit.tokens_append, List.append_assoc]
      refine gap_head hgap fun token hmem => ?_
      obtain rfl : first = token := by simpa using hmem
      exact helse

/-- The rounds of a block pass over what is strewn into a gap. -/
theorem gap_weathers {read value : List (Stmt Span)}
    (hgap : (.gap : Phrase α).Strewn straying.allowed n gap)
    (hrest : WeathersTo straying stop none next bits (iterate (blockRound (Level.allowing n)) read)
      value none) :
    WeathersTo straying stop none next (gap ++ bits) (iterate (blockRound (Level.allowing n)) read)
      value none := by
  induction gap with
  | nil => exact hrest
  | cons bit gap ih =>
      obtain ⟨run, rfl, hrun⟩ := hgap bit List.mem_cons_self
      have hrest := ih fun other hmem => hgap other (List.mem_cons_of_mem _ hmem)
      intro strewn s tokens hfaces hnext
      cases strewn with
      | false =>
          exact hrest false s tokens ⟨hfaces.stop, hfaces.last, hfaces.ahead, nofun, hfaces.steady⟩
            hnext
      | true =>
          have hahead : s.ahead = run ++ (Bit.tokens true (gap ++ bits) ++ tokens) := by
            rw [hfaces.ahead, List.cons_append, Bit.tokens_stray, if_pos rfl, List.append_assoc]
          have hfaces' : s.Faces straying stop none true ([.stray run] ++ (gap ++ bits)) tokens :=
            hfaces
          have hfollows : straying.follows (Bit.tokens true (gap ++ bits) ++ tokens) :=
            (hfaces.followed rfl).1
          obtain ⟨problem, last, hspan, hsteady, hround⟩ :=
            straying.round hrun hfollows hahead hfaces.steady
          have hlast : ∀ span ∈ (none : Option Span), last = span := by simp
          obtain ⟨last', found, -, hfound, hsteady', hrun'⟩ :=
            hrest true _ tokens (hfaces'.behind hlast hsteady) hnext
          rw [List.append_assoc] at hsteady' hrun'
          refine ⟨last', problem :: found, by simp, .cons hspan hfound, hsteady', ?_⟩
          have hne : 0 < run.length := by
            obtain ⟨first, hfirst, -⟩ := straying.head hrun
            exact List.length_pos_of_mem (List.mem_of_mem_head? hfirst)
          rw [iterate_of_more (hround read) (by rw [hahead]; simpa using hne), hrun']
          rfl

theorem stmts_weather (h : Level.Weathers straying α stop n) {stmts : List (Stmt α)} {close : Token}
    (hclose : close.kind = .symbol .rightBrace)
    (hstrewn : (Phrase.gapped (stmts.map Stmt.phrase)).Strewn straying.allowed n bits)
    (read : List (Stmt Span)) :
    ∃ value, WeathersTo straying stop none (· = some close) bits
      (iterate (blockRound (Level.allowing n)) read) value none := by
  induction stmts generalizing bits read with
  | nil =>
      refine ⟨read, ?_⟩
      rw [← List.append_nil bits]
      refine gap_weathers (α := α) hstrewn fun strewn s tokens hfaces hnext => ?_
      have hlast : blockRound (Level.allowing n) read s = .ok (.last read) s := by
        obtain ⟨rest, rfl⟩ := List.head?_eq_some_iff.mp hnext
        have hends : endsBlock close = true := by simp [endsBlock, hclose]
        rw [blockRound, current_bind, State.current_of_ahead hfaces.ahead, if_pos hends, pure_apply]
      exact ⟨s.last, [], by simp, .nil, hfaces.steady_behind s.last, by
        rw [iterate_of_last hlast, List.append_nil, show tokens = s.ahead from hfaces.ahead.symm]⟩
  | cons stmt stmts ih =>
      obtain ⟨gap, _, rfl, hgap, front, back, rfl, hstmt, hstmts⟩ := hstrewn
      obtain ⟨first, rest, rfl, -, hends⟩ := stmt_head hstmt
      obtain ⟨found, after, hstmt'⟩ := statement_weathers h hstmt
      obtain ⟨value, hrest⟩ := ih hstmts (read ++ [found])
      have hround (s t : State) (hcurrent : s.current = first)
          (hstmt : statement (Level.allowing n) s = .ok found t) :
          blockRound (Level.allowing n) read s = .ok (.more (read ++ [found])) t := by
        have hrecover : recover (statement (Level.allowing n)) State.skipStatement s =
            .ok (some found) t := by rw [recover, hstmt]
        rw [blockRound, current_bind, hcurrent, hends, if_neg Bool.false_ne_true,
          bind_of_ok hrecover, pure_apply, Option.toList_some]
      have hmeets (strewn : Bool) (tokens : List Token) (hnext : tokens.head? = some close) :
          ∀ token ∈ (Bit.tokens strewn back ++ tokens).head?, token.kind ≠ .keyword .else_ :=
        stmts_head hstmts (by simp [hnext, hclose])
      exact ⟨value, gap_weathers hgap (hstmt'.iterate_more hround hmeets hrest.forget)⟩

/-- A block is read with what is strewn into it and without. -/
theorem block_weathers (h : Level.Weathers straying α stop n) {body : Block α}
    (hstrewn : body.phrase.Strewn straying.allowed n bits) :
    Weathers straying stop none next bits (Rule.block (Level.allowing n)) := by
  obtain ⟨stmts, note⟩ := body
  obtain ⟨left, _, rfl, hleft, front, _, rfl, hstmts, hright⟩ := Phrase.Strewn.terminal_seq hstrewn
  obtain ⟨right, rfl, hterminal⟩ := Phrase.Strewn.terminal hright
  have hright' : right.kind = .symbol .rightBrace := Token.kind_of_terminal? hterminal
  replace hstmts : (Phrase.gapped (Stmt.phrases stmts)).Strewn straying.allowed n front := hstmts
  rw [Stmt.phrases_eq_map] at hstmts
  obtain ⟨read, hrounds⟩ := stmts_weather h hright' hstmts []
  have hclose : Weathers straying stop none next [.token right] (expect .rightBrace >>= fun _ =>
      spanFrom left.span >>= fun span => pure (⟨read, span⟩ : Block Span)) :=
    .expect hright' (.spanFrom (.pure _))
  obtain ⟨value, after, hclose⟩ := hclose
  exact .expect (Token.kind_of_terminal? hleft)
    ⟨value, after, hrounds.forget.bind (fun _ _ _ => rfl) hclose⟩

end Block

end Rule

theorem Level.weathers (straying : Straying) (α : Type) (stop : Span) :
    ∀ n, Level.Weathers straying α stop n
  | 0 =>
      { block := fun ⟨_, hm, _⟩ => nomatch hm
        branch := fun ⟨_, hm, _⟩ => nomatch hm
        choice := fun ⟨_, hm, _⟩ => nomatch hm }
  | n + 1 =>
      have h := Level.weathers straying α stop n
      { block := fun ⟨_, rfl, hbody⟩ => Rule.block_weathers h hbody
        branch := fun ⟨_, rfl, hbranch⟩ => Rule.branch_weathers h hbranch
        choice := fun ⟨_, rfl, hchoice⟩ => Rule.choice_weathers h hchoice }

end SourceFront
