import SourceFront.Proofs.Strewn
import SourceFront.Tree.Removal

/-!
Statements without their semicolons. The rule for a statement fails at the token behind such a
statement; if that is the brace that closes the block, or a keyword that begins a statement,
nothing else is passed over.
-/

namespace SourceFront

variable {α : Type}

/-- Whether the rest of a failed statement ends before the token. -/
def Token.resumes (token : Token) : Bool :=
  token.kind = .symbol .rightBrace || token.kind.beginsStatement

/-- A binding up to its semicolon. -/
def Binding.stem (k : Keyword) (binding : Binding α) : Phrase α :=
  .seq (.keyword k) (.concat
    [binding.name.phrase, TypeExpr.annotation binding.type, .symbol .assign,
      binding.value.whole .free])

/-- How a statement that ends with a semicolon is written up to there. -/
inductive Stmt.Stem : Stmt α → Phrase α → Prop where
  | let_ (binding : Binding α) : Stem (.let_ binding) (binding.stem .let_)
  | const (binding : Binding α) : Stem (.const binding) (binding.stem .const)
  | return_ (value : Option (Expr α)) (note : α) : Stem (.return_ value note)
      (.seq (.keyword .return_) (value.elim .empty (Expr.whole .free)))
  | break_ (note : α) : Stem (.break_ note) (.keyword .break_)
  | continue_ (note : α) : Stem (.continue_ note) (.keyword .continue_)
  | expr (value : Expr α) (note : α) : Stem (.expr value note) (value.whole .free)

theorem Stmt.Stem.phrase_eq {stmt : Stmt α} {p : Phrase α} (h : stmt.Stem p) :
    ∃ ps, stmt.phrase = .node stmt.note (.concat (ps ++ [.symbol .semicolon])) ∧
      p = .concat ps := by
  cases h with
  | let_ binding | const binding =>
      exact ⟨[_, binding.name.phrase, TypeExpr.annotation binding.type, .symbol .assign,
        binding.value.whole .free], rfl, rfl⟩
  | return_ value note => exact ⟨[_, value.elim .empty (Expr.whole .free)], rfl, rfl⟩
  | break_ note | continue_ note | expr value note => exact ⟨[_], rfl, rfl⟩

theorem Phrase.exists_of_spelled_concat_append {o : Orthography α} {ps : List (Phrase α)}
    {p : Phrase α} {tokens : List Token} (h : (concat (ps ++ [p])).Spelled o tokens) :
    ∃ front back, tokens = front ++ back ∧ (concat ps).Spelled o front ∧ p.Spelled o back := by
  induction ps generalizing tokens with
  | nil => exact ⟨[], tokens, rfl, rfl, h⟩
  | cons first ps ih =>
      cases ps with
      | nil => exact h
      | cons next ps =>
          obtain ⟨front, _, rfl, hfirst, hrest⟩ := h
          obtain ⟨middle, back, rfl, hmiddle, hback⟩ := ih hrest
          exact ⟨front ++ middle, back, (List.append_assoc ..).symm, spelled_seq hfirst hmiddle,
            hback⟩

theorem Stmt.Stem.spelled {stmt : Stmt α} {p : Phrase α} {o : Orthography α} {tokens : List Token}
    (h : stmt.Stem p) (hspelled : stmt.phrase.Spelled o tokens) :
    ∃ run semicolon, tokens = run ++ [semicolon] ∧ p.Spelled o run ∧
      o.token (.symbol .semicolon) semicolon ∧ o.note stmt.note tokens := by
  obtain ⟨ps, hphrase, rfl⟩ := h.phrase_eq
  rw [hphrase] at hspelled
  obtain ⟨hinner, hnote⟩ := hspelled
  obtain ⟨run, _, rfl, hrun, semicolon, rfl, hsemicolon⟩ :=
    Phrase.exists_of_spelled_concat_append hinner
  exact ⟨run, semicolon, rfl, hrun, hsemicolon, hnote⟩

theorem Stmt.Stem.nesting_le {stmt : Stmt α} {p : Phrase α} (h : stmt.Stem p) :
    p.nesting ≤ stmt.phrase.nesting := by
  obtain ⟨ps, hphrase, rfl⟩ := h.phrase_eq
  rw [hphrase]
  have hall := Phrase.nesting_concat_le.mp
    (Nat.le_refl (Phrase.concat (ps ++ [.symbol .semicolon])).nesting)
  exact Phrase.nesting_concat_le.mpr fun phrase hmem => hall phrase (List.mem_append_left _ hmem)

theorem Stmt.Stem.ne_nil {stmt : Stmt α} {p : Phrase α} {run : List Token} (h : stmt.Stem p)
    (hspelled : p.Spelled .plain run) : run ≠ [] := by
  rintro rfl
  have hkeyword {k : Keyword} {q : Phrase α} (hq : (Phrase.seq (.keyword k) q).Spelled .plain []) :
      False := by
    obtain ⟨_, _, hnil, ⟨token, rfl, -⟩, -⟩ := hq
    cases hnil
  cases h with
  | let_ | const | return_ => exact hkeyword hspelled
  | break_ | continue_ =>
      obtain ⟨token, hnil, -⟩ := hspelled
      cases hnil
  | expr value =>
      have hbetween : (value.whole .free).Between ⟨⟨0, 0, 0⟩, [], ⟨0, 0, 0⟩, []⟩ _ :=
        Phrase.between_of_spelled hspelled rfl ⟨rfl, by simp⟩
      obtain ⟨a, hkind, -⟩ := value.between_kind hbetween
      exact a.kind_ne_eof hkind.symm

theorem Stmt.exists_stem {stmt : Stmt α} (h : stmt.isTerminated = true) : ∃ p, stmt.Stem p := by
  cases stmt with
  | let_ binding => exact ⟨_, .let_ binding⟩
  | const binding => exact ⟨_, .const binding⟩
  | return_ value note => exact ⟨_, .return_ value note⟩
  | break_ note => exact ⟨_, .break_ note⟩
  | continue_ note => exact ⟨_, .continue_ note⟩
  | expr value note => exact ⟨_, .expr value note⟩
  | _ => cases h

namespace Token

variable {token : Token}

theorem kind_of_resumes (h : token.resumes = true) : token.kind = .symbol .rightBrace ∨
    ∃ k : Keyword, token.kind = .keyword k ∧ k.beginsStatement = true := by
  rcases Bool.or_eq_true_iff.mp h with hbrace | hstatement
  · exact .inl (of_decide_eq_true hbrace)
  · cases hkind : token.kind with
    | keyword k =>
        rw [hkind] at hstatement
        exact .inr ⟨k, rfl, hstatement⟩
    | _ =>
        rw [hkind] at hstatement
        cases hstatement

theorem ends_of_resumes (h : token.resumes = true) : token.kind.endsExpr .free 0 = true ∧
    token.kind ≠ .symbol .semicolon ∧ token.kind ≠ .invalid ∧ token.kind ≠ .keyword .else_ := by
  rcases kind_of_resumes h with hkind | ⟨k, hkind, hbegins⟩
  · rw [hkind]
    exact ⟨rfl, nofun, nofun, nofun⟩
  · rw [hkind]
    refine ⟨?_, nofun, nofun, ?_⟩
    · cases k <;> first | rfl | cases hbegins
    · rintro hsame
      cases hsame
      cases hbegins

theorem statementRest_of_resumes (h : token.resumes = true) (inFor : Bool) (rest : List Token) :
    statementRest inFor 0 false (token :: rest) = 0 := by
  rcases kind_of_resumes h with hkind | ⟨k, hkind, hbegins⟩
  · simp [statementRest, hkind]
  · simp [statementRest, hkind, TokenKind.beginsStatement, hbegins]

end Token

namespace Rule

variable {β : Type} {n : Nat} {s t : State}

theorem freeExpr_of_resumes (n : Nat) (h : t.current.resumes = true) :
    ∃ problem, (Level.allowing n).freeExpr t = .error problem t := by
  cases n with
  | zero => exact ⟨_, rfl⟩
  | succ n =>
      have hoperand : operand (Level.allowing n) .free t =
          .error ⟨.expectedExpr t.current.describe, t.current.span⟩ t := by
        rw [operand, current_bind]
        rcases Token.kind_of_resumes h with hkind | ⟨k, hkind, hbegins⟩
        · rw [hkind]
          change (primary _ _ >>= _) t = _
          refine bind_of_error ?_ _
          rw [primary, current_bind, hkind]
          rfl
        · rw [hkind]
          change (primary _ _ >>= _) t = _
          refine bind_of_error ?_ _
          rw [primary, current_bind, hkind]
          cases k <;> first | rfl | cases hbegins
      exact ⟨_, bind_of_error hoperand _⟩

theorem expect_of_resumes (h : t.current.resumes = true) (next : Token → Rule β) :
    ∃ problem, (expect .semicolon >>= next) t = .error problem t := by
  have hexpect := expect_apply .semicolon t
  rw [if_neg (Token.ends_of_resumes h).2.1, failExpecting_apply] at hexpect
  exact ⟨_, bind_of_error hexpect next⟩

section

variable (h : t.current.resumes = true)
include h

theorem jump_of_resumes (hspells : s.advance = t) : ∃ problem, jump s = .error problem t := by
  subst hspells
  exact expect_of_resumes h _

theorem binding_of_resumes {binding : Binding α} {k : Keyword}
    (hspells : (binding.stem k).Between s t) (hfits : (binding.stem k).nesting ≤ n) :
    ∃ problem, Rule.binding (Level.allowing n) s = .error problem t := by
  have hinner := Level.allowing_recognises (α := α) n
  obtain ⟨name, type, value, note⟩ := binding
  obtain ⟨_, ⟨-, rfl, -⟩, _, ⟨hname, rfl, -⟩, u, htype, _, ⟨hassign, rfl, -⟩, hvalue⟩ := hspells
  simp only [Binding.stem, Phrase.nesting, Phrase.nesting_concat_cons, Nat.max_le] at hfits
  obtain ⟨-, -, htype', -, hvalue', -⟩ := hfits
  have hassign' := Token.kind_of_terminal? hassign
  have hname' : Rule.name s.advance = .ok ⟨name.text, _⟩ _ :=
    name_eq_ok.mpr ⟨_, Token.kind_of_terminal? hname, rfl, rfl⟩
  obtain ⟨type', hannotation, -⟩ :=
    (typeAnnotation?_gives hinner htype (by rw [hassign']; rfl)).ok htype'
  obtain ⟨value', hexpr, -⟩ :=
    (hinner.expr (Nat.zero_le _) hvalue (Token.ends_of_resumes h).1).ok hvalue'
  have hexpect : expect .assign u = .ok u.current u.advance :=
    expect_eq_ok.mpr ⟨hassign', rfl, rfl⟩
  rw [Rule.binding, advance_bind, bind_of_ok hname', bind_of_ok hannotation, bind_of_ok hexpect,
    bind_of_ok (show (Level.allowing n).freeExpr u.advance = _ from hexpr)]
  exact expect_of_resumes h _

theorem return_of_resumes {value : Option (Expr α)}
    (hspells : (value.elim .empty (Expr.whole .free)).Between s.advance t)
    (hfits : (value.elim .empty (Expr.whole .free)).nesting ≤ n) :
    ∃ problem, return_ (Level.allowing n) s = .error problem t := by
  unfold return_
  rw [advance_bind]
  cases value with
  | none =>
      obtain ⟨rfl, -⟩ := hspells
      obtain ⟨problem, hfails⟩ := freeExpr_of_resumes n h
      rw [isAt_bind, decide_eq_false (Token.ends_of_resumes h).2.1, if_neg Bool.false_ne_true]
      exact ⟨problem, bind_of_error hfails _⟩
  | some expr =>
      replace hspells : (expr.phrase .free).Between s.advance t := hspells
      obtain ⟨a, hkind, hbegins, -⟩ := expr.between_kind hspells
      have hmore : s.advance.current.kind ≠ .symbol .semicolon := by
        rw [hkind]
        rintro hsemicolon
        cases a <;> cases hsemicolon
        cases hbegins
      obtain ⟨value, hexpr, -⟩ := ((Level.allowing_recognises n).expr (Nat.zero_le _) hspells
        (Token.ends_of_resumes h).1).ok hfits
      rw [isAt_bind, decide_eq_false hmore, if_neg Bool.false_ne_true,
        bind_of_ok (show (Level.allowing n).freeExpr s.advance = _ from hexpr)]
      exact expect_of_resumes h _

/-- The rule for a statement fails behind a statement whose semicolon is missing. -/
theorem statement_of_stem {stmt : Stmt α} {p : Phrase α} (hstem : stmt.Stem p)
    (hspells : p.Between s t) (hfits : p.nesting ≤ n) :
    s.current.kind.opensBlock = false ∧
      ∃ problem, statement (Level.allowing n) s = .error problem t := by
  have hmake {γ : Type} {rule : Rule γ} {make : γ → Rule (Stmt Span)}
      (hrule : ∃ problem, rule s = .error problem t) :
      ∃ problem, (rule >>= make) s = .error problem t :=
    have ⟨problem, hfails⟩ := hrule
    ⟨problem, bind_of_error hfails make⟩
  cases hstem with
  | let_ binding | const binding =>
      rw [statement, current_bind, keyword_kind hspells]
      exact ⟨rfl, hmake (binding_of_resumes h hspells hfits)⟩
  | return_ value note =>
      rw [statement, current_bind, keyword_kind hspells]
      obtain ⟨_, ⟨-, rfl, -⟩, hvalue⟩ := hspells
      exact ⟨rfl, hmake (return_of_resumes h hvalue (Nat.max_le.mp hfits).2)⟩
  | break_ note | continue_ note =>
      obtain ⟨hkeyword, rfl, -⟩ := hspells
      rw [statement, current_bind, Token.kind_of_terminal? hkeyword]
      exact ⟨rfl, hmake (jump_of_resumes h rfl)⟩
  | expr value note =>
      obtain ⟨a, hkind, hbegins, -⟩ := value.between_kind hspells
      obtain ⟨hstatement, -, hblock⟩ := Terminal.beginsStatement_of_beginsExpr hbegins
      have hopens := Terminal.opensBlock_of_beginsExpr hbegins
      rw [← hkind] at hstatement hblock hopens
      obtain ⟨value', hexpr, -⟩ := ((Level.allowing_recognises n).expr (Nat.zero_le _) hspells
        (Token.ends_of_resumes h).1).ok hfits
      refine ⟨hopens, ?_⟩
      rw [statement_of_expr _ hstatement hblock,
        bind_of_ok (show (Level.allowing n).freeExpr s = _ from hexpr)]
      exact expect_of_resumes h _

end

end Rule

theorem Phrase.Strewn.of_spelled {allowed : Nat → List Token → Prop} {p : Phrase α} {n : Nat}
    {tokens : List Token} (h : p.Spelled .plain tokens) (hfits : p.nesting ≤ n) :
    p.Strewn allowed n (tokens.map .token) := by
  induction p generalizing n tokens with
  | empty | terminal | either | provided => exact ⟨tokens, rfl, h⟩
  | gap =>
      obtain rfl : tokens = [] := h
      exact fun bit hmem => nomatch hmem
  | seq first second ih ih' =>
      obtain ⟨front, back, rfl, hfirst, hsecond⟩ := h
      obtain ⟨hfits, hfits'⟩ := Nat.max_le.mp hfits
      exact ⟨_, _, List.map_append, ih hfirst hfits, ih' hsecond hfits'⟩
  | deeper inner ih =>
      cases n with
      | zero => cases hfits
      | succ n => exact ⟨n, rfl, ih h (Nat.le_of_succ_le_succ hfits)⟩
  | node note inner ih => exact ih h.1 hfits

/-- A statement that is nested no more than `n` levels deep, without the semicolon that would end
it. -/
structure Unterminated (n : Nat) (run : List Token) : Prop where
  written : ∃ (stmt : Stmt Span) (semicolon : Token), stmt.isTerminated = true ∧
    stmt.phrase.Spelled .plain (run ++ [semicolon]) ∧ stmt.phrase.nesting ≤ n

namespace Unterminated

variable {n : Nat} {run rest : List Token} {s : State}

theorem head (h : Unterminated n run) : ∃ first ∈ run.head?, first.kind ≠ .keyword .else_ ∧
    Rule.endsBlock first = false ∧ openBraces run = 0 := by
  obtain ⟨stmt, semicolon, hterminated, hspelled, hfits⟩ := h.written
  obtain ⟨p, hstem⟩ := Stmt.exists_stem hterminated
  obtain ⟨run', semicolon', heq, hrun, hsemicolon, -⟩ := hstem.spelled hspelled
  obtain ⟨rfl, hlast⟩ := List.append_inj' heq rfl
  obtain rfl : semicolon = semicolon' := List.singleton_inj.mp hlast
  obtain ⟨first, others, rfl⟩ := List.exists_cons_of_ne_nil (hstem.ne_nil hrun)
  have hstrewn : stmt.phrase.Strewn (fun _ _ => False) n
      ((first :: others ++ [semicolon]).map .token) := .of_spelled hspelled hfits
  obtain ⟨_, _, hbits, helse, hends⟩ := Rule.stmt_head hstrewn
  cases hbits
  refine ⟨first, rfl, helse, hends, ?_⟩
  have hbalanced := (stmt.braced.closed hspelled).foldl_braces 0
  have hkind : semicolon.kind = .symbol .semicolon := Token.kind_of_terminal? hsemicolon
  rw [List.foldl_append, List.foldl_cons, List.foldl_nil, Token.braces, hkind] at hbalanced
  rwa [openBraces_eq]

theorem valid (h : Unterminated n run) {next : Token} (hnext : next.resumes = true) :
    ∀ token ∈ run ++ [next], token.kind ≠ .invalid := by
  obtain ⟨stmt, semicolon, -, hspelled, -⟩ := h.written
  intro token hmem
  rcases List.mem_append.mp hmem with hmem | hmem
  · exact hspelled.kind_ne_invalid token (List.mem_append_left _ hmem)
  · obtain rfl := List.mem_singleton.mp hmem
    exact (Token.ends_of_resumes hnext).2.2.1

theorem fails (h : Unterminated n run) {next : Token} (hnext : next.resumes = true)
    (start : Span) : ∃ problem t, t.ahead = [next] ∧
      (Rule.statement (Level.allowing n)).Fails problem ⟨start, run ++ [next], start, []⟩ t := by
  obtain ⟨stmt, semicolon, hterminated, hspelled, hfits⟩ := h.written
  obtain ⟨p, hstem⟩ := Stmt.exists_stem hterminated
  obtain ⟨run', semicolon', heq, hrun, hsemicolon, -⟩ := hstem.spelled hspelled
  obtain ⟨rfl, hlast⟩ := List.append_inj' heq rfl
  generalize halone : (⟨start, run ++ [next], start, []⟩ : State) = alone
  have hclean : alone.Clean := by
    rw [← halone]
    exact ⟨rfl, h.valid hnext⟩
  have hbetween := Phrase.between_of_spelled hrun (by rw [← halone]) hclean
  have hahead : (alone.skip run.length).ahead = [next] := by
    rw [State.skip_ahead, ← halone, List.drop_left]
  generalize alone.skip run.length = t at hbetween hahead
  have hresumes : t.current.resumes = true := by rwa [State.current_of_ahead hahead]
  obtain ⟨hblock, problem, herror⟩ := Rule.statement_of_stem hresumes hstem hbetween
    (hstem.nesting_le.trans hfits)
  obtain ⟨⟨tokens, hreads, -⟩, hnoting⟩ :=
    (Rule.statement_confined (Level.allowing_confined n) hblock).error herror
  exact ⟨problem, t, hahead, ⟨tokens, hreads⟩, hnoting⟩

end Unterminated

/-- Statements without their semicolons, each with a problem of the token behind it. -/
def Straying.unterminated : Straying where
  allowed := Unterminated
  follows rest := ∃ next ∈ rest.head?, next.resumes = true
  site _ rest := rest.take 1
  steady s := (s.ahead.Pairwise fun a b => a.span.start < b.span.start) ∧
    ∀ problem ∈ s.problems, ∀ token ∈ s.ahead.tail, problem.start < token.span.start
  steady_of_sublist h hsub hproblems :=
    ⟨h.1.sublist hsub, fun problem hmem token hmem' =>
      h.2 problem (hproblems ▸ hmem) token (hsub.tail.subset hmem')⟩
  head hrun := have ⟨first, hfirst, helse, _⟩ := hrun.head; ⟨first, hfirst, helse⟩
  round := by
    intro n run rest s hrun ⟨next, hnext, hresumes⟩ hahead ⟨hordered, hbefore⟩
    obtain ⟨rest, rfl⟩ := List.head?_eq_some_iff.mp hnext
    obtain ⟨first, hfirst, -, hends, hbraces⟩ := hrun.head
    obtain ⟨others, rfl⟩ := List.head?_eq_some_iff.mp hfirst
    obtain ⟨problem, t, hleft, hfails⟩ := hrun.fails hresumes s.last
    have hspan := hfails.span_eq hleft
    have hfresh : ∀ earlier ∈ s.problems, earlier.start < problem.start := by
      intro earlier hearlier
      rw [Problem.start, Problem.start, hspan]
      exact hbefore earlier hearlier next (by simp [hahead])
    have hvalid : ∀ token ∈ first :: others ++ [next], token.kind ≠ .invalid := hrun.valid hresumes
    have hahead' : s.ahead = first :: others ++ [next] ++ rest := by simp [hahead]
    have hcount : ∀ read, first :: others ++ [next] = read ++ t.ahead →
        statementRest (s.current.kind = .keyword .for_) (openBraces read) read.isEmpty
          (t.ahead ++ rest) = 0 := by
      intro read hread
      rw [hleft] at hread ⊢
      obtain rfl := List.append_cancel_right hread
      rw [hbraces]
      exact Token.statementRest_of_resumes hresumes _ rest
    obtain ⟨last, hrecover⟩ := Level.recover_of_fails hfails rfl hvalid (by simp [hleft]) hahead'
      hfresh hcount
    rw [hleft] at hrecover
    have hcurrent : s.current = first := State.current_of_ahead hahead
    have hordered' : (next :: rest).Pairwise fun a b => a.span.start < b.span.start :=
      hordered.sublist (hahead ▸ List.sublist_append_right _ _)
    refine ⟨problem, last, ⟨next, by simp, hspan⟩, ⟨hordered', ?_⟩, fun read => ?_⟩
    · intro earlier hearlier token hmem
      rcases List.mem_append.mp hearlier with hearlier | hnew
      · exact hbefore earlier hearlier token (by simp [hahead, show token ∈ rest from hmem])
      · obtain rfl := List.mem_singleton.mp hnew
        rw [Problem.start, hspan]
        exact List.rel_of_pairwise_cons hordered' hmem
    · rw [Rule.blockRound_of_recover (hcurrent ▸ hends) hrecover]
      simp

end SourceFront
