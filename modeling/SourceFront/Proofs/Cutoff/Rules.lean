import SourceFront.Proofs.Cutoff.Basic
import SourceFront.Proofs.Recognition.Item

/-!
The rules of the grammar where their phrases break off. A block that breaks off between two
of its statements ends there. What breaks off in one of its statements is lost with it.
-/

namespace SourceFront

variable {α : Type}

theorem Phrase.breaks_keyword {k : Keyword} {p : Phrase α} {s t : State}
    (h : (seq (keyword k) p).Breaks s t) :
    s.current.kind = .keyword k ∧ p.Breaks s.advance t := by
  obtain h | ⟨_, ⟨hkeyword, rfl, -⟩, h⟩ := h
  · exact h.elim
  · exact ⟨Token.kind_of_terminal? hkeyword, h⟩

theorem Block.breaks_kind {body : Block α} {s t : State} (h : body.phrase.Breaks s t) :
    s.current.kind = .symbol .leftBrace := by
  cases body
  obtain h | ⟨_, hopen, -⟩ := h
  · exact h.elim
  · exact State.Spells.kind hopen

theorem Stmt.breaks_kind {stmt : Stmt α} {s t : State} (h : stmt.phrase.Breaks s t) :
    Rule.endsBlock s.current = false ∧ s.current.kind ≠ .keyword .else_ := by
  have hkeyword {k : Keyword} {p : Phrase α} (h : (Phrase.seq (.keyword k) p).Breaks s t)
      (hk : k.beginsItemOnly = false ∧ k ≠ .else_) :
      Rule.endsBlock s.current = false ∧ s.current.kind ≠ .keyword .else_ := by
    simp [Rule.endsBlock, Token.isEof, (Phrase.breaks_keyword h).1, TokenKind.beginsItemOnly, hk]
  cases stmt with
  | expr value note =>
      obtain h | ⟨_, -, h⟩ := h
      · exact ((value.whole_braced .free).not_breaks h).elim
      · exact h.elim
  | block body =>
      simp [Rule.endsBlock, Token.isEof, Block.breaks_kind h, TokenKind.beginsItemOnly]
  | if_ branch =>
      cases branch
      exact hkeyword h (by decide)
  | match_ choice =>
      cases choice
      exact hkeyword h (by decide)
  | _ => exact hkeyword h (by decide)

/-- The rules of the level break off where their phrases do. -/
structure Level.BreaksOff (α : Type) (n : Nat) (level : Level) : Prop where
  block : ∀ {body : Block α} {s t : State}, body.phrase.Breaks s t → t.AtItem →
    (Phrase.deeper body.phrase).nesting ≤ n → level.block.BreaksOff s t
  branch : ∀ {branch : IfStmt α} {s t : State}, branch.phrase.Breaks s t → t.AtItem →
    (Phrase.deeper branch.phrase).nesting ≤ n → level.branch.BreaksOff s t
  choice : ∀ {choice : MatchStmt α} {s t : State}, choice.phrase.Breaks s t → t.AtItem →
    (Phrase.deeper choice.phrase).nesting ≤ n → level.choice.BreaksOff s t

namespace Rule

variable {n : Nat} {inner : Level} {s t u : State} (hinner : inner.Recognises α n)
  (hbreaks : inner.BreaksOff α n) (hitem : t.AtItem)
include hinner hbreaks hitem

omit hinner in
theorem otherwise_breaksOff {β : Type} {otherwise : Option (ElseBranch α)}
    {rest : Option (ElseBranch Span) → Rule β}
    (h : (ElseBranch.optionPhrase otherwise).Breaks s t)
    (hfits : (ElseBranch.optionPhrase otherwise).nesting ≤ n) :
    (take? (.keyword .else_) >>= fun taken =>
      if taken then isAt (.keyword .if_) >>= fun found =>
        if found then inner.branch >>= fun branch => pure (some (.if_ branch)) >>= rest
        else inner.block >>= fun body => pure (some (.block body)) >>= rest
      else pure none >>= rest).BreaksOff s t := by
  rcases otherwise with _ | branch | body
  · exact h.elim
  · obtain ⟨helse, hbranch⟩ := Phrase.breaks_keyword h
    replace hbranch : branch.phrase.Breaks s.advance t := hbranch
    have hif : s.advance.current.kind = .keyword .if_ := by
      cases branch
      exact (Phrase.breaks_keyword hbranch).1
    exact .whenTaken helse (.whenAt hif ((hbreaks.branch hbranch hitem
      (by simpa [ElseBranch.optionPhrase] using hfits)).bind _))
  · obtain ⟨helse, hbody⟩ := Phrase.breaks_keyword h
    replace hbody : body.phrase.Breaks s.advance t := hbody
    have hif : s.advance.current.kind ≠ .keyword .if_ := by simp [Block.breaks_kind hbody]
    exact .whenTaken helse (.unlessAt hif ((hbreaks.block hbody hitem
      (by simpa [ElseBranch.optionPhrase] using hfits)).bind _))

theorem branch_breaksOff {branch : IfStmt α} (h : branch.phrase.Breaks s t)
    (hfits : branch.phrase.nesting ≤ n) : (Rule.branch inner).BreaksOff s t := by
  obtain ⟨cond, thenBlock, otherwise, note⟩ := branch
  simp only [IfStmt.phrase, Phrase.nesting, Phrase.nesting_concat_cons, Nat.max_le] at hfits
  obtain ⟨-, hcond', hthen', hotherwise', -⟩ := hfits
  obtain ⟨-, h | ⟨u, hcond, h⟩⟩ := Phrase.breaks_keyword h
  · exact ((cond.whole_braced .beforeBlock).not_breaks h).elim
  unfold Rule.branch
  rcases h with hthen | ⟨v, hthen, hotherwise⟩
  · have hbrace : u.current.kind.endsExpr .beforeBlock 0 = true := by
      rw [Block.breaks_kind hthen]
      rfl
    refine .advance (.given (hinner.expr (Nat.zero_le _) hcond hbrace) hcond'
      fun _ => ?_)
    exact (hbreaks.block hthen hitem hthen').bind _
  · replace hthen : thenBlock.phrase.Between u v := hthen
    have hbrace : u.current.kind.endsExpr .beforeBlock 0 = true := by
      rw [block_kind hthen]
      rfl
    refine .advance (.given (hinner.expr (Nat.zero_le _) hcond hbrace) hcond'
      fun _ => .given (hinner.block hthen) hthen' fun _ => ?_)
    exact otherwise_breaksOff hbreaks hitem hotherwise hotherwise'

theorem for_breaksOff {init : ForInit α} {cond step : Expr α} {body : Block α} {note : α}
    (h : (Stmt.for_ init cond step body note).phrase.Breaks s t)
    (hfits : (Stmt.for_ init cond step body note).phrase.nesting ≤ n) :
    (for_ inner).BreaksOff s t := by
  simp only [Stmt.phrase, Phrase.nesting, Phrase.nesting_concat_cons, Nat.max_le] at hfits
  obtain ⟨-, hinit', hcond', -, hstep', hbody', -⟩ := hfits
  obtain ⟨-, h | ⟨u, hinit, h | ⟨v, hcond, h | ⟨_, hsemicolon, h | ⟨w, hstep, hbody⟩⟩⟩⟩⟩ :=
    Phrase.breaks_keyword h
  · exact (init.braced.not_breaks h).elim
  · exact ((cond.whole_braced .beforeBlock).not_breaks h).elim
  · exact h.elim
  · exact ((step.whole_braced .beforeBlock).not_breaks h).elim
  replace hbody : body.phrase.Breaks w t := hbody
  have hbrace : w.current.kind.endsExpr .beforeBlock 0 = true := by
    rw [Block.breaks_kind hbody]
    rfl
  have hcond := condition_gives hinner hcond hsemicolon rfl
  have hstep := hinner.expr (Nat.zero_le _) hstep hbrace
  have hsemicolon' := State.Spells.kind hsemicolon
  obtain ⟨-, rfl, -⟩ := hsemicolon
  exact .advance (.given (forInit_gives hinner hinit) hinit' fun _ =>
    .given hcond hcond' fun _ => .expect hsemicolon'
      (.given hstep hstep' fun _ => (hbreaks.block hbody hitem hbody').bind _))

omit hinner in
theorem armBody_breaksOff {body : ArmBody α} (h : body.phrase.Breaks s t)
    (hfits : body.phrase.nesting ≤ n) : (armBody inner).BreaksOff s t := by
  cases body with
  | block body =>
      replace h : body.phrase.Breaks s t := h
      refine .current ?_
      simp only [Block.breaks_kind h]
      exact (hbreaks.block h hitem hfits).bind _
  | match_ choice =>
      replace h : choice.phrase.Breaks s t := h
      have hkind : s.current.kind = .keyword .match_ := by
        cases choice
        exact (Phrase.breaks_keyword h).1
      refine .current ?_
      simp only [hkind]
      exact (hbreaks.choice h hitem hfits).bind _
  | return_ value note => exact ((returnPhrase_braced value note).not_breaks h).elim
  | break_ note | continue_ note => exact ((jumpPhrase_braced _ note).not_breaks h).elim
  | expr value =>
      obtain h | ⟨_, -, h⟩ := h
      · exact ((value.whole_braced .free).not_breaks h).elim
      · exact h.elim

omit hinner in
theorem armRound_breaksOff {arm : MatchArm α} (h : arm.phrase.Breaks s t)
    (hfits : arm.phrase.nesting ≤ n) (read : List (MatchArm Span)) :
    (armRound inner read).BreaksOff s t := by
  obtain ⟨patterns, body, note⟩ := arm
  simp only [MatchArm.phrase, Phrase.nesting, Phrase.nesting_concat_cons, Nat.max_le] at hfits
  have hpatterns : (Phrase.separated (.symbol .pipe) (patterns.map Pattern.phrase)).Braced
      False := by
    refine .separated (.terminal rfl) fun p hmem => ?_
    obtain ⟨pattern, -, rfl⟩ := List.mem_map.mp hmem
    exact pattern.braced
  obtain h | ⟨u, hpatterns, h | ⟨_, harrow, hbody⟩⟩ := h
  · exact (hpatterns.not_breaks h).elim
  · exact h.elim
  obtain ⟨a, hkind, hclose⟩ := Pattern.patterns_kind hpatterns
  have hmore : s.current.kind ≠ .eof := by
    rw [hkind]
    cases a <;> simp [Terminal.kind]
  have harrow' := State.Spells.kind harrow
  obtain ⟨-, rfl, -⟩ := harrow
  exact .unlessAtClose (hkind ▸ hclose) hmore (.bind (.current (.given
    (patterns_gives hpatterns harrow') trivial fun _ => .expect harrow'
      ((armBody_breaksOff hbreaks hitem hbody hfits.2.2.1).bind _))) _)

variable (hframed : inner.Framed)
include hframed

theorem choice_breaksOff {choice : MatchStmt α} (h : choice.phrase.Breaks s t)
    (hfits : choice.phrase.nesting ≤ n) : (Rule.choice inner).BreaksOff s t := by
  obtain ⟨subject, arms, note⟩ := choice
  simp only [MatchStmt.phrase, Phrase.nesting, Phrase.nesting_concat_cons, Nat.max_le,
    MatchArm.phrases_eq_map, Phrase.nesting_concat_le, List.forall_mem_map] at hfits
  obtain ⟨-, hsubject', -, harms', -⟩ := hfits
  obtain ⟨-, h | ⟨u, hsubject, h | ⟨_, hopen, h | ⟨_, -, h⟩⟩⟩⟩ := Phrase.breaks_keyword h
  · exact ((subject.whole_braced .beforeBlock).not_breaks h).elim
  · exact h.elim
  · rw [MatchArm.phrases_eq_map] at h
    obtain ⟨front, arm, back, v, rfl, hfront, harm⟩ := Phrase.breaks_concat_map h
    have hsubject := condition_gives hinner hsubject hopen rfl
    have hopen' := State.Spells.kind hopen
    obtain ⟨-, rfl, -⟩ := hopen
    have hnone : ([] : List (MatchArm Span)).map (MatchArm.map forget) = [] := rfl
    obtain ⟨read, hrun⟩ := (armRound_readsRun hinner hframed front).iterate_eq hnone hfront trivial
      fun arm hmem => harms' arm (by simp [hmem])
    have hround := armRound_breaksOff hbreaks hitem harm (harms' arm (by simp)) read
    have harms : Rule.BreaksOff (Rule.arms inner) u.advance t := by
      obtain ⟨w, hlacks, hw⟩ := hround.iterate
      exact ⟨w, hrun.trans hlacks, hw⟩
    exact .advance (.given hsubject hsubject' fun _ => .expect hopen' (harms.bind _))
  · exact h.elim

theorem statement_breaksOff {stmt : Stmt α} (h : stmt.phrase.Breaks s t)
    (hfits : stmt.phrase.nesting ≤ n) : (statement inner).BreaksOff s t := by
  cases stmt with
  | let_ binding | const binding => exact ((binding.braced _).not_breaks h).elim
  | return_ value note => exact ((returnPhrase_braced value note).not_breaks h).elim
  | break_ note | continue_ note => exact ((jumpPhrase_braced _ note).not_breaks h).elim
  | expr value note =>
      obtain h | ⟨_, -, h⟩ := h
      · exact ((value.whole_braced .free).not_breaks h).elim
      · exact h.elim
  | block body =>
      replace h : body.phrase.Breaks s t := h
      refine .current ?_
      simp only [Block.breaks_kind h]
      exact (hbreaks.block h hitem hfits).bind _
  | if_ branch =>
      have hkind : s.current.kind = .keyword .if_ := by
        cases branch
        exact (Phrase.breaks_keyword h).1
      refine .current ?_
      simp only [hkind]
      exact (branch_breaksOff hinner hbreaks hitem h hfits).bind _
  | loop body note =>
      obtain ⟨hkind, hbody⟩ := Phrase.breaks_keyword h
      replace hbody : body.phrase.Breaks s.advance t := hbody
      refine .current ?_
      simp only [hkind]
      exact .advance ((hbreaks.block hbody hitem (by simpa [Stmt.phrase] using hfits)).bind _)
  | while_ cond body note =>
      simp only [Stmt.phrase, Phrase.nesting, Phrase.nesting_concat_cons, Nat.max_le] at hfits
      obtain ⟨-, hcond', hbody', -⟩ := hfits
      obtain ⟨hkind, h | ⟨u, hcond, hbody⟩⟩ := Phrase.breaks_keyword h
      · exact ((cond.whole_braced .beforeBlock).not_breaks h).elim
      replace hbody : body.phrase.Breaks u t := hbody
      have hbrace : u.current.kind.endsExpr .beforeBlock 0 = true := by
        rw [Block.breaks_kind hbody]
        rfl
      have hcond := hinner.expr (Nat.zero_le _) hcond hbrace
      refine .current ?_
      simp only [hkind]
      exact .advance (.given hcond hcond' fun _ => (hbreaks.block hbody hitem hbody').bind _)
  | for_ init cond step body note =>
      have hkind : s.current.kind = .keyword .for_ := (Phrase.breaks_keyword h).1
      refine .current ?_
      simp only [hkind]
      exact for_breaksOff hinner hbreaks hitem h hfits
  | match_ choice =>
      have hkind : s.current.kind = .keyword .match_ := by
        cases choice
        exact (Phrase.breaks_keyword h).1
      refine .current ?_
      simp only [hkind]
      exact (choice_breaksOff hinner hbreaks hitem hframed h hfits).bind _

theorem blockRound_lost {stmt : Stmt α} (h : stmt.phrase.Breaks s t)
    (hfits : stmt.phrase.nesting ≤ n) (read : List (Stmt Span)) :
    ∃ u, blockRound inner read s = .ok (.more read) u ∧ t.Lost u := by
  obtain ⟨tokens, hreads, hbegins⟩ := h.exists_reads
  obtain ⟨u, hrecover, hlost⟩ := (statement_breaksOff hinner hbreaks hitem hframed h hfits).recover
    hitem hreads.toPasses (stmt.braced.opened hbegins).2
  refine ⟨u, ?_, hlost⟩
  rw [blockRound, current_bind, (Stmt.breaks_kind h).1, if_neg Bool.false_ne_true,
    bind_of_ok hrecover]
  simp [pure_apply]

omit hinner hbreaks hitem hframed in
theorem blockRound_of_end (h : endsBlock s.current = true) (read : List (Stmt Span)) :
    blockRound inner read s = .ok (.last read) s := by
  rw [blockRound, current_bind, if_pos h, pure_apply]

theorem stmts_break {stmts : List (Stmt α)}
    (h : (Phrase.gapped (Stmt.phrases stmts)).Breaks s t)
    (hfits : (Phrase.gapped (Stmt.phrases stmts)).nesting ≤ n) :
    ∃ tokens read u, s.Reads tokens t ∧ iterate (blockRound inner) [] s = .ok read u ∧
      (u = t ∧ Balanced tokens ∨ t.Lost u ∧ Opened tokens) := by
  rw [Stmt.phrases_eq_map] at h hfits
  rw [Phrase.nesting_gapped_le, List.forall_mem_map] at hfits
  obtain ⟨front, back, v, rfl, hfront, hbehind⟩ := Phrase.breaks_gapped_map h
  have hnext : v.current.kind ≠ .keyword .else_ := by
    rcases hbehind with rfl | ⟨stmt, -, hstmt⟩
    · intro helse
      have hbegins := hitem.begins
      rw [helse] at hbegins
      cases hbegins
    · exact (Stmt.breaks_kind hstmt).2
  have hnone : ([] : List (Stmt Span)).map (Stmt.map forget) = [] := rfl
  have hrounds : ReadsRun True n (fun _ => False) (· ≠ .keyword .else_) (blockRound inner)
      (fun read shapes => read.map (Stmt.map forget) = shapes) Stmt.phrase (Stmt.map forget)
      front := blockRound_readsRun hinner hframed (fun _ => False.elim) front
  obtain ⟨read, hrun⟩ := hrounds.iterate_eq hnone hfront hnext fun stmt hmem =>
    hfits stmt (List.mem_append_left back hmem)
  obtain ⟨tokens, hreads, hspelled⟩ := hfront.exists_reads
  have hbraced : (Phrase.concat (front.map Stmt.phrase)).Braced True := by
    refine .concat fun p hmem => ?_
    obtain ⟨stmt, -, rfl⟩ := List.mem_map.mp hmem
    exact stmt.braced
  rcases hbehind with rfl | ⟨stmt, hmem, hstmt⟩
  · have hends : endsBlock v.current = true := by simp [endsBlock, hitem.begins]
    refine ⟨tokens, read, v, hreads, ?_, .inl ⟨rfl, hbraced.closed hspelled⟩⟩
    rw [hrun, iterate_of_last (blockRound_of_end hends read)]
  · obtain ⟨u, hround, hlost⟩ := blockRound_lost hinner hbreaks hitem hframed hstmt
      (hfits stmt (List.mem_append_right front (List.mem_of_mem_head? hmem))) read
    obtain ⟨more, hmore, hbegins⟩ := hstmt.exists_reads
    have hends : endsBlock u.current = true := by
      rw [hlost.current]
      rfl
    have hlt : u.ahead.length < v.ahead.length := by
      have hgoes := (Stmt.breaks_kind hstmt).1
      obtain ⟨rest, hahead⟩ := State.ahead_of_current (s := v) (by
        intro heof
        simp [endsBlock, Token.isEof, heof] at hgoes)
      simp [hlost.ahead, hahead]
    refine ⟨_, read, u, hreads.trans hmore, ?_, .inr ⟨hlost,
      (stmt.braced.opened hbegins).2.behind (hbraced.closed hspelled)⟩⟩
    rw [hrun, iterate_of_more hround hlt, iterate_of_last (blockRound_of_end hends read)]

/-- A block that breaks off: between two of its statements one brace is open, and it ends
there; in one of them more are open, and what follows is lost. -/
theorem block_lacks {body : Block α} (h : body.phrase.Breaks s t)
    (hfits : body.phrase.nesting ≤ n) :
    ∃ tokens u, s.Reads tokens t ∧ (block inner).Lacks s u ∧
      ((u = t ∧ ∀ depth, tokens.foldl Token.braces depth = depth + 1) ∨
        t.Lost u ∧ ∀ depth, depth + 1 < tokens.foldl Token.braces depth) := by
  obtain ⟨stmts, note⟩ := body
  simp only [Block.phrase, Phrase.nesting, Phrase.nesting_concat_cons, Nat.max_le] at hfits
  obtain h | ⟨_, ⟨hopen, rfl, -⟩, h | ⟨_, -, h⟩⟩ := h
  · exact h.elim
  · obtain ⟨tokens, read, u, hreads, hrun, hu⟩ :=
      stmts_break hinner hbreaks hitem hframed h hfits.2.1
    have hkind := Token.kind_of_terminal? hopen
    have hclose : u.current.kind ≠ .symbol .rightBrace := by
      rcases hu with ⟨rfl, -⟩ | ⟨hlost, -⟩
      · intro hbrace
        have hbegins := hitem.begins
        rw [hbrace] at hbegins
        cases hbegins
      · simp [hlost.current, Token.eof]
    have hexpect : (expect .rightBrace).Lacks u u := by
      rw [Lacks, expect_apply, if_neg hclose, failExpecting_apply]
      rfl
    refine ⟨s.current :: tokens, u, (State.reads_symbol hkind).trans hreads, ?_, ?_⟩
    · exact .behind (expect_eq_ok.mpr ⟨hkind, rfl, rfl⟩) (.behind hrun (hexpect.bind _))
    · simp only [List.foldl_cons, Token.braces_left hkind]
      rcases hu with ⟨rfl, hbalanced⟩ | ⟨hlost, hopened⟩
      · exact .inl ⟨rfl, fun depth => hbalanced.foldl_braces (depth + 1)⟩
      · exact .inr ⟨hlost, fun depth => hopened (depth + 1)⟩
  · exact h.elim

theorem block_breaksOff {body : Block α} (h : body.phrase.Breaks s t)
    (hfits : body.phrase.nesting ≤ n) : (block inner).BreaksOff s t := by
  obtain ⟨_, u, -, hlacks, hu⟩ := block_lacks hinner hbreaks hitem hframed h hfits
  exact ⟨u, hlacks, hu.imp And.left And.left⟩

end Rule

namespace Level

theorem lowest_breaksOff : lowest.BreaksOff α 0 where
  block _ _ hfits := absurd hfits (Nat.not_succ_le_zero _)
  branch _ _ hfits := absurd hfits (Nat.not_succ_le_zero _)
  choice _ _ hfits := absurd hfits (Nat.not_succ_le_zero _)

theorem BreaksOff.above {n : Nat} {level : Level} (h : level.BreaksOff α n)
    (hlevel : level.Recognises α n) (hframed : level.Framed) :
    level.above.BreaksOff α (n + 1) where
  block hbreaks hitem hfits :=
    Rule.block_breaksOff hlevel h hitem hframed hbreaks (Nat.le_of_succ_le_succ hfits)
  branch hbreaks hitem hfits :=
    Rule.branch_breaksOff hlevel h hitem hbreaks (Nat.le_of_succ_le_succ hfits)
  choice hbreaks hitem hfits :=
    Rule.choice_breaksOff hlevel h hitem hframed hbreaks (Nat.le_of_succ_le_succ hfits)

theorem allowing_breaksOff (n : Nat) : (allowing n).BreaksOff α n := by
  induction n with
  | zero => exact lowest_breaksOff
  | succ n ih => exact ih.above (allowing_recognises n) (allowing_framed n)

end Level

theorem Definition.breaks {definition : Definition α} {s t : State}
    (h : definition.phrase.Breaks s t) :
    (∃ function, definition = .function function) ∧ s.current.kind = .keyword .fn := by
  by_cases hfunction : ∃ function, definition = .function function
  · refine ⟨hfunction, ?_⟩
    obtain ⟨function, rfl⟩ := hfunction
    exact (Phrase.breaks_keyword h).1
  · have hbraced : definition.phrase.Braced False :=
      braced fun function hsame => hfunction ⟨function, hsame⟩
    exact (hbraced.not_breaks h).elim

namespace Rule

variable {β : Type} {n : Nat} {level : Level} {s t u : State}

/-- The rule fails where the body of a function fails that breaks off. -/
def FailsInBody (α : Type) (n : Nat) (level : Level) (rule : Rule β) (s t : State) : Prop :=
  ∃ (front : Phrase α) (body : Block α) (v : State), front.Between s v ∧ front.Braced False ∧
    body.phrase.Breaks v t ∧ (Phrase.deeper body.phrase).nesting ≤ n ∧
    ∀ u, level.block.Lacks v u → rule.Lacks s u

variable (hlevel : level.Recognises α n)
include hlevel

theorem function_failsInBody {function : FunctionDef α} (h : function.phrase.Breaks s t)
    (hfits : function.phrase.nesting ≤ n) : (Rule.function level).FailsInBody α n level s t := by
  obtain ⟨proto, body, note⟩ := function
  simp only [FunctionDef.phrase, Phrase.nesting, Phrase.nesting_concat_cons, Nat.max_le] at hfits
  obtain ⟨-, hproto', hbody', -⟩ := hfits
  obtain h | ⟨_, hfn, h | ⟨v, hproto, hbody⟩⟩ := h
  · exact h.elim
  · exact (proto.braced.not_breaks h).elim
  replace hbody : body.phrase.Breaks v t := hbody
  refine ⟨.seq (.keyword .fn) proto.phrase, body, v, ⟨_, hfn, hproto⟩,
    .seq (.terminal rfl) proto.braced, hbody, hbody', fun u hlacks => ?_⟩
  obtain ⟨-, rfl, -⟩ := hfn
  obtain ⟨_, ⟨hname, rfl, -⟩, _, hopen, _, hparams, _, hclose, hresult⟩ := hproto
  have hsame : (⟨proto.name.text, s.advance.current.span⟩ : Name Span).map forget =
      proto.name.map forget := rfl
  obtain ⟨proto', hproto, -⟩ := (prototype_gives hlevel hsame hopen hparams hclose hresult
    (by rw [Block.breaks_kind hbody]; rfl)).ok hproto'
  have hname : name s.advance = .ok ⟨proto.name.text, s.advance.current.span⟩
      s.advance.advance := name_eq_ok.mpr ⟨_, Token.kind_of_terminal? hname, rfl, rfl⟩
  exact .behind (advance_apply s) (.behind hname (.behind hproto (hlacks.bind _)))

theorem definition_failsInBody {definition : Definition α} (h : definition.phrase.Breaks s t)
    (hfits : definition.phrase.nesting ≤ n) :
    (Rule.definition level).FailsInBody α n level s t := by
  obtain ⟨⟨function, rfl⟩, hkind⟩ := Definition.breaks h
  obtain ⟨front, body, v, hfront, hbraced, hbody, hbody', hlacks⟩ :=
    function_failsInBody hlevel h hfits
  refine ⟨front, body, v, hfront, hbraced, hbody, hbody', fun u hu => ?_⟩
  refine .behind (current_apply s) ?_
  simp only [hkind]
  exact (hlacks u hu).bind _

theorem declaration_failsInBody {decl : Declaration α} (h : decl.phrase.Breaks s t)
    (hfits : decl.phrase.nesting ≤ n) :
    s.current.kind ≠ .keyword .import_ ∧
      (Rule.declaration level).FailsInBody α n level s t := by
  obtain ⟨isPublic, definition, note⟩ := decl
  simp only [Declaration.phrase, Phrase.nesting, Nat.max_le] at hfits
  obtain h | ⟨w, hpub, h⟩ := h
  · exact ((Declaration.pub_braced isPublic).not_breaks h).elim
  obtain ⟨front, body, v, hfront, hbraced, hbody, hbody', hlacks⟩ :=
    definition_failsInBody hlevel h hfits.2
  have hfn := (Definition.breaks h).2
  have htake : take? (.keyword .pub) s = .ok isPublic w := by
    cases isPublic with
    | false =>
        obtain ⟨rfl, -⟩ := hpub
        exact take?_eq_ok.mpr (.inr ⟨by simp [hfn], rfl, rfl⟩)
    | true =>
        obtain ⟨hpub, rfl, -⟩ := hpub
        exact take?_eq_ok.mpr (.inl ⟨Token.kind_of_terminal? hpub, rfl, rfl⟩)
  refine ⟨?_, .seq _ front, body, v, ⟨w, hpub, hfront⟩,
    .seq (Declaration.pub_braced isPublic) hbraced, hbody, hbody', fun u hu => ?_⟩
  · cases isPublic with
    | false =>
        obtain ⟨rfl, -⟩ := hpub
        simp [hfn]
    | true => simp [State.Spells.kind hpub, Terminal.kind]
  · exact .behind (current_apply s) (.behind htake ((hlacks u hu).bind _))

theorem item_failsInBody {item : Item α} (h : item.phrase.Breaks s t)
    (hfits : item.phrase.nesting ≤ n) : (Rule.item level).FailsInBody α n level s t := by
  cases item with
  | import_ source =>
      have hbraced : (Item.import_ source).phrase.Braced False :=
        .node (.cons (.terminal rfl) (.cons (.terminal rfl) (.cons (.terminal rfl) .nil)))
      exact (hbraced.not_breaks h).elim
  | declaration decl =>
      obtain ⟨himport, front, body, v, hfront, hbraced, hbody, hbody', hlacks⟩ :=
        declaration_failsInBody hlevel h hfits
      refine ⟨front, body, v, hfront, hbraced, hbody, hbody', fun u hu => ?_⟩
      have hat : isAt (.keyword .import_) s = .ok false s := by
        simp [isAt, current_bind, pure_apply, himport]
      exact .behind hat ((hlacks u hu).bind _)

omit hlevel in
theorem item_lacks {item : Item α} (h : item.phrase.Breaks s t) (hitem : t.AtItem)
    (hfits : item.phrase.nesting ≤ n) :
    ∃ tokens u, s.Reads tokens t ∧ (Rule.item (.allowing n)).Lacks s u ∧
      (u = t ∧ openBraces tokens = 1 ∨ t.Lost u ∧ 1 < openBraces tokens) := by
  obtain ⟨front, body, v, hfront, hbraced, hbody, hbody', hlacks⟩ :=
    item_failsInBody (Level.allowing_recognises n) h hfits
  cases n with
  | zero => exact absurd hbody' (Nat.not_succ_le_zero _)
  | succ n =>
      obtain ⟨tokens, u, hreads, hblock, hu⟩ := block_lacks (Level.allowing_recognises n)
        (Level.allowing_breaksOff n) hitem (Level.allowing_framed n) hbody
        (Nat.le_of_succ_le_succ hbody')
      obtain ⟨before, hbefore, hspelled⟩ := hfront.exists_reads
      refine ⟨_, u, hbefore.trans hreads, hlacks u hblock, ?_⟩
      rw [openBraces_eq, List.foldl_append, (hbraced.closed hspelled).foldl_braces]
      exact hu.imp (.imp_right fun hbraces => hbraces 0) (.imp_right fun hbraces => hbraces 0)

end Rule

end SourceFront
