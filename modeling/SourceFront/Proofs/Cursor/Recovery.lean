import SourceFront.Proofs.Cursor.Agreement

/-!
Giving up a statement or an item with a cursor. The loops that pass over what is left of
it end where counting the tokens ahead says, and every problem is accounted for.
-/

namespace SourceFront

variable {α : Type} {tokens passed : List Token} {place : Place} {depth : Nat} {c c' : Cursor}
  {s t : State}

theorem State.current_report (problem : Problem) (s : State) :
    (s.report problem).current = s.current := by
  unfold report
  split
  · rfl
  split
  · rfl
  · rfl

namespace Cursor.At

theorem pos_of_passes (h : c.At tokens place depth s) (h' : c'.At tokens place depth t)
    (hpasses : s.Passes passed t) : c'.pos = c.pos + passed.length := by
  have hleft := h.left
  have hleft' := h'.left
  have hlength := congrArg List.length hpasses.ahead
  rw [List.length_append] at hlength
  rw [Cursor.left, h.tokens_eq] at hleft
  rw [Cursor.left, h'.tokens_eq] at hleft'
  have := h.pos_le
  have := h'.pos_le
  omega

theorem drop_take (h : c.At tokens place depth s) (hpasses : s.Passes passed t) :
    (tokens.take (c.pos + passed.length)).drop c.pos = passed := by
  obtain ⟨front, htokens, hpos, -⟩ := h.position
  rw [htokens, hpos, hpasses.ahead, List.append_assoc, List.take_length_add_append,
    List.take_left, List.drop_left]

theorem pushed (h : c.At tokens place depth s) {problem : Problem}
    (hspan : problem.span = s.current.span) (hvalid : s.current.kind ≠ .invalid)
    (hnew : (s.problems.getLast?.map Problem.start) ≠ some problem.start) :
    ({ c with problems := c.problems ++ [problem] } : Cursor).At tokens place depth
      { s with problems := s.problems ++ [problem] } := by
  refine { h with located := ?_, distinct := ?_, answered := ?_, problems_eq := ?_ }
  · intro found hmem
    rcases List.mem_append.mp hmem with hmem | hmem
    · exact h.located found hmem
    · obtain rfl := List.mem_singleton.mp hmem
      exact ⟨s.current, h.current_mem, hvalid, hspan⟩
  · refine h.distinct.append (.singleton problem) fun last hlast other hother hsame => hnew ?_
    obtain rfl : problem = other := by simpa using hother
    rw [← h.problems_eq, Option.mem_def.mp hlast, Option.map_some, hsame]
  · intro token hmem
    obtain ⟨htoken, hanswer⟩ := h.answered token hmem
    refine ⟨htoken, hanswer.imp_right fun ⟨found, hfound, hstart⟩ => ?_⟩
    exact ⟨found, List.mem_append_left _ hfound, hstart⟩
  · exact congrArg (· ++ [problem]) h.problems_eq

end Cursor.At

namespace Walk

theorem report_apply (h : c.At tokens place depth s) {problem : Problem}
    (hspan : problem.span = s.current.span) :
    ∃ c', report problem c = .ok () c' ∧ c'.At tokens place depth (s.report problem) ∧
      (s.current.kind = .invalid ∨
        ∃ found ∈ c'.problems, found.start = s.current.span.start) := by
  have hstart : problem.start = s.current.span.start := congrArg Span.start hspan
  rw [report, bind_of_ok (current_apply h), State.report]
  by_cases hinvalid : s.current.kind = .invalid ∧ s.current.span = problem.span
  · rw [if_pos hinvalid, if_pos hinvalid]
    exact ⟨c, rfl, h, .inl hinvalid.1⟩
  rw [if_neg hinvalid, if_neg hinvalid]
  by_cases hlast : (s.problems.getLast?.map Problem.start) = some problem.start
  · rw [if_pos hlast]
    refine ⟨c, ?_, h, .inr ?_⟩
    · exact congrArg (EStateM.Result.ok ()) (if_pos (h.problems_eq ▸ hlast))
    · obtain ⟨found, hfound, hsame⟩ := Option.map_eq_some_iff.mp hlast
      exact ⟨found, h.problems_eq ▸ List.mem_of_getLast? hfound, hsame.trans hstart⟩
  · rw [if_neg hlast]
    have hvalid : s.current.kind ≠ .invalid := fun hkind => hinvalid ⟨hkind, hspan.symm⟩
    refine ⟨_, ?_, h.pushed hspan hvalid hlast, .inr ⟨problem, by simp, hstart⟩⟩
    exact congrArg (EStateM.Result.ok ()) (if_neg (h.problems_eq ▸ hlast))

theorem abandon_apply (h : c.At tokens place depth s)
    (hanswer : s.current.kind = .invalid ∨
      ∃ found ∈ c.problems, found.start = s.current.span.start) :
    ∃ c', abandon c = .ok () c' ∧ c'.At tokens place depth s := by
  refine ⟨{ c with abandoned := c.abandoned ++ [s.current] }, ?_, ?_⟩
  · rw [abandon, bind_of_ok (current_apply h)]
    rfl
  · refine { h with answered := fun token hmem => ?_ }
    rcases List.mem_append.mp hmem with hmem | hmem
    · exact h.answered token hmem
    · obtain rfl := List.mem_singleton.mp hmem
      exact ⟨h.current_mem, hanswer⟩

theorem left_lt_of_advance (h : c.At tokens place depth s) (h' : c'.At tokens place depth s.advance)
    {token : Token} {rest : List Token} (hahead : s.ahead = token :: rest) : c'.left < c.left := by
  rw [h.left, h'.left, State.advance, hahead]
  simp

theorem itemRest_loop (rest : List Token) (h : c.At tokens place depth s)
    (hahead : s.ahead = rest) :
    ∃ c', iterate (fun _ => itemRestRound) () c = .ok () c' ∧
      c'.At tokens place depth (s.skip (itemRest rest)) := by
  induction rest generalizing c s with
  | nil =>
      have heof : s.current.isEof = true := by simp [State.current, hahead, Token.eof, Token.isEof]
      refine ⟨c, iterate_of_last ?_, h⟩
      rw [itemRestRound, bind_of_ok (current_apply h), heof]
      rfl
  | cons token rest ih =>
      have hcurrent : s.current = token := State.current_of_ahead hahead
      by_cases hstop : (token.isEof || token.kind.beginsItem) = true
      · rw [itemRest, if_pos hstop]
        refine ⟨c, iterate_of_last ?_, h⟩
        rw [itemRestRound, bind_of_ok (current_apply h), hcurrent, if_pos hstop]
        rfl
      · obtain ⟨c', hrun, h'⟩ := advance_apply h
        obtain ⟨c'', hloop, h''⟩ := ih h' (by rw [State.advance, hahead, List.tail_cons])
        have hround : itemRestRound c = .ok (.more ()) c' := by
          rw [itemRestRound, bind_of_ok (current_apply h), hcurrent, if_neg hstop, bind_of_ok hrun]
          rfl
        refine ⟨c'', ?_, ?_⟩
        · rw [iterate_of_more hround (left_lt_of_advance h h' hahead), hloop]
        · rwa [itemRest, if_neg hstop, Nat.add_comm, State.skip]

theorem resumeItem_apply (h : c.At tokens place depth s) (h' : c'.At tokens place depth t)
    (hpasses : s.Passes passed t) :
    ∃ c'', resumeItem c.pos c' = .ok () c'' ∧
      c''.At tokens place depth (State.skipItem s t) := by
  have hpos := h.pos_of_passes h' hpasses
  rw [State.skipItem, State.readSince_of_passes hpasses]
  cases passed with
  | nil =>
      obtain ⟨u, hrun, hu⟩ := advance_apply h'
      obtain ⟨c'', hloop, h''⟩ := itemRest_loop t.advance.ahead hu rfl
      refine ⟨c'', ?_, h''⟩
      rw [resumeItem, bind_of_ok (rfl : (get : Walk Cursor) c' = .ok c' c')]
      dsimp only
      rw [if_pos (by simpa using hpos), bind_of_ok hrun, hloop]
  | cons token passed =>
      obtain ⟨c'', hloop, h''⟩ := itemRest_loop t.ahead h' rfl
      refine ⟨c'', ?_, h''⟩
      rw [resumeItem, bind_of_ok (rfl : (get : Walk Cursor) c' = .ok c' c')]
      dsimp only
      rw [if_neg (by simp [hpos]), hloop]

theorem statementRestRound_apply (inFor fresh : Bool) (open_ : Nat) {token : Token}
    {rest : List Token} (h : c.At tokens place depth s) (hahead : s.ahead = token :: rest) :
    (statementRest inFor open_ fresh (token :: rest) = 0 ∧
      statementRestRound inFor (open_, fresh) c = .ok (.last (open_, fresh)) c) ∨
    ∃ open' u, u.At tokens place depth s.advance ∧
      ((statementRest inFor open_ fresh (token :: rest) = 1 ∧
          statementRestRound inFor (open_, fresh) c = .ok (.last (open', false)) u) ∨
        (statementRest inFor open_ fresh (token :: rest) =
            1 + statementRest inFor open' false rest ∧
          statementRestRound inFor (open_, fresh) c = .ok (.more (open', false)) u)) := by
  obtain ⟨u, hrun, hu⟩ := advance_apply h
  have hround : statementRestRound inFor (open_, fresh) c = _ :=
    bind_of_ok (current_apply h) _
  rw [State.current_of_ahead hahead] at hround
  rw [hround]
  simp only [statementRest]
  split
  next hkind => exact .inl ⟨rfl, by rw [hkind]; rfl⟩
  next hkind =>
    refine .inr ⟨open_, u, hu, ?_⟩
    simp only [hkind, bind_of_ok hrun]
    split
    · exact .inl ⟨rfl, rfl⟩
    · exact .inr ⟨rfl, rfl⟩
  next hkind =>
    refine .inr ⟨open_ + 1, u, hu, .inr ⟨rfl, ?_⟩⟩
    simp only [hkind, bind_of_ok hrun]
    rfl
  next hkind =>
    simp only [hkind]
    rcases open_ with _ | _ | n
    · exact .inl ⟨rfl, rfl⟩
    · exact .inr ⟨0, u, hu, .inl ⟨rfl, bind_of_ok hrun _⟩⟩
    · exact .inr ⟨n + 1, u, hu, .inr ⟨rfl, bind_of_ok hrun _⟩⟩
  next =>
    by_cases hstop : (decide (open_ = 0) && !fresh &&
        (token.kind.beginsItemOnly || token.kind.beginsStatement)) = true
    · refine .inl ⟨if_pos hstop, ?_⟩
      simp only [hstop, if_true]
      rfl
    · refine .inr ⟨open_, u, hu, .inr ⟨if_neg hstop, ?_⟩⟩
      simp only [hstop]
      exact bind_of_ok hrun _

theorem statementRest_loop (inFor : Bool) (rest : List Token) (open_ : Nat) (fresh : Bool)
    (h : c.At tokens place depth s) (hahead : s.ahead = rest) :
    ∃ value c', iterate (statementRestRound inFor) (open_, fresh) c = .ok value c' ∧
      c'.At tokens place depth (s.skip (statementRest inFor open_ fresh rest)) := by
  induction rest generalizing c s open_ fresh with
  | nil =>
      have heof : s.current.kind = .eof := by simp [State.current, hahead, Token.eof]
      refine ⟨(open_, fresh), c, iterate_of_last ?_, h⟩
      rw [statementRestRound, bind_of_ok (current_apply h), heof]
      rfl
  | cons token rest ih =>
      rcases statementRestRound_apply inFor fresh open_ h hahead with
        ⟨hrest, hround⟩ | ⟨open', u, hu, ⟨hrest, hround⟩ | ⟨hrest, hround⟩⟩
      · exact ⟨_, c, iterate_of_last hround, by rwa [hrest]⟩
      · exact ⟨_, u, iterate_of_last hround, by rwa [hrest]⟩
      · obtain ⟨value, c', hloop, h'⟩ := ih open' false hu
          (by rw [State.advance, hahead, List.tail_cons])
        refine ⟨value, c', ?_, ?_⟩
        · rw [iterate_of_more hround (left_lt_of_advance h hu hahead), hloop]
        · rwa [hrest, Nat.add_comm]

theorem resumeStatement_apply (h : c.At tokens place depth s) (h' : c'.At tokens place depth t)
    (hpasses : s.Passes passed t) :
    ∃ c'', resumeStatement c.pos c' = .ok () c'' ∧
      c''.At tokens place depth (State.skipStatement s t) := by
  have hpos := h.pos_of_passes h' hpasses
  have hslice : slice c.pos c'.pos c' = .ok passed c' := by
    rw [slice, bind_of_ok (rfl : (get : Walk Cursor) c' = .ok c' c'), h'.tokens_eq,
      if_pos ⟨by omega, h'.pos_le⟩, hpos, h.drop_take hpasses]
    rfl
  obtain ⟨value, c'', hloop, h''⟩ := statementRest_loop
    (decide (s.current.kind = .keyword .for_)) t.ahead (openBraces passed) passed.isEmpty h' rfl
  have hfresh : decide (c'.pos = c.pos) = passed.isEmpty := by
    rw [hpos, Bool.eq_iff_iff, decide_eq_true_iff, List.isEmpty_iff, ← List.length_eq_zero_iff]
    omega
  refine ⟨c'', ?_, ?_⟩
  · rw [resumeStatement, bind_of_ok (tokenAt_apply (h'.tokens_eq ▸ h.current)),
      bind_of_ok (rfl : (get : Walk Cursor) c' = .ok c' c'), bind_of_ok hslice, hfresh,
      bind_of_ok hloop]
    rfl
  · rwa [State.skipStatement, State.readSince_of_passes hpasses]

theorem Follows.recover {walk : Walk α} {rule : Rule α} {resume : Nat → Walk Unit}
    {resume' : State → State → State} (hwalk : walk.Follows tokens place depth rule)
    (hframed : rule.Framed)
    (hresume : ∀ {c c' : Cursor} {s t : State} {passed : List Token},
      c.At tokens place depth s → c'.At tokens place depth t → s.Passes passed t →
      ∃ c'', resume c.pos c' = .ok () c'' ∧ c''.At tokens place depth (resume' s t)) :
    (Walk.recover walk resume).Follows tokens place depth (Rule.recover rule resume') where
  agrees {c s} h := by
    have hagrees := hwalk.agrees h
    unfold Walk.recover Rule.recover
    generalize walk c = outcome at hagrees
    generalize hrule : rule s = outcome' at hagrees
    cases hagrees with
    | ok h' => exact .ok h'
    | @error problem u t h' =>
        obtain ⟨hspan, passed, hpasses⟩ := hframed.error hrule
        obtain ⟨v, hreport, hv, hanswer⟩ := report_apply h' hspan
        have hreported := hpasses.trans (State.passes_report hspan)
        rw [← State.current_report] at hanswer
        obtain ⟨w, habandon, hw⟩ := abandon_apply hv hanswer
        obtain ⟨x, hrun, hx⟩ := hresume h hw hreported
        have hlast : (do
            report problem
            abandon
            resume c.pos
            return none : Walk (Option α)) u = .ok none x := by
          rw [bind_of_ok hreport, bind_of_ok habandon, bind_of_ok hrun]
          rfl
        dsimp only
        rw [hlast]
        exact .ok hx

end Walk

end SourceFront
