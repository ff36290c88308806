import SourceFront.Proofs.Run

/-!
More tokens behind those ahead. What is done at a place where some token is ahead, is
done in the same way if others follow it.
-/

namespace SourceFront

namespace State

/-- The same place if `more` tokens are behind those ahead, and the end at `stop`. -/
def extend (more : List Token) (stop : Span) (s : State) : State :=
  { s with ahead := s.ahead ++ more, stop }

variable {s t : State} (more : List Token) (stop : Span)

theorem Passes.ahead_ne_nil {tokens : List Token} (h : s.Passes tokens t) (hne : t.ahead ≠ []) :
    s.ahead ≠ [] := by
  rw [h.ahead]
  exact List.append_ne_nil_of_right_ne_nil _ hne

theorem extend_current (hne : s.ahead ≠ []) : (s.extend more stop).current = s.current := by
  obtain ⟨token, rest, hahead⟩ := List.exists_cons_of_ne_nil hne
  simp [current, extend, hahead]

theorem extend_advance (hne : s.ahead ≠ []) :
    (s.extend more stop).advance = s.advance.extend more stop := by
  rw [advance, extend_current more stop hne]
  obtain ⟨token, rest, hahead⟩ := List.exists_cons_of_ne_nil hne
  simp [advance, extend, hahead]

theorem skip_ahead (n : Nat) (s : State) : (s.skip n).ahead = s.ahead.drop n := by
  induction n generalizing s with
  | zero => rfl
  | succ n ih => rw [skip, ih, advance, List.drop_tail]

theorem skip_problems (n : Nat) (s : State) : (s.skip n).problems = s.problems := by
  induction n generalizing s with
  | zero => rfl
  | succ n ih => exact ih s.advance

theorem skip_stop (n : Nat) (s : State) : (s.skip n).stop = s.stop := by
  induction n generalizing s with
  | zero => rfl
  | succ n ih => exact ih s.advance

theorem skip_add (m n : Nat) (s : State) : s.skip (m + n) = (s.skip m).skip n := by
  induction m generalizing s with
  | zero => rw [Nat.zero_add, skip]
  | succ m ih => rw [Nat.succ_add, skip, ih, skip]

theorem extend_skip {n : Nat} (hle : n ≤ s.ahead.length) :
    (s.extend more stop).skip n = (s.skip n).extend more stop := by
  induction n generalizing s with
  | zero => rfl
  | succ n ih =>
      have hne : s.ahead ≠ [] := List.ne_nil_of_length_pos (by omega)
      rw [skip, extend_advance more stop hne, ih, skip]
      simp only [advance, List.length_tail]
      omega

theorem extend_readSince (s t : State) :
    readSince (s.extend more stop) (t.extend more stop) = readSince s t := by
  have hcount : (s.ahead ++ more).length - (t.ahead ++ more).length =
      s.ahead.length - t.ahead.length := by
    rw [List.length_append, List.length_append, Nat.add_sub_add_right]
  rw [readSince, readSince, extend, extend, hcount]
  exact List.take_append_of_le_length (Nat.sub_le _ _)

theorem extend_report (problem : Problem) (hne : s.ahead ≠ []) :
    (s.extend more stop).report problem = (s.report problem).extend more stop := by
  rw [report, report, extend_current more stop hne]
  split
  · rfl
  · show (if s.problems.getLast?.map Problem.start = some problem.start then _ else _) = _
    split
    · rfl
    · rfl

end State

theorem statementRest_le (inFor : Bool) (depth : Nat) (fresh : Bool) (tokens : List Token) :
    statementRest inFor depth fresh tokens ≤ tokens.length := by
  induction tokens generalizing depth fresh with
  | nil => exact Nat.le_refl 0
  | cons token tokens ih =>
      have hmore (depth : Nat) :
          1 + statementRest inFor depth false tokens ≤ (token :: tokens).length := by
        rw [Nat.add_comm]
        exact Nat.succ_le_succ (ih depth false)
      unfold statementRest
      split
      · exact Nat.zero_le _
      · split
        · exact Nat.succ_le_succ (Nat.zero_le _)
        · exact hmore _
      · exact hmore _
      · split
        · exact Nat.zero_le _
        · exact Nat.succ_le_succ (Nat.zero_le _)
        · exact hmore _
      · split
        · exact Nat.zero_le _
        · exact hmore _

theorem itemRest_le (tokens : List Token) : itemRest tokens ≤ tokens.length := by
  induction tokens with
  | nil => exact Nat.le_refl 0
  | cons token tokens ih =>
      rw [itemRest]
      split
      · exact Nat.zero_le _
      · rw [Nat.add_comm]
        exact Nat.succ_le_succ ih

theorem statementRest_append {inFor : Bool} {depth : Nat} {fresh : Bool} {tokens : List Token}
    (hlt : statementRest inFor depth fresh tokens < tokens.length) (more : List Token) :
    statementRest inFor depth fresh (tokens ++ more) =
      statementRest inFor depth fresh tokens := by
  induction tokens generalizing depth fresh with
  | nil => cases hlt
  | cons token tokens ih =>
      have hrest {depth : Nat}
          (hlt : 1 + statementRest inFor depth false tokens < (token :: tokens).length) :
          statementRest inFor depth false (tokens ++ more) =
            statementRest inFor depth false tokens := by
        rw [List.length_cons] at hlt
        exact ih (by omega)
      rw [List.cons_append]
      unfold statementRest at hlt ⊢
      generalize token.kind = kind at hlt ⊢
      split at hlt
      next => rfl
      next =>
        split at hlt
        next h => simp only [if_pos h]
        next h => simp only [if_neg h, hrest hlt]
      next => simp only [hrest hlt]
      next =>
        split at hlt
        next => rfl
        next => rfl
        next => simp only [hrest hlt]
      next =>
        split at hlt
        next h => simp only [if_pos h]
        next h => simp only [if_neg h, hrest hlt]

theorem itemRest_append {tokens : List Token} (hlt : itemRest tokens < tokens.length)
    (more : List Token) : itemRest (tokens ++ more) = itemRest tokens := by
  induction tokens with
  | nil => cases hlt
  | cons token tokens ih =>
      rw [List.cons_append]
      rw [itemRest] at hlt ⊢
      rw [itemRest]
      split
      · rfl
      next hgoes =>
        rw [if_neg hgoes, List.length_cons] at hlt
        rw [ih (by omega)]

namespace State

variable {s t : State} {tokens : List Token}

theorem skip_lt_length {n : Nat} (hne : (s.skip n).ahead ≠ []) : n < s.ahead.length := by
  rw [skip_ahead] at hne
  have hpos := List.length_pos_iff.mpr hne
  rw [List.length_drop] at hpos
  omega

theorem extend_skipStatement (hpasses : s.Passes tokens t)
    (hne : (skipStatement s t).ahead ≠ []) (more : List Token) (stop : Span) :
    skipStatement (s.extend more stop) (t.extend more stop) =
      (skipStatement s t).extend more stop := by
  have hlt := skip_lt_length hne
  have htne : t.ahead ≠ [] := List.ne_nil_of_length_pos (by omega)
  have hahead : (t.extend more stop).ahead = t.ahead ++ more := rfl
  unfold skipStatement
  rw [extend_readSince, extend_current more stop (hpasses.ahead_ne_nil htne)]
  dsimp only
  rw [hahead, statementRest_append hlt, extend_skip more stop (Nat.le_of_lt hlt)]

theorem extend_skipItem (hne : (skipItem s t).ahead ≠ []) (more : List Token) (stop : Span) :
    skipItem (s.extend more stop) (t.extend more stop) = (skipItem s t).extend more stop := by
  unfold skipItem at hne ⊢
  rw [extend_readSince]
  dsimp only at hne ⊢
  have hlt := skip_lt_length hne
  have hle := Nat.le_of_lt hlt
  split
  next hempty =>
    rw [if_pos hempty] at hlt hle
    have htne : t.ahead ≠ [] := by
      intro hnil
      simp [advance, hnil] at hlt
    have hahead : (t.advance.extend more stop).ahead = t.advance.ahead ++ more := rfl
    rw [extend_advance more stop htne, hahead, itemRest_append hlt, extend_skip more stop hle]
  next hread =>
    rw [if_neg hread] at hlt hle
    have hahead : (t.extend more stop).ahead = t.ahead ++ more := rfl
    rw [hahead, itemRest_append hlt, extend_skip more stop hle]

end State

end SourceFront
