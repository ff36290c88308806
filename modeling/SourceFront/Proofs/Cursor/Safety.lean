import SourceFront.Proofs.Cursor.Rules

/-!
Every token list is walked through to its end without a breach: all indices are in the
list, no counter falls below zero, each iteration of a loop moves on, and recursion is
never deeper than it goes.
-/

namespace SourceFront

theorem State.last_ofTokens (tokens : List Token) :
    (ofTokens tokens).last = (ofTokens tokens).current.span := by
  rcases List.eq_nil_or_concat tokens with rfl | ⟨before, token, rfl⟩
  · rfl
  · rw [List.concat_eq_append, ofTokens, List.getLast?_concat, List.dropLast_concat]
    by_cases heof : token.isEof = true
    · cases before <;> simp [heof, current, Token.eof]
    · cases before <;> simp [heof, current]

theorem State.problems_ofTokens (tokens : List Token) : (ofTokens tokens).problems = [] := by
  rw [ofTokens]
  cases tokens.getLast? with
  | none => rfl
  | some token => by_cases heof : token.isEof = true <;> simp [heof]

theorem Cursor.ofTokens_at (tokens : List Token) :
    (ofTokens tokens).At (ofTokens tokens).tokens .free 0 (.ofTokens tokens) where
  located _ hmem := absurd hmem List.not_mem_nil
  distinct := .nil
  answered _ hmem := absurd hmem List.not_mem_nil
  tokens_eq := rfl
  place_eq := rfl
  depth_eq := rfl
  problems_eq := (State.problems_ofTokens tokens).symm
  position := ⟨[], rfl, rfl, State.last_ofTokens tokens⟩

namespace Walk

variable {tokens : List Token} {depth : Nat} {c : Cursor} {s : State}

/-- Walking through a list finds what reading it finds. -/
theorem items_ofTokens (tokens : List Token) :
    ∃ items after state, Walk.items .outermost (.ofTokens tokens) = .ok items after ∧
      Rule.items .outermost (.ofTokens tokens) = .ok items state ∧
      after.At (Cursor.ofTokens tokens).tokens .free 0 state := by
  have hfollow : Calls.outermost.Follow (Cursor.ofTokens tokens).tokens 0 Level.outermost :=
    Calls.deep_follow Level.limit (Nat.zero_add _)
  have hagrees := (items_follows hfollow).agrees (Cursor.ofTokens_at tokens)
  generalize hwalk : Walk.items .outermost (.ofTokens tokens) = outcome at hagrees
  generalize hrule : Rule.items .outermost (.ofTokens tokens) = outcome' at hagrees
  cases hagrees with
  | ok h => exact ⟨_, _, _, rfl, rfl, h⟩
  | error h => exact absurd hrule (Rule.items_ne_error _ _ _ _)

/-- Each iteration of the loop comes to its end, and if the loop goes on, the index has
moved forward. -/
def Moves {σ : Type} (round : Walk (Round σ)) (tokens : List Token) (depth : Nat) : Prop :=
  ∀ (c : Cursor) (s : State), c.At tokens .free depth s →
    ∃ next c', round c = .ok next c' ∧ ∀ value, next = .more value → c.pos < c'.pos

theorem Follows.moves {σ : Type} {round : Walk (Round σ)} {round' : Rule (Round σ)}
    (hfollows : round.Follows tokens .free depth round') (hadvances : round'.Advances)
    (hends : ∀ s problem t, round' s ≠ .error problem t) : round.Moves tokens depth := by
  intro c s h
  have hagrees := hfollows.agrees h
  generalize hwalk : round c = outcome at hagrees
  generalize hrule : round' s = outcome' at hagrees
  cases hagrees with
  | @ok next c' t h' =>
      refine ⟨next, c', rfl, ?_⟩
      rintro value rfl
      have hlt := hadvances s t value hrule
      have hleft := h.left
      have hleft' := h'.left
      rw [Cursor.left, h.tokens_eq] at hleft
      rw [Cursor.left, h'.tokens_eq] at hleft'
      omega
  | error h' => exact absurd hrule (hends _ _ _)

/-- Whatever the tokens, walking through them is never in breach and ends at the end of the
source, with no phrase open and in the free place; it makes up the module that is read
from them, and each iteration over items and over the statements of a block moves on. -/
theorem items_safe (tokens : List Token) :
    (∃ items after, Walk.items .outermost (.ofTokens tokens) = .ok items after ∧
      (∃ token, after.tokens[after.pos]? = some token ∧ token.kind = .eof) ∧
      after.depth = 0 ∧ after.place = .free ∧
      (Reading.ofTokens tokens).readModule.1.items = items ∧
      (Reading.ofTokens tokens).readModule.2.state.problems = after.problems) ∧
    (∀ read, (moduleRound .outermost read).Moves (Cursor.ofTokens tokens).tokens 0) ∧
    ∀ depth n read, depth + n = Level.limit →
      (blockRound (.deep (n + 1)) read).Moves (Cursor.ofTokens tokens).tokens depth := by
  refine ⟨?_, fun read => ?_, fun depth n read hdepth => ?_⟩
  · obtain ⟨items, after, state, hwalk, hrule, hat⟩ := items_ofTokens tokens
    have hend := Rule.items_end (Level.allowing_consuming Level.limit) hrule
    refine ⟨items, after, hwalk, ⟨state.current, ?_, ?_⟩, hat.depth_eq, hat.place_eq, ?_, ?_⟩
    · rw [hat.tokens_eq]
      exact hat.current
    · simpa [Token.isEof] using hend
    · simp only [Reading.readModule, Reading.ofTokens, hrule]
    · simp only [Reading.readModule, Reading.ofTokens, hrule, hat.problems_eq]
  · refine (moduleRound_follows (Calls.deep_follow Level.limit (Nat.zero_add _)) read).moves
      (Rule.moduleRound_advances (Level.allowing_consuming _) read) ?_
    exact Rule.moduleRound_ne_error read
  · exact (blockRound_follows (Calls.deep_follow n hdepth) read).moves
      (Rule.blockRound_advances (Level.allowing_consuming _) read) (Rule.blockRound_ne_error read)

end Walk

end SourceFront
