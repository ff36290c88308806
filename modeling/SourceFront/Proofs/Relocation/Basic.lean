import SourceFront.Proofs.Frame
import SourceFront.Proofs.Notes

/-!
Moving tokens. If the ranges of the tokens are changed but not their order, a rule
does the same as before: what it reads, and the problems it meets, only move along.
-/

namespace SourceFront

/-- A change of ranges that keeps the order of the source. -/
structure Relocation where
  move : Span → Span
  move_merge : ∀ a b, move (a.merge b) = (move a).merge (move b)
  start_le_iff : ∀ a b, (move a).start ≤ (move b).start ↔ a.start ≤ b.start

variable (f : Relocation)

theorem Relocation.start_eq_iff (a b : Span) :
    (f.move a).start = (f.move b).start ↔ a.start = b.start := by
  rw [Nat.eq_iff_le_and_ge, Nat.eq_iff_le_and_ge, f.start_le_iff, f.start_le_iff]

/-- The token in another place. -/
def Token.move (token : Token) : Token :=
  { token with span := f.move token.span }

/-- The problem in another place. -/
def Problem.move (problem : Problem) : Problem :=
  { problem with span := f.move problem.span }

/-- The state with all that is in it in other places. -/
def State.move (state : State) : State :=
  ⟨f.move state.last, state.ahead.map (Token.move f), f.move state.stop,
    state.problems.map (Problem.move f)⟩

namespace State

variable (s : State)

theorem move_current : (s.move f).current = s.current.move f := by
  cases hahead : s.ahead with
  | nil => simp [current, move, hahead, Token.move, Token.eof]
  | cons token rest => simp [current, move, hahead]

theorem move_advance : (s.move f).advance = s.advance.move f := by
  rw [advance, move_current]
  cases hahead : s.ahead with
  | nil => simp [advance, move, hahead]
  | cons token rest => simp [advance, move, hahead, Token.move]

theorem move_skip (n : Nat) : (s.move f).skip n = (s.skip n).move f := by
  induction n generalizing s with
  | zero => rfl
  | succ n ih => rw [skip, move_advance, ih, skip]

theorem move_readSince (t : State) :
    readSince (s.move f) (t.move f) = (readSince s t).map (Token.move f) := by
  simp [readSince, move, List.map_take]

end State

theorem openBraces_move (tokens : List Token) :
    openBraces (tokens.map (Token.move f)) = openBraces tokens := by
  rw [openBraces, List.foldl_map]
  rfl

theorem statementRest_move (inFor : Bool) (depth : Nat) (fresh : Bool) (tokens : List Token) :
    statementRest inFor depth fresh (tokens.map (Token.move f)) =
      statementRest inFor depth fresh tokens := by
  induction tokens generalizing depth fresh with
  | nil => rfl
  | cons token tokens ih =>
      have hkind : (token.move f).kind = token.kind := rfl
      unfold statementRest
      simp only [List.map_cons, ih, hkind]

theorem itemRest_move (tokens : List Token) :
    itemRest (tokens.map (Token.move f)) = itemRest tokens := by
  induction tokens with
  | nil => rfl
  | cons token tokens ih =>
      rw [List.map_cons, itemRest, itemRest, ih]
      rfl

namespace State

variable (s : State)

theorem move_skipStatement (t : State) :
    skipStatement (s.move f) (t.move f) = (skipStatement s t).move f := by
  have hahead : (t.move f).ahead = t.ahead.map (Token.move f) := rfl
  have hkind : (s.current.move f).kind = s.current.kind := rfl
  simp only [skipStatement, move_readSince, openBraces_move, move_current, hahead, hkind,
    statementRest_move, move_skip, List.isEmpty_map]

theorem move_skipItem (t : State) :
    skipItem (s.move f) (t.move f) = (skipItem s t).move f := by
  have hahead (u : State) : (u.move f).ahead = u.ahead.map (Token.move f) := rfl
  unfold skipItem
  dsimp only
  rw [move_readSince, List.isEmpty_map, move_advance, ← apply_ite (move f), hahead,
    itemRest_move, move_skip]

/-- A problem of the current token is reported in its new place, if it was reported. -/
theorem move_report {problem : Problem} (hspan : problem.span = s.current.span) :
    (s.move f).report (problem.move f) = (s.report problem).move f := by
  have hlast : ((s.move f).problems.getLast?.map Problem.start = some (problem.move f).start) ↔
      s.problems.getLast?.map Problem.start = some problem.start := by
    simp only [move, List.getLast?_map]
    cases s.problems.getLast? with
    | none => simp
    | some other =>
        rw [Option.map_some, Option.map_some, Option.map_some, Option.some_inj, Option.some_inj]
        exact f.start_eq_iff other.span problem.span
  have hproblems : (s.move f).problems = s.problems.map (Problem.move f) := rfl
  simp only [report, move_current, Token.move, Problem.move, hspan, and_true] at hlast ⊢
  split
  · rfl
  by_cases hsame : s.problems.getLast?.map Problem.start = some problem.start
  · rw [if_pos hsame, if_pos (hlast.mpr hsame)]
  · rw [if_neg hsame, if_neg fun h => hsame (hlast.mp h)]
    simp [move, Problem.move, hspan]

end State

/-- What a rule leads to, moved along. -/
def Rule.moveResult {α β : Type} (value : α → β) :
    EStateM.Result Problem State α → EStateM.Result Problem State β
  | .ok read s => .ok (value read) (s.move f)
  | .error problem s => .error (problem.move f) (s.move f)

/-- Where `rule` leads to, `rule'` leads to after the move, and `value` tells what the
phrase is then. -/
def Rule.Moves {α β : Type} (value : α → β) (rule : Rule α) (rule' : Rule β) : Prop :=
  ∀ s : State, rule' (s.move f) = Rule.moveResult f value (rule s)

def Round.map {σ τ : Type} (value : σ → τ) : Round σ → Round τ
  | .more read => .more (value read)
  | .last read => .last (value read)

namespace Rule.Moves

variable {f} {α β α' β' σ τ : Type} {value : α → α'}

theorem pure {read : α} {read' : α'} (h : read' = value read) :
    Moves f value (pure read) (pure read') := by
  subst h
  exact fun _ => rfl

theorem bind {rule : Rule α} {rule' : Rule α'} {next : α → Rule β} {next' : α' → Rule β'}
    {result : β → β'} (hrule : Moves f value rule rule')
    (hnext : ∀ read, Moves f result (next read) (next' (value read))) :
    Moves f result (rule >>= next) (rule' >>= next') := by
  intro s
  rw [bind_apply, bind_apply, hrule s]
  cases rule s with
  | ok read t => exact hnext read t
  | error problem t => rfl

theorem ite {c : Prop} [Decidable c] {yes no : Rule α} {yes' no' : Rule α'}
    (hyes : Moves f value yes yes') (hno : Moves f value no no') :
    Moves f value (if c then yes else no) (if c then yes' else no') := by
  split
  · exact hyes
  · exact hno

theorem current : Moves f (Token.move f) Rule.current Rule.current := by
  intro s
  rw [current_apply, current_apply, State.move_current]
  rfl

theorem advance : Moves f (Token.move f) Rule.advance Rule.advance := by
  intro s
  rw [advance_apply, advance_apply, State.move_current, State.move_advance]
  rfl

theorem failWith {cause : Token → Cause} (h : ∀ token, cause (token.move f) = cause token) :
    Moves f value (failWith cause) (failWith cause) := by
  intro s
  rw [failWith_apply, failWith_apply, State.move_current, h]
  rfl

theorem failExpecting (expected : String) :
    Moves f value (failExpecting expected) (failExpecting expected) :=
  failWith fun _ => rfl

theorem isAt (kind : TokenKind) : Moves f id (isAt kind) (isAt kind) :=
  current.bind fun _ => .pure rfl

theorem isAtClose (close : Symbol) : Moves f id (isAtClose close) (isAtClose close) :=
  current.bind fun _ => .pure rfl

theorem take? (kind : TokenKind) : Moves f id (take? kind) (take? kind) :=
  (isAt kind).bind fun _ => .ite (advance.bind fun _ => .pure rfl) (.pure rfl)

theorem expect (symbol : Symbol) : Moves f (Token.move f) (expect symbol) (expect symbol) :=
  (isAt _).bind fun _ => .ite advance (failExpecting _)

theorem spanFrom (start : Span) :
    Moves f f.move (spanFrom start) (spanFrom (f.move start)) := by
  intro s
  rw [spanFrom_apply, spanFrom_apply, moveResult, f.move_merge]
  rfl

theorem iterate {step : σ → Rule (Round σ)} {step' : τ → Rule (Round τ)} {value : σ → τ}
    (hstep : ∀ read, Moves f (Round.map value) (step read) (step' (value read))) (read : σ) :
    Moves f value (iterate step read) (iterate step' (value read)) := by
  intro s
  fun_induction Rule.iterate step read s with
  | case1 read s problem t hround =>
      have hmoved : step' (value read) (s.move f) = .error (problem.move f) (t.move f) := by
        rw [hstep read s, hround]
        rfl
      exact iterate_of_error hmoved
  | case2 read s read' t hround =>
      have hmoved : step' (value read) (s.move f) = .ok (.last (value read')) (t.move f) := by
        rw [hstep read s, hround]
        rfl
      exact iterate_of_last hmoved
  | case3 read s read' t hround hlt ih =>
      have hmoved : step' (value read) (s.move f) = .ok (.more (value read')) (t.move f) := by
        rw [hstep read s, hround]
        rfl
      rw [iterate_of_more hmoved (by simpa [State.move] using hlt), ih]
  | case4 read s read' t hround hlt =>
      rw [Rule.iterate, hstep read s, hround]
      refine if_neg ?_
      simpa [State.move] using hlt

theorem commaList {element : Rule α} {element' : Rule α'}
    (helement : Moves f value element element') (close : Symbol) :
    Moves f (List.map value) (commaList close element) (commaList close element') := by
  refine iterate (fun read => ?_) []
  refine (isAtClose close).bind fun _ => .ite (.pure rfl) (helement.bind fun _ => ?_)
  exact (take? _).bind fun _ => .ite (.pure (by simp [Round.map])) (.pure (by simp [Round.map]))

theorem paramList {param : Rule α} {param' : Rule α'} (hparam : Moves f value param param') :
    Moves f (Prod.map (List.map value) id) (paramList param) (paramList param') := by
  refine iterate (fun (read, _) => ?_) ([], false)
  refine (isAtClose _).bind fun _ => .ite (.pure rfl) ?_
  refine (take? _).bind fun _ => .ite (.pure rfl) (hparam.bind fun _ => ?_)
  exact (take? _).bind fun _ => .ite (.pure (by simp [Round.map])) (.pure (by simp [Round.map]))

theorem recover {rule : Rule α} {rule' : Rule α'} {resume : State → State → State}
    (hframed : rule.Framed) (hrule : Moves f value rule rule')
    (hresume : ∀ s t : State, resume (s.move f) (t.move f) = (resume s t).move f) :
    Moves f (Option.map value) (recover rule resume) (recover rule' resume) := by
  intro s
  unfold Rule.recover
  rw [hrule s]
  cases hrun : rule s with
  | ok read t => rfl
  | error problem t =>
      have hspan := (hframed.error hrun).1
      simp only [moveResult, State.move_report f t hspan, hresume, Option.map_none]

end Rule.Moves

end SourceFront
