import SourceFront.Proofs.Extension

/-!
An end that is followed by more tokens. What is done in front of it does not depend on what
follows, since no rule reads the end, whether it fails there or goes on after a failure.
-/

namespace SourceFront

/-- A token of the end, with tokens behind it. -/
structure Barrier where
  token : Token
  isEnd : token.kind = .eof
  behind : List Token
  stop : Span

variable {b : Barrier} {s t : State}

namespace Barrier

/-- The same place if the end is the one at the barrier. -/
def put (b : Barrier) (s : State) : State :=
  s.extend (b.token :: b.behind) b.stop

/-- What a rule does in front of an end is done in front of the barrier in the same way. -/
inductive Alike (b : Barrier) {α : Type} :
    EStateM.Result Problem State α → EStateM.Result Problem State α → Prop where
  | ok (value : α) {s : State} (hstop : s.stop = b.token.span) :
      Alike b (.ok value s) (.ok value (b.put s))
  | error (problem : Problem) {s : State} (hstop : s.stop = b.token.span) :
      Alike b (.error problem s) (.error problem (b.put s))

namespace Alike

variable {α : Type} {result : EStateM.Result Problem State α}

theorem of_ok {value : α} (h : b.Alike (.ok value t) result) :
    result = .ok value (b.put t) ∧ t.stop = b.token.span := by
  cases h with
  | ok _ hstop => exact ⟨rfl, hstop⟩

theorem of_error {problem : Problem} (h : b.Alike (.error problem t) result) :
    result = .error problem (b.put t) ∧ t.stop = b.token.span := by
  cases h with
  | error _ hstop => exact ⟨rfl, hstop⟩

end Alike

theorem eq_token (b : Barrier) : b.token = ⟨.eof, b.token.text, b.token.span⟩ := by
  rw [← b.isEnd]

theorem current_put (hne : s.ahead ≠ []) : (b.put s).current = s.current :=
  State.extend_current _ _ hne

theorem current_cases (b : Barrier) (hstop : s.stop = b.token.span) :
    ((b.put s).current = s.current ∧ s.ahead ≠ []) ∨
      ((b.put s).current = b.token ∧ s.current = .eof b.token.span) := by
  cases hahead : s.ahead with
  | nil =>
      refine .inr ⟨?_, ?_⟩
      · simp [put, State.extend, State.current, hahead]
      · simp [State.current, hahead, hstop]
  | cons token rest => exact .inl ⟨current_put (by simp [hahead]), by simp⟩

theorem current_kind (hstop : s.stop = b.token.span) :
    (b.put s).current.kind = s.current.kind := by
  rcases b.current_cases hstop with ⟨hsame, -⟩ | ⟨hput, hcurrent⟩
  · rw [hsame]
  · rw [hput, hcurrent, b.isEnd]
    rfl

theorem current_span (hstop : s.stop = b.token.span) :
    (b.put s).current.span = s.current.span := by
  rcases b.current_cases hstop with ⟨hsame, -⟩ | ⟨hput, hcurrent⟩
  · rw [hsame]
  · rw [hput, hcurrent]
    rfl

theorem advance_put (hne : s.ahead ≠ []) : (b.put s).advance = b.put s.advance :=
  State.extend_advance _ _ hne

theorem report_put (hstop : s.stop = b.token.span) (problem : Problem) :
    (b.put s).report problem = b.put (s.report problem) := by
  unfold State.report
  rw [current_kind hstop, current_span hstop]
  split
  · rfl
  · show (if s.problems.getLast?.map Problem.start = some problem.start then _ else _) = _
    split
    · rfl
    · rfl

theorem report_stop (problem : Problem) (s : State) : (s.report problem).stop = s.stop := by
  unfold State.report
  split
  · rfl
  · split
    · rfl
    · rfl

theorem statementRest_put (b : Barrier) (inFor : Bool) (depth : Nat) (fresh : Bool)
    (tokens : List Token) :
    statementRest inFor depth fresh (tokens ++ b.token :: b.behind) =
      statementRest inFor depth fresh tokens := by
  induction tokens generalizing depth fresh with
  | nil => simp only [List.nil_append, statementRest, b.isEnd]
  | cons token tokens ih =>
      rw [List.cons_append]
      unfold statementRest
      simp only [ih]

theorem itemRest_put (b : Barrier) (tokens : List Token) :
    itemRest (tokens ++ b.token :: b.behind) = itemRest tokens := by
  induction tokens with
  | nil => simp [itemRest, Token.isEof, b.isEnd]
  | cons token tokens ih => rw [List.cons_append, itemRest, itemRest, ih]

theorem put_skipStatement (hstop : s.stop = b.token.span) (t : State) :
    State.skipStatement (b.put s) (b.put t) = b.put (State.skipStatement s t) := by
  have hahead : (b.put t).ahead = t.ahead ++ b.token :: b.behind := rfl
  have hread : State.readSince (b.put s) (b.put t) = State.readSince s t :=
    State.extend_readSince _ _ s t
  unfold State.skipStatement
  rw [hread, current_kind hstop]
  dsimp only
  rw [hahead, statementRest_put]
  exact State.extend_skip _ _ (statementRest_le _ _ _ _)

theorem put_skipItem (hne : s.ahead ≠ []) (t : State) :
    State.skipItem (b.put s) (b.put t) = b.put (State.skipItem s t) := by
  have hahead (u : State) : (b.put u).ahead = u.ahead ++ b.token :: b.behind := rfl
  have hread : State.readSince (b.put s) (b.put t) = State.readSince s t :=
    State.extend_readSince _ _ s t
  have hskip (u : State) :
      (b.put u).skip (itemRest (b.put u).ahead) = b.put (u.skip (itemRest u.ahead)) := by
    rw [hahead, itemRest_put]
    exact State.extend_skip _ _ (itemRest_le _)
  unfold State.skipItem
  dsimp only
  rw [hread]
  split
  next hnone =>
    have htne : t.ahead ≠ [] := by
      intro hnil
      rw [State.readSince, hnil, List.length_nil, Nat.sub_zero, List.take_length,
        List.isEmpty_iff] at hnone
      exact hne hnone
    rw [advance_put htne, hskip]
  next => exact hskip t

end Barrier

/-- The rule does the same in front of the barrier as in front of an end. If it is `known` that a
token is ahead, nothing is asked of the rule at the end itself. -/
def Rule.Heeds {α : Type} (b : Barrier) (known : Prop) (rule : Rule α) : Prop :=
  ∀ s : State, s.stop = b.token.span → (known → s.ahead ≠ []) →
    b.Alike (rule s) (rule (b.put s))

namespace Rule.Heeds

open Barrier

variable {known : Prop} {α β σ : Type}

theorem pure (value : α) : (pure value : Rule α).Heeds b known :=
  fun _ hstop _ => .ok value hstop

theorem bind {rule : Rule α} {next : α → Rule β} (hrule : rule.Heeds b known)
    (hnext : ∀ value, (next value).Heeds b False) : (rule >>= next).Heeds b known := by
  intro s hstop hknown
  have halike := hrule s hstop hknown
  rw [bind_apply, bind_apply]
  cases hrun : rule s with
  | ok value t =>
      obtain ⟨hput, hstop⟩ := (hrun ▸ halike).of_ok
      rw [hput]
      exact hnext value t hstop False.elim
  | error problem t =>
      obtain ⟨hput, hstop⟩ := (hrun ▸ halike).of_error
      rw [hput]
      exact .error problem hstop

theorem ite {c : Prop} [Decidable c] {yes no : Rule α} (hyes : c → yes.Heeds b known)
    (hno : no.Heeds b known) : (if c then yes else no).Heeds b known := by
  split
  next h => exact hyes h
  next => exact hno

theorem current {next : Token → Rule α}
    (hsame : ∀ text span, next ⟨.eof, text, span⟩ = next (.eof span))
    (hnext : ∀ token, (next token).Heeds b (token.kind ≠ .eof)) :
    (Rule.current >>= next).Heeds b known := by
  intro s hstop _
  rw [current_bind, current_bind]
  rcases b.current_cases hstop with ⟨hput, hne⟩ | ⟨hput, hcurrent⟩
  · rw [hput]
    exact hnext s.current s hstop fun _ => hne
  · rw [hput, hcurrent, b.eq_token, hsame]
    exact hnext _ s hstop fun hkind => absurd rfl hkind

theorem advance (hknown : known) : Rule.advance.Heeds b known := by
  intro s hstop hahead
  rw [advance_apply, advance_apply, current_put (hahead hknown), advance_put (hahead hknown)]
  exact .ok _ hstop

theorem isAt {kind : TokenKind} {next : Bool → Rule α} (hkind : kind ≠ .eof)
    (hnext : ∀ there, (next there).Heeds b (there = true)) :
    (Rule.isAt kind >>= next).Heeds b known := by
  intro s hstop _
  rw [isAt_bind, isAt_bind, current_kind hstop]
  refine hnext _ s hstop fun hthere => ?_
  obtain ⟨rest, hahead⟩ := State.ahead_of_current (s := s) (of_decide_eq_true hthere ▸ hkind)
  simp [hahead]

theorem isAtClose (close : Symbol) : (Rule.isAtClose close).Heeds b known := by
  refine .current (fun _ _ => rfl) fun token => .pure _

theorem take? {kind : TokenKind} (hkind : kind ≠ .eof) : (Rule.take? kind).Heeds b known :=
  .isAt hkind fun _ => .ite (fun hthere => .bind (.advance hthere) fun _ => .pure _) (.pure _)

theorem failWith {cause : Token → Cause}
    (hsame : ∀ text span, cause ⟨.eof, text, span⟩ = cause (.eof span)) :
    (Rule.failWith cause : Rule α).Heeds b known := by
  refine .current (fun text span => ?_) fun token s hstop _ => .error _ hstop
  rw [hsame]
  rfl

theorem failExpecting (expected : String) : (Rule.failExpecting expected : Rule α).Heeds b known :=
  .failWith fun _ _ => rfl

theorem expect (symbol : Symbol) : (Rule.expect symbol).Heeds b known :=
  .isAt nofun fun _ => .ite .advance (.failExpecting _)

theorem spanFrom (start : Span) : (Rule.spanFrom start).Heeds b known :=
  fun _ hstop _ => .ok _ hstop

theorem iterate {step : σ → Rule (Round σ)} (hstep : ∀ value, (step value).Heeds b False)
    (value : σ) : Heeds b known (Rule.iterate step value) := by
  rintro s hstop -
  have hlength (s : State) : (b.put s).ahead.length = s.ahead.length + (b.behind.length + 1) :=
    List.length_append
  fun_induction Rule.iterate step value s with
  | case1 value s problem t hround =>
      obtain ⟨hput, hstop⟩ := (hround ▸ hstep value s hstop False.elim).of_error
      rw [iterate_of_error hput]
      exact .error problem hstop
  | case2 value s value' t hround =>
      obtain ⟨hput, hstop⟩ := (hround ▸ hstep value s hstop False.elim).of_ok
      rw [iterate_of_last hput]
      exact .ok value' hstop
  | case3 value s value' t hround hlt ih =>
      obtain ⟨hput, hstop⟩ := (hround ▸ hstep value s hstop False.elim).of_ok
      rw [iterate_of_more hput (by rw [hlength, hlength]; omega)]
      exact ih hstop
  | case4 value s value' t hround hlt =>
      obtain ⟨hput, hstop⟩ := (hround ▸ hstep value s hstop False.elim).of_ok
      rw [Rule.iterate, hput]
      dsimp only
      rw [if_neg (by rw [hlength, hlength]; omega)]
      exact .ok value' hstop

theorem commaList {element : Rule α} (helement : ∀ {known : Prop}, element.Heeds b known)
    (close : Symbol) : (Rule.commaList close element).Heeds b known := by
  refine .iterate (fun read => ?_) _
  refine .bind (.isAtClose close) fun _ => .ite (fun _ => .pure _) ?_
  exact .bind helement fun _ => .bind (.take? nofun) fun _ => .ite (fun _ => .pure _) (.pure _)

theorem paramList {param : Rule α} (hparam : ∀ {known : Prop}, param.Heeds b known) :
    (Rule.paramList param).Heeds b known := by
  refine .iterate (fun (read, _) => ?_) _
  refine .bind (.isAtClose _) fun _ => .ite (fun _ => .pure _) ?_
  refine .bind (.take? nofun) fun _ => .ite (fun _ => .pure _) ?_
  exact .bind hparam fun _ => .bind (.take? nofun) fun _ => .ite (fun _ => .pure _) (.pure _)

theorem recover {rule : Rule α} {resume : State → State → State} (hrule : rule.Heeds b known)
    (hput : ∀ {s t : State}, s.stop = b.token.span → (known → s.ahead ≠ []) →
      resume (b.put s) (b.put t) = b.put (resume s t))
    (hstays : ∀ s t, (resume s t).stop = t.stop) :
    (Rule.recover rule resume).Heeds b known := by
  intro s hstop hknown
  have halike := hrule s hstop hknown
  unfold Rule.recover
  cases hrun : rule s with
  | ok value t =>
      obtain ⟨hsame, htstop⟩ := (hrun ▸ halike).of_ok
      rw [hsame]
      exact .ok (some value) htstop
  | error problem t =>
      obtain ⟨hsame, htstop⟩ := (hrun ▸ halike).of_error
      rw [hsame]
      dsimp only
      rw [report_put htstop, hput hstop hknown]
      exact .ok none ((hstays _ _).trans ((report_stop problem t).trans htstop))

theorem recoverStatement {rule : Rule α} (hrule : rule.Heeds b known) :
    (Rule.recover rule State.skipStatement).Heeds b known :=
  .recover hrule (fun hstop _ => put_skipStatement hstop _) fun _ _ => State.skip_stop _ _

theorem recoverItem {rule : Rule α} (hknown : known) (hrule : rule.Heeds b known) :
    (Rule.recover rule State.skipItem).Heeds b known := by
  refine .recover hrule (fun _ hahead => put_skipItem (hahead hknown) _) fun s t => ?_
  unfold State.skipItem
  dsimp only
  rw [State.skip_stop]
  split
  · rfl
  · rfl

end Rule.Heeds

end SourceFront
