import Mathlib.Data.List.Chain
import SourceFront.Cursor.Grammar
import SourceFront.Proofs.Progress

/-!
A cursor and a state that stand at the same token, and walks that go where a rule leads:
they return what it returns, fail where it fails and are never in breach.
-/

namespace SourceFront

/-- No problem is left out: those reported are of valid tokens and no two in succession
start alike, and where a phrase was given up a problem starts, unless the token there is
invalid. -/
structure Cursor.Accounted (c : Cursor) : Prop where
  located : ∀ problem ∈ c.problems, ∃ token ∈ c.tokens,
    token.kind ≠ .invalid ∧ problem.span = token.span
  distinct : c.problems.IsChain fun a b => a.start ≠ b.start
  answered : ∀ token ∈ c.abandoned, token ∈ c.tokens ∧
    (token.kind = .invalid ∨ ∃ problem ∈ c.problems, problem.start = token.span.start)

/-- The cursor in the list `tokens` and the state stand at the same token, and there
expressions stand in `place` and `depth` phrases are open. -/
structure Cursor.At (tokens : List Token) (place : Place) (depth : Nat) (c : Cursor)
    (s : State) : Prop extends c.Accounted where
  tokens_eq : c.tokens = tokens
  place_eq : c.place = place
  depth_eq : c.depth = depth
  problems_eq : c.problems = s.problems
  position : ∃ front, tokens = front ++ (s.ahead ++ [.eof s.stop]) ∧
    c.pos = front.length ∧ s.last = (front.getLast?.getD s.current).span

/-- The walk ends as the rule ends, at the same token. -/
inductive Agrees (tokens : List Token) (place : Place) (depth : Nat) {α : Type} :
    EStateM.Result Stop Cursor α → EStateM.Result Problem State α → Prop where
  | ok {value : α} {c : Cursor} {s : State} (h : c.At tokens place depth s) :
      Agrees tokens place depth (.ok value c) (.ok value s)
  | error {problem : Problem} {c : Cursor} {s : State} (h : c.At tokens place depth s) :
      Agrees tokens place depth (.error (.problem problem) c) (.error problem s)

/-- From wherever cursor and state stand at the same token, the walk ends as the rule. -/
structure Walk.Follows (tokens : List Token) (place : Place) (depth : Nat) {α : Type}
    (walk : Walk α) (rule : Rule α) : Prop where
  agrees : ∀ {c : Cursor} {s : State}, c.At tokens place depth s →
    Agrees tokens place depth (walk c) (rule s)

variable {α β σ : Type} {tokens : List Token} {place : Place} {depth : Nat} {c : Cursor}
  {s t : State}

namespace Cursor.At

theorem current_mem (h : c.At tokens place depth s) : s.current ∈ c.tokens := by
  obtain ⟨front, htokens, -, -⟩ := h.position
  rw [h.tokens_eq, htokens, State.current]
  cases s.ahead <;> simp

theorem current (h : c.At tokens place depth s) : tokens[c.pos]? = some s.current := by
  obtain ⟨front, htokens, hpos, -⟩ := h.position
  rw [htokens, hpos, List.getElem?_append_right (Nat.le_refl _), Nat.sub_self, State.current]
  cases s.ahead <;> rfl

theorem left (h : c.At tokens place depth s) : c.left = s.ahead.length + 1 := by
  obtain ⟨front, htokens, hpos, -⟩ := h.position
  rw [Cursor.left, h.tokens_eq, hpos, htokens]
  simp only [List.length_append, List.length_singleton]
  omega

theorem pos_le (h : c.At tokens place depth s) : c.pos ≤ tokens.length := by
  obtain ⟨front, htokens, hpos, -⟩ := h.position
  rw [hpos, htokens, List.length_append]
  omega

theorem last (h : c.At tokens place depth s) :
    ∃ token, tokens[c.pos - 1]? = some token ∧ token.span = s.last := by
  obtain ⟨front, htokens, hpos, hlast⟩ := h.position
  rcases List.eq_nil_or_concat front with rfl | ⟨before, token, rfl⟩
  · refine ⟨s.current, ?_, hlast.symm⟩
    have hcurrent := h.current
    rwa [hpos] at hcurrent ⊢
  · refine ⟨token, ?_, by simpa using hlast.symm⟩
    rw [htokens, hpos]
    simp

theorem advance (h : c.At tokens place depth s) :
    ({ c with pos := if c.pos < tokens.length - 1 then c.pos + 1 else c.pos } : Cursor).At
      tokens place depth s.advance := by
  obtain ⟨front, htokens, hpos, hlast⟩ := h.position
  refine { h with problems_eq := h.problems_eq, position := ?_ }
  cases hahead : s.ahead with
  | nil =>
      have hend : ¬c.pos < tokens.length - 1 := by
        rw [hpos, htokens, hahead]
        simp
      refine ⟨front, by simp [htokens, State.advance, hahead], by rw [if_neg hend, hpos], ?_⟩
      simpa [State.advance, State.current, hahead] using hlast
  | cons token rest =>
      have hmore : c.pos < tokens.length - 1 := by
        rw [hpos, htokens, hahead]
        simp
      refine ⟨front ++ [token], by simp [htokens, State.advance, hahead], ?_, ?_⟩
      · rw [if_pos hmore, hpos, List.length_append, List.length_singleton]
      · simp [State.advance, State.current, hahead]

theorem withPlace (h : c.At tokens place depth s) (place' : Place) :
    ({ c with place := place' } : Cursor).At tokens place' depth s :=
  { h with place_eq := rfl }

theorem withDepth (h : c.At tokens place depth s) (depth' peak : Nat) :
    ({ c with depth := depth', peak } : Cursor).At tokens place depth' s :=
  { h with depth_eq := rfl }

end Cursor.At

namespace Walk

theorem bind_apply (walk : Walk α) (next : α → Walk β) (c : Cursor) :
    (walk >>= next) c =
      match walk c with
      | .ok value c' => next value c'
      | .error stop c' => .error stop c' := by
  cases h : walk c <;> simp only [bind, EStateM.bind, h]

theorem bind_of_ok {walk : Walk α} {value : α} {c' : Cursor} (h : walk c = .ok value c')
    (next : α → Walk β) : (walk >>= next) c = next value c' := by
  rw [bind_apply, h]

theorem get_apply (c : Cursor) : (get : Walk Cursor) c = .ok c c :=
  rfl

theorem tokenAt_apply {index : Nat} {token : Token} (h : c.tokens[index]? = some token) :
    tokenAt index c = .ok token c := by
  rw [tokenAt, bind_of_ok (get_apply c), h]
  rfl

theorem current_apply (h : c.At tokens place depth s) : current c = .ok s.current c := by
  rw [current, bind_of_ok (get_apply c)]
  exact tokenAt_apply (h.tokens_eq ▸ h.current)

theorem setDepth_apply (depth : Nat) (c : Cursor) :
    setDepth depth c = .ok () { c with depth, peak := max c.peak depth } :=
  rfl

theorem minus_apply {a b : Nat} (h : b ≤ a) (c : Cursor) : minus a b c = .ok (a - b) c := by
  rw [minus, if_pos h]
  rfl

theorem advance_apply (h : c.At tokens place depth s) :
    ∃ c', advance c = .ok s.current c' ∧ c'.At tokens place depth s.advance := by
  obtain ⟨front, htokens, -, -⟩ := h.position
  have hlength : 1 ≤ c.tokens.length := by
    rw [h.tokens_eq, htokens]
    simp only [List.length_append, List.length_singleton]
    omega
  refine ⟨_, ?_, h.advance⟩
  rw [advance, bind_of_ok (current_apply h), bind_of_ok (get_apply c),
    bind_of_ok (minus_apply hlength c), h.tokens_eq]
  rfl

theorem andThen_of_ok {walk : Walk α} {restore : Walk Unit} {value : α} {c' c'' : Cursor}
    (hwalk : walk c = .ok value c') (hrestore : restore c' = .ok () c'') :
    walk.andThen restore c = .ok value c'' := by
  rw [andThen, hwalk]
  exact bind_of_ok hrestore _

theorem andThen_of_problem {walk : Walk α} {restore : Walk Unit} {problem : Problem}
    {c' c'' : Cursor} (hwalk : walk c = .error (.problem problem) c')
    (hrestore : restore c' = .ok () c'') :
    walk.andThen restore c = .error (.problem problem) c'' := by
  rw [andThen, hwalk]
  exact bind_of_ok hrestore _

theorem iterate_of_last {step : σ → Walk (Round σ)} {value value' : σ} {c' : Cursor}
    (h : step value c = .ok (.last value') c') : iterate step value c = .ok value' c' := by
  rw [iterate, h]

theorem iterate_of_more {step : σ → Walk (Round σ)} {value value' : σ} {c' : Cursor}
    (h : step value c = .ok (.more value') c') (hlt : c'.left < c.left) :
    iterate step value c = iterate step value' c' := by
  rw [iterate, h]
  exact if_pos hlt

theorem iterate_of_error {step : σ → Walk (Round σ)} {value : σ} {stop : Stop} {c' : Cursor}
    (h : step value c = .error stop c') : iterate step value c = .error stop c' := by
  rw [iterate, h]

namespace Follows

theorem pure (value : α) : Follows tokens place depth (pure value) (pure value) where
  agrees h := .ok h

theorem bind {walk : Walk α} {rule : Rule α} {next : α → Walk β} {next' : α → Rule β}
    (hfirst : walk.Follows tokens place depth rule)
    (hnext : ∀ value, (next value).Follows tokens place depth (next' value)) :
    (walk >>= next).Follows tokens place depth (rule >>= next') where
  agrees {c s} h := by
    have hagrees := hfirst.agrees h
    rw [bind_apply, Rule.bind_apply]
    generalize walk c = outcome at hagrees
    generalize rule s = outcome' at hagrees
    cases hagrees with
    | ok h' => exact (hnext _).agrees h'
    | error h' => exact .error h'

theorem ite {p : Prop} [Decidable p] {yes no : Walk α} {yes' no' : Rule α}
    (hyes : yes.Follows tokens place depth yes') (hno : no.Follows tokens place depth no') :
    (if p then yes else no).Follows tokens place depth (if p then yes' else no') := by
  split
  · exact hyes
  · exact hno

theorem current : Follows tokens place depth Walk.current Rule.current where
  agrees {c s} h := by
    rw [current_apply h]
    exact .ok h

theorem advance : Follows tokens place depth Walk.advance Rule.advance where
  agrees {c s} h := by
    obtain ⟨c', hrun, h'⟩ := advance_apply h
    rw [hrun]
    exact .ok h'

theorem failWith (cause : Token → Cause) :
    Follows tokens place depth (Walk.failWith cause : Walk α) (Rule.failWith cause) where
  agrees {c s} h := by
    rw [Walk.failWith, bind_of_ok (current_apply h)]
    exact .error h

theorem isAt (kind : TokenKind) :
    Follows tokens place depth (Walk.isAt kind) (Rule.isAt kind) :=
  current.bind fun _ => .pure _

theorem isAtClose (close : Symbol) :
    Follows tokens place depth (Walk.isAtClose close) (Rule.isAtClose close) :=
  current.bind fun _ => .pure _

theorem take? (kind : TokenKind) :
    Follows tokens place depth (Walk.take? kind) (Rule.take? kind) :=
  (isAt kind).bind fun _ => .ite (advance.bind fun _ => .pure _) (.pure _)

theorem failExpecting (expected : String) :
    Follows tokens place depth (Walk.failExpecting expected : Walk α)
      (Rule.failExpecting expected) :=
  failWith _

theorem expect (symbol : Symbol) :
    Follows tokens place depth (Walk.expect symbol) (Rule.expect symbol) :=
  (isAt _).bind fun _ => .ite advance (failExpecting _)

theorem spanFrom (start : Span) :
    Follows tokens place depth (Walk.spanFrom start) (Rule.spanFrom start) where
  agrees {c s} h := by
    obtain ⟨token, htoken, hspan⟩ := h.last
    rw [Walk.spanFrom, bind_of_ok (get_apply c),
      bind_of_ok (tokenAt_apply (h.tokens_eq ▸ htoken)), hspan]
    exact .ok h

theorem andThen {walk : Walk α} {rule : Rule α} {place' : Place} {depth' : Nat}
    {restore : Walk Unit} (hwalk : walk.Follows tokens place' depth' rule)
    (hrestore : ∀ {c : Cursor} {s : State}, c.At tokens place' depth' s →
      ∃ c', restore c = .ok () c' ∧ c'.At tokens place depth s)
    (h : c.At tokens place' depth' s) :
    Agrees tokens place depth (walk.andThen restore c) (rule s) := by
  have hagrees := hwalk.agrees h
  generalize hrun : walk c = outcome at hagrees
  generalize rule s = outcome' at hagrees
  cases hagrees with
  | ok h' =>
      obtain ⟨c', hback, hat⟩ := hrestore h'
      rw [andThen_of_ok hrun hback]
      exact .ok hat
  | error h' =>
      obtain ⟨c', hback, hat⟩ := hrestore h'
      rw [andThen_of_problem hrun hback]
      exact .error hat

theorem within {walk : Walk α} {rule : Rule α} {place' : Place}
    (hwalk : walk.Follows tokens place' depth rule) :
    (Walk.within place' walk).Follows tokens place depth rule where
  agrees {c s} h := by
    rw [Walk.within, bind_of_ok (get_apply c), h.place_eq]
    exact hwalk.andThen (fun h' => ⟨_, rfl, h'.withPlace place⟩) (h.withPlace place')

theorem ofPlace (next : Place → Walk α) {rule : Rule α}
    (hnext : (next place).Follows tokens place depth rule) :
    (get >>= fun c => next c.place : Walk α).Follows tokens place depth rule where
  agrees {c s} h := by
    rw [bind_of_ok (get_apply c), h.place_eq]
    exact hnext.agrees h

theorem nested {walk : Walk α} {rule : Rule α} (hdepth : depth < Level.limit)
    (hwalk : walk.Follows tokens place (depth + 1) rule) :
    (Walk.nested walk).Follows tokens place depth rule where
  agrees {c s} h := by
    have hlt : ¬Level.limit ≤ c.depth := by
      rw [h.depth_eq]
      exact Nat.not_le_of_lt hdepth
    rw [Walk.nested, bind_of_ok (get_apply c), if_neg hlt]
    rw [bind_of_ok (get_apply c), bind_of_ok (setDepth_apply _ c), h.depth_eq]
    refine hwalk.andThen (fun {c s} h' => ⟨_, ?_, h'.withDepth depth (max c.peak depth)⟩)
      (h.withDepth _ _)
    rw [leave, bind_of_ok (get_apply c), bind_of_ok (minus_apply (by rw [h'.depth_eq]; omega) c),
      h'.depth_eq]
    rfl

/-- A phrase too many is refused before its walk begins. -/
theorem nested_refused (walk : Walk α) :
    (Walk.nested walk).Follows tokens place Level.limit
      (Rule.failWith fun _ => .nestingTooDeep Level.limit) where
  agrees {c s} h := by
    rw [Walk.nested, bind_of_ok (get_apply c),
      if_pos (Nat.le_of_eq h.depth_eq.symm)]
    exact (failWith _).agrees h

theorem iterate {step : σ → Walk (Round σ)} {step' : σ → Rule (Round σ)}
    (hstep : ∀ value, (step value).Follows tokens place depth (step' value))
    (hadvances : ∀ value, (step' value).Advances) (value : σ) :
    Follows tokens place depth (Walk.iterate step value) (Rule.iterate step' value) where
  agrees {c s} h := by
    fun_induction Rule.iterate step' value s generalizing c with
    | case1 value s problem t hround =>
        have hagrees := (hstep value).agrees h
        rw [hround] at hagrees
        generalize hrun : step value c = outcome at hagrees
        cases hagrees with
        | error h' =>
            rw [iterate_of_error hrun]
            exact .error h'
    | case2 value s value' t hround =>
        have hagrees := (hstep value).agrees h
        rw [hround] at hagrees
        generalize hrun : step value c = outcome at hagrees
        cases hagrees with
        | ok h' =>
            rw [iterate_of_last hrun]
            exact .ok h'
    | case3 value s value' t hround hlt ih =>
        have hagrees := (hstep value).agrees h
        rw [hround] at hagrees
        generalize hrun : step value c = outcome at hagrees
        cases hagrees with
        | ok h' =>
            rw [iterate_of_more hrun (by rw [h'.left, h.left]; omega)]
            exact ih h'
    | case4 value s value' t hround hlt => exact absurd (hadvances value s t value' hround) hlt

theorem commaList {element : Walk α} {element' : Rule α} (hframed : element'.Framed)
    (helement : element.Follows tokens place depth element') (close : Symbol) :
    Follows tokens place depth (Walk.commaList close element)
      (Rule.commaList close element') := by
  refine iterate (fun read => ?_) (fun read => ?_) _
  · refine (isAtClose close).bind fun _ => .ite (.pure _) ?_
    exact helement.bind fun _ => (take? _).bind fun _ => .ite (.pure _) (.pure _)
  · refine .bind (.isAtClose close) fun _ => .ite (.last _) ?_
    exact .bind hframed fun _ => .take? (by decide) (.pure _) (.last _)

theorem paramList {param : Walk α} {param' : Rule α} (hframed : param'.Framed)
    (hparam : param.Follows tokens place depth param') :
    Follows tokens place depth (Walk.paramList param) (Rule.paramList param') := by
  refine iterate (fun (read, _) => ?_) (fun (read, _) => ?_) _
  · refine (isAtClose _).bind fun _ => .ite (.pure _) ?_
    refine (take? _).bind fun _ => .ite (.pure _) ?_
    exact hparam.bind fun _ => (take? _).bind fun _ => .ite (.pure _) (.pure _)
  · refine .bind (.isAtClose _) fun _ => .ite (.last _) ?_
    refine .take? (by decide) (.pure _) ?_
    exact .bind hframed fun _ => .take? (by decide) (.pure _) (.last _)

end Follows

end Walk

end SourceFront
