import SourceFront.Proofs.Built
import SourceFront.Proofs.Extension

/-!
Complaints. Whatever a rule reports, in failing or in going on behind a failure, is one of the
few complaints, about one of the tokens that it was given.
-/

namespace SourceFront

/-- The problem is a complaint about one of the tokens. -/
def Problem.IsComplaint (tokens : List Token) (problem : Problem) : Prop :=
  ∃ token ∈ tokens, ∃ cause, Rule.Complaint cause ∧ problem = ⟨cause token, token.span⟩

/-- The state stands among the tokens, and only complaints about them have been reported. -/
structure State.Among (tokens : List Token) (s : State) : Prop where
  ahead : ∀ token ∈ s.ahead, token ∈ tokens
  stop : .eof s.stop ∈ tokens
  problems : ∀ problem ∈ s.problems, problem.IsComplaint tokens

namespace State.Among

variable {tokens : List Token} {s : State} (h : s.Among tokens)
include h

theorem current_mem : s.current ∈ tokens := by
  unfold current
  cases hahead : s.ahead with
  | nil => exact h.stop
  | cons token rest => exact h.ahead token (by simp [hahead])

theorem advance : s.advance.Among tokens where
  ahead token hmem := h.ahead token (List.mem_of_mem_tail hmem)
  stop := h.stop
  problems := h.problems

theorem skip (n : Nat) : (s.skip n).Among tokens := by
  induction n generalizing s with
  | zero => exact h
  | succ n ih => exact ih h.advance

theorem skipStatement (start : State) : (skipStatement start s).Among tokens :=
  h.skip _

theorem skipItem (start : State) : (skipItem start s).Among tokens := by
  unfold State.skipItem
  dsimp only
  split
  · exact h.advance.skip _
  · exact h.skip _

theorem report {problem : Problem} (hproblem : problem.IsComplaint tokens) :
    (s.report problem).Among tokens := by
  unfold State.report
  split
  · exact h
  split
  · exact h
  · refine ⟨h.ahead, h.stop, fun other hmem => ?_⟩
    rcases List.mem_append.mp hmem with hmem | hmem
    · exact h.problems other hmem
    · obtain rfl := List.mem_singleton.mp hmem
      exact hproblem

end State.Among

/-- Among the tokens, the rule reports just complaints about them. -/
structure Rule.Complains (tokens : List Token) {α : Type} (rule : Rule α) : Prop where
  ok : ∀ {s t : State} {value : α}, s.Among tokens → rule s = .ok value t → t.Among tokens
  error : ∀ {s t : State} {problem : Problem}, s.Among tokens → rule s = .error problem t →
    t.Among tokens ∧ problem.IsComplaint tokens

namespace Rule.Complains

variable {tokens : List Token} {α β σ : Type}

theorem of_ok {rule : Rule α}
    (h : ∀ s : State, ∃ value t, rule s = .ok value t ∧ (s.Among tokens → t.Among tokens)) :
    rule.Complains tokens where
  ok {s t value} hs hrun := by
    obtain ⟨value', t', hrun', ht⟩ := h s
    rw [hrun'] at hrun
    cases hrun
    exact ht hs
  error {s t problem} hs hrun := by
    obtain ⟨value', t', hrun', -⟩ := h s
    rw [hrun'] at hrun
    cases hrun

theorem bind {rule : Rule α} {next : α → Rule β} (hrule : rule.Complains tokens)
    (hnext : ∀ value, (next value).Complains tokens) : (rule >>= next).Complains tokens where
  ok hs hrun := by
    obtain ⟨value, u, hfirst, hsecond⟩ := bind_eq_ok.mp hrun
    exact (hnext value).ok (hrule.ok hs hfirst) hsecond
  error hs hrun := by
    rcases bind_eq_error.mp hrun with hfirst | ⟨value, u, hfirst, hsecond⟩
    · exact hrule.error hs hfirst
    · exact (hnext value).error (hrule.ok hs hfirst) hsecond

theorem failWith {cause : Token → Cause} (hcause : Complaint cause) :
    (failWith cause : Rule α).Complains tokens where
  ok _ hrun := nomatch hrun
  error hs hrun := by
    cases hrun
    exact ⟨hs, _, hs.current_mem, cause, hcause, rfl⟩

theorem iterate {step : σ → Rule (Round σ)} (hstep : ∀ value, (step value).Complains tokens)
    (value : σ) : Rule.Complains tokens (iterate step value) where
  ok := by
    intro s t value' hs hrun
    fun_induction Rule.iterate step value s with
    | case1 => cases hrun
    | case2 value s value'' u hround =>
        cases hrun
        exact (hstep value).ok hs hround
    | case3 value s value'' u hround _ ih => exact ih ((hstep value).ok hs hround) hrun
    | case4 value s value'' u hround =>
        cases hrun
        exact (hstep value).ok hs hround
  error := by
    intro s t problem hs hrun
    fun_induction Rule.iterate step value s with
    | case1 value s problem' u hround =>
        cases hrun
        exact (hstep value).error hs hround
    | case2 => cases hrun
    | case3 value s value'' u hround _ ih => exact ih ((hstep value).ok hs hround) hrun
    | case4 => cases hrun

theorem recover {rule : Rule α} {resume : State → State → State}
    (hrule : rule.Complains tokens)
    (hresume : ∀ {s : State} (start), s.Among tokens → (resume start s).Among tokens) :
    (recover rule resume).Complains tokens where
  ok := by
    intro s t value hs hrun
    unfold Rule.recover at hrun
    cases hphrase : rule s with
    | ok phrase u =>
        rw [hphrase] at hrun
        cases hrun
        exact hrule.ok hs hphrase
    | error problem u =>
        rw [hphrase] at hrun
        cases hrun
        obtain ⟨hu, hproblem⟩ := hrule.error hs hphrase
        exact hresume s (hu.report hproblem)
  error := by
    intro s t problem hs hrun
    unfold Rule.recover at hrun
    cases hphrase : rule s <;> rw [hphrase] at hrun <;> cases hrun

end Rule.Complains

/-- All rules of the level report just complaints. -/
structure Level.Complains (tokens : List Token) (level : Level) : Prop where
  expr : ∀ place least, (level.expr place least).Complains tokens
  operand : ∀ place, (level.operand place).Complains tokens
  typeExpr : level.typeExpr.Complains tokens
  block : level.block.Complains tokens
  branch : level.branch.Complains tokens
  choice : level.choice.Complains tokens

theorem Rule.Built.complains {level : Level} {tokens : List Token} {α : Type} {rule : Rule α}
    (hrule : rule.Built level) (h : level.Complains tokens) : rule.Complains tokens := by
  induction hrule with
  | expr place least => exact h.expr place least
  | operand place => exact h.operand place
  | typeExpr => exact h.typeExpr
  | block => exact h.block
  | branch => exact h.branch
  | choice => exact h.choice
  | pure value => exact .of_ok fun s => ⟨value, s, rfl, id⟩
  | bind _ _ ihrule ihnext => exact .bind ihrule ihnext
  | current => exact .of_ok fun s => ⟨s.current, s, rfl, id⟩
  | advance => exact .of_ok fun s => ⟨s.current, s.advance, rfl, State.Among.advance⟩
  | spanFrom start => exact .of_ok fun s => ⟨start.merge s.last, s, rfl, id⟩
  | failWith hcause => exact .failWith hcause
  | iterate _ value ihstep => exact .iterate ihstep value
  | recoverStatement _ ihrule => exact .recover ihrule fun start hs => hs.skipStatement start
  | recoverItem _ ihrule => exact .recover ihrule fun start hs => hs.skipItem start

namespace Level

variable {tokens : List Token}

theorem lowest_complains : lowest.Complains tokens where
  expr _ _ := .failWith .nesting
  operand _ := .failWith .nesting
  typeExpr := .failWith .nesting
  block := .failWith .nesting
  branch := .failWith .nesting
  choice := .failWith .nesting

theorem Complains.above {level : Level} (h : level.Complains tokens) :
    level.above.Complains tokens where
  expr place least := (Rule.expression_built place least).complains h
  operand place := (Rule.operand_built place).complains h
  typeExpr := Rule.typeExpr_built.complains h
  block := Rule.block_built.complains h
  branch := Rule.branch_built.complains h
  choice := Rule.choice_built.complains h

theorem allowing_complains (n : Nat) : (allowing n).Complains tokens := by
  induction n with
  | zero => exact lowest_complains
  | succ n ih => exact ih.above

end Level

theorem State.Among.items {tokens : List Token} {s t : State} {items : List (Item Span)}
    (h : s.Among tokens) (hrun : Rule.items .outermost s = .ok items t) : t.Among tokens :=
  (Rule.items_built.complains (Level.allowing_complains _)).ok h hrun

end SourceFront
