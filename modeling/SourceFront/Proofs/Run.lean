import SourceFront.Grammar.Type
import SourceFront.Grammar.Recovery

/-!
Runs of rules: the tokens that lie between two states, and what the small rules do
in one state.
-/

namespace SourceFront

/-- Each problem is one of a token in the list, and the problems come in the order of
the tokens. -/
inductive Reported : List Problem → List Token → Prop where
  | nil {tokens : List Token} : Reported [] tokens
  | here {problem : Problem} {problems : List Problem} {token : Token} {tokens : List Token}
      (hspan : problem.span = token.span) (hrest : Reported problems (token :: tokens)) :
      Reported (problem :: problems) (token :: tokens)
  | skip {problems : List Problem} {token : Token} {tokens : List Token}
      (hrest : Reported problems tokens) : Reported problems (token :: tokens)

namespace Reported

variable {problems later : List Problem} {token : Token} {front rest tokens : List Token}

theorem skips (h : Reported later tokens) (front : List Token) :
    Reported later (front ++ tokens) := by
  induction front with
  | nil => exact h
  | cons token front ih => exact .skip ih

theorem append (h : Reported problems (front ++ [token]))
    (hlater : Reported later (token :: rest)) :
    Reported (problems ++ later) (front ++ token :: rest) := by
  generalize htokens : front ++ [token] = tokens at h
  induction h generalizing front with
  | nil => exact hlater.skips front
  | @here problem problems first tokens hspan hrest ih =>
      cases front with
      | nil =>
          obtain ⟨rfl, rfl⟩ := List.cons.inj htokens
          exact .here hspan (@ih [] rfl)
      | cons first' front =>
          obtain ⟨rfl, rfl⟩ := List.cons.inj htokens
          exact .here hspan (@ih (first' :: front) rfl)
  | @skip problems first tokens hrest ih =>
      cases front with
      | nil =>
          obtain ⟨rfl, rfl⟩ := List.cons.inj htokens
          cases hrest
          exact hlater
      | cons first' front =>
          obtain ⟨rfl, rfl⟩ := List.cons.inj htokens
          exact .skip (ih rfl)

theorem exists_token (h : Reported problems tokens) :
    ∀ problem ∈ problems, ∃ token ∈ tokens, problem.span = token.span := by
  induction h with
  | nil => simp
  | here hspan hrest ih =>
      intro problem hmem
      rcases List.mem_cons.mp hmem with rfl | hmem
      · exact ⟨_, List.mem_cons_self, hspan⟩
      · exact ih problem hmem
  | skip hrest ih =>
      intro problem hmem
      obtain ⟨token, hmem, hspan⟩ := ih problem hmem
      exact ⟨token, List.mem_cons_of_mem _ hmem, hspan⟩

theorem pairwise (h : Reported problems tokens)
    (hordered : tokens.Pairwise fun a b => a.span.start ≤ b.span.start) :
    problems.Pairwise fun a b => a.start ≤ b.start := by
  induction h with
  | nil => exact .nil
  | @here problem problems token tokens hspan hrest ih =>
      refine List.pairwise_cons.mpr ⟨fun other hmem => ?_, ih hordered⟩
      obtain ⟨token', hmem', hspan'⟩ := hrest.exists_token other hmem
      rw [Problem.start, Problem.start, hspan, hspan']
      rcases List.mem_cons.mp hmem' with rfl | hmem'
      · exact Nat.le_refl _
      · exact (List.pairwise_cons.mp hordered).1 token' hmem'
  | skip hrest ih => exact ih (List.pairwise_cons.mp hordered).2

end Reported

namespace State

/-- The tokens that are passed on the way from `s` to `t`. Problems may be reported on
the way, of tokens that are passed or come next, in their order. -/
structure Passes (s : State) (tokens : List Token) (t : State) : Prop where
  ahead : s.ahead = tokens ++ t.ahead
  last : t.last = (tokens.getLast?.map Token.span).getD s.last
  stop : t.stop = s.stop
  problems : s.problems <+: t.problems
  reported : ∀ found, t.problems = s.problems ++ found → Reported found (tokens ++ [t.current])

/-- The tokens that are passed on the way from `s` to `t`, on which no problem is
reported. -/
structure Reads (s : State) (tokens : List Token) (t : State) : Prop
    extends Passes s tokens t where
  quiet : t.problems = s.problems

variable {s t u : State} {tokens more : List Token}

theorem current_of_ahead {token : Token} {rest : List Token}
    (h : s.ahead = token :: rest) : s.current = token := by
  simp [current, h]

theorem reported_of_quiet (h : t.problems = s.problems) (found : List Problem)
    (hfound : t.problems = s.problems ++ found) (tokens : List Token) : Reported found tokens := by
  obtain rfl : found = [] := List.self_eq_append_right.mp (h.symm.trans hfound)
  exact .nil

theorem Passes.refl (s : State) : s.Passes [] s :=
  ⟨rfl, rfl, rfl, List.prefix_rfl, fun found hfound => reported_of_quiet rfl found hfound _⟩

theorem Passes.eq_current_cons (h : s.Passes tokens t) :
    ∃ rest, tokens ++ [t.current] = s.current :: rest := by
  cases tokens with
  | nil =>
      have hsame : s.current = t.current := by
        rw [current, current, h.ahead, h.stop, List.nil_append]
      exact ⟨[], by rw [hsame, List.nil_append]⟩
  | cons token rest =>
      exact ⟨rest ++ [t.current], by rw [current_of_ahead h.ahead, List.cons_append]⟩

/-- The tokens that are passed and the one that comes next are the first of all that were
ahead, the end included. -/
theorem Passes.concat_current (h : s.Passes tokens t) :
    tokens ++ [t.current] <+: s.ahead ++ [.eof s.stop] := by
  rw [h.ahead, ← h.stop, List.append_assoc]
  refine (List.prefix_append_right_inj tokens).mpr ?_
  cases hahead : t.ahead with
  | nil => simp [current, hahead]
  | cons token rest => simp [current, hahead]

theorem Passes.trans (hst : s.Passes tokens t) (htu : t.Passes more u) :
    s.Passes (tokens ++ more) u where
  ahead := by rw [hst.ahead, htu.ahead, List.append_assoc]
  last := by
    rw [htu.last, hst.last, List.getLast?_append]
    cases more.getLast? <;> rfl
  stop := htu.stop.trans hst.stop
  problems := hst.problems.trans htu.problems
  reported := by
    intro found hfound
    obtain ⟨first, hfirst⟩ := hst.problems
    obtain ⟨second, hsecond⟩ := htu.problems
    have hsplit : found = first ++ second := by
      rw [← hsecond, ← hfirst, List.append_assoc] at hfound
      exact (List.append_cancel_left hfound).symm
    obtain ⟨rest, hrest⟩ := htu.eq_current_cons
    have hlater := htu.reported second hsecond.symm
    rw [hrest] at hlater
    rw [hsplit, List.append_assoc, hrest]
    exact (hst.reported first hfirst.symm).append hlater

theorem Reads.refl (s : State) : s.Reads [] s :=
  ⟨.refl s, rfl⟩

theorem Reads.trans (hst : s.Reads tokens t) (htu : t.Reads more u) :
    s.Reads (tokens ++ more) u :=
  ⟨hst.toPasses.trans htu.toPasses, htu.quiet.trans hst.quiet⟩

theorem Passes.length_le (h : s.Passes tokens t) : t.ahead.length ≤ s.ahead.length := by
  rw [h.ahead, List.length_append]
  omega

theorem Passes.length_lt (h : s.Passes tokens t) (hne : tokens ≠ []) :
    t.ahead.length < s.ahead.length := by
  have := List.length_pos_iff.mpr hne
  rw [h.ahead, List.length_append]
  omega

theorem ahead_of_current (h : s.current.kind ≠ .eof) :
    ∃ rest, s.ahead = s.current :: rest := by
  unfold current at h ⊢
  cases hahead : s.ahead with
  | nil => simp [hahead, Token.eof] at h
  | cons token rest => exact ⟨rest, rfl⟩

theorem reads_advance_of_ahead {token : Token} {rest : List Token}
    (h : s.ahead = token :: rest) : s.Reads [token] s.advance where
  ahead := by simp [advance, h]
  last := by simp [advance, current_of_ahead h, h]
  stop := rfl
  problems := List.prefix_rfl
  reported found hfound := reported_of_quiet rfl found hfound _
  quiet := rfl

theorem reads_advance (h : s.current.kind ≠ .eof) : s.Reads [s.current] s.advance := by
  obtain ⟨rest, hahead⟩ := ahead_of_current h
  exact reads_advance_of_ahead hahead

theorem reads_keyword {k : Keyword} (h : s.current.kind = .keyword k) :
    s.Reads [s.current] s.advance :=
  reads_advance (by simp [h])

theorem reads_symbol {symbol : Symbol} (h : s.current.kind = .symbol symbol) :
    s.Reads [s.current] s.advance :=
  reads_advance (by simp [h])

theorem reads_ident {text : String} (h : s.current.kind = .ident text) :
    s.Reads [s.current] s.advance :=
  reads_advance (by simp [h])

theorem exists_reads_advance (s : State) : ∃ tokens, s.Reads tokens s.advance := by
  cases hahead : s.ahead with
  | nil => exact ⟨[], ⟨by simp [advance, hahead], by simp [advance, hahead], rfl,
      List.prefix_rfl, fun found hfound => reported_of_quiet rfl found hfound _⟩, rfl⟩
  | cons token rest => exact ⟨[token], reads_advance_of_ahead hahead⟩

end State

/-- The value that a round leads to. -/
def Round.value {σ : Type} : Round σ → σ
  | more value | last value => value

namespace Rule

variable {α β : Type} {s t : State}

theorem bind_apply (rule : Rule α) (next : α → Rule β) (s : State) :
    (rule >>= next) s =
      match rule s with
      | .ok value t => next value t
      | .error problem t => .error problem t := by
  cases h : rule s <;> simp only [bind, EStateM.bind, h]

theorem bind_of_ok {rule : Rule α} {value : α} (h : rule s = .ok value t)
    (next : α → Rule β) : (rule >>= next) s = next value t := by
  rw [bind_apply, h]

theorem bind_of_error {rule : Rule α} {problem : Problem}
    (h : rule s = .error problem t) (next : α → Rule β) :
    (rule >>= next) s = .error problem t := by
  rw [bind_apply, h]

theorem bind_eq_ok {rule : Rule α} {next : α → Rule β} {value : β} :
    (rule >>= next) s = .ok value t ↔
      ∃ first u, rule s = .ok first u ∧ next first u = .ok value t := by
  rw [bind_apply]
  constructor
  · intro h
    cases hrule : rule s with
    | ok first u => exact ⟨first, u, rfl, by simpa only [hrule] using h⟩
    | error problem u => simp [hrule] at h
  · rintro ⟨first, u, hrule, hnext⟩
    simpa only [hrule] using hnext

theorem bind_eq_error {rule : Rule α} {next : α → Rule β} {problem : Problem} :
    (rule >>= next) s = .error problem t ↔
      rule s = .error problem t ∨
        ∃ first u, rule s = .ok first u ∧ next first u = .error problem t := by
  rw [bind_apply]
  constructor
  · intro h
    cases hrule : rule s with
    | ok first u => exact .inr ⟨first, u, rfl, by simpa only [hrule] using h⟩
    | error problem' u =>
        simp only [hrule] at h
        cases h
        exact .inl rfl
  · rintro (hrule | ⟨first, u, hrule, hnext⟩)
    · simp only [hrule]
    · simpa only [hrule] using hnext

theorem pure_apply (value : α) (s : State) : (pure value : Rule α) s = .ok value s := rfl

theorem pure_eq_ok {value value' : α} :
    (pure value : Rule α) s = .ok value' t ↔ value = value' ∧ s = t := by
  simp [pure_apply]

theorem current_apply (s : State) : current s = .ok s.current s := rfl

theorem current_bind (next : Token → Rule β) (s : State) :
    (current >>= next) s = next s.current s := rfl

theorem advance_apply (s : State) : advance s = .ok s.current s.advance := rfl

theorem advance_bind (next : Token → Rule β) (s : State) :
    (advance >>= next) s = next s.current s.advance := rfl

theorem isAt_bind (kind : TokenKind) (next : Bool → Rule β) (s : State) :
    (isAt kind >>= next) s = next (decide (s.current.kind = kind)) s := rfl

theorem isAtClose_bind (close : Symbol) (next : Bool → Rule β) (s : State) :
    (isAtClose close >>= next) s =
      next (decide (s.current.kind = .symbol close) || s.current.isEof) s := rfl

theorem take?_apply (kind : TokenKind) (s : State) :
    take? kind s =
      if s.current.kind = kind then .ok true s.advance else .ok false s := by
  simp only [take?, isAt_bind, decide_eq_true_eq]
  split <;> rfl

theorem take?_eq_ok {kind : TokenKind} {taken : Bool} :
    take? kind s = .ok taken t ↔
      (s.current.kind = kind ∧ taken = true ∧ t = s.advance) ∨
        (s.current.kind ≠ kind ∧ taken = false ∧ t = s) := by
  rw [take?_apply]
  by_cases h : s.current.kind = kind <;> simp [h, eq_comm]

theorem take?_bind (kind : TokenKind) (next : Bool → Rule β) (s : State) :
    (take? kind >>= next) s =
      if s.current.kind = kind then next true s.advance else next false s := by
  rw [bind_apply, take?_apply]
  by_cases h : s.current.kind = kind
  · simp only [if_pos h]
  · simp only [if_neg h]

theorem failWith_apply (cause : Token → Cause) (s : State) :
    (failWith cause : Rule α) s = .error ⟨cause s.current, s.current.span⟩ s := rfl

theorem failExpecting_apply (expected : String) (s : State) :
    (failExpecting expected : Rule α) s =
      .error ⟨.unexpectedToken expected s.current.describe, s.current.span⟩ s := rfl

theorem expect_apply (symbol : Symbol) (s : State) :
    expect symbol s =
      if s.current.kind = .symbol symbol then .ok s.current s.advance
      else failExpecting ("`" ++ symbol.spelling ++ "`") s := by
  simp only [expect, isAt_bind, decide_eq_true_eq]
  split <;> rfl

theorem expect_eq_ok {symbol : Symbol} {token : Token} :
    expect symbol s = .ok token t ↔
      s.current.kind = .symbol symbol ∧ token = s.current ∧ t = s.advance := by
  rw [expect_apply]
  by_cases h : s.current.kind = .symbol symbol <;>
    simp [h, failExpecting_apply, eq_comm]

theorem spanFrom_apply (start : Span) (s : State) :
    spanFrom start s = .ok (start.merge s.last) s := rfl

theorem name_eq_ok {value : Name Span} :
    name s = .ok value t ↔
      ∃ text, s.current.kind = .ident text ∧ value = ⟨text, s.current.span⟩ ∧
        t = s.advance := by
  simp only [name, current_bind]
  cases s.current.kind <;> simp [advance_bind, pure_apply, failExpecting_apply, eq_comm]

theorem iterate_of_last {σ : Type} {step : σ → Rule (Round σ)} {value value' : σ}
    (h : step value s = .ok (.last value') t) : iterate step value s = .ok value' t := by
  rw [iterate, h]

theorem iterate_of_more {σ : Type} {step : σ → Rule (Round σ)} {value value' : σ}
    (h : step value s = .ok (.more value') t) (hlt : t.ahead.length < s.ahead.length) :
    iterate step value s = iterate step value' t := by
  rw [iterate, h]
  exact if_pos hlt

theorem iterate_of_error {σ : Type} {step : σ → Rule (Round σ)} {value : σ}
    {problem : Problem} (h : step value s = .error problem t) :
    iterate step value s = .error problem t := by
  rw [iterate, h]

end Rule

end SourceFront
