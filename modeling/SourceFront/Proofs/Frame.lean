import SourceFront.Proofs.Built
import SourceFront.Proofs.Extension

/-!
What no rule does otherwise: a rule passes over tokens, keeps the end and the
problems reported before, and fails at the token that is current then. It looks no
further than at that token, and what it reads without a problem does not depend on the
problems before.
-/

namespace SourceFront

open State (Passes)

namespace State

variable {s t : State} {tokens : List Token}

/-- No problem has been reported, and no malformed token comes next. -/
def Clean (s : State) : Prop :=
  s.problems = [] ∧ ∀ token ∈ s.ahead, token.kind ≠ .invalid

theorem Clean.current_ne_invalid (h : s.Clean) : s.current.kind ≠ .invalid := by
  unfold current
  cases hahead : s.ahead with
  | nil => simp [Token.eof]
  | cons token rest => exact h.2 token (by simp [hahead])

theorem Passes.quiet (hpasses : s.Passes tokens t) (hquiet : t.problems = []) :
    s.problems = [] := by
  have hkept := hpasses.problems
  rwa [hquiet, List.prefix_nil] at hkept

theorem Clean.of_passes (h : s.Clean) (hpasses : s.Passes tokens t) (hquiet : t.problems = []) :
    t.Clean := by
  refine ⟨hquiet, fun token hmem => h.2 token ?_⟩
  rw [hpasses.ahead]
  exact List.mem_append_right tokens hmem

/-- The same place if these problems have been reported. -/
def noting (problems : List Problem) (s : State) : State :=
  { s with problems }

theorem skip_noting (n : Nat) (problems : List Problem) (s : State) :
    (s.noting problems).skip n = (s.skip n).noting problems := by
  induction n generalizing s with
  | zero => rfl
  | succ n ih => exact ih s.advance

end State

/-- Both outcomes of the rule lie behind the state it begins in, and a failure is
one of the current token. An outcome that comes before the last token ahead comes also
if there are more tokens behind that one. What is read without a problem is read in the
same way behind other problems. -/
structure Rule.Framed {α : Type} (rule : Rule α) : Prop where
  ok : ∀ {s t : State} {value : α}, rule s = .ok value t → ∃ tokens, s.Passes tokens t
  error : ∀ {s t : State} {problem : Problem}, rule s = .error problem t →
    problem.span = t.current.span ∧ ∃ tokens, s.Passes tokens t
  extend_ok : ∀ {s t : State} {value : α}, rule s = .ok value t → t.ahead ≠ [] →
    ∀ more stop, rule (s.extend more stop) = .ok value (t.extend more stop)
  extend_error : ∀ {s t : State} {problem : Problem}, rule s = .error problem t →
    t.ahead ≠ [] → ∀ more stop,
      rule (s.extend more stop) = .error problem (t.extend more stop)
  quiet : ∀ {s t : State} {value : α}, rule s = .ok value t → s.Clean → t.problems = [] →
    ∀ problems, rule (s.noting problems) = .ok value (t.noting problems)

namespace State

variable {s t u : State}

theorem exists_passes_trans (hst : ∃ tokens, s.Passes tokens t)
    (htu : ∃ tokens, t.Passes tokens u) : ∃ tokens, s.Passes tokens u := by
  obtain ⟨tokens, hst⟩ := hst
  obtain ⟨more, htu⟩ := htu
  exact ⟨tokens ++ more, hst.trans htu⟩

theorem exists_passes_advance (s : State) : ∃ tokens, s.Passes tokens s.advance := by
  obtain ⟨tokens, hreads⟩ := s.exists_reads_advance
  exact ⟨tokens, hreads.toPasses⟩

theorem exists_passes_skip (n : Nat) (s : State) :
    ∃ tokens, s.Passes tokens (s.skip n) := by
  induction n generalizing s with
  | zero => exact ⟨[], .refl s⟩
  | succ n ih => exact exists_passes_trans s.exists_passes_advance (ih s.advance)

theorem passes_skip_succ {token : Token} {rest : List Token} (h : s.ahead = token :: rest)
    (n : Nat) : ∃ tokens, s.Passes (token :: tokens) (s.skip (n + 1)) := by
  obtain ⟨tokens, hpasses⟩ := exists_passes_skip n s.advance
  exact ⟨tokens, (reads_advance_of_ahead h).toPasses.trans hpasses⟩

theorem skipStatement_invalid (start : State) (h : s.current.kind = .invalid) :
    ∃ tokens, s.Passes tokens (skipStatement start s) ∧
      ∃ token ∈ tokens, token.kind = .invalid := by
  obtain ⟨rest, hahead⟩ := ahead_of_current (s := s) (by simp [h])
  have hrest (inFor : Bool) (depth : Nat) (fresh : Bool) :
      statementRest inFor depth fresh s.ahead = statementRest inFor depth false rest + 1 := by
    rw [hahead]
    simp [statementRest, h, TokenKind.beginsItemOnly, TokenKind.beginsStatement,
      Nat.add_comm]
  unfold skipStatement
  dsimp only
  rw [hrest]
  obtain ⟨tokens, hpasses⟩ := passes_skip_succ hahead _
  exact ⟨_, hpasses, s.current, by simp, h⟩

theorem skipItem_invalid (start : State) (h : s.current.kind = .invalid) :
    ∃ tokens, s.Passes tokens (skipItem start s) ∧
      ∃ token ∈ tokens, token.kind = .invalid := by
  obtain ⟨rest, hahead⟩ := ahead_of_current (s := s) (by simp [h])
  have hrest : itemRest s.ahead = itemRest rest + 1 := by
    rw [hahead, itemRest]
    simp [Token.isEof, h, TokenKind.beginsItem, Nat.add_comm]
  unfold skipItem
  dsimp only
  split
  · obtain ⟨tokens, hpasses⟩ := exists_passes_skip (itemRest s.advance.ahead) s.advance
    exact ⟨_, (reads_advance_of_ahead hahead).toPasses.trans hpasses, s.current, by simp, h⟩
  · rw [hrest]
    obtain ⟨tokens, hpasses⟩ := passes_skip_succ hahead _
    exact ⟨_, hpasses, s.current, by simp, h⟩

theorem readSince_of_passes {tokens : List Token} (h : s.Passes tokens t) :
    readSince s t = tokens := by
  rw [readSince, h.ahead, List.length_append, Nat.add_sub_cancel, List.take_left]

theorem skipItem_length_lt (h : ∃ tokens, s.Passes tokens t)
    (hkind : s.current.kind ≠ .eof) :
    (skipItem s t).ahead.length < s.ahead.length := by
  obtain ⟨tokens, hpasses⟩ := h
  unfold skipItem
  rw [readSince_of_passes hpasses]
  dsimp only
  cases tokens with
  | nil =>
      obtain ⟨rest, hahead⟩ := ahead_of_current hkind
      have hsame : t.ahead = s.current :: rest := by rw [← hahead, hpasses.ahead, List.nil_append]
      obtain ⟨more, hskip⟩ := exists_passes_skip (itemRest t.advance.ahead) t.advance
      have hadvance := (reads_advance_of_ahead hsame).length_lt (by simp)
      have hle := hskip.length_le
      have hlength := hpasses.length_le
      simp only [List.isEmpty_nil, if_true]
      omega
  | cons token tokens =>
      obtain ⟨more, hskip⟩ := exists_passes_skip (itemRest t.ahead) t
      have hlt := hpasses.length_lt (by simp)
      have hle := hskip.length_le
      simp only [List.isEmpty_cons, Bool.false_eq_true, if_false]
      omega

theorem passes_report {problem : Problem} (hspan : problem.span = s.current.span) :
    s.Passes [] (s.report problem) := by
  unfold report
  split
  · exact .refl s
  split
  · exact .refl s
  · refine ⟨rfl, rfl, rfl, List.prefix_append _ _, fun found hfound => ?_⟩
    obtain rfl : [problem] = found := List.append_cancel_left hfound
    exact .here hspan .nil

/-- A way of going on behind a failure that only passes over tokens, and looks no
further than to where it ends. -/
structure Resumption (resume : State → State → State) : Prop where
  passes : ∀ start s : State, ∃ tokens, s.Passes tokens (resume start s)
  extend : ∀ {start s : State} {tokens : List Token}, start.Passes tokens s →
    (resume start s).ahead ≠ [] → ∀ more stop,
      resume (start.extend more stop) (s.extend more stop) =
        (resume start s).extend more stop

theorem skipStatement_resumption : Resumption skipStatement where
  passes _ s := exists_passes_skip _ s
  extend := extend_skipStatement

theorem skipItem_resumption : Resumption skipItem where
  passes start s := by
    unfold skipItem
    dsimp only
    split
    · exact exists_passes_trans s.exists_passes_advance (exists_passes_skip _ _)
    · exact exists_passes_skip _ s
  extend _ := extend_skipItem

end State

namespace Rule.Framed

variable {α β σ : Type}

theorem pure (value : α) : (pure value : Rule α).Framed where
  ok h := by
    cases h
    exact ⟨[], .refl _⟩
  error h := nomatch h
  extend_ok h _ _ _ := by
    cases h
    rfl
  extend_error h := nomatch h
  quiet h _ _ _ := by
    cases h
    rfl

theorem bind {rule : Rule α} {next : α → Rule β} (hrule : rule.Framed)
    (hnext : ∀ value, (next value).Framed) : (rule >>= next).Framed where
  ok h := by
    obtain ⟨value, u, hfirst, hsecond⟩ := bind_eq_ok.mp h
    exact State.exists_passes_trans (hrule.ok hfirst) ((hnext value).ok hsecond)
  error h := by
    rcases bind_eq_error.mp h with hfirst | ⟨value, u, hfirst, hsecond⟩
    · exact hrule.error hfirst
    · obtain ⟨hspan, hpasses⟩ := (hnext value).error hsecond
      exact ⟨hspan, State.exists_passes_trans (hrule.ok hfirst) hpasses⟩
  extend_ok h hne more stop := by
    obtain ⟨value, u, hfirst, hsecond⟩ := bind_eq_ok.mp h
    obtain ⟨tokens, hpasses⟩ := (hnext value).ok hsecond
    rw [bind_of_ok (hrule.extend_ok hfirst (hpasses.ahead_ne_nil hne) more stop)]
    exact (hnext value).extend_ok hsecond hne more stop
  extend_error h hne more stop := by
    rcases bind_eq_error.mp h with hfirst | ⟨value, u, hfirst, hsecond⟩
    · exact bind_of_error (hrule.extend_error hfirst hne more stop) _
    · obtain ⟨-, tokens, hpasses⟩ := (hnext value).error hsecond
      rw [bind_of_ok (hrule.extend_ok hfirst (hpasses.ahead_ne_nil hne) more stop)]
      exact (hnext value).extend_error hsecond hne more stop
  quiet h hclean hquiet problems := by
    obtain ⟨value, u, hfirst, hsecond⟩ := bind_eq_ok.mp h
    obtain ⟨passed, hpassed⟩ := hrule.ok hfirst
    obtain ⟨tokens, hpasses⟩ := (hnext value).ok hsecond
    have hquiet' := hpasses.quiet hquiet
    rw [bind_of_ok (hrule.quiet hfirst hclean hquiet' problems)]
    exact (hnext value).quiet hsecond (hclean.of_passes hpassed hquiet') hquiet problems

theorem ite {c : Prop} [Decidable c] {yes no : Rule α} (hyes : yes.Framed)
    (hno : no.Framed) : (if c then yes else no).Framed := by
  split
  · exact hyes
  · exact hno

theorem current : Rule.current.Framed where
  ok h := by
    cases h
    exact ⟨[], .refl _⟩
  error h := nomatch h
  extend_ok h hne more stop := by
    cases h
    rw [current_apply, State.extend_current more stop hne]
  extend_error h := nomatch h
  quiet h _ _ _ := by
    cases h
    rfl

theorem advance : Rule.advance.Framed where
  ok h := by
    cases h
    exact State.exists_passes_advance _
  error h := nomatch h
  extend_ok {s _ _} h hne more stop := by
    cases h
    have hahead : s.ahead ≠ [] := fun hnil => hne (by simp [State.advance, hnil])
    rw [advance_apply, State.extend_current more stop hahead,
      State.extend_advance more stop hahead]
  extend_error h := nomatch h
  quiet h _ _ _ := by
    cases h
    rfl

theorem failWith (cause : Token → Cause) : (failWith cause : Rule α).Framed where
  ok h := nomatch h
  error h := by
    cases h
    exact ⟨rfl, [], .refl _⟩
  extend_ok h := nomatch h
  extend_error h hne more stop := by
    cases h
    rw [failWith_apply, State.extend_current more stop hne]
  quiet h := nomatch h

theorem isAt (kind : TokenKind) : (isAt kind).Framed :=
  current.bind fun _ => .pure _

theorem isAtClose (close : Symbol) : (isAtClose close).Framed :=
  current.bind fun _ => .pure _

theorem take? (kind : TokenKind) : (take? kind).Framed :=
  (isAt kind).bind fun _ => .ite (advance.bind fun _ => .pure _) (.pure _)

theorem failExpecting (expected : String) : (failExpecting expected : Rule α).Framed :=
  failWith _

theorem expect (symbol : Symbol) : (expect symbol).Framed :=
  (isAt _).bind fun _ => .ite advance (failExpecting _)

theorem spanFrom (start : Span) : (spanFrom start).Framed where
  ok h := by
    cases h
    exact ⟨[], .refl _⟩
  error h := nomatch h
  extend_ok h _ _ _ := by
    cases h
    rfl
  extend_error h := nomatch h
  quiet h _ _ _ := by
    cases h
    rfl

theorem passes_iterate {step : σ → Rule (Round σ)} (hstep : ∀ value, (step value).Framed)
    {value value' : σ} {s t : State} (h : iterate step value s = .ok value' t) :
    ∃ tokens, s.Passes tokens t := by
  fun_induction Rule.iterate step value s with
  | case1 => cases h
  | case2 value s value'' u hround =>
      cases h
      exact (hstep value).ok hround
  | case3 value s value'' u hround hlt ih =>
      exact State.exists_passes_trans ((hstep value).ok hround) (ih h)
  | case4 value s value'' u hround hlt =>
      cases h
      exact (hstep value).ok hround

theorem fails_iterate {step : σ → Rule (Round σ)} (hstep : ∀ value, (step value).Framed)
    {value : σ} {s t : State} {problem : Problem}
    (h : iterate step value s = .error problem t) :
    problem.span = t.current.span ∧ ∃ tokens, s.Passes tokens t := by
  fun_induction Rule.iterate step value s with
  | case1 value s problem' u hround =>
      cases h
      exact (hstep value).error hround
  | case2 => cases h
  | case3 value s value'' u hround hlt ih =>
      obtain ⟨hspan, hpasses⟩ := ih h
      exact ⟨hspan, State.exists_passes_trans ((hstep value).ok hround) hpasses⟩
  | case4 => cases h

theorem iterate {step : σ → Rule (Round σ)} (hstep : ∀ value, (step value).Framed)
    (value : σ) : Rule.Framed (iterate step value) where
  ok := passes_iterate hstep
  error := fails_iterate hstep
  extend_ok := by
    intro s t value' h hne more stop
    fun_induction Rule.iterate step value s with
    | case1 => cases h
    | case2 value s value'' u hround =>
        cases h
        exact iterate_of_last ((hstep value).extend_ok hround hne more stop)
    | case3 value s value'' u hround hlt ih =>
        obtain ⟨tokens, hpasses⟩ := passes_iterate hstep h
        have hextended := (hstep value).extend_ok hround (hpasses.ahead_ne_nil hne) more stop
        rw [iterate_of_more hextended (by simpa [State.extend] using hlt), ih h]
    | case4 value s value'' u hround hlt =>
        cases h
        rw [Rule.iterate, (hstep value).extend_ok hround hne more stop]
        exact if_neg (by simpa [State.extend] using hlt)
  extend_error := by
    intro s t problem h hne more stop
    fun_induction Rule.iterate step value s with
    | case1 value s problem' u hround =>
        cases h
        exact iterate_of_error ((hstep value).extend_error hround hne more stop)
    | case2 => cases h
    | case3 value s value'' u hround hlt ih =>
        obtain ⟨-, tokens, hpasses⟩ := fails_iterate hstep h
        have hextended := (hstep value).extend_ok hround (hpasses.ahead_ne_nil hne) more stop
        rw [iterate_of_more hextended (by simpa [State.extend] using hlt), ih h]
    | case4 => cases h
  quiet := by
    intro s t value' h hclean hquiet problems
    fun_induction Rule.iterate step value s with
    | case1 => cases h
    | case2 value s value'' u hround =>
        cases h
        exact iterate_of_last ((hstep value).quiet hround hclean hquiet problems)
    | case3 value s value'' u hround hlt ih =>
        obtain ⟨passed, hpassed⟩ := (hstep value).ok hround
        obtain ⟨tokens, hpasses⟩ := passes_iterate hstep h
        have hquiet' := hpasses.quiet hquiet
        have hnoting := (hstep value).quiet hround hclean hquiet' problems
        rw [iterate_of_more hnoting hlt, ih h (hclean.of_passes hpassed hquiet')]
    | case4 value s value'' u hround hlt =>
        cases h
        rw [Rule.iterate, (hstep value).quiet hround hclean hquiet problems]
        exact if_neg hlt

theorem commaList {element : Rule α} (helement : element.Framed) (close : Symbol) :
    (commaList close element).Framed := by
  refine iterate (fun read => ?_) _
  refine (isAtClose close).bind fun _ => .ite (.pure _) ?_
  exact helement.bind fun _ => (take? _).bind fun _ => .ite (.pure _) (.pure _)

theorem paramList {param : Rule α} (hparam : param.Framed) : (paramList param).Framed := by
  refine iterate (fun (read, _) => ?_) _
  refine (isAtClose _).bind fun _ => .ite (.pure _) ?_
  refine (take? _).bind fun _ => .ite (.pure _) ?_
  exact hparam.bind fun _ => (take? _).bind fun _ => .ite (.pure _) (.pure _)

theorem recover_quiet {rule : Rule α} {resume : State → State → State} {phrase? : Option α}
    {s t : State} (hrule : rule.Framed) (hresume : State.Resumption resume)
    (h : Rule.recover rule resume s = .ok phrase? t) (hquiet : t.problems = [])
    (hvalid : ∀ token ∈ s.ahead, token.kind ≠ .invalid) :
    ∃ phrase, rule s = .ok phrase t ∧ phrase? = some phrase := by
  unfold Rule.recover at h
  cases hrun : rule s with
  | ok phrase u =>
      rw [hrun] at h
      cases h
      exact ⟨phrase, rfl, rfl⟩
  | error problem u =>
      rw [hrun] at h
      cases h
      obtain ⟨hspan, tokens, hpasses⟩ := hrule.error hrun
      obtain ⟨skipped, hskipped⟩ := hresume.passes s (u.report problem)
      have hreport : (u.report problem).problems = [] := hskipped.quiet hquiet
      have hempty : u.problems = [] := (State.passes_report hspan).quiet hreport
      have hcurrent : u.current.kind ≠ .invalid := by
        intro hinvalid
        obtain ⟨rest, hahead⟩ := State.ahead_of_current (s := u) (by simp [hinvalid])
        exact hvalid u.current (by simp [hpasses.ahead, hahead]) hinvalid
      simp [State.report, hcurrent, hempty] at hreport

theorem recover {rule : Rule α} {resume : State → State → State} (hrule : rule.Framed)
    (hresume : State.Resumption resume) : (recover rule resume).Framed where
  ok := by
    intro s t value h
    unfold Rule.recover at h
    cases hrun : rule s with
    | ok value u =>
        simp only [hrun] at h
        cases h
        exact hrule.ok hrun
    | error problem u =>
        simp only [hrun] at h
        cases h
        obtain ⟨hspan, hpasses⟩ := hrule.error hrun
        have hreport : ∃ tokens, u.Passes tokens (u.report problem) :=
          ⟨[], State.passes_report hspan⟩
        exact State.exists_passes_trans hpasses
          (State.exists_passes_trans hreport (hresume.passes s _))
  error := by
    intro s t problem h
    unfold Rule.recover at h
    cases hrun : rule s <;> simp only [hrun] at h <;> cases h
  extend_ok := by
    intro s t value h hne more stop
    unfold Rule.recover at h ⊢
    cases hrun : rule s with
    | ok value u =>
        simp only [hrun] at h
        cases h
        rw [hrule.extend_ok hrun hne more stop]
    | error problem u =>
        simp only [hrun] at h
        cases h
        obtain ⟨hspan, tokens, hpasses⟩ := hrule.error hrun
        have hreport := State.passes_report hspan
        obtain ⟨skipped, hskipped⟩ := hresume.passes s (u.report problem)
        have hne' := (hreport.trans hskipped).ahead_ne_nil hne
        rw [hrule.extend_error hrun hne' more stop]
        dsimp only
        rw [State.extend_report more stop problem hne',
          hresume.extend (hpasses.trans hreport) hne more stop]
  extend_error := by
    intro s t problem h
    unfold Rule.recover at h
    cases hrun : rule s <;> simp only [hrun] at h <;> cases h
  quiet := by
    intro s t value h hclean hquiet problems
    obtain ⟨phrase, hphrase, rfl⟩ := recover_quiet hrule hresume h hquiet hclean.2
    rw [Rule.recover, hrule.quiet hphrase hclean hquiet problems]

end Rule.Framed

/-- All rules of the level are framed. -/
structure Level.Framed (level : Level) : Prop where
  expr : ∀ place least, (level.expr place least).Framed
  operand : ∀ place, (level.operand place).Framed
  typeExpr : level.typeExpr.Framed
  block : level.block.Framed
  branch : level.branch.Framed
  choice : level.choice.Framed

/-- A rule that is built from framed rules is framed. -/
theorem Rule.Built.framed {level : Level} {α : Type} {rule : Rule α} (hrule : rule.Built level)
    (h : level.Framed) : rule.Framed := by
  induction hrule with
  | expr place least => exact h.expr place least
  | operand place => exact h.operand place
  | typeExpr => exact h.typeExpr
  | block => exact h.block
  | branch => exact h.branch
  | choice => exact h.choice
  | pure value => exact .pure value
  | bind _ _ ihrule ihnext => exact .bind ihrule ihnext
  | current => exact .current
  | advance => exact .advance
  | spanFrom start => exact .spanFrom start
  | failWith => exact .failWith _
  | iterate _ value ihstep => exact .iterate ihstep value
  | recoverStatement _ ihrule => exact .recover ihrule State.skipStatement_resumption
  | recoverItem _ ihrule => exact .recover ihrule State.skipItem_resumption

namespace Level

theorem lowest_framed : lowest.Framed :=
  ⟨fun _ _ => .failWith _, fun _ => .failWith _, .failWith _, .failWith _, .failWith _,
    .failWith _⟩

theorem Framed.above {level : Level} (h : level.Framed) : level.above.Framed where
  expr place least := (Rule.expression_built place least).framed h
  operand place := (Rule.operand_built place).framed h
  typeExpr := Rule.typeExpr_built.framed h
  block := Rule.block_built.framed h
  branch := Rule.branch_built.framed h
  choice := Rule.choice_built.framed h

theorem allowing_framed (n : Nat) : (allowing n).Framed := by
  induction n with
  | zero => exact lowest_framed
  | succ n ih => exact ih.above

end Level

namespace Rule

theorem name_framed : name.Framed :=
  name_built.framed Level.lowest_framed

theorem stars_framed : stars.Framed :=
  stars_built.framed Level.lowest_framed

theorem jump_framed : jump.Framed :=
  jump_built.framed Level.lowest_framed

theorem pattern_framed : pattern.Framed :=
  pattern_built.framed Level.lowest_framed

theorem patterns_framed : patterns.Framed :=
  patterns_built.framed Level.lowest_framed

theorem import_framed : import_.Framed :=
  import_built.framed Level.lowest_framed

variable {level : Level} (h : level.Framed)
include h

theorem resultType_framed : (resultType level).Framed :=
  resultType_built.framed h

theorem typeBase_framed (pointers : Nat) : (typeBase level pointers).Framed :=
  (typeBase_built _).framed h

theorem sizes_framed : (sizes level).Framed :=
  sizes_built.framed h

theorem typeAnnotation?_framed : (typeAnnotation? level).Framed :=
  typeAnnotation?_built.framed h

theorem fieldInit_framed : (fieldInit level).Framed :=
  fieldInit_built.framed h

theorem primary_framed (place : Place) : (primary level place).Framed :=
  (primary_built _).framed h

theorem member_framed : (member level).Framed :=
  member_built.framed h

theorem forInit_framed : (forInit level).Framed :=
  forInit_built.framed h

theorem armBody_framed : (armBody level).Framed :=
  armBody_built.framed h

theorem arm_framed : (arm level).Framed :=
  arm_built.framed h

theorem arms_framed : (arms level).Framed :=
  arms_built.framed h

theorem statement_framed : (statement level).Framed :=
  statement_built.framed h

theorem blockRound_framed (read : List (Stmt Span)) : (blockRound level read).Framed :=
  (blockRound_built _).framed h

theorem typedName_framed : (typedName level).Framed :=
  typedName_built.framed h

theorem prototype_framed (name : Name Span) : (prototype level name).Framed :=
  (prototype_built _).framed h

theorem variant_framed : (variant level).Framed :=
  variant_built.framed h

theorem item_framed : (item level).Framed :=
  item_built.framed h

theorem moduleRound_framed (read : List (Item Span)) : (moduleRound level read).Framed :=
  (moduleRound_built _).framed h

theorem items_framed : (items level).Framed :=
  items_built.framed h

end Rule

end SourceFront
