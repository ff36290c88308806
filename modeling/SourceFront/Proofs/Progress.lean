import SourceFront.Proofs.Frame

/-!
Progress: a round of a repetition that another one follows has read a token. So no
repetition ends because a round has read none.
-/

namespace SourceFront

variable {α β σ : Type}

theorem State.Passes.length_lt_of_advance {s t : State} {tokens : List Token}
    (h : s.advance.Passes tokens t) (hkind : s.current.kind ≠ .eof) :
    t.ahead.length < s.ahead.length :=
  Nat.lt_of_le_of_lt h.length_le ((reads_advance hkind).length_lt (by simp))

/-- Whenever the rule does not fail, it reads a token. -/
def Rule.Consumes (rule : Rule α) : Prop :=
  ∀ (s t : State) (value : α), rule s = .ok value t → t.ahead.length < s.ahead.length

/-- Whenever another round follows, the round reads a token. -/
def Rule.Advances (round : Rule (Round σ)) : Prop :=
  ∀ (s t : State) (value : σ), round s = .ok (.more value) t →
    t.ahead.length < s.ahead.length

namespace Rule.Consumes

theorem refuse (cause : Token → Cause) : (failWith cause : Rule α).Consumes :=
  fun _ _ _ h => nomatch h

theorem behind {rule : Rule α} {next : α → Rule β} (hrule : rule.Framed)
    (hnext : ∀ value, (next value).Consumes) : (rule >>= next).Consumes := by
  intro s t result h
  obtain ⟨value, u, hfirst, hsecond⟩ := bind_eq_ok.mp h
  obtain ⟨tokens, hpasses⟩ := hrule.ok hfirst
  exact Nat.lt_of_lt_of_le (hnext value u t result hsecond) hpasses.length_le

theorem before {rule : Rule α} {next : α → Rule β} (hrule : rule.Consumes)
    (hnext : ∀ value, (next value).Framed) : (rule >>= next).Consumes := by
  intro s t result h
  obtain ⟨value, u, hfirst, hsecond⟩ := bind_eq_ok.mp h
  obtain ⟨tokens, hpasses⟩ := (hnext value).ok hsecond
  exact Nat.lt_of_le_of_lt hpasses.length_le (hrule s u value hfirst)

theorem ite {c : Prop} [Decidable c] {yes no : Rule α} (hyes : yes.Consumes)
    (hno : no.Consumes) : (if c then yes else no).Consumes := by
  split
  · exact hyes
  · exact hno

theorem expect (symbol : Symbol) : (expect symbol).Consumes := by
  intro s t token h
  obtain ⟨hkind, rfl, rfl⟩ := expect_eq_ok.mp h
  exact (State.reads_symbol hkind).length_lt (by simp)

end Rule.Consumes

namespace Rule.Advances

theorem last (value : σ) : (pure (.last value) : Rule (Round σ)).Advances :=
  fun _ _ _ h => nomatch h

theorem bind {rule : Rule α} {next : α → Rule (Round σ)} (hrule : rule.Framed)
    (hnext : ∀ value, (next value).Advances) : (rule >>= next).Advances := by
  intro s t result h
  obtain ⟨value, u, hfirst, hsecond⟩ := bind_eq_ok.mp h
  obtain ⟨tokens, hpasses⟩ := hrule.ok hfirst
  exact Nat.lt_of_lt_of_le (hnext value u t result hsecond) hpasses.length_le

theorem ite {c : Prop} [Decidable c] {yes no : Rule (Round σ)} (hyes : yes.Advances)
    (hno : no.Advances) : (if c then yes else no).Advances := by
  split
  · exact hyes
  · exact hno

theorem of_consumes {round : Rule (Round σ)} (h : round.Consumes) : round.Advances :=
  fun _ _ _ hround => h _ _ _ hround

theorem take? {kind : TokenKind} {yes no : Rule (Round σ)} (hkind : kind ≠ .eof)
    (hyes : yes.Framed) (hno : no.Advances) :
    (take? kind >>= fun taken => if taken then yes else no).Advances := by
  intro s t result h
  rw [take?_bind] at h
  split at h
  next hat =>
    rw [if_pos rfl] at h
    obtain ⟨tokens, hpasses⟩ := hyes.ok h
    exact hpasses.length_lt_of_advance (hat ▸ hkind)
  next =>
    rw [if_neg Bool.false_ne_true] at h
    exact hno s t result h

end Rule.Advances

theorem Rule.iterate_ends {step : σ → Rule (Round σ)} {Q : State → Prop}
    (hadvances : ∀ value, (step value).Advances)
    (hlast : ∀ value s value' t, step value s = .ok (.last value') t → Q t)
    {value value' : σ} {s t : State} (h : iterate step value s = .ok value' t) : Q t := by
  fun_induction iterate step value s with
  | case1 => cases h
  | case2 value s value'' u hround =>
      cases h
      exact hlast value s value' t hround
  | case3 value s value'' u hround hlt ih => exact ih h
  | case4 value s value'' u hround hlt => exact absurd (hadvances value s u value'' hround) hlt

namespace State

variable {s t : State}

theorem skip_length_lt {n : Nat} (hn : 0 < n) (h : s.current.kind ≠ .eof) :
    (s.skip n).ahead.length < s.ahead.length := by
  obtain ⟨rest, hahead⟩ := ahead_of_current h
  obtain ⟨n, rfl⟩ := Nat.exists_eq_succ_of_ne_zero (Nat.ne_of_gt hn)
  obtain ⟨tokens, hpasses⟩ := passes_skip_succ hahead n
  exact hpasses.length_lt (by simp)

theorem statementRest_fresh_pos {token : Token} (inFor : Bool) (rest : List Token)
    (h : Rule.endsBlock token = false) : 0 < statementRest inFor 0 true (token :: rest) := by
  simp only [Rule.endsBlock, Bool.or_eq_false_iff, decide_eq_false_iff_not, Token.isEof] at h
  obtain ⟨⟨hclose, heof⟩, -⟩ := h
  unfold statementRest
  split
  · contradiction
  · split <;> omega
  · omega
  · contradiction
  · simp only [Bool.not_true, Bool.and_false, Bool.false_and, Bool.false_eq_true, if_false]
    omega

theorem skipStatement_length_lt (h : ∃ tokens, s.Passes tokens t)
    (hgoes : Rule.endsBlock s.current = false) :
    (skipStatement s t).ahead.length < s.ahead.length := by
  obtain ⟨tokens, hpasses⟩ := h
  unfold skipStatement
  rw [readSince_of_passes hpasses]
  dsimp only
  cases tokens with
  | nil =>
      have hkind : s.current.kind ≠ .eof := by
        intro heof
        simp [Rule.endsBlock, Token.isEof, heof] at hgoes
      obtain ⟨rest, hahead⟩ := ahead_of_current hkind
      have hsame : t.ahead = s.current :: rest := by rw [← hahead, hpasses.ahead, List.nil_append]
      have hpos := statementRest_fresh_pos
        (decide (s.current.kind = .keyword .for_)) rest hgoes
      rw [← hsame] at hpos
      refine Nat.lt_of_lt_of_le (skip_length_lt hpos ?_) hpasses.length_le
      rwa [current_of_ahead hsame]
  | cons token tokens =>
      obtain ⟨more, hskip⟩ := exists_passes_skip _ t
      exact Nat.lt_of_le_of_lt hskip.length_le (hpasses.length_lt (by simp))

end State

/-- The rules of the level are framed, and its blocks are not empty. -/
structure Level.Consuming (level : Level) : Prop where
  framed : level.Framed
  block : level.block.Consumes

namespace Rule

variable {level : Level}

theorem name_consumes : name.Consumes := by
  intro s t value h
  obtain ⟨text, hkind, rfl, rfl⟩ := name_eq_ok.mp h
  exact (State.reads_ident hkind).length_lt (by simp)

theorem recover_length_lt {rule : Rule α} {resume : State → State → State} {s t : State}
    {value? : Option α} (hframed : rule.Framed) (hconsumes : rule.Consumes)
    (hresume : ∀ {u : State}, (∃ tokens, s.Passes tokens u) →
      (resume s u).ahead.length < s.ahead.length)
    (h : recover rule resume s = .ok value? t) : t.ahead.length < s.ahead.length := by
  unfold recover at h
  cases hrun : rule s with
  | ok value u =>
      simp only [hrun] at h
      cases h
      exact hconsumes s _ value hrun
  | error problem u =>
      simp only [hrun] at h
      cases h
      obtain ⟨hspan, hpasses⟩ := hframed.error hrun
      exact hresume (State.exists_passes_trans hpasses ⟨[], State.passes_report hspan⟩)

theorem recover_ne_error (rule : Rule α) (resume : State → State → State) (s : State)
    (problem : Problem) (t : State) : recover rule resume s ≠ .error problem t := by
  unfold recover
  cases rule s <;> exact nofun

theorem jump_consumes : jump.Consumes :=
  .behind .advance fun _ => .before (.expect _) fun _ => .spanFrom _

section

variable (h : level.Framed)
include h

theorem binding_consumes : (binding level).Consumes :=
  .behind .advance fun _ => .behind name_framed fun _ =>
    .behind (typeAnnotation?_framed h) fun _ => .before (.expect _) fun _ =>
      .bind (h.expr _ _) fun _ => .bind (.expect _) fun _ => .bind (.spanFrom _) fun _ => .pure _

theorem return_consumes : (return_ level).Consumes := by
  unfold return_
  refine .behind .advance fun _ => .behind (.isAt _) fun _ => ?_
  extract_lets rest
  have hrest (value : Option (Expr Span)) : (rest value).Consumes :=
    .before (.expect _) fun _ => .bind (.spanFrom _) fun _ => .pure _
  exact .ite (.behind (.pure _) hrest) (.behind (h.expr _ _) fun _ => .behind (.pure _) hrest)

theorem choice_consumes : (choice level).Consumes :=
  .behind .advance fun _ => .behind (h.expr _ _) fun _ => .before (.expect _) fun _ =>
    .bind (arms_framed h) fun _ => .bind (.expect _) fun _ => .bind (.spanFrom _) fun _ => .pure _

theorem arm_consumes : (arm level).Consumes :=
  .behind .current fun _ => .behind patterns_framed fun _ => .before (.expect _) fun _ =>
    .bind (armBody_framed h) fun _ => .bind (.spanFrom _) fun _ => .pure _

theorem suffix_advances (base : Expr Span) : (suffix level base).Advances := by
  refine .take? (by decide) (.bind (member_framed h) fun _ => .pure _) ?_
  refine .take? (by decide) (.bind (member_framed h) fun _ => .pure _) ?_
  refine .take? (by decide) ?_ (.last _)
  exact .bind (h.expr _ _) fun _ => .bind (.expect _) fun _ => .pure _

theorem operation_advances (place : Place) (least : Nat) (left : Expr Span) :
    (operation level place least left).Advances := by
  intro s t value hround
  rw [operation, current_bind] at hround
  cases hop : InfixOp.ofKind? s.current.kind with
  | none =>
      rw [hop] at hround
      cases hround
  | some op =>
      have hkind : s.current.kind ≠ .eof := by
        intro heof
        simp [heof, InfixOp.ofKind?] at hop
      rw [hop] at hround
      dsimp only at hround
      split at hround
      · cases hround
      cases op with
      | cast =>
          obtain ⟨tokens, hpasses⟩ := (Framed.bind h.typeExpr fun _ => .pure _).ok hround
          exact hpasses.length_lt_of_advance hkind
      | binary op =>
          obtain ⟨tokens, hpasses⟩ := (Framed.bind (h.expr _ _) fun _ => .pure _).ok hround
          exact hpasses.length_lt_of_advance hkind

theorem armsRound_advances (read : List (MatchArm Span)) :
    Advances (do
      if ← isAtClose .rightBrace then return .last read
      else return .more (read ++ [← arm level])) :=
  .bind (.isAtClose _) fun _ => .ite (.last _) <| .of_consumes <|
    .before (arm_consumes h) fun _ => .pure _

theorem block_consumes : (block level).Consumes :=
  .before (.expect _) fun _ => .bind (.iterate (blockRound_framed h) _) fun _ =>
    .bind (.expect _) fun _ => .bind (.spanFrom _) fun _ => .pure _

theorem prototype_consumes (name : Name Span) : (prototype level name).Consumes :=
  .before (.expect _) fun _ => .bind (.paramList (typedName_framed h)) fun _ =>
    .bind (.expect _) fun _ => .bind (resultType_framed h) fun _ => .bind (.spanFrom _) fun _ =>
      .pure _

theorem recordDef_consumes : (recordDef level).Consumes :=
  .behind .advance fun _ => .before name_consumes fun _ => .bind (.expect _) fun _ =>
    .bind (.commaList (typedName_framed h) _) fun _ => .bind (.expect _) fun _ =>
      .bind (.spanFrom _) fun _ => .pure _

theorem enumDef_consumes : (enumDef level).Consumes :=
  .behind .advance fun _ => .before name_consumes fun _ => .bind (.expect _) fun _ =>
    .bind (.commaList (variant_framed h) _) fun _ => .bind (.expect _) fun _ =>
      .bind (.spanFrom _) fun _ => .pure _

end

end Rule

theorem Level.allowing_consuming (n : Nat) : (Level.allowing n).Consuming where
  framed := allowing_framed n
  block := by
    cases n with
    | zero => exact .refuse _
    | succ n => exact Rule.block_consumes (allowing_framed n)

namespace Rule

variable {level : Level} (h : level.Consuming)
include h

theorem branch_consumes : (branch level).Consumes := by
  unfold branch
  refine .behind .advance fun _ => .behind (h.framed.expr _ _) fun _ => .before h.block fun _ =>
    .bind (.take? _) fun _ => ?_
  extract_lets rest
  have hrest (otherwise : Option (ElseBranch Span)) : (rest otherwise).Framed :=
    .bind (.spanFrom _) fun _ => .pure _
  refine .ite (.bind (.isAt _) fun _ => .ite ?_ ?_) (.bind (.pure _) hrest)
  · exact .bind h.framed.branch fun _ => .bind (.pure _) hrest
  · exact .bind h.framed.block fun _ => .bind (.pure _) hrest

theorem for_consumes : (for_ level).Consumes :=
  .behind .advance fun _ => .behind (forInit_framed h.framed) fun _ =>
    .behind (h.framed.expr _ _) fun _ => .before (.expect _) fun _ =>
      .bind (h.framed.expr _ _) fun _ => .bind h.framed.block fun _ => .pure _

theorem statement_consumes : (statement level).Consumes := by
  refine .behind .current fun token => ?_
  split
  · exact .before (binding_consumes h.framed) fun _ => .pure _
  · exact .before (binding_consumes h.framed) fun _ => .pure _
  · exact .before h.block fun _ => .pure _
  · exact .before (return_consumes h.framed) fun _ => .pure _
  · exact .before (branch_consumes h) fun _ => .pure _
  · exact .behind .advance fun _ => .before h.block fun _ => .pure _
  · exact .behind .advance fun _ => .behind (h.framed.expr _ _) fun _ =>
      .before h.block fun _ => .pure _
  · exact for_consumes h
  · exact .before (choice_consumes h.framed) fun _ => .pure _
  · exact .before jump_consumes fun _ => .pure _
  · exact .before jump_consumes fun _ => .pure _
  · exact .behind (h.framed.expr _ _) fun _ => .before (.expect _) fun _ =>
      .bind (.spanFrom _) fun _ => .pure _

omit h in
theorem blockRound_ne_error (read : List (Stmt Span)) (s : State) (problem : Problem)
    (t : State) : blockRound level read s ≠ .error problem t := by
  intro hround
  simp only [blockRound, current_bind] at hround
  split at hround
  · cases hround
  · rcases bind_eq_error.mp hround with hfails | ⟨stmt?, u, -, hrest⟩
    · exact recover_ne_error _ _ _ _ _ hfails
    · cases hrest

/-- A block that goes on behind a statement, or behind one that was given up, has read a
token of it. -/
theorem blockRound_advances (read : List (Stmt Span)) : (blockRound level read).Advances := by
  intro s t value hround
  simp only [blockRound, current_bind] at hround
  split at hround
  · cases hround
  next hgoes =>
    obtain ⟨stmt?, _, hstmt, hrest⟩ := bind_eq_ok.mp hround
    cases hrest
    exact recover_length_lt (statement_framed h.framed) (statement_consumes h)
      (fun hpasses => State.skipStatement_length_lt hpasses (by simpa using hgoes)) hstmt

theorem function_consumes : (function level).Consumes :=
  .behind .advance fun _ => .before name_consumes fun _ =>
    .bind (prototype_framed h.framed _) fun _ => .bind h.framed.block fun _ => .pure _

theorem external_consumes : (external level).Consumes := by
  unfold external
  refine .behind .advance fun _ => .behind (.take? _) fun _ => .before name_consumes fun _ =>
    .bind (.isAt _) fun _ => ?_
  extract_lets rest
  have hrest (definition : Definition Span) : (rest definition).Framed :=
    .bind (.take? _) fun _ => .pure _
  refine .ite (.bind (prototype_framed h.framed _) fun _ => .bind (.pure _) hrest) ?_
  refine .bind (.take? _) fun _ => .ite ?_ (.bind (.failExpecting _) hrest)
  exact .bind h.framed.typeExpr fun _ => .bind (.spanFrom _) fun _ => .bind (.pure _) hrest

theorem constantDef_consumes : (constantDef level).Consumes := by
  unfold constantDef
  refine .behind .advance fun _ => .before name_consumes fun _ =>
    .bind (typeAnnotation?_framed h.framed) fun _ => .bind (.expect _) fun _ =>
      .bind (.isAt _) fun _ => ?_
  extract_lets rest
  have hrest (value : ConstantValue Span) : (rest value).Framed :=
    .bind (.expect _) fun _ => .bind (.spanFrom _) fun _ => .pure _
  exact .ite (.bind import_framed fun _ => .bind (.pure _) hrest)
    (.bind (h.framed.expr _ _) fun _ => .bind (.pure _) hrest)

theorem definition_consumes : (definition level).Consumes := by
  refine .behind .current fun token => ?_
  split
  · exact .before (function_consumes h) fun _ => .pure _
  · exact .before (recordDef_consumes h.framed) fun _ => .pure _
  · exact .before (recordDef_consumes h.framed) fun _ => .pure _
  · exact .before (enumDef_consumes h.framed) fun _ => .pure _
  · exact external_consumes h
  · exact .before (constantDef_consumes h) fun _ => .pure _
  · exact .before (binding_consumes h.framed) fun _ => .pure _
  · exact .refuse _

theorem item_consumes : (item level).Consumes := by
  refine .behind (.isAt _) fun _ => .ite ?_ (.before ?_ fun _ => .pure _)
  · exact .behind import_framed fun _ => .before (.expect _) fun _ =>
      .bind (.spanFrom _) fun _ => .pure _
  · exact .behind .current fun _ => .behind (.take? _) fun _ => .before (definition_consumes h)
      fun _ => .bind (.spanFrom _) fun _ => .pure _

omit h in
theorem moduleRound_ne_error (read : List (Item Span)) (s : State) (problem : Problem)
    (t : State) : moduleRound level read s ≠ .error problem t := by
  intro hround
  simp only [moduleRound, current_bind] at hround
  split at hround
  · cases hround
  · rcases bind_eq_error.mp hround with hfails | ⟨item?, u, -, hrest⟩
    · exact recover_ne_error _ _ _ _ _ hfails
    · cases hrest

theorem moduleRound_advances (read : List (Item Span)) :
    (moduleRound level read).Advances := by
  intro s t value hround
  simp only [moduleRound, current_bind] at hround
  split at hround
  · cases hround
  next hgoes =>
    obtain ⟨item?, _, hitem, hrest⟩ := bind_eq_ok.mp hround
    cases hrest
    refine recover_length_lt (item_framed h.framed) (item_consumes h)
      (fun hpasses => State.skipItem_length_lt hpasses fun hkind => ?_) hitem
    exact hgoes (by simp [Token.isEof, hkind])

/-- The items of a module are read up to the end. -/
theorem items_end {s t : State} {read : List (Item Span)} (hread : items level s = .ok read t) :
    t.current.isEof = true := by
  refine iterate_ends (Q := fun t => t.current.isEof = true) (moduleRound_advances h)
    (fun read s read' t hround => ?_) hread
  simp only [moduleRound, current_bind] at hround
  split at hround
  next hend =>
    cases hround
    exact hend
  next =>
    obtain ⟨item?, _, -, hrest⟩ := bind_eq_ok.mp hround
    cases hrest

end Rule

end SourceFront
