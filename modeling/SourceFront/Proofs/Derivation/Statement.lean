import SourceFront.Proofs.Derivation.Expression
import SourceFront.Proofs.Frame

/-!
What the rules for statements read. A block may have failed statements in it,
whose tokens are passed over; each of them leaves a problem or has an invalid
token.
-/

namespace SourceFront

variable {noisy : Prop}

theorem Name.ne_nil_of_path {α : Type} {o : Orthography α} {names : List (Name α)}
    {tokens : List Token} (h : (Name.path names).Spelled o tokens) : tokens ≠ [] := by
  cases names with
  | nil => exact absurd h.2 Bool.false_ne_true
  | cons name names =>
      obtain ⟨_, _, rfl, ⟨⟨token, rfl, _⟩, _⟩, _⟩ := h
      simp

namespace Rule

variable {s t : State} {inner : Level}

theorem derives_node {phrase : Phrase Span} {tokens : List Token} (h : s.Passes tokens t)
    (hne : tokens ≠ []) (hphrase : phrase.Derives noisy tokens) :
    (Phrase.node (s.current.span.merge t.last) phrase).Derives noisy tokens :=
  Phrase.spelled_node hphrase (h.covers hne)

theorem binding_derives (hinner : inner.DerivesExprs noisy) {k : Keyword}
    {result : Binding Span} (hk : s.current.kind = .keyword k)
    (h : binding inner s = .ok result t) :
    ∃ tokens, s.Reads tokens t ∧ (result.phrase k).Derives noisy tokens := by
  simp only [binding, advance_bind, bind_eq_ok, expect_eq_ok] at h
  obtain ⟨name, u, hname, type, v, htype, _, _, ⟨hassign, rfl, rfl⟩, value, w, hvalue,
    _, _, ⟨hsemicolon, rfl, rfl⟩, _, _, hspan, h⟩ := h
  cases hspan
  cases h
  obtain ⟨nameTokens, hname, hname'⟩ := name_derives hname
  obtain ⟨typeTokens, htype, htype'⟩ := typeAnnotation?_derives hinner htype
  obtain ⟨valueTokens, hvalue, hvalue'⟩ := freeExpr_derives hinner hvalue
  have hreads := (State.reads_keyword hk).trans (hname.trans (htype.trans
    ((State.reads_symbol hassign).trans (hvalue.trans (State.reads_symbol hsemicolon)))))
  refine ⟨_, hreads, derives_node hreads.toPasses (by simp) ?_⟩
  refine Phrase.spelled_seq (Phrase.derives_keyword hk) (Phrase.spelled_seq hname' ?_)
  refine Phrase.spelled_seq htype' (Phrase.spelled_seq (Phrase.derives_symbol hassign) ?_)
  exact Phrase.spelled_seq hvalue' (Phrase.derives_symbol hsemicolon)

theorem return_derives (hinner : inner.DerivesExprs noisy) {value : Option (Expr Span)}
    {note : Span} (hreturn : s.current.kind = .keyword .return_)
    (h : return_ inner s = .ok (value, note) t) :
    ∃ tokens, s.Reads tokens t ∧ (returnPhrase value note).Derives noisy tokens := by
  have hclose {u : State} {tokens : List Token} {value : Option (Expr Span)}
      (hreads : s.advance.Reads tokens u)
      (hvalue : (value.elim .empty (Expr.whole .free)).Derives noisy tokens)
      (hsemicolon : u.current.kind = .symbol .semicolon) :
      ∃ tokens, s.Reads tokens u.advance ∧
        (returnPhrase value (s.current.span.merge u.advance.last)).Derives noisy tokens := by
    have hreads' := (State.reads_keyword hreturn).trans
      (hreads.trans (State.reads_symbol hsemicolon))
    refine ⟨_, hreads', derives_node hreads'.toPasses (by simp) ?_⟩
    exact Phrase.spelled_seq (Phrase.derives_keyword hreturn)
      (Phrase.spelled_seq hvalue (Phrase.derives_symbol hsemicolon))
  simp only [return_, advance_bind, isAt_bind] at h
  split at h
  · simp only [bind_eq_ok, pure_eq_ok, expect_eq_ok] at h
    obtain ⟨_, _, ⟨rfl, rfl⟩, _, _, ⟨hsemicolon, rfl, rfl⟩, _, _, hspan, h, rfl⟩ := h
    cases hspan
    cases h
    exact hclose (.refl _) rfl hsemicolon
  · simp only [bind_eq_ok, pure_eq_ok, expect_eq_ok] at h
    obtain ⟨_, _, hvalue, _, _, ⟨rfl, rfl⟩, _, _, ⟨hsemicolon, rfl, rfl⟩, _, _, hspan, h,
      rfl⟩ := h
    cases hspan
    cases h
    obtain ⟨tokens, hreads, hderives⟩ := freeExpr_derives hinner hvalue
    exact hclose hreads hderives hsemicolon

theorem jump_derives {k : Keyword} {note : Span} (hk : s.current.kind = .keyword k)
    (h : jump s = .ok note t) :
    ∃ tokens, s.Reads tokens t ∧ (jumpPhrase k note).Derives noisy tokens := by
  simp only [jump, advance_bind, bind_eq_ok, expect_eq_ok] at h
  obtain ⟨_, _, ⟨hsemicolon, rfl, rfl⟩, hspan⟩ := h
  cases hspan
  have hreads := (State.reads_keyword hk).trans (State.reads_symbol hsemicolon)
  refine ⟨_, hreads, derives_node hreads.toPasses (by simp) ?_⟩
  exact Phrase.spelled_seq (Phrase.derives_keyword hk) (Phrase.derives_symbol hsemicolon)

theorem forInit_derives (hinner : inner.DerivesExprs noisy) :
    (forInit inner).Derives noisy ForInit.phrase := by
  intro s t init h
  simp only [forInit, isAt_bind, decide_eq_true_eq] at h
  split at h
  next hlet =>
    obtain ⟨result, _, hbinding, hrest⟩ := bind_eq_ok.mp h
    cases hrest
    exact binding_derives hinner hlet hbinding
  next =>
    simp only [bind_eq_ok, expect_eq_ok] at h
    obtain ⟨value, u, hvalue, _, _, ⟨hsemicolon, rfl, rfl⟩, h⟩ := h
    cases h
    obtain ⟨tokens, hreads, hderives⟩ := freeExpr_derives hinner hvalue
    exact ⟨_, hreads.trans (State.reads_symbol hsemicolon),
      Phrase.spelled_seq hderives (Phrase.derives_symbol hsemicolon)⟩

/-- The names of a path that are read on the way from `start` to `s`. -/
def ReadsPath (noisy : Prop) (start : State) (names : List (Name Span)) (s : State) :
    Prop :=
  ∃ tokens, start.Reads tokens s ∧ (Name.path names).Derives noisy tokens

theorem pathSegment_derives {start : State} {read : List (Name Span)}
    {round : Round (List (Name Span))} (hread : ReadsPath noisy start read s)
    (hseparator : s.current.kind = .symbol .dot ∨ s.current.kind = .symbol .colonColon)
    (h : (name >>= fun name => pure (Round.more (read ++ [name]))) s.advance =
      .ok round t) :
    ∃ name, round = .more (read ++ [name]) ∧ t.ahead.length < s.ahead.length ∧
      ReadsPath noisy start (read ++ [name]) t := by
  obtain ⟨tokens, hreads, hderives⟩ := hread
  simp only [bind_eq_ok, pure_eq_ok] at h
  obtain ⟨segment, _, hsegment, rfl, rfl⟩ := h
  obtain ⟨back, hback, hsegment'⟩ := name_derives hsegment
  obtain ⟨symbol, hkind, hspelled⟩ : ∃ symbol, s.current.kind = .symbol symbol ∧
      (Phrase.either [.symbol .dot] [.symbol .colonColon]).Derives noisy [s.current] := by
    rcases hseparator with hkind | hkind
    · exact ⟨_, hkind, .inl (.cons (by simp [Orthography.located, Token.terminal?, hkind])
        .nil)⟩
    · exact ⟨_, hkind, .inr (.cons (by simp [Orthography.located, Token.terminal?, hkind])
        .nil)⟩
  have hmore := (State.reads_symbol hkind).trans hback
  refine ⟨segment, rfl, hmore.length_lt (by simp), _, hreads.trans hmore, ?_⟩
  rw [Name.path, List.map_append]
  exact Phrase.spelled_separated_append hderives hspelled hsegment'

theorem pathTail_derives {start : State} {first : Name Span} {segments : List (Name Span)}
    (hfirst : ReadsPath noisy start [first] s) (h : pathTail first s = .ok segments t) :
    ReadsPath noisy start segments t ∧ segments.head? = some first := by
  refine iterate_ok h
    (fun read s => ReadsPath noisy start read s ∧ read.head? = some first)
    (fun read s => ReadsPath noisy start read s ∧ read.head? = some first)
    ⟨hfirst, rfl⟩ ?_
  rintro read s round t ⟨hread, hhead⟩ hstep
  have hmore (hseparator : s.current.kind = .symbol .dot ∨
        s.current.kind = .symbol .colonColon)
      (h : (name >>= fun name => pure (Round.more (read ++ [name]))) s.advance =
        .ok round t) :
      Leads (fun read s => ReadsPath noisy start read s ∧ read.head? = some first)
        (fun read s => ReadsPath noisy start read s ∧ read.head? = some first) s t
        round := by
    obtain ⟨segment, rfl, hlt, hread'⟩ := pathSegment_derives hread hseparator h
    exact .more hlt ⟨hread', by simp [List.head?_append, hhead]⟩
  rw [take?_bind] at hstep
  split at hstep
  next hdot => exact hmore (.inl hdot) hstep
  simp only [Bool.false_eq_true, if_false, take?_bind] at hstep
  split at hstep
  next hcolons => exact hmore (.inr hcolons) (by rwa [if_pos trivial] at hstep)
  next =>
    cases hstep
    exact .last ⟨hread, hhead⟩

theorem pattern_derives : pattern.Derives noisy Pattern.phrase := by
  intro s t result h
  simp only [pattern, current_bind] at h
  obtain ⟨kind, hkind⟩ : ∃ kind, s.current.kind = kind := ⟨_, rfl⟩
  cases kind with
  | number =>
      simp only [hkind] at h
      cases h
      exact ⟨_, State.reads_advance (by simp [hkind]),
        Phrase.derives_token (by simp [Token.terminal?, hkind])⟩
  | char value =>
      simp only [hkind] at h
      cases h
      exact ⟨_, State.reads_advance (by simp [hkind]),
        Phrase.derives_token (by simp [Token.terminal?, hkind])⟩
  | ident text =>
      simp only [hkind] at h
      obtain ⟨first, u, hfirst, hrest⟩ := bind_eq_ok.mp h
      obtain ⟨text', hkind', rfl, rfl⟩ := name_eq_ok.mp hfirst
      cases hkind.symm.trans hkind'
      have hreads := State.reads_ident hkind
      split at hrest
      next hwildcard =>
        subst hwildcard
        cases hrest
        exact ⟨_, hreads, Phrase.derives_token (by simp [Token.terminal?, hkind])⟩
      next hname =>
        simp only [bind_eq_ok] at hrest
        obtain ⟨segments, v, hsegments, _, _, hspan, hrest⟩ := hrest
        cases hspan
        cases hrest
        have hfirst' : ReadsPath noisy s [⟨text, s.current.span⟩] s.advance :=
          ⟨_, hreads, [s.current], [], rfl,
            Phrase.derives_token (by simp [Token.terminal?, hkind]), rfl⟩
        obtain ⟨⟨tokens, hpath, hderives⟩, hhead⟩ := pathTail_derives hfirst' hsegments
        refine ⟨tokens, hpath, derives_node hpath.toPasses ?_ ?_⟩
        · exact Name.ne_nil_of_path hderives
        · exact Phrase.spelled_provided_seq (by simp [hhead, hname]) hderives
  | _ => simp only [hkind, failWith_apply, reduceCtorEq] at h

theorem patterns_derives : patterns.Derives noisy fun read =>
    Phrase.separated (Phrase.symbol .pipe) (read.map Pattern.phrase) := by
  intro start t read h
  obtain ⟨first, u, hfirst, hrest⟩ := bind_eq_ok.mp h
  obtain ⟨front, hfront, hfirst'⟩ := pattern_derives hfirst
  refine iterate_ok hrest
    (fun read s => ∃ tokens, start.Reads tokens s ∧ (Phrase.separated (Phrase.symbol .pipe)
      (read.map Pattern.phrase)).Derives noisy tokens)
    (fun read s => ∃ tokens, start.Reads tokens s ∧ (Phrase.separated (Phrase.symbol .pipe)
      (read.map Pattern.phrase)).Derives noisy tokens)
    ⟨front, hfront, front, [], by simp, hfirst', rfl⟩ ?_
  rintro read s round t ⟨tokens, hreads, hread⟩ hstep
  rw [take?_bind] at hstep
  split at hstep
  next hpipe =>
    rw [if_pos rfl] at hstep
    simp only [bind_eq_ok] at hstep
    obtain ⟨pattern, v, hpattern, hstep⟩ := hstep
    cases hstep
    obtain ⟨back, hback, hpattern'⟩ := pattern_derives hpattern
    have hmore := (State.reads_symbol hpipe).trans hback
    refine .more (hmore.length_lt (by simp)) ⟨_, hreads.trans hmore, ?_⟩
    rw [List.map_append]
    exact Phrase.spelled_separated_append hread (Phrase.derives_symbol hpipe) hpattern'
  next =>
    cases hstep
    exact .last ⟨tokens, hreads, hread⟩

end Rule

/-- The phrase is passed over on the way from `s` to `t`. -/
def State.PassesPhrase (noisy : Prop) (s : State) (phrase : Phrase Span) (t : State) :
    Prop :=
  ∃ tokens, s.Passes tokens t ∧ phrase.Derives noisy tokens

theorem State.PassesPhrase.of_reads {s t : State} {phrase : Phrase Span}
    (h : ∃ tokens, s.Reads tokens t ∧ phrase.Derives noisy tokens) :
    s.PassesPhrase noisy phrase t := by
  obtain ⟨tokens, hreads, hderives⟩ := h
  exact ⟨tokens, hreads.toPasses, hderives⟩

/-- What the rules of a level read, if a problem reported on the way counts as
noise. A branch or a choice is read where its keyword comes next. -/
structure Level.DerivesStmts (noisy : Prop) (level : Level) : Prop where
  framed : level.Framed
  exprs : level.DerivesExprs noisy
  block : ∀ {s t : State} {block : Block Span}, level.block s = .ok block t →
    (t.problems ≠ [] → noisy) → s.PassesPhrase noisy block.phrase t
  branch : ∀ {s t : State} {branch : IfStmt Span}, level.branch s = .ok branch t →
    s.current.kind = .keyword .if_ → (t.problems ≠ [] → noisy) →
      s.PassesPhrase noisy branch.phrase t
  choice : ∀ {s t : State} {choice : MatchStmt Span}, level.choice s = .ok choice t →
    s.current.kind = .keyword .match_ → (t.problems ≠ [] → noisy) →
      s.PassesPhrase noisy choice.phrase t

namespace Rule

open State (PassesPhrase)

variable {s t : State} {inner : Level}

theorem noisy_of_passes (h : ∃ tokens, s.Passes tokens t)
    (hnoisy : t.problems ≠ [] → noisy) : s.problems ≠ [] → noisy := by
  obtain ⟨tokens, hpasses⟩ := h
  intro hne
  refine hnoisy fun hnil => hne ?_
  exact List.prefix_nil.mp (hnil ▸ hpasses.problems)

theorem armBody_derives (hinner : inner.DerivesStmts noisy) {body : ArmBody Span}
    (h : armBody inner s = .ok body t) (hnoisy : t.problems ≠ [] → noisy) :
    s.PassesPhrase noisy body.phrase t := by
  have hexpr (h : (inner.freeExpr >>= fun value => expect .comma >>= fun _ =>
      pure (ArmBody.expr value)) s = .ok body t) : s.PassesPhrase noisy body.phrase t := by
    simp only [bind_eq_ok, expect_eq_ok] at h
    obtain ⟨value, u, hvalue, _, _, ⟨hcomma, rfl, rfl⟩, h⟩ := h
    cases h
    obtain ⟨tokens, hreads, hderives⟩ := freeExpr_derives hinner.exprs hvalue
    refine ⟨_, (hreads.trans (State.reads_symbol hcomma)).toPasses, ?_⟩
    rw [ArmBody.phrase]
    exact Phrase.spelled_seq hderives (Phrase.derives_symbol hcomma)
  simp only [armBody, current_bind] at h
  obtain ⟨kind, hkind⟩ : ∃ kind, s.current.kind = kind := ⟨_, rfl⟩
  cases kind with
  | symbol symbol =>
      cases symbol <;> simp only [hkind] at h
      case leftBrace =>
        obtain ⟨body, _, hbody, hrest⟩ := bind_eq_ok.mp h
        cases hrest
        exact hinner.block hbody hnoisy
      all_goals exact hexpr h
  | keyword k =>
      cases k <;> simp only [hkind] at h
      case return_ =>
        obtain ⟨⟨value, note⟩, _, hreturn, hrest⟩ := bind_eq_ok.mp h
        cases hrest
        exact .of_reads (return_derives hinner.exprs hkind hreturn)
      case match_ =>
        obtain ⟨choice, _, hchoice, hrest⟩ := bind_eq_ok.mp h
        cases hrest
        exact hinner.choice hchoice hkind hnoisy
      case break_ =>
        obtain ⟨note, _, hjump, hrest⟩ := bind_eq_ok.mp h
        cases hrest
        exact .of_reads (jump_derives hkind hjump)
      case continue_ =>
        obtain ⟨note, _, hjump, hrest⟩ := bind_eq_ok.mp h
        cases hrest
        exact .of_reads (jump_derives hkind hjump)
      all_goals exact hexpr h
  | _ =>
      simp only [hkind] at h
      exact hexpr h

theorem arm_derives (hinner : inner.DerivesStmts noisy) {result : MatchArm Span}
    (h : arm inner s = .ok result t) (hnoisy : t.problems ≠ [] → noisy) :
    s.PassesPhrase noisy result.phrase t := by
  simp only [arm, current_bind, bind_eq_ok, expect_eq_ok] at h
  obtain ⟨read, u, hpatterns, _, _, ⟨harrow, rfl, rfl⟩, body, v, hbody, _, _, hspan, h⟩ := h
  cases hspan
  cases h
  obtain ⟨front, hfront, hpatterns'⟩ := patterns_derives hpatterns
  obtain ⟨back, hback, hbody'⟩ := armBody_derives hinner hbody hnoisy
  have hpasses := hfront.toPasses.trans ((State.reads_symbol harrow).toPasses.trans hback)
  refine ⟨_, hpasses, ?_⟩
  rw [MatchArm.phrase]
  refine derives_node hpasses (by simp) ?_
  exact Phrase.spelled_seq hpatterns'
    (Phrase.spelled_seq (Phrase.derives_symbol harrow) hbody')

theorem arms_derives (hinner : inner.DerivesStmts noisy) {read : List (MatchArm Span)}
    (h : arms inner s = .ok read t) (hnoisy : t.problems ≠ [] → noisy) :
    s.PassesPhrase noisy (Phrase.concat (read.map MatchArm.phrase)) t := by
  refine iterate_preserves h
    (fun read t => (t.problems ≠ [] → noisy) →
      s.PassesPhrase noisy (Phrase.concat (read.map MatchArm.phrase)) t)
    (fun _ => ⟨[], .refl s, rfl⟩) ?_ hnoisy
  intro read u round v hread hstep hnoisy
  simp only [isAtClose_bind] at hstep
  split at hstep
  · cases hstep
    exact hread hnoisy
  obtain ⟨result, _, hresult, hstep⟩ := bind_eq_ok.mp hstep
  cases hstep
  obtain ⟨back, hback, hresult'⟩ := arm_derives hinner hresult hnoisy
  obtain ⟨front, hfront, hread'⟩ := hread (noisy_of_passes ⟨back, hback⟩ hnoisy)
  refine ⟨_, hfront.trans hback, ?_⟩
  rw [Round.value, List.map_append]
  exact Phrase.spelled_concat_append hread' hresult'

theorem choice_derives (hinner : inner.DerivesStmts noisy) {result : MatchStmt Span}
    (h : choice inner s = .ok result t) (hmatch : s.current.kind = .keyword .match_)
    (hnoisy : t.problems ≠ [] → noisy) : s.PassesPhrase noisy result.phrase t := by
  simp only [choice, advance_bind, bind_eq_ok, expect_eq_ok] at h
  obtain ⟨subject, u, hsubject, _, _, ⟨hleft, rfl, rfl⟩, read, v, harms, _, _,
    ⟨hright, rfl, rfl⟩, _, _, hspan, h⟩ := h
  cases hspan
  cases h
  obtain ⟨subjectTokens, hsubject, hsubject'⟩ := condition_derives hinner.exprs hsubject
  obtain ⟨armTokens, harms, harms'⟩ := arms_derives hinner harms hnoisy
  have hpasses := (State.reads_keyword hmatch).toPasses.trans (hsubject.toPasses.trans
    ((State.reads_symbol hleft).toPasses.trans
      (harms.trans (State.reads_symbol hright).toPasses)))
  refine ⟨_, hpasses, ?_⟩
  rw [MatchStmt.phrase, MatchArm.phrases_eq_map]
  refine derives_node hpasses (by simp) ?_
  refine Phrase.spelled_seq (Phrase.derives_keyword hmatch)
    (Phrase.spelled_seq hsubject' ?_)
  exact Phrase.spelled_seq (Phrase.derives_symbol hleft)
    (Phrase.spelled_seq harms' (Phrase.derives_symbol hright))

theorem branch_derives (hinner : inner.DerivesStmts noisy) {result : IfStmt Span}
    (h : branch inner s = .ok result t) (hif : s.current.kind = .keyword .if_)
    (hnoisy : t.problems ≠ [] → noisy) : s.PassesPhrase noisy result.phrase t := by
  simp only [branch, advance_bind] at h
  obtain ⟨cond, u, hcond, hthen⟩ := bind_eq_ok.mp h
  obtain ⟨thenBlock, v, hthen, hrest⟩ := bind_eq_ok.mp hthen
  obtain ⟨condTokens, hcond, hcond'⟩ := condition_derives hinner.exprs hcond
  have hclose {otherwise : Option (ElseBranch Span)}
      (helse : v.PassesPhrase noisy (ElseBranch.optionPhrase otherwise) t) :
      s.PassesPhrase noisy
        (IfStmt.mk cond thenBlock otherwise (s.current.span.merge t.last)).phrase t := by
    obtain ⟨elseTokens, helse, helse'⟩ := helse
    obtain ⟨thenTokens, hthen, hthen'⟩ :=
      hinner.block hthen (noisy_of_passes ⟨_, helse⟩ hnoisy)
    have hpasses := (State.reads_keyword hif).toPasses.trans
      (hcond.toPasses.trans (hthen.trans helse))
    refine ⟨_, hpasses, ?_⟩
    rw [IfStmt.phrase]
    refine derives_node hpasses (by simp) ?_
    exact Phrase.spelled_seq (Phrase.derives_keyword hif)
      (Phrase.spelled_seq hcond' (Phrase.spelled_seq hthen' helse'))
  rw [take?_bind] at hrest
  split at hrest
  next helse =>
    have helse' := (State.reads_keyword helse).toPasses
    simp only [if_true, isAt_bind, decide_eq_true_eq] at hrest
    split at hrest
    next hif' =>
      simp only [bind_eq_ok, pure_eq_ok] at hrest
      obtain ⟨inside, w, hinside, _, _, ⟨rfl, rfl⟩, _, _, hspan, rfl, rfl⟩ := hrest
      cases hspan
      obtain ⟨tokens, hinside, hinside'⟩ := hinner.branch hinside hif' hnoisy
      exact hclose ⟨_, helse'.trans hinside,
        Phrase.spelled_seq (Phrase.derives_keyword helse) hinside'⟩
    next =>
      simp only [bind_eq_ok, pure_eq_ok] at hrest
      obtain ⟨inside, w, hinside, _, _, ⟨rfl, rfl⟩, _, _, hspan, rfl, rfl⟩ := hrest
      cases hspan
      obtain ⟨tokens, hinside, hinside'⟩ := hinner.block hinside hnoisy
      exact hclose ⟨_, helse'.trans hinside,
        Phrase.spelled_seq (Phrase.derives_keyword helse) hinside'⟩
  next =>
    simp only [Bool.false_eq_true, if_false, bind_eq_ok, pure_eq_ok] at hrest
    obtain ⟨_, _, ⟨rfl, rfl⟩, _, _, hspan, rfl, rfl⟩ := hrest
    cases hspan
    exact hclose ⟨[], .refl _, rfl⟩

theorem covers_of_block {block : Block Span} {tokens : List Token}
    (h : block.phrase.Derives noisy tokens) (ordered : Token.Ordered tokens) :
    block.note.Covers tokens := by
  cases block
  exact h.2 ordered

theorem loop_derives (hinner : inner.DerivesStmts noisy) {result : Stmt Span}
    (hloop : s.current.kind = .keyword .loop) (hnoisy : t.problems ≠ [] → noisy)
    (h : (Rule.advance >>= fun start => inner.block >>= fun body =>
      pure (Stmt.loop body (start.span.merge body.note))) s = .ok result t) :
    s.PassesPhrase noisy result.phrase t := by
  simp only [advance_bind, bind_eq_ok] at h
  obtain ⟨body, u, hbody, h⟩ := h
  cases h
  obtain ⟨tokens, hbody, hbody'⟩ := hinner.block hbody hnoisy
  refine ⟨_, (State.reads_keyword hloop).toPasses.trans hbody, ?_⟩
  rw [Stmt.phrase]
  refine Phrase.spelled_node ?_ ?_
  · exact Phrase.spelled_seq (Phrase.derives_keyword hloop) hbody'
  · exact Span.Covers.around [] (fun _ => .singleton _) (covers_of_block hbody')

theorem while_derives (hinner : inner.DerivesStmts noisy) {result : Stmt Span}
    (hwhile : s.current.kind = .keyword .while_) (hnoisy : t.problems ≠ [] → noisy)
    (h : (Rule.advance >>= fun start => inner.condition >>= fun cond =>
      inner.block >>= fun body =>
        pure (Stmt.while_ cond body (start.span.merge body.note))) s = .ok result t) :
    s.PassesPhrase noisy result.phrase t := by
  simp only [advance_bind, bind_eq_ok] at h
  obtain ⟨cond, u, hcond, body, v, hbody, h⟩ := h
  cases h
  obtain ⟨condTokens, hcond, hcond'⟩ := condition_derives hinner.exprs hcond
  obtain ⟨tokens, hbody, hbody'⟩ := hinner.block hbody hnoisy
  refine ⟨_, (State.reads_keyword hwhile).toPasses.trans (hcond.toPasses.trans hbody), ?_⟩
  rw [Stmt.phrase]
  refine Phrase.spelled_node ?_ ?_
  · exact Phrase.spelled_seq (Phrase.derives_keyword hwhile)
      (Phrase.spelled_seq hcond' hbody')
  · exact Span.Covers.around _ (fun _ => .singleton _) (covers_of_block hbody')

theorem for_derives (hinner : inner.DerivesStmts noisy) {result : Stmt Span}
    (h : for_ inner s = .ok result t) (hfor : s.current.kind = .keyword .for_)
    (hnoisy : t.problems ≠ [] → noisy) : s.PassesPhrase noisy result.phrase t := by
  simp only [for_, advance_bind, bind_eq_ok, expect_eq_ok] at h
  obtain ⟨init, u, hinit, cond, v, hcond, _, _, ⟨hsemicolon, rfl, rfl⟩, step, w, hstep,
    body, x, hbody, h⟩ := h
  cases h
  obtain ⟨initTokens, hinit, hinit'⟩ := forInit_derives hinner.exprs hinit
  obtain ⟨condTokens, hcond, hcond'⟩ := condition_derives hinner.exprs hcond
  obtain ⟨stepTokens, hstep, hstep'⟩ := condition_derives hinner.exprs hstep
  obtain ⟨tokens, hbody, hbody'⟩ := hinner.block hbody hnoisy
  have hheader := hinit.trans (hcond.trans ((State.reads_symbol hsemicolon).trans hstep))
  refine ⟨_, (State.reads_keyword hfor).toPasses.trans (hheader.toPasses.trans hbody), ?_⟩
  rw [Stmt.phrase]
  refine Phrase.spelled_node ?_ ?_
  · refine Phrase.spelled_seq (Phrase.derives_keyword hfor) ?_
    simp only [List.append_assoc]
    refine Phrase.spelled_seq hinit' (Phrase.spelled_seq hcond' ?_)
    exact Phrase.spelled_seq (Phrase.derives_symbol hsemicolon)
      (Phrase.spelled_seq hstep' hbody')
  · exact Span.Covers.around _ (fun _ => .singleton _) (covers_of_block hbody')

theorem exprStatement_derives (hinner : inner.DerivesExprs noisy) {result : Stmt Span}
    (h : (inner.freeExpr >>= fun value => expect .semicolon >>= fun _ =>
      spanFrom value.note >>= fun note => pure (Stmt.expr value note)) s = .ok result t) :
    s.PassesPhrase noisy result.phrase t := by
  simp only [bind_eq_ok, expect_eq_ok] at h
  obtain ⟨value, u, hvalue, _, _, ⟨hsemicolon, rfl, rfl⟩, _, _, hspan, h⟩ := h
  cases hspan
  cases h
  obtain ⟨tokens, hreads, hderives⟩ := freeExpr_derives hinner hvalue
  have hpasses := (hreads.trans (State.reads_symbol hsemicolon)).toPasses
  refine ⟨_, hpasses, ?_⟩
  rw [Stmt.phrase]
  refine Phrase.spelled_node ?_ fun ordered => ?_
  · exact Phrase.spelled_seq hderives (Phrase.derives_symbol hsemicolon)
  · exact (hderives.exprCovers (ordered.sublist (List.sublist_append_left _ _))).merge_last
      (List.prefix_append _ _) hpasses ordered

theorem statement_derives (hinner : inner.DerivesStmts noisy) {result : Stmt Span}
    (h : statement inner s = .ok result t) (hnoisy : t.problems ≠ [] → noisy) :
    s.PassesPhrase noisy result.phrase t := by
  simp only [statement, current_bind] at h
  obtain ⟨kind, hkind⟩ : ∃ kind, s.current.kind = kind := ⟨_, rfl⟩
  cases kind with
  | symbol symbol =>
      cases symbol <;> simp only [hkind] at h
      case leftBrace =>
        obtain ⟨body, _, hbody, hrest⟩ := bind_eq_ok.mp h
        cases hrest
        exact hinner.block hbody hnoisy
      all_goals exact exprStatement_derives hinner.exprs h
  | keyword k =>
      cases k <;> simp only [hkind] at h
      case let_ =>
        obtain ⟨binding, _, hbinding, hrest⟩ := bind_eq_ok.mp h
        cases hrest
        exact .of_reads (binding_derives hinner.exprs hkind hbinding)
      case const =>
        obtain ⟨binding, _, hbinding, hrest⟩ := bind_eq_ok.mp h
        cases hrest
        exact .of_reads (binding_derives hinner.exprs hkind hbinding)
      case return_ =>
        obtain ⟨⟨value, note⟩, _, hreturn, hrest⟩ := bind_eq_ok.mp h
        cases hrest
        exact .of_reads (return_derives hinner.exprs hkind hreturn)
      case if_ =>
        obtain ⟨branch, _, hbranch, hrest⟩ := bind_eq_ok.mp h
        cases hrest
        exact branch_derives hinner hbranch hkind hnoisy
      case loop => exact loop_derives hinner hkind hnoisy h
      case while_ => exact while_derives hinner hkind hnoisy h
      case for_ => exact for_derives hinner h hkind hnoisy
      case match_ =>
        obtain ⟨choice, _, hchoice, hrest⟩ := bind_eq_ok.mp h
        cases hrest
        exact choice_derives hinner hchoice hkind hnoisy
      case break_ =>
        obtain ⟨note, _, hjump, hrest⟩ := bind_eq_ok.mp h
        cases hrest
        exact .of_reads (jump_derives hkind hjump)
      case continue_ =>
        obtain ⟨note, _, hjump, hrest⟩ := bind_eq_ok.mp h
        cases hrest
        exact .of_reads (jump_derives hkind hjump)
      all_goals exact exprStatement_derives hinner.exprs h
  | _ =>
      simp only [hkind] at h
      exact exprStatement_derives hinner.exprs h

/-- Where a rule fails, there is noise or an invalid token is passed over. -/
theorem recover_derives {α : Type} {rule : Rule α} {resume : State → State → State}
    {phrase : α → Phrase Span} {value? : Option α} (hframed : rule.Framed)
    (hrule : ∀ {t value}, rule s = .ok value t → (t.problems ≠ [] → noisy) →
      s.PassesPhrase noisy (phrase value) t)
    (hresume : ∀ u : State, ∃ tokens, u.Passes tokens (resume s u))
    (hinvalid : ∀ u : State, u.current.kind = .invalid →
      ∃ tokens, u.Passes tokens (resume s u) ∧ ∃ token ∈ tokens, token.kind = .invalid)
    (h : recover rule resume s = .ok value? t) (hnoisy : t.problems ≠ [] → noisy) :
    s.PassesPhrase noisy (value?.elim .gap phrase) t := by
  unfold recover at h
  cases hrun : rule s with
  | ok value u =>
      simp only [hrun] at h
      cases h
      exact hrule hrun hnoisy
  | error problem u =>
      simp only [hrun] at h
      cases h
      obtain ⟨hspan, front, hfront⟩ := hframed.error hrun
      have hreport := State.passes_report hspan
      by_cases hsame : u.current.kind = .invalid ∧ u.current.span = problem.span
      · have hunchanged : u.report problem = u := by
          rw [State.report, if_pos hsame]
        rw [hunchanged]
        obtain ⟨back, hback, token, hmem, hkind⟩ := hinvalid u hsame.1
        exact ⟨front ++ back, hfront.trans hback, .inr (.inr ⟨token, by simp [hmem], hkind⟩)⟩
      · obtain ⟨back, hback⟩ := hresume (u.report problem)
        have hproblems : (u.report problem).problems ≠ [] := by
          rw [State.report, if_neg hsame]
          split
          next hlast =>
            intro hnil
            simp [hnil] at hlast
          next => simp
        exact ⟨front ++ ([] ++ back), hfront.trans (hreport.trans hback),
          .inr (.inl (noisy_of_passes ⟨back, hback⟩ hnoisy hproblems))⟩

theorem gapped_derives {α : Type} {phrase : α → Phrase Span} {read : List α}
    {value? : Option α} {front back : List Token}
    (hread : (Phrase.gapped (read.map phrase)).Derives noisy front)
    (hvalue : (value?.elim .gap phrase).Derives noisy back) :
    (Phrase.gapped ((read ++ value?.toList).map phrase)).Derives noisy (front ++ back) := by
  rw [List.map_append]
  cases value? with
  | none =>
      rw [Option.toList_none, List.map_nil, List.append_nil]
      refine Phrase.spelled_gapped_skip ?_ hread
      intro before hbefore
      rcases hvalue with rfl | hnoisy | ⟨token, hmem, hkind⟩
      · rwa [List.append_nil]
      · exact .inr (.inl hnoisy)
      · exact .inr (.inr ⟨token, by simp [hmem], hkind⟩)
  | some value =>
      have hskipped : (Orthography.located noisy).gap [] := .inl rfl
      simpa using Phrase.spelled_gapped_append hread hvalue hskipped

theorem iterate_recover_derives {α : Type} {rule : Rule α} {phrase : α → Phrase Span}
    {step : List α → Rule (Round (List α))} {resume : State → State → State}
    {read : List α}
    (hstep : ∀ {read s round t}, step read s = .ok round t →
      (round = .last read ∧ t = s) ∨ ∃ value?, recover rule resume s = .ok value? t ∧
        round = .more (read ++ value?.toList))
    (hrecover : ∀ {s value? t}, recover rule resume s = .ok value? t →
      (t.problems ≠ [] → noisy) → s.PassesPhrase noisy (value?.elim .gap phrase) t)
    (h : iterate step [] s = .ok read t) (hnoisy : t.problems ≠ [] → noisy) :
    s.PassesPhrase noisy (Phrase.gapped (read.map phrase)) t := by
  refine iterate_preserves h
    (fun read t => (t.problems ≠ [] → noisy) →
      s.PassesPhrase noisy (Phrase.gapped (read.map phrase)) t)
    (fun _ => ⟨[], .refl s, .inl rfl⟩) ?_ hnoisy
  intro read u round v hread hround hnoisy
  rcases hstep hround with ⟨rfl, rfl⟩ | ⟨value?, hvalue, rfl⟩
  · exact hread hnoisy
  · obtain ⟨back, hback, hvalue'⟩ := hrecover hvalue hnoisy
    obtain ⟨front, hfront, hread'⟩ := hread (noisy_of_passes ⟨back, hback⟩ hnoisy)
    exact ⟨_, hfront.trans hback, gapped_derives hread' hvalue'⟩

theorem blockRound_cases {read : List (Stmt Span)} {round : Round (List (Stmt Span))}
    (h : blockRound inner read s = .ok round t) :
    (round = .last read ∧ t = s) ∨ ∃ stmt?,
      recover (statement inner) State.skipStatement s = .ok stmt? t ∧
        round = .more (read ++ stmt?.toList) := by
  simp only [blockRound, current_bind] at h
  split at h
  · cases h
    exact .inl ⟨rfl, rfl⟩
  · obtain ⟨stmt?, _, hstmt, hrest⟩ := bind_eq_ok.mp h
    cases hrest
    exact .inr ⟨stmt?, hstmt, rfl⟩

theorem block_derives (hinner : inner.DerivesStmts noisy) {result : Block Span}
    (h : block inner s = .ok result t) (hnoisy : t.problems ≠ [] → noisy) :
    s.PassesPhrase noisy result.phrase t := by
  obtain ⟨_, _, hopen, hrest⟩ := bind_eq_ok.mp h
  obtain ⟨hleft, rfl, rfl⟩ := expect_eq_ok.mp hopen
  obtain ⟨read, u, hread, hclose⟩ := bind_eq_ok.mp hrest
  simp only [bind_eq_ok, expect_eq_ok] at hclose
  obtain ⟨_, _, ⟨hright, rfl, rfl⟩, _, _, hspan, hresult⟩ := hclose
  cases hspan
  cases hresult
  obtain ⟨tokens, hread, hread'⟩ := iterate_recover_derives blockRound_cases
    (fun hstmt => recover_derives (statement_framed hinner.framed)
      (statement_derives hinner) (State.skipStatement_resumption.passes _)
      (fun _ => State.skipStatement_invalid _) hstmt) hread hnoisy
  have hpasses := (State.reads_symbol hleft).toPasses.trans
    (hread.trans (State.reads_symbol hright).toPasses)
  refine ⟨_, hpasses, ?_⟩
  rw [Block.phrase, Stmt.phrases_eq_map]
  refine derives_node hpasses (by simp) ?_
  exact Phrase.spelled_seq (Phrase.derives_symbol hleft)
    (Phrase.spelled_seq hread' (Phrase.derives_symbol hright))

end Rule

namespace Level

theorem lowest_derivesStmts : lowest.DerivesStmts noisy where
  framed := lowest_framed
  exprs := lowest_derivesExprs
  block h := nomatch h
  branch h := nomatch h
  choice h := nomatch h

theorem DerivesStmts.above {level : Level} (h : level.DerivesStmts noisy) :
    level.above.DerivesStmts noisy where
  framed := h.framed.above
  exprs := h.exprs.above
  block := Rule.block_derives h
  branch := Rule.branch_derives h
  choice := Rule.choice_derives h

theorem allowing_derivesStmts (n : Nat) : (allowing n).DerivesStmts noisy := by
  induction n with
  | zero => exact lowest_derivesStmts
  | succ n ih => exact ih.above

end Level

end SourceFront
