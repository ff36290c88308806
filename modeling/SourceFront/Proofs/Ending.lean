import SourceFront.Proofs.Derivation.Type
import SourceFront.Proofs.Progress

/-!
Where an item ends. An item that ends with a semicolon or a closing brace is read in
the same way whatever follows it: no rule looks at the token behind that one. Only the
semicolon behind an `extern` may be left out; such an item ends with neither.
-/

namespace SourceFront

variable {α β σ : Type}

/-- Whether the token is a semicolon or a closing brace. An item that ends with one of
these ends there whatever follows. -/
def Token.endsItem (token : Token) : Bool :=
  token.kind = .symbol .semicolon || token.kind = .symbol .rightBrace

namespace State

variable {s t : State}

/-- The last token ahead, if there is one, ends an item. -/
def EndsItem (s : State) : Prop :=
  ∀ token ∈ s.ahead.getLast?, token.endsItem = true

theorem EndsItem.of_passes (h : s.EndsItem) {tokens : List Token} (hpasses : s.Passes tokens t) :
    t.EndsItem := by
  intro token hlast
  refine h token ?_
  rw [hpasses.ahead, List.getLast?_append, show t.ahead.getLast? = some token from hlast]
  rfl

theorem EndsItem.advance (h : s.EndsItem) : s.advance.EndsItem := by
  obtain ⟨tokens, hpasses⟩ := s.exists_passes_advance
  exact h.of_passes hpasses

theorem EndsItem.advance_ne_nil (h : s.EndsItem) (hkind : s.current.kind ≠ .eof)
    (hgoes : s.current.endsItem = false) : s.advance.ahead ≠ [] := by
  intro hnil
  obtain ⟨rest, hahead⟩ := ahead_of_current hkind
  obtain rfl : rest = [] := by simpa [State.advance, hahead] using hnil
  rw [h s.current (by simp [hahead])] at hgoes
  cases hgoes

end State

/-- Of tokens of which the last ends an item, the rule does not read the last. -/
def Rule.Open (rule : Rule α) : Prop :=
  ∀ (s t : State) (value : α), s.EndsItem → s.ahead ≠ [] → rule s = .ok value t → t.ahead ≠ []

namespace Rule.Open

theorem pure (value : α) : (pure value : Rule α).Open := by
  intro s t value' _ hne h
  cases h
  exact hne

theorem current : Rule.current.Open := by
  intro s t token _ hne h
  cases h
  exact hne

theorem spanFrom (start : Span) : (spanFrom start).Open := by
  intro s t span _ hne h
  cases h
  exact hne

theorem refuse (cause : Token → Cause) : (failWith cause : Rule α).Open := by
  intro s t value _ _ h
  cases h

theorem bind {rule : Rule α} {next : α → Rule β} (hframed : rule.Framed) (hrule : rule.Open)
    (hnext : ∀ value, (next value).Open) : (rule >>= next).Open := by
  intro s t result hends hne h
  obtain ⟨value, u, hfirst, hsecond⟩ := bind_eq_ok.mp h
  obtain ⟨tokens, hpasses⟩ := hframed.ok hfirst
  exact hnext value u t result (hends.of_passes hpasses) (hrule s u value hends hne hfirst) hsecond

theorem ite {c : Prop} [Decidable c] {yes no : Rule α} (hyes : yes.Open) (hno : no.Open) :
    (if c then yes else no).Open := by
  split
  · exact hyes
  · exact hno

theorem take? {kind : TokenKind}
    (hkind : kind ≠ .eof ∧ kind ≠ .symbol .semicolon ∧ kind ≠ .symbol .rightBrace) :
    (take? kind).Open := by
  obtain ⟨heof, hsemicolon, hbrace⟩ := hkind
  intro s t taken hends hne h
  obtain ⟨hat, -, rfl⟩ | ⟨-, -, rfl⟩ := take?_eq_ok.mp h
  · refine hends.advance_ne_nil (by rwa [hat]) ?_
    simp [Token.endsItem, hat, hsemicolon, hbrace]
  · exact hne

theorem expect {symbol : Symbol} (hsymbol : symbol ≠ .semicolon ∧ symbol ≠ .rightBrace) :
    (expect symbol).Open := by
  obtain ⟨hsemicolon, hbrace⟩ := hsymbol
  intro s t token hends _ h
  obtain ⟨hat, rfl, rfl⟩ := expect_eq_ok.mp h
  refine hends.advance_ne_nil (by simp [hat]) ?_
  simp [Token.endsItem, hat, hsemicolon, hbrace]

theorem behind_expect {symbol : Symbol} {rule : Rule α} {next : α → Token → Rule β}
    (hframed : rule.Framed) (hsymbol : symbol ≠ .semicolon ∧ symbol ≠ .rightBrace)
    (hnext : ∀ value token, (next value token).Open) :
    (rule >>= fun value => Rule.expect symbol >>= next value).Open := by
  obtain ⟨hsemicolon, hbrace⟩ := hsymbol
  intro s t result hends _ h
  obtain ⟨value, u, hfirst, hsecond⟩ := bind_eq_ok.mp h
  obtain ⟨token, v, hexpect, hthird⟩ := bind_eq_ok.mp hsecond
  obtain ⟨hat, rfl, rfl⟩ := expect_eq_ok.mp hexpect
  obtain ⟨tokens, hpasses⟩ := hframed.ok hfirst
  have hends' := hends.of_passes hpasses
  refine hnext value u.current u.advance t result hends'.advance ?_ hthird
  refine hends'.advance_ne_nil (by simp [hat]) ?_
  simp [Token.endsItem, hat, hsemicolon, hbrace]

theorem iterate {step : σ → Rule (Round σ)} (hframed : ∀ value, (step value).Framed)
    (hstep : ∀ value, (step value).Open) (value : σ) : Rule.Open (iterate step value) := by
  intro s t result hends hne h
  fun_induction Rule.iterate step value s with
  | case1 => cases h
  | case2 value s value' u hround =>
      cases h
      exact hstep value s _ _ hends hne hround
  | case3 value s value' u hround hlt ih =>
      obtain ⟨tokens, hpasses⟩ := (hframed value).ok hround
      exact ih (hends.of_passes hpasses) (hstep value s _ _ hends hne hround) h
  | case4 value s value' u hround hlt =>
      cases h
      exact hstep value s _ _ hends hne hround

end Rule.Open

namespace Rule

variable {level : Level}

theorem stars_open : stars.Open :=
  .iterate (fun _ => .bind (.take? _) fun _ => .ite (.pure _) (.pure _))
    (fun _ => .bind (.take? _) (.take? (by simp)) fun _ => .ite (.pure _) (.pure _)) _

theorem name_open : name.Open := by
  intro s t value hends _ h
  obtain ⟨text, hkind, -, rfl⟩ := name_eq_ok.mp h
  exact hends.advance_ne_nil (by simp [hkind]) (by simp [Token.endsItem, hkind])

variable (h : level.Framed)
include h

theorem sizes_open : (sizes level).Open := by
  refine .iterate (fun _ => .bind (.take? _) fun _ => .ite
    (.bind (h.expr _ _) fun _ => .bind (.expect _) fun _ => .pure _) (.pure _)) (fun _ => ?_) _
  exact .bind (.take? _) (.take? (by simp)) fun _ =>
    .ite (.behind_expect (h.expr _ _) (by simp) fun _ _ => .pure _) (.pure _)

variable (hopen : level.typeExpr.Open)
include hopen

theorem resultType_open : (resultType level).Open :=
  .bind (.take? _) (.take? (by simp)) fun _ => .ite
    (.bind (.take? _) (.take? (by simp)) fun _ => .ite (.pure _)
      (.bind h.typeExpr hopen fun _ => .pure _))
    (.pure _)

theorem functionType_ne_nil {s t : State} {base : TypeBase Span} (hends : s.EndsItem)
    (hfn : s.current.kind = .keyword .fn) (hbase : functionType level s = .ok base t) :
    t.ahead ≠ [] := by
  rw [functionType, advance_bind] at hbase
  have hrest : s.advance.ahead ≠ [] :=
    hends.advance_ne_nil (by simp [hfn]) (by simp [Token.endsItem, hfn])
  refine Open.bind (.expect _) (.expect (by simp)) (fun _ => ?_) s.advance t base
    hends.advance hrest hbase
  refine .behind_expect (.paramList h.typeExpr) (by simp) fun _ _ => ?_
  exact .bind (resultType_framed h) (resultType_open h hopen) fun _ => .pure _

theorem typeBase_open (pointers : Nat) : (typeBase level pointers).Open := by
  intro s t result hends hne hbase
  rcases typeBase_cases hbase with ⟨type, base, hkind, hprimitive, -⟩ |
    ⟨base, hfn, hfunction, -⟩ | ⟨hkind, -, rfl, -⟩ | ⟨base, hname, -⟩
  · rw [primitive, advance_bind] at hprimitive
    cases hprimitive
    exact hends.advance_ne_nil (by simp [hkind]) (by simp [Token.endsItem, hkind])
  · exact functionType_ne_nil h hopen hends hfn hfunction
  · exact hends.advance_ne_nil (by simp [hkind]) (by simp [Token.endsItem, hkind])
  · exact name_open s t base hends hne hname

theorem typeExpr_open : (typeExpr level).Open :=
  .bind .current .current fun _ => .bind stars_framed stars_open fun _ =>
    .bind (typeBase_framed h _) (typeBase_open h hopen _) fun _ =>
      .bind (sizes_framed h) (sizes_open h) fun _ => .bind (.spanFrom _) (.spanFrom _) fun _ =>
        .pure _

theorem prototype_open (name : Name Span) : (prototype level name).Open :=
  .bind (.expect _) (.expect (by simp)) fun _ =>
    .behind_expect (.paramList (typedName_framed h)) (by simp) fun _ _ =>
      .bind (resultType_framed h) (resultType_open h hopen) fun _ =>
        .bind (.spanFrom _) (.spanFrom _) fun _ => .pure _

end Rule

theorem Level.allowing_typeExpr_open (n : Nat) : (Level.allowing n).typeExpr.Open := by
  induction n with
  | zero => exact .refuse _
  | succ n ih => exact Rule.typeExpr_open (allowing_framed n) ih

/-- What the rule reads does not depend on what follows, not even on whether a token
follows. -/
def Rule.Blind (rule : Rule α) : Prop :=
  ∀ (s t : State) (value : α), rule s = .ok value t → ∀ more stop,
    rule (s.extend more stop) = .ok value (t.extend more stop)

/-- Of tokens of which the last ends an item, the rule reads in the same way if others
follow. -/
def Rule.Local (rule : Rule α) : Prop :=
  ∀ (s t : State) (value : α), s.EndsItem → s.ahead ≠ [] → rule s = .ok value t →
    ∀ more stop, rule (s.extend more stop) = .ok value (t.extend more stop)

/-- As a local rule, and the rule reads one token at least. -/
def Rule.Closed (rule : Rule α) : Prop :=
  ∀ (s t : State) (value : α), s.EndsItem → rule s = .ok value t →
    s.ahead ≠ [] ∧ ∀ more stop, rule (s.extend more stop) = .ok value (t.extend more stop)

namespace Rule.Blind

theorem pure (value : α) : (pure value : Rule α).Blind := by
  intro s t value' h more stop
  cases h
  rfl

theorem spanFrom {start : Span} {next : Span → α} :
    (do return next (← spanFrom start) : Rule α).Blind := by
  intro s t value h more stop
  cases h
  rfl

end Rule.Blind

namespace Rule.Local

theorem behind {rule : Rule α} {next : α → Rule β} (hframed : rule.Framed) (hopen : rule.Open)
    (hnext : ∀ value, (next value).Local) : (rule >>= next).Local := by
  intro s t result hends hne h more stop
  obtain ⟨value, u, hfirst, hsecond⟩ := bind_eq_ok.mp h
  obtain ⟨tokens, hpasses⟩ := hframed.ok hfirst
  have hne' := hopen s u value hends hne hfirst
  rw [bind_of_ok (hframed.extend_ok hfirst hne' more stop)]
  exact hnext value u t result (hends.of_passes hpasses) hne' hsecond more stop

theorem optional (kind : TokenKind) (value : α) :
    (do let _ ← take? kind; return value : Rule α).Local := by
  intro s t value' _ hne h more stop
  rw [take?_bind] at h ⊢
  rw [State.extend_current more stop hne]
  split at h
  next hat =>
    cases h
    rw [if_pos hat, State.extend_advance more stop hne]
    rfl
  next hat =>
    cases h
    rw [if_neg hat]
    rfl

end Rule.Local

namespace Rule.Closed

theorem of_local {rule : Rule α} (hconsumes : rule.Consumes) (hlocal : rule.Local) :
    rule.Closed := by
  intro s t value hends h
  have hne : s.ahead ≠ [] := List.ne_nil_of_length_pos
    (Nat.lt_of_le_of_lt (Nat.zero_le _) (hconsumes s t value h))
  exact ⟨hne, hlocal s t value hends hne h⟩

theorem of_ne_ok {rule : Rule α} (h : ∀ s value t, rule s ≠ .ok value t) : rule.Closed :=
  fun s t value _ hok => absurd hok (h s value t)

theorem ite {c : Prop} [Decidable c] {yes no : Rule α} (hyes : yes.Closed) (hno : no.Closed) :
    (if c then yes else no).Closed := by
  split
  · exact hyes
  · exact hno

theorem whenTaken {kind : TokenKind} {yes no : Rule α}
    (hkind : kind ≠ .eof ∧ kind ≠ .symbol .semicolon ∧ kind ≠ .symbol .rightBrace)
    (hyes : yes.Local) (hno : no.Closed) :
    (take? kind >>= fun taken => if taken then yes else no).Closed := by
  intro s t value hends h
  rw [take?_bind] at h
  split at h
  next hat =>
    have hne : s.ahead ≠ [] := by
      obtain ⟨rest, hahead⟩ := State.ahead_of_current (s := s) (by rw [hat]; exact hkind.1)
      simp [hahead]
    have hne' : s.advance.ahead ≠ [] := by
      exact Open.take? hkind s s.advance true hends hne (by rw [take?_apply, if_pos hat])
    refine ⟨hne, fun more stop => ?_⟩
    rw [take?_bind, State.extend_current more stop hne, if_pos hat,
      State.extend_advance more stop hne]
    exact hyes s.advance t value hends.advance hne' h more stop
  next hat =>
    obtain ⟨hne, hextend⟩ := hno s t value hends h
    refine ⟨hne, fun more stop => ?_⟩
    rw [take?_bind, State.extend_current more stop hne, if_neg hat]
    exact hextend more stop

theorem behind {rule : Rule α} {next : α → Rule β} (hrule : rule.Framed)
    (hnext : ∀ value, (next value).Closed) : (rule >>= next).Closed := by
  intro s t result hends h
  obtain ⟨value, u, hfirst, hsecond⟩ := bind_eq_ok.mp h
  obtain ⟨tokens, hpasses⟩ := hrule.ok hfirst
  obtain ⟨hne, hextend⟩ := hnext value u t result (hends.of_passes hpasses) hsecond
  refine ⟨hpasses.ahead_ne_nil hne, fun more stop => ?_⟩
  rw [bind_of_ok (hrule.extend_ok hfirst hne more stop), hextend]

theorem before {rule : Rule α} {next : α → Rule β} (hrule : rule.Closed)
    (hnext : ∀ value, (next value).Blind) : (rule >>= next).Closed := by
  intro s t result hends h
  obtain ⟨value, u, hfirst, hsecond⟩ := bind_eq_ok.mp h
  obtain ⟨hne, hextend⟩ := hrule s u value hends hfirst
  refine ⟨hne, fun more stop => ?_⟩
  rw [bind_of_ok (hextend more stop), hnext value u t result hsecond]

theorem expect (symbol : Symbol) : (expect symbol).Closed := by
  intro s t token _ h
  obtain ⟨hat, rfl, rfl⟩ := expect_eq_ok.mp h
  obtain ⟨rest, hahead⟩ := State.ahead_of_current (s := s) (by simp [hat])
  have hne : s.ahead ≠ [] := by simp [hahead]
  refine ⟨hne, fun more stop => ?_⟩
  rw [expect_apply, State.extend_current more stop hne, if_pos hat,
    State.extend_advance more stop hne]

end Rule.Closed

namespace Rule

variable {level : Level} (h : level.Framed)
include h

theorem block_closed : (block level).Closed :=
  .behind (.expect _) fun _ => .behind (.iterate (blockRound_framed h) _) fun _ =>
    .before (.expect _) fun _ => .spanFrom

theorem recordDef_closed : (recordDef level).Closed :=
  .behind .advance fun _ => .behind name_framed fun _ => .behind (.expect _) fun _ =>
    .behind (.commaList (typedName_framed h) _) fun _ => .before (.expect _) fun _ => .spanFrom

theorem enumDef_closed : (enumDef level).Closed :=
  .behind .advance fun _ => .behind name_framed fun _ => .behind (.expect _) fun _ =>
    .behind (.commaList (variant_framed h) _) fun _ => .before (.expect _) fun _ => .spanFrom

theorem binding_closed : (binding level).Closed :=
  .behind .advance fun _ => .behind name_framed fun _ =>
    .behind (typeAnnotation?_framed h) fun _ => .behind (.expect _) fun _ =>
      .behind (h.expr _ _) fun _ => .before (.expect _) fun _ => .spanFrom

theorem constantDef_closed : (constantDef level).Closed := by
  unfold constantDef
  refine .behind .advance fun _ => .behind name_framed fun _ =>
    .behind (typeAnnotation?_framed h) fun _ => .behind (.expect _) fun _ =>
      .behind (.isAt _) fun _ => ?_
  extract_lets rest
  have hrest (value : ConstantValue Span) : (rest value).Closed :=
    .before (.expect _) fun _ => .spanFrom
  exact .ite (.behind import_framed fun _ => .behind (.pure _) hrest)
    (.behind (h.expr _ _) fun _ => .behind (.pure _) hrest)

omit h in
theorem external_closed (h : level.Consuming) (hopen : level.typeExpr.Open) :
    (external level).Closed := by
  unfold external
  refine .behind .advance fun _ => .behind (.take? _) fun _ => .behind name_framed fun _ =>
    .behind (.isAt _) fun _ => ?_
  extract_lets rest
  have hrest (definition : Definition Span) : (rest definition).Local := .optional _ _
  have hrest' (definition : Definition Span) : (rest definition).Framed :=
    .bind (.take? _) fun _ => .pure _
  refine .ite (.of_local ?_ ?_) (.whenTaken (by simp) ?_ (.of_ne_ok nofun))
  · exact .before (prototype_consumes h.framed _) fun _ => .bind (.pure _) hrest'
  · exact .behind (prototype_framed h.framed _) (prototype_open h.framed hopen _) fun _ =>
      .behind (.pure _) (.pure _) hrest
  · exact .behind h.framed.typeExpr hopen fun _ => .behind (.spanFrom _) (.spanFrom _) fun _ =>
      .behind (.pure _) (.pure _) hrest

end Rule

namespace Rule

variable {level : Level} (h : level.Consuming) (hopen : level.typeExpr.Open)
  (hblock : level.block.Closed)
include h hopen hblock

omit hopen in
theorem function_closed : (function level).Closed :=
  .behind .advance fun _ => .behind name_framed fun _ =>
    .behind (prototype_framed h.framed _) fun _ => .before hblock fun _ => .pure _

theorem definition_closed : (definition level).Closed := by
  refine .behind .current fun token => ?_
  split
  · exact .before (function_closed h hblock) fun _ => .pure _
  · exact .before (recordDef_closed h.framed) fun _ => .pure _
  · exact .before (recordDef_closed h.framed) fun _ => .pure _
  · exact .before (enumDef_closed h.framed) fun _ => .pure _
  · exact external_closed h hopen
  · exact .before (constantDef_closed h.framed) fun _ => .pure _
  · exact .before (binding_closed h.framed) fun _ => .pure _
  · exact .of_ne_ok nofun

theorem declaration_closed : (declaration level).Closed :=
  .behind .current fun _ => .behind (.take? _) fun _ =>
    .before (definition_closed h hopen hblock) fun _ => .spanFrom

theorem item_closed : (item level).Closed := by
  refine .behind (.isAt _) fun _ => .ite ?_ ?_
  · exact .behind import_framed fun _ => .before (.expect _) fun _ => .spanFrom
  · exact .before (declaration_closed h hopen hblock) fun _ => .pure _

end Rule

/-- What an item reads, it reads whatever follows, if it ends as items do. -/
theorem Level.item_closed (n : Nat) : (Rule.item (allowing n)).Closed := by
  refine Rule.item_closed (allowing_consuming n) (allowing_typeExpr_open n) ?_
  cases n with
  | zero => exact .of_ne_ok nofun
  | succ n => exact Rule.block_closed (allowing_framed n)

end SourceFront
