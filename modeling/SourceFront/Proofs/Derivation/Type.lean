import SourceFront.Proofs.Derivation.Basic

/-!
What the rules for lists, names and types read.
-/

namespace SourceFront

/-- What a rule reads derives the phrase of what it returns, and it reports no
problem. -/
def Rule.Derives {α : Type} (noisy : Prop) (rule : Rule α) (phrase : α → Phrase Span) :
    Prop :=
  ∀ {s t : State} {value : α}, rule s = .ok value t →
    ∃ tokens, s.Reads tokens t ∧ (phrase value).Derives noisy tokens

namespace Rule

open State (Reads)

variable {α σ : Type} {noisy : Prop} {s t : State}

/-- A round that leads from one state to another: if the repetition goes on, a
token has been read and `P` holds, and at its end `Q` holds. -/
inductive Leads (P Q : σ → State → Prop) (s t : State) : Round σ → Prop where
  | more {value : σ} (hlt : t.ahead.length < s.ahead.length) (h : P value t) :
      Leads P Q s t (.more value)
  | last {value : σ} (h : Q value t) : Leads P Q s t (.last value)

/-- What each round preserves holds at the end of a repetition, whatever the reason
for it to end. -/
theorem iterate_preserves {step : σ → Rule (Round σ)} {value value' : σ}
    (h : iterate step value s = .ok value' t) (P : σ → State → Prop) (hvalue : P value s)
    (hround : ∀ {value s round t}, P value s → step value s = .ok round t →
      P round.value t) : P value' t := by
  fun_induction iterate step value s with
  | case1 value s problem u hstep => cases h
  | case2 value s value'' u hstep =>
      cases h
      exact hround hvalue hstep
  | case3 value s value'' u hstep hlt ih => exact ih h (hround hvalue hstep)
  | case4 value s value'' u hstep hlt =>
      cases h
      exact hround hvalue hstep

theorem iterate_ok {step : σ → Rule (Round σ)} {value value' : σ}
    (h : iterate step value s = .ok value' t) (P Q : σ → State → Prop)
    (hvalue : P value s)
    (hround : ∀ {value s round t}, P value s → step value s = .ok round t →
      Leads P Q s t round) : Q value' t := by
  fun_induction iterate step value s with
  | case1 value s problem u hstep => cases h
  | case2 value s value'' u hstep =>
      cases h
      cases hround hvalue hstep with
      | last h => exact h
  | case3 value s value'' u hstep hlt ih =>
      cases hround hvalue hstep with
      | more _ hvalue' => exact ih h hvalue'
  | case4 value s value'' u hstep hlt =>
      cases hround hvalue hstep with
      | more hlt' _ => exact absurd hlt' hlt

theorem commaList_derives {element : Rule α} {phrase : α → Phrase Span}
    (helement : element.Derives noisy phrase) (close : Symbol) :
    (commaList close element).Derives noisy fun as => Phrase.commas (as.map phrase) := by
  intro start t as h
  refine iterate_ok h
    (fun read s => ∃ tokens, start.Reads tokens s ∧
      (Phrase.commaEnded (read.map phrase)).Derives noisy tokens)
    (fun read s => ∃ tokens, start.Reads tokens s ∧
      (Phrase.commas (read.map phrase)).Derives noisy tokens)
    ⟨[], .refl start, rfl⟩ ?_
  rintro read s round t ⟨tokens, hreads, hread⟩ hstep
  simp only [isAtClose_bind] at hstep
  split at hstep
  · cases hstep
    exact .last ⟨tokens, hreads, Phrase.spelled_commas_of_commaEnded hread⟩
  simp only [bind_eq_ok, take?_eq_ok] at hstep
  obtain ⟨a, u, ha, taken, _, ⟨hcomma, rfl, rfl⟩ | ⟨_, rfl, rfl⟩, hstep⟩ := hstep
  · cases hstep
    obtain ⟨more, hmore, hderives⟩ := helement ha
    have hadvance := hmore.trans (State.reads_symbol hcomma)
    refine .more (hadvance.length_lt (by simp))
      ⟨tokens ++ (more ++ [u.current]), hreads.trans hadvance, ?_⟩
    rw [List.map_append]
    exact Phrase.spelled_commaEnded_append hread hderives
      (by simp [Orthography.located, Token.terminal?, hcomma])
  · cases hstep
    obtain ⟨more, hmore, hderives⟩ := helement ha
    refine .last ⟨tokens ++ more, hreads.trans hmore, ?_⟩
    rw [List.map_append]
    exact Phrase.spelled_commas_append hread hderives

theorem paramList_derives {param : Rule α} {phrase : α → Phrase Span}
    (hparam : param.Derives noisy phrase) :
    (paramList param).Derives noisy fun (params, variadic) =>
      Phrase.params (params.map phrase) variadic := by
  intro start t result h
  refine iterate_ok h
    (fun (read, _) s => ∃ tokens, start.Reads tokens s ∧
      (Phrase.commaEnded (read.map phrase)).Derives noisy tokens)
    (fun (read, variadic) s => ∃ tokens, start.Reads tokens s ∧
      (Phrase.params (read.map phrase) variadic).Derives noisy tokens)
    ⟨[], .refl start, rfl⟩ ?_
  rintro ⟨read, _⟩ s round t ⟨tokens, hreads, hread⟩ hstep
  simp only [isAtClose_bind] at hstep
  split at hstep
  · cases hstep
    exact .last ⟨tokens, hreads, Phrase.spelled_commas_of_commaEnded hread⟩
  simp only [bind_eq_ok, take?_eq_ok] at hstep
  obtain ⟨_, _, ⟨hellipsis, rfl, rfl⟩ | ⟨_, rfl, rfl⟩, hstep⟩ := hstep
  · cases hstep
    exact .last ⟨_, hreads.trans (State.reads_symbol hellipsis),
      Phrase.spelled_seq hread (Phrase.derives_symbol hellipsis)⟩
  simp only [Bool.false_eq_true, if_false, bind_eq_ok, take?_eq_ok] at hstep
  obtain ⟨a, u, ha, _, _, ⟨hcomma, rfl, rfl⟩ | ⟨_, rfl, rfl⟩, hstep⟩ := hstep
  · cases hstep
    obtain ⟨more, hmore, hderives⟩ := hparam ha
    have hadvance := hmore.trans (State.reads_symbol hcomma)
    refine .more (hadvance.length_lt (by simp))
      ⟨tokens ++ (more ++ [u.current]), hreads.trans hadvance, ?_⟩
    rw [List.map_append]
    exact Phrase.spelled_commaEnded_append hread hderives
      (by simp [Orthography.located, Token.terminal?, hcomma])
  · cases hstep
    obtain ⟨more, hmore, hderives⟩ := hparam ha
    refine .last ⟨tokens ++ more, hreads.trans hmore, ?_⟩
    rw [List.map_append]
    exact Phrase.spelled_commas_append hread hderives

theorem name_derives : name.Derives noisy Name.phrase := by
  intro s t value h
  obtain ⟨text, hkind, rfl, rfl⟩ := name_eq_ok.mp h
  exact ⟨[s.current], State.reads_ident hkind,
    Phrase.derives_token (by simp [Token.terminal?, hkind])⟩

end Rule

/-- The expression is read on the way from `s` to `t`. Its bare operators have
precedence `least` at least. -/
def State.ReadsExpr (noisy : Prop) (place : Place) (least : Nat) (s : State)
    (expr : Expr Span) (t : State) : Prop :=
  ∃ tokens, s.Reads tokens t ∧ (expr.phrase place).Derives noisy tokens ∧
    least ≤ expr.precedence

/-- What the rules of a level for expressions and types read. An expression ends
before an operator that binds too loosely to belong to it. -/
structure Level.DerivesExprs (noisy : Prop) (level : Level) : Prop where
  expr : ∀ {place : Place} {least : Nat} {s t : State} {expr : Expr Span},
    least ≤ UnaryOp.precedence → level.expr place least s = .ok expr t →
      s.ReadsExpr noisy place least expr t ∧
        ∀ op, InfixOp.ofKind? t.current.kind = some op → op.precedence < least
  operand : ∀ {place : Place} {s t : State} {expr : Expr Span},
    level.operand place s = .ok expr t →
      s.ReadsExpr noisy place UnaryOp.precedence expr t
  typeExpr : level.typeExpr.Derives noisy fun type => .deeper type.phrase
  typeExpr_ends : ∀ {s t : State} {type : TypeExpr Span}, level.typeExpr s = .ok type t →
    t.current.kind ≠ .symbol .leftBracket

theorem TypeBase.ne_nil_of_spelled {α : Type} {o : Orthography α} {base : TypeBase α}
    {tokens : List Token} (h : base.phrase.Spelled o tokens) : tokens ≠ [] := by
  cases base with
  | anyPointer =>
      obtain ⟨_, _, rfl, ⟨star, rfl, _⟩, _⟩ := h
      simp
  | primitive type =>
      obtain ⟨token, rfl, _⟩ := h
      simp
  | named name =>
      obtain ⟨⟨token, rfl, _⟩, _⟩ := h
      simp
  | function types variadic result =>
      obtain ⟨_, _, rfl, ⟨fn, rfl, _⟩, _⟩ := h
      simp

namespace Rule

open State (Reads)

variable {noisy : Prop} {s t : State} {inner : Level}

theorem freeExpr_derives (hinner : inner.DerivesExprs noisy) :
    inner.freeExpr.Derives noisy (Expr.whole .free) := by
  intro s t expr h
  obtain ⟨⟨tokens, hreads, hderives, _⟩, _⟩ := hinner.expr (Nat.zero_le _) h
  exact ⟨tokens, hreads, hderives⟩

theorem condition_derives (hinner : inner.DerivesExprs noisy) :
    inner.condition.Derives noisy (Expr.whole .beforeBlock) := by
  intro s t expr h
  obtain ⟨⟨tokens, hreads, hderives, _⟩, _⟩ := hinner.expr (Nat.zero_le _) h
  exact ⟨tokens, hreads, hderives⟩

theorem stars_derives : stars.Derives noisy Phrase.stars := by
  intro start t count h
  refine iterate_ok h
    (fun count s => ∃ tokens, start.Reads tokens s ∧
      (Phrase.stars count).Derives noisy tokens)
    (fun count s => ∃ tokens, start.Reads tokens s ∧
      (Phrase.stars count).Derives noisy tokens)
    ⟨[], .refl start, rfl⟩ ?_
  rintro count s round t ⟨tokens, hreads, hstars⟩ hstep
  simp only [bind_eq_ok, take?_eq_ok] at hstep
  obtain ⟨_, _, ⟨hstar, rfl, rfl⟩ | ⟨_, rfl, rfl⟩, hstep⟩ := hstep
  · cases hstep
    have hadvance := State.reads_symbol hstar
    refine .more (hadvance.length_lt (by simp)) ⟨_, hreads.trans hadvance, ?_⟩
    exact Phrase.spelled_stars_append hstars
      (by simp [Orthography.located, Token.terminal?, hstar])
  · cases hstep
    exact .last ⟨tokens, hreads, hstars⟩

theorem resultType_derives (hinner : inner.DerivesExprs noisy) :
    (resultType inner).Derives noisy TypeExpr.resultPhrase := by
  intro s t result h
  simp only [resultType, bind_eq_ok, take?_eq_ok] at h
  obtain ⟨_, _, ⟨hcolon, rfl, rfl⟩ | ⟨_, rfl, rfl⟩, h⟩ := h
  · simp only [if_true, bind_eq_ok, take?_eq_ok] at h
    have hreads := State.reads_symbol hcolon
    obtain ⟨_, _, ⟨hvoid, rfl, rfl⟩ | ⟨_, rfl, rfl⟩, h⟩ := h
    · cases h
      refine ⟨_, hreads.trans (State.reads_keyword hvoid), .inr ?_⟩
      exact .cons (by simp [Orthography.located, Token.terminal?, hcolon])
        (.cons (by simp [Orthography.located, Token.terminal?, hvoid]) .nil)
    · simp only [Bool.false_eq_true, if_false, bind_eq_ok] at h
      obtain ⟨type, u, htype, h⟩ := h
      cases h
      obtain ⟨tokens, hmore, hderives⟩ := hinner.typeExpr htype
      exact ⟨_, hreads.trans hmore,
        Phrase.spelled_seq (Phrase.derives_symbol hcolon) hderives⟩
  · cases h
    exact ⟨[], .refl _, .inl .nil⟩

theorem resultType_ends (hinner : inner.DerivesExprs noisy) {type : TypeExpr Span}
    (h : resultType inner s = .ok (some type) t) :
    t.current.kind ≠ .symbol .leftBracket := by
  simp only [resultType, bind_eq_ok, take?_eq_ok] at h
  obtain ⟨_, _, ⟨hcolon, rfl, rfl⟩ | ⟨_, rfl, rfl⟩, h⟩ := h
  · simp only [if_true, bind_eq_ok, take?_eq_ok] at h
    obtain ⟨_, _, ⟨hvoid, rfl, rfl⟩ | ⟨_, rfl, rfl⟩, h⟩ := h
    · cases h
    · simp only [Bool.false_eq_true, if_false, bind_eq_ok] at h
      obtain ⟨type, u, htype, h⟩ := h
      cases h
      exact hinner.typeExpr_ends htype
  · cases h

theorem functionType_derives (hinner : inner.DerivesExprs noisy) {base : TypeBase Span}
    (hfn : s.current.kind = .keyword .fn) (h : functionType inner s = .ok base t) :
    (∃ tokens, s.Reads tokens t ∧ base.phrase.Derives noisy tokens) ∧
      (base.admitsSizes = false → t.current.kind ≠ .symbol .leftBracket) ∧
      ∀ pointers, base.admitsPointers pointers = true := by
  simp only [functionType, advance_bind, bind_eq_ok, expect_eq_ok] at h
  obtain ⟨_, _, ⟨hleft, rfl, rfl⟩, ⟨params, variadic⟩, u, hparams, _, _,
    ⟨hright, rfl, rfl⟩, result, v, hresult, h⟩ := h
  cases h
  have hfn' := State.reads_keyword hfn
  have hopen := State.reads_symbol hleft
  obtain ⟨paramTokens, hreads, hparams'⟩ := paramList_derives hinner.typeExpr hparams
  obtain ⟨resultTokens, hreads', hresult'⟩ := resultType_derives hinner hresult
  have hclose := State.reads_symbol hright
  refine ⟨⟨_, hfn'.trans (hopen.trans (hreads.trans (hclose.trans hreads'))), ?_⟩, ?_,
    fun _ => rfl⟩
  · rw [TypeBase.phrase, TypeExpr.phrases_eq_map]
    refine Phrase.spelled_seq (Phrase.derives_keyword hfn) ?_
    refine Phrase.spelled_seq (Phrase.derives_symbol hleft) ?_
    exact Phrase.spelled_seq hparams'
      (Phrase.spelled_seq (Phrase.derives_symbol hright) hresult')
  · intro hsizes
    cases result with
    | none => cases hsizes
    | some type => exact resultType_ends hinner hresult

theorem primitive_derives {type : Primitive} {base : TypeBase Span}
    (hkind : s.current.kind = .keyword type.keyword) (h : primitive type s = .ok base t) :
    base = .primitive type ∧
      ∃ tokens, s.Reads tokens t ∧ base.phrase.Derives noisy tokens := by
  simp only [primitive, advance_bind, pure_eq_ok] at h
  obtain ⟨rfl, rfl⟩ := h
  refine ⟨rfl, _, State.reads_keyword hkind, ?_⟩
  rw [TypeBase.phrase]
  exact Phrase.derives_keyword hkind

theorem typeBase_cases {pointers : Nat} {result : Nat × TypeBase Span}
    (h : typeBase inner pointers s = .ok result t) :
    (∃ type base, s.current.kind = .keyword (Primitive.keyword type) ∧
        primitive type s = .ok base t ∧ result = (pointers, base)) ∨
      (∃ base, s.current.kind = .keyword .fn ∧ functionType inner s = .ok base t ∧
        result = (pointers, base)) ∨
      (s.current.kind = .ident "any" ∧ 0 < pointers ∧ t = s.advance ∧
        result = (pointers - 1, .anyPointer)) ∨
      ∃ base, name s = .ok base t ∧ (base.text = "any" → pointers = 0) ∧
        result = (pointers, .named base) := by
  have hprimitive (type : Primitive) (hkind : s.current.kind = .keyword type.keyword)
      (h : (primitive type >>= fun base => pure (pointers, base)) s = .ok result t) :
      ∃ type base, s.current.kind = .keyword (Primitive.keyword type) ∧
        primitive type s = .ok base t ∧ result = (pointers, base) := by
    simp only [bind_eq_ok, pure_eq_ok] at h
    obtain ⟨base, _, hbase, rfl, rfl⟩ := h
    exact ⟨type, base, hkind, hbase, rfl⟩
  simp only [typeBase, current_bind] at h
  obtain ⟨kind, hkind⟩ : ∃ kind, s.current.kind = kind := ⟨_, rfl⟩
  cases kind with
  | keyword k =>
      cases k <;> simp only [hkind, failWith_apply, reduceCtorEq] at h
      case fn =>
        simp only [bind_eq_ok, pure_eq_ok] at h
        obtain ⟨base, _, hbase, rfl, rfl⟩ := h
        exact .inr (.inl ⟨base, hkind, hbase, rfl⟩)
      case int => exact .inl (hprimitive .int hkind h)
      case str => exact .inl (hprimitive .str hkind h)
      case char => exact .inl (hprimitive .char hkind h)
      case bool => exact .inl (hprimitive .bool hkind h)
      case float => exact .inl (hprimitive .float hkind h)
  | ident text =>
      simp only [hkind] at h
      split at h
      next hany =>
        cases h
        exact .inr (.inr (.inl ⟨by rw [hkind, hany.1], hany.2, rfl, rfl⟩))
      next hany =>
        simp only [bind_eq_ok, pure_eq_ok] at h
        obtain ⟨base, _, hbase, rfl, rfl⟩ := h
        refine .inr (.inr (.inr ⟨base, hbase, fun htext => ?_, rfl⟩))
        obtain ⟨text', hkind', rfl, _⟩ := name_eq_ok.mp hbase
        cases hkind.symm.trans hkind'
        exact Nat.eq_zero_of_not_pos fun hpos => hany ⟨htext, hpos⟩
  | symbol _ | number | string _ | char _ | invalid | eof =>
      simp only [hkind, failWith_apply, reduceCtorEq] at h

/-- The base behind some stars. The star that belongs to `any` is read with the
others. -/
theorem typeBase_derives (hinner : inner.DerivesExprs noisy) {pointers pointers' : Nat}
    {base : TypeBase Span} {front : List Token}
    (hfront : (Phrase.stars pointers).Derives noisy front)
    (h : typeBase inner pointers s = .ok (pointers', base) t) :
    ∃ tokens, s.Reads tokens t ∧
      (Phrase.seq (Phrase.stars pointers') base.phrase).Derives noisy (front ++ tokens) ∧
      base.admitsPointers pointers' = true ∧
      (base.admitsSizes = false → t.current.kind ≠ .symbol .leftBracket) := by
  rcases typeBase_cases h with ⟨type, base, hkind, hbase, hresult⟩ |
    ⟨base, hfn, hbase, hresult⟩ | ⟨hkind, hpos, rfl, hresult⟩ | ⟨base, hbase, hany, hresult⟩
  · cases hresult
    obtain ⟨rfl, tokens, hreads, hderives⟩ := primitive_derives hkind hbase
    exact ⟨tokens, hreads, Phrase.spelled_seq hfront hderives, rfl, nofun⟩
  · cases hresult
    obtain ⟨⟨tokens, hreads, hderives⟩, hsizes, hadmits⟩ :=
      functionType_derives hinner hfn hbase
    exact ⟨tokens, hreads, Phrase.spelled_seq hfront hderives, hadmits pointers, hsizes⟩
  · cases hresult
    obtain ⟨count, rfl⟩ := Nat.exists_eq_add_of_lt hpos
    rw [Nat.zero_add] at hfront
    obtain ⟨before, star, rfl, hbefore, hstar⟩ := Phrase.spelled_stars_succ hfront
    refine ⟨_, State.reads_ident hkind, ?_, rfl, nofun⟩
    rw [List.append_assoc]
    refine Phrase.spelled_seq (by simpa using hbefore) ?_
    rw [TypeBase.phrase]
    exact Phrase.spelled_seq (Phrase.spelled_terminal hstar)
      (Phrase.derives_ident hkind)
  · cases hresult
    obtain ⟨tokens, hreads, hderives⟩ := name_derives hbase
    refine ⟨tokens, hreads, Phrase.spelled_seq hfront ?_, ?_, nofun⟩
    · rwa [TypeBase.phrase]
    · by_cases htext : base.text = "any" <;> simp [TypeBase.admitsPointers, htext, hany]

theorem sizes_derives (hinner : inner.DerivesExprs noisy) {start : State}
    {read : List (Expr Span)} (h : sizes inner start = .ok read t) :
    ∃ tokens, start.Reads tokens t ∧
      (Phrase.concat (TypeExpr.sizePhrases read)).Derives noisy tokens ∧
      t.current.kind ≠ .symbol .leftBracket := by
  refine iterate_ok h
    (fun read s => ∃ tokens, start.Reads tokens s ∧
      (Phrase.concat (TypeExpr.sizePhrases read)).Derives noisy tokens)
    (fun read s => ∃ tokens, start.Reads tokens s ∧
      (Phrase.concat (TypeExpr.sizePhrases read)).Derives noisy tokens ∧
      s.current.kind ≠ .symbol .leftBracket)
    ⟨[], .refl start, rfl⟩ ?_
  rintro read s round t ⟨tokens, hreads, hread⟩ hstep
  simp only [bind_eq_ok, take?_eq_ok] at hstep
  obtain ⟨_, _, ⟨hleft, rfl, rfl⟩ | ⟨hleft, rfl, rfl⟩, hstep⟩ := hstep
  · simp only [if_true, bind_eq_ok, expect_eq_ok] at hstep
    obtain ⟨size, u, hsize, _, _, ⟨hright, rfl, rfl⟩, hstep⟩ := hstep
    cases hstep
    obtain ⟨more, hmore, hderives⟩ := freeExpr_derives hinner hsize
    have hopen := State.reads_symbol hleft
    have hclosed := hopen.trans
      (hmore.trans (State.reads_symbol hright))
    refine .more (hclosed.length_lt (by simp)) ⟨_, hreads.trans hclosed, ?_⟩
    rw [TypeExpr.sizePhrases_eq_map] at hread ⊢
    rw [List.map_append]
    refine Phrase.spelled_concat_append hread ?_
    exact Phrase.spelled_seq (Phrase.derives_symbol hleft)
      (Phrase.spelled_seq hderives (Phrase.derives_symbol hright))
  · cases hstep
    exact .last ⟨tokens, hreads, hread, hleft⟩

theorem sizes_of_not_bracket (h : s.current.kind ≠ .symbol .leftBracket) :
    sizes inner s = .ok [] s :=
  iterate_of_last (by rw [bind_apply, take?_apply, if_neg h]; rfl)

theorem typeExpr_derives (hinner : inner.DerivesExprs noisy) {type : TypeExpr Span}
    (h : typeExpr inner s = .ok type t) :
    (∃ tokens, s.Reads tokens t ∧ type.phrase.Derives noisy tokens) ∧
      t.current.kind ≠ .symbol .leftBracket := by
  simp only [typeExpr, current_bind, bind_eq_ok] at h
  obtain ⟨count, u, hstars, ⟨pointers, base⟩, v, hbase, read, w, hread, _, _, hspan, h⟩ := h
  cases hspan
  cases h
  obtain ⟨front, hfront, hstars⟩ := stars_derives hstars
  obtain ⟨middle, hmiddle, ⟨starTokens, baseTokens, hsame, hstars', hbase'⟩, hpointers,
    hadmits⟩ := typeBase_derives hinner hstars hbase
  obtain ⟨back, hback, hread', hends⟩ := sizes_derives hinner hread
  have hreads := (hfront.trans hmiddle).trans hback
  rw [hsame] at hreads
  refine ⟨⟨_, hreads, ?_⟩, hends⟩
  rw [TypeExpr.phrase]
  refine Phrase.spelled_node ?_ (hreads.toPasses.covers ?_)
  · refine Phrase.spelled_provided_seq hpointers (Phrase.spelled_provided_seq ?_ ?_)
    · cases hsizes : base.admitsSizes with
      | true => simp
      | false =>
          rw [sizes_of_not_bracket (hadmits hsizes)] at hread
          cases hread
          rfl
    · rw [List.append_assoc]
      exact Phrase.spelled_seq hstars' (Phrase.spelled_seq hbase' hread')
  · have hne := TypeBase.ne_nil_of_spelled hbase'
    simp [hne]

theorem typeAnnotation?_derives (hinner : inner.DerivesExprs noisy) :
    (typeAnnotation? inner).Derives noisy TypeExpr.annotation := by
  intro s t type h
  simp only [typeAnnotation?, bind_eq_ok, take?_eq_ok] at h
  obtain ⟨_, _, ⟨hcolon, rfl, rfl⟩ | ⟨_, rfl, rfl⟩, h⟩ := h
  · simp only [if_true, bind_eq_ok] at h
    obtain ⟨type, u, htype, h⟩ := h
    cases h
    obtain ⟨tokens, hmore, hderives⟩ := hinner.typeExpr htype
    exact ⟨_, (State.reads_symbol hcolon).trans hmore,
      Phrase.spelled_seq (Phrase.derives_symbol hcolon) hderives⟩
  · cases h
    exact ⟨[], .refl _, rfl⟩

end Rule

end SourceFront
