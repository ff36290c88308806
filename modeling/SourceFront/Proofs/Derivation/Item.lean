import SourceFront.Grammar.Reading
import SourceFront.Proofs.Progress
import SourceFront.Proofs.Derivation.Statement

/-!
What the rules for items read. Only the block of a function may have failed
statements in it; an item that fails is passed over itself.
-/

namespace SourceFront

open State (PassesPhrase)

variable {noisy : Prop}

namespace Rule

variable {s t : State} {level : Level}

theorem typedName_derives (hlevel : level.DerivesExprs noisy) :
    (typedName level).Derives noisy TypedName.phrase := by
  intro s t result h
  simp only [typedName, bind_eq_ok, expect_eq_ok] at h
  obtain ⟨name, u, hname, _, _, ⟨hcolon, rfl, rfl⟩, type, v, htype, h⟩ := h
  cases h
  obtain ⟨nameTokens, hname, hname'⟩ := name_derives hname
  obtain ⟨typeTokens, htype, htype'⟩ := hlevel.typeExpr htype
  refine ⟨_, hname.trans ((State.reads_symbol hcolon).trans htype), ?_⟩
  refine Phrase.spelled_node ?_ ?_
  · exact Phrase.spelled_seq hname'
      (Phrase.spelled_seq (Phrase.derives_symbol hcolon) htype')
  · exact Span.Covers.around _ hname'.covers (Phrase.Derives.typeCovers htype')

theorem prototype_derives (hlevel : level.DerivesExprs noisy) {start : State}
    {name : Name Span} {proto : Prototype Span} {front : List Token}
    (hfront : start.Reads front s) (hname : name.phrase.Derives noisy front)
    (h : prototype level name s = .ok proto t) :
    ∃ tokens, start.Reads tokens t ∧ proto.phrase.Derives noisy tokens := by
  simp only [prototype, bind_eq_ok, expect_eq_ok] at h
  obtain ⟨_, _, ⟨hleft, rfl, rfl⟩, ⟨params, variadic⟩, u, hparams, _, _,
    ⟨hright, rfl, rfl⟩, result, v, hresult, _, _, hspan, h⟩ := h
  cases hspan
  cases h
  obtain ⟨paramTokens, hparams, hparams'⟩ :=
    paramList_derives (typedName_derives hlevel) hparams
  obtain ⟨resultTokens, hresult, hresult'⟩ := resultType_derives hlevel hresult
  have hreads := hfront.trans ((State.reads_symbol hleft).trans
    (hparams.trans ((State.reads_symbol hright).trans hresult)))
  refine ⟨_, hreads, ?_⟩
  refine Phrase.spelled_node ?_ fun ordered => ?_
  · refine Phrase.spelled_seq hname (Phrase.spelled_seq (Phrase.derives_symbol hleft) ?_)
    exact Phrase.spelled_seq hparams'
      (Phrase.spelled_seq (Phrase.derives_symbol hright) hresult')
  · exact (hname.covers (ordered.sublist (List.sublist_append_left _ _))).merge_last
      (List.prefix_append _ _) hreads.toPasses ordered

theorem recordDef_derives (hlevel : level.DerivesExprs noisy) {k : Keyword}
    {record : RecordDef Span} (hk : s.current.kind = .keyword k)
    (h : recordDef level s = .ok record t) :
    ∃ tokens, s.Reads tokens t ∧ (record.phrase k).Derives noisy tokens := by
  simp only [recordDef, advance_bind, bind_eq_ok, expect_eq_ok] at h
  obtain ⟨name, u, hname, _, _, ⟨hleft, rfl, rfl⟩, fields, v, hfields, _, _,
    ⟨hright, rfl, rfl⟩, _, _, hspan, h⟩ := h
  cases hspan
  cases h
  obtain ⟨nameTokens, hname, hname'⟩ := name_derives hname
  obtain ⟨fieldTokens, hfields, hfields'⟩ :=
    commaList_derives (typedName_derives hlevel) _ hfields
  have hreads := (State.reads_keyword hk).trans (hname.trans
    ((State.reads_symbol hleft).trans (hfields.trans (State.reads_symbol hright))))
  refine ⟨_, hreads, derives_node hreads.toPasses (by simp) ?_⟩
  refine Phrase.spelled_seq (Phrase.derives_keyword hk) (Phrase.spelled_seq hname' ?_)
  exact Phrase.spelled_seq (Phrase.derives_symbol hleft)
    (Phrase.spelled_seq hfields' (Phrase.derives_symbol hright))

theorem variant_derives (hlevel : level.DerivesExprs noisy) :
    (variant level).Derives noisy Variant.phrase := by
  intro s t result h
  rw [variant] at h
  obtain ⟨name, u, hname, hrest⟩ := bind_eq_ok.mp h
  obtain ⟨nameTokens, hname, hname'⟩ := name_derives hname
  rw [take?_bind] at hrest
  split at hrest
  next hassign =>
    simp only [if_true, bind_eq_ok, pure_eq_ok] at hrest
    obtain ⟨value, v, hvalue, _, _, ⟨rfl, rfl⟩, _, _, hspan, rfl, rfl⟩ := hrest
    cases hspan
    obtain ⟨valueTokens, hvalue, hvalue'⟩ := freeExpr_derives hlevel hvalue
    have hreads := hname.trans ((State.reads_symbol hassign).trans hvalue)
    refine ⟨_, hreads, Phrase.spelled_node ?_ fun ordered => ?_⟩
    · exact Phrase.spelled_seq hname'
        (Phrase.spelled_seq (Phrase.derives_symbol hassign) hvalue')
    · exact (hname'.covers (ordered.sublist (List.sublist_append_left _ _))).merge_last
        (List.prefix_append _ _) hreads.toPasses ordered
  next =>
    simp only [Bool.false_eq_true, if_false, bind_eq_ok, pure_eq_ok] at hrest
    obtain ⟨_, _, ⟨rfl, rfl⟩, _, _, hspan, rfl, rfl⟩ := hrest
    cases hspan
    refine ⟨_, hname, Phrase.spelled_node ?_ fun ordered => ?_⟩
    · exact ⟨nameTokens, [], by simp, hname', rfl⟩
    · exact (hname'.covers ordered).merge_last List.prefix_rfl hname.toPasses ordered

theorem enumDef_derives (hlevel : level.DerivesExprs noisy) {enum : EnumDef Span}
    (henum : s.current.kind = .keyword .enum) (h : enumDef level s = .ok enum t) :
    ∃ tokens, s.Reads tokens t ∧ enum.phrase.Derives noisy tokens := by
  simp only [enumDef, advance_bind, bind_eq_ok, expect_eq_ok] at h
  obtain ⟨name, u, hname, _, _, ⟨hleft, rfl, rfl⟩, variants, v, hvariants, _, _,
    ⟨hright, rfl, rfl⟩, _, _, hspan, h⟩ := h
  cases hspan
  cases h
  obtain ⟨nameTokens, hname, hname'⟩ := name_derives hname
  obtain ⟨variantTokens, hvariants, hvariants'⟩ :=
    commaList_derives (variant_derives hlevel) _ hvariants
  have hreads := (State.reads_keyword henum).trans (hname.trans
    ((State.reads_symbol hleft).trans (hvariants.trans (State.reads_symbol hright))))
  refine ⟨_, hreads, derives_node hreads.toPasses (by simp) ?_⟩
  refine Phrase.spelled_seq (Phrase.derives_keyword henum) (Phrase.spelled_seq hname' ?_)
  exact Phrase.spelled_seq (Phrase.derives_symbol hleft)
    (Phrase.spelled_seq hvariants' (Phrase.derives_symbol hright))

theorem import_derives {source : Import Span}
    (himport : s.current.kind = .keyword .import_) (h : import_ s = .ok source t) :
    ∃ tokens, s.Reads tokens t ∧ source.phrase.Derives noisy tokens := by
  simp only [import_, advance_bind, current_bind] at h
  obtain ⟨kind, hkind⟩ : ∃ kind, s.advance.current.kind = kind := ⟨_, rfl⟩
  cases kind with
  | string path =>
      simp only [hkind] at h
      cases h
      have hpath := State.reads_advance (s := s.advance) (by simp [hkind])
      refine ⟨_, (State.reads_keyword himport).trans hpath, Phrase.spelled_node ?_ ?_⟩
      · exact Phrase.spelled_seq (Phrase.derives_keyword himport)
          (Phrase.spelled_terminal (by simp [Orthography.located, Token.terminal?, hkind]))
      · exact Span.Covers.around [] (fun _ => .singleton _) (fun _ => .singleton _)
  | _ => simp only [hkind, failExpecting_apply, reduceCtorEq] at h

theorem constantDef_derives (hlevel : level.DerivesExprs noisy)
    {constant : ConstantDef Span} (hconst : s.current.kind = .keyword .const)
    (h : constantDef level s = .ok constant t) :
    ∃ tokens, s.Reads tokens t ∧ constant.phrase.Derives noisy tokens := by
  rw [constantDef, advance_bind] at h
  obtain ⟨name, u, hname, htype⟩ := bind_eq_ok.mp h
  obtain ⟨type, v, hannotation, hexpect⟩ := bind_eq_ok.mp htype
  obtain ⟨_, _, hsymbol, hrest⟩ := bind_eq_ok.mp hexpect
  obtain ⟨hassign, rfl, rfl⟩ := expect_eq_ok.mp hsymbol
  obtain ⟨nameTokens, hname, hname'⟩ := name_derives hname
  obtain ⟨typeTokens, htype', hannotation⟩ := typeAnnotation?_derives hlevel hannotation
  have hclose {w : State} {tokens : List Token} {value : ConstantValue Span}
      (hreads : v.Reads tokens w)
      (hvalue : value.phrase.Derives noisy (typeTokens ++ tokens))
      (hsemicolon : w.current.kind = .symbol .semicolon) :
      ∃ tokens, s.Reads tokens w.advance ∧ (ConstantDef.mk name value
        (s.current.span.merge w.advance.last)).phrase.Derives noisy tokens := by
    have hreads' := (State.reads_keyword hconst).trans (hname.trans
      ((htype'.trans hreads).trans (State.reads_symbol hsemicolon)))
    refine ⟨_, hreads', derives_node hreads'.toPasses (by simp) ?_⟩
    exact Phrase.spelled_seq (Phrase.derives_keyword hconst) (Phrase.spelled_seq hname'
      (Phrase.spelled_seq hvalue (Phrase.derives_symbol hsemicolon)))
  simp only [isAt_bind, Bool.and_eq_true, decide_eq_true_eq] at hrest
  split at hrest
  next himport =>
    obtain rfl : type = none := Option.isNone_iff_eq_none.mp himport.1
    simp only [bind_eq_ok, pure_eq_ok, expect_eq_ok] at hrest
    obtain ⟨source, w, hsource, _, _, ⟨rfl, rfl⟩, _, _, ⟨hsemicolon, rfl, rfl⟩, _, _, hspan,
      rfl, rfl⟩ := hrest
    cases hspan
    obtain ⟨tokens, hsource, hsource'⟩ := import_derives himport.2 hsource
    obtain rfl : typeTokens = [] := hannotation
    refine hclose ((State.reads_symbol hassign).trans hsource) ?_ hsemicolon
    rw [List.nil_append]
    exact Phrase.spelled_seq (Phrase.derives_symbol hassign) hsource'
  next =>
    simp only [bind_eq_ok, pure_eq_ok, expect_eq_ok] at hrest
    obtain ⟨value, w, hvalue, _, _, ⟨rfl, rfl⟩, _, _, ⟨hsemicolon, rfl, rfl⟩, _, _, hspan,
      rfl, rfl⟩ := hrest
    cases hspan
    obtain ⟨tokens, hvalue, hvalue'⟩ := freeExpr_derives hlevel hvalue
    exact hclose ((State.reads_symbol hassign).trans hvalue)
      (Phrase.spelled_seq hannotation
        (Phrase.spelled_seq (Phrase.derives_symbol hassign) hvalue')) hsemicolon

theorem optional_semicolon_derives {α : Type} {value value' : α}
    (h : (take? (.symbol .semicolon) >>= fun _ => pure value) s = .ok value' t) :
    value' = value ∧ ∃ tokens, s.Reads tokens t ∧
      (Phrase.either [.symbol .semicolon] []).Derives noisy tokens := by
  rw [take?_bind] at h
  split at h
  next hsemicolon =>
    cases h
    exact ⟨rfl, _, State.reads_symbol hsemicolon,
      .inl (.cons (by simp [Orthography.located, Token.terminal?, hsemicolon]) .nil)⟩
  next =>
    cases h
    exact ⟨rfl, [], .refl _, .inr .nil⟩

theorem external_derives (hlevel : level.DerivesExprs noisy) {result : Definition Span}
    (hexternal : s.current.kind = .keyword .external) (h : external level s = .ok result t) :
    ∃ tokens, s.Reads tokens t ∧ result.phrase.Derives noisy tokens := by
  rw [external, advance_bind] at h
  obtain ⟨marked, u, htake, hnamed⟩ := bind_eq_ok.mp h
  obtain ⟨name, v, hname, hkind⟩ := bind_eq_ok.mp hnamed
  obtain ⟨nameTokens, hname, hname'⟩ := name_derives hname
  have hstart := State.reads_keyword hexternal
  simp only [isAt_bind] at hkind
  split at hkind
  next =>
    obtain ⟨proto, w, hproto, hrest⟩ := bind_eq_ok.mp hkind
    obtain ⟨rfl, semicolonTokens, hsemicolon, hsemicolon'⟩ := optional_semicolon_derives hrest
    obtain ⟨protoTokens, hproto, hproto'⟩ := prototype_derives hlevel hname hname' hproto
    rcases take?_eq_ok.mp htake with ⟨hfn, rfl, rfl⟩ | ⟨_, rfl, rfl⟩
    · refine ⟨_, hstart.trans ((State.reads_keyword hfn).trans (hproto.trans hsemicolon)), ?_⟩
      refine Phrase.spelled_seq (Phrase.derives_keyword hexternal) (Phrase.spelled_seq ?_
        (Phrase.spelled_seq hproto' hsemicolon'))
      exact .inl (.cons (by simp [Orthography.located, Token.terminal?, hfn]) .nil)
    · refine ⟨_, hstart.trans (hproto.trans hsemicolon), ?_⟩
      refine Phrase.spelled_seq (Phrase.derives_keyword hexternal) ?_
      exact ⟨[], _, rfl, .inr .nil, Phrase.spelled_seq hproto' hsemicolon'⟩
  next hplain =>
    rw [take?_bind] at hkind
    split at hkind
    next hcolon =>
      rw [if_pos rfl] at hkind
      obtain ⟨type, w, htype, hnote⟩ := bind_eq_ok.mp hkind
      obtain ⟨_, _, hspan, hrest⟩ := bind_eq_ok.mp hnote
      cases hspan
      obtain ⟨rfl, semicolonTokens, hsemicolon, hsemicolon'⟩ :=
        optional_semicolon_derives hrest
      obtain ⟨typeTokens, htype, htype'⟩ := hlevel.typeExpr htype
      obtain ⟨_, rfl, rfl⟩ | ⟨_, rfl, rfl⟩ := take?_eq_ok.mp htake
      · simp at hplain
      have hreads := hstart.trans (hname.trans ((State.reads_symbol hcolon).trans htype))
      refine ⟨_, hreads.trans hsemicolon, Phrase.spelled_seq ?_ hsemicolon'⟩
      refine derives_node hreads.toPasses (by simp) ?_
      exact Phrase.spelled_seq (Phrase.derives_keyword hexternal) (Phrase.spelled_seq hname'
        (Phrase.spelled_seq (Phrase.derives_symbol hcolon) htype'))
    next => cases hkind

theorem function_derives (hlevel : level.DerivesStmts noisy) {result : FunctionDef Span}
    (hfn : s.current.kind = .keyword .fn) (h : function level s = .ok result t)
    (hnoisy : t.problems ≠ [] → noisy) : s.PassesPhrase noisy result.phrase t := by
  simp only [function, advance_bind, bind_eq_ok] at h
  obtain ⟨name, u, hname, proto, v, hproto, body, w, hbody, h⟩ := h
  cases h
  obtain ⟨nameTokens, hname, hname'⟩ := name_derives hname
  obtain ⟨protoTokens, hproto, hproto'⟩ := prototype_derives hlevel.exprs hname hname' hproto
  obtain ⟨bodyTokens, hbody, hbody'⟩ := hlevel.block hbody hnoisy
  refine ⟨_, (State.reads_keyword hfn).toPasses.trans (hproto.toPasses.trans hbody), ?_⟩
  refine Phrase.spelled_node ?_ ?_
  · exact Phrase.spelled_seq (Phrase.derives_keyword hfn)
      (Phrase.spelled_seq hproto' hbody')
  · exact Span.Covers.around _ (fun _ => .singleton _) (covers_of_block hbody')

theorem definition_derives (hlevel : level.DerivesStmts noisy) {result : Definition Span}
    (h : definition level s = .ok result t) (hnoisy : t.problems ≠ [] → noisy) :
    s.PassesPhrase noisy result.phrase t := by
  simp only [definition, current_bind] at h
  obtain ⟨kind, hkind⟩ : ∃ kind, s.current.kind = kind := ⟨_, rfl⟩
  cases kind with
  | keyword k =>
      cases k <;> simp only [hkind, failExpecting_apply, reduceCtorEq] at h
      case fn =>
        obtain ⟨function, _, hfunction, hrest⟩ := bind_eq_ok.mp h
        cases hrest
        exact function_derives hlevel hkind hfunction hnoisy
      case struct =>
        obtain ⟨record, _, hrecord, hrest⟩ := bind_eq_ok.mp h
        cases hrest
        exact .of_reads (recordDef_derives hlevel.exprs hkind hrecord)
      case union =>
        obtain ⟨record, _, hrecord, hrest⟩ := bind_eq_ok.mp h
        cases hrest
        exact .of_reads (recordDef_derives hlevel.exprs hkind hrecord)
      case enum =>
        obtain ⟨enum, _, henum, hrest⟩ := bind_eq_ok.mp h
        cases hrest
        exact .of_reads (enumDef_derives hlevel.exprs hkind henum)
      case external => exact .of_reads (external_derives hlevel.exprs hkind h)
      case const =>
        obtain ⟨constant, _, hconstant, hrest⟩ := bind_eq_ok.mp h
        cases hrest
        exact .of_reads (constantDef_derives hlevel.exprs hkind hconstant)
      case let_ =>
        obtain ⟨binding, _, hbinding, hrest⟩ := bind_eq_ok.mp h
        cases hrest
        exact .of_reads (binding_derives hlevel.exprs hkind hbinding)
  | _ => simp only [hkind, failExpecting_apply, reduceCtorEq] at h

theorem definition_ne_nil {result : Definition Span} {tokens : List Token}
    (h : result.phrase.Derives noisy tokens) : tokens ≠ [] := by
  cases result with
  | externalFunction proto =>
      obtain ⟨_, _, rfl, ⟨_, rfl, _⟩, _⟩ := h
      simp
  | externalVariable typed =>
      obtain ⟨_, _, rfl, ⟨⟨_, _, rfl, ⟨_, rfl, _⟩, _⟩, _⟩, _⟩ := h
      simp
  | _ =>
      obtain ⟨⟨_, _, rfl, ⟨_, rfl, _⟩, _⟩, _⟩ := h
      simp

theorem declaration_derives (hlevel : level.DerivesStmts noisy) {decl : Declaration Span}
    (h : declaration level s = .ok decl t) (hnoisy : t.problems ≠ [] → noisy) :
    s.PassesPhrase noisy decl.phrase t := by
  rw [declaration, current_bind, take?_bind] at h
  split at h
  next hpub =>
    simp only [bind_eq_ok] at h
    obtain ⟨definition, u, hdefinition, _, _, hspan, h⟩ := h
    cases hspan
    cases h
    obtain ⟨tokens, hdefinition, hdefinition'⟩ := definition_derives hlevel hdefinition hnoisy
    have hpasses := (State.reads_keyword hpub).toPasses.trans hdefinition
    refine ⟨_, hpasses, derives_node hpasses (by simp) ?_⟩
    exact Phrase.spelled_seq (Phrase.derives_keyword hpub) hdefinition'
  next =>
    simp only [bind_eq_ok] at h
    obtain ⟨definition, u, hdefinition, _, _, hspan, h⟩ := h
    cases hspan
    cases h
    obtain ⟨tokens, hpasses, hdefinition'⟩ := definition_derives hlevel hdefinition hnoisy
    refine ⟨_, hpasses, derives_node hpasses (definition_ne_nil hdefinition') ?_⟩
    exact ⟨[], tokens, rfl, rfl, hdefinition'⟩

theorem item_derives (hlevel : level.DerivesStmts noisy) {result : Item Span}
    (h : item level s = .ok result t) (hnoisy : t.problems ≠ [] → noisy) :
    s.PassesPhrase noisy result.phrase t := by
  simp only [item, isAt_bind, decide_eq_true_eq] at h
  split at h
  next himport =>
    simp only [bind_eq_ok, expect_eq_ok] at h
    obtain ⟨source, u, hsource, _, _, ⟨hsemicolon, rfl, rfl⟩, _, _, hspan, h⟩ := h
    cases hspan
    cases h
    have hderives : ∃ tokens, s.Reads tokens u ∧ source.phrase.Derives noisy tokens :=
      import_derives himport hsource
    obtain ⟨tokens, hsource, hsource'⟩ := hderives
    have hpasses := (hsource.trans (State.reads_symbol hsemicolon)).toPasses
    refine ⟨_, hpasses, Phrase.spelled_node ?_ fun ordered => ?_⟩
    · obtain ⟨⟨front, back, rfl, himport', hpath⟩, _⟩ := hsource'
      rw [List.append_assoc]
      exact Phrase.spelled_seq himport'
        (Phrase.spelled_seq hpath (Phrase.derives_symbol hsemicolon))
    · exact (hsource'.covers (ordered.sublist (List.sublist_append_left _ _))).merge_last
        (List.prefix_append _ _) hpasses ordered
  next =>
    obtain ⟨decl, _, hdecl, hrest⟩ := bind_eq_ok.mp h
    cases hrest
    exact declaration_derives hlevel hdecl hnoisy

theorem moduleRound_cases {read : List (Item Span)} {round : Round (List (Item Span))}
    (h : moduleRound level read s = .ok round t) :
    (round = .last read ∧ t = s) ∨ ∃ item?,
      recover (item level) State.skipItem s = .ok item? t ∧
        round = .more (read ++ item?.toList) := by
  simp only [moduleRound, current_bind] at h
  split at h
  · cases h
    exact .inl ⟨rfl, rfl⟩
  · obtain ⟨item?, _, hitem, hrest⟩ := bind_eq_ok.mp h
    cases hrest
    exact .inr ⟨item?, hitem, rfl⟩

theorem items_derives (hlevel : level.DerivesStmts noisy) {read : List (Item Span)}
    (h : items level s = .ok read t) (hnoisy : t.problems ≠ [] → noisy) :
    s.PassesPhrase noisy (Phrase.gapped (read.map Item.phrase)) t :=
  iterate_recover_derives moduleRound_cases
    (fun hitem => recover_derives (item_framed hlevel.framed) (item_derives hlevel)
      (State.skipItem_resumption.passes _) (fun _ => State.skipItem_invalid _) hitem) h hnoisy

end Rule

/-- The tokens from the state to the end are those of the items in it, with gaps
where items were left out. -/
theorem Reading.readModule_derives {reading after : Reading} {module : Module Span}
    (h : reading.readModule = (module, after))
    (hnoisy : after.state.problems ≠ [] → noisy) :
    (∃ tokens, reading.state.Passes tokens after.state ∧
        module.phrase.Derives noisy tokens) ∧
      after.state.current.isEof = true := by
  rw [readModule] at h
  cases hitems : Rule.items .outermost reading.state with
  | error problem t => exact absurd hitems (Rule.items_ne_error _ _ _ _)
  | ok read t =>
      simp only [hitems, Prod.mk.injEq] at h
      obtain ⟨rfl, rfl⟩ := h
      exact ⟨Rule.items_derives (Level.allowing_derivesStmts _) hitems hnoisy,
        Rule.items_end (Level.allowing_consuming _) hitems⟩

end SourceFront
