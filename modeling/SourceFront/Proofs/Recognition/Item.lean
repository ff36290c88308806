import SourceFront.Proofs.Recognition.Block

/-!
The items that are written are those that are read.
-/

namespace SourceFront

/-- Whether a token of the kind may follow an item, however the item is written. -/
def TokenKind.followsItem : TokenKind → Bool
  | .keyword _ | .eof => true
  | _ => false

theorem TokenKind.endsType_of_followsItem {kind : TokenKind} (h : kind.followsItem = true) :
    kind.endsType = true ∧ kind ≠ .symbol .semicolon := by
  cases kind <;> first | exact ⟨rfl, by simp⟩ | cases h

variable {α : Type} {s t : State}

theorem Definition.between_kind {definition : Definition α} (h : definition.phrase.Between s t) :
    ∃ k, s.current.kind = .keyword k ∧ k ≠ .pub ∧ k ≠ .import_ := by
  cases definition with
  | externalVariable typed =>
      obtain ⟨_, h, -⟩ := h
      exact ⟨_, Rule.keyword_kind h, by decide, by decide⟩
  | _ => exact ⟨_, Rule.keyword_kind h, by decide, by decide⟩

theorem Item.between_kind {item : Item α} (h : item.phrase.Between s t) :
    ∃ k, s.current.kind = .keyword k := by
  cases item with
  | import_ source => exact ⟨_, Rule.keyword_kind h⟩
  | declaration decl =>
      obtain ⟨isPublic, definition, note⟩ := decl
      obtain ⟨_, hpub, hdefinition⟩ := h
      cases isPublic with
      | false =>
          obtain ⟨rfl, -⟩ := hpub
          obtain ⟨k, hkind, -⟩ := Definition.between_kind hdefinition
          exact ⟨k, hkind⟩
      | true => exact ⟨_, State.Spells.kind hpub⟩

theorem Definition.isSolid_phrase (definition : Definition α) :
    definition.phrase.isSolid = true := by
  cases definition with
  | function def_ => simp [phrase, FunctionDef.phrase]
  | struct def_ | union def_ => simp [phrase, RecordDef.phrase]
  | enum def_ => simp [phrase, EnumDef.phrase]
  | constant def_ => simp [phrase, ConstantDef.phrase]
  | variable_ binding => simp [phrase, Binding.phrase]
  | _ => simp [phrase]

theorem Item.isSolid_phrase (item : Item α) : item.phrase.isSolid = true := by
  cases item with
  | import_ source => simp [phrase]
  | declaration decl => simp [phrase, Declaration.phrase, Definition.isSolid_phrase]

namespace Rule

variable {n : Nat} {level : Level} {u v w : State}

theorem import_gives {source : Import α}
    (hspells : s.Spells [.keyword .import_, .string source.path] t) :
    Gives False True (fun value => value.map forget = source.map forget) import_ s t := by
  obtain ⟨-, hpath, rfl, -⟩ := hspells
  have hkind : s.advance.current.kind = .string source.path := Token.kind_of_terminal? hpath
  refine .advance (.current ?_)
  simp only [hkind]
  exact .advance (.pure rfl)

theorem take?_of_optional
    (hspells : (Phrase.either [.symbol .semicolon] [] : Phrase α).Between s t)
    (hend : t.current.kind ≠ .symbol .semicolon) :
    ∃ taken, take? (.symbol .semicolon) s = .ok taken t := by
  rcases hspells with ⟨hsemicolon, rfl, -⟩ | ⟨rfl, -⟩
  · exact ⟨true, take?_eq_ok.mpr (.inl ⟨Token.kind_of_terminal? hsemicolon, rfl, rfl⟩)⟩
  · exact ⟨false, take?_eq_ok.mpr (.inr ⟨hend, rfl, rfl⟩)⟩

theorem endsType_of_optional
    (hspells : (Phrase.either [.symbol .semicolon] [] : Phrase α).Between s t)
    (hend : t.current.kind.endsType = true) : s.current.kind.endsType = true := by
  rcases hspells with ⟨hsemicolon, -, -⟩ | ⟨rfl, -⟩
  · rw [Token.kind_of_terminal? hsemicolon]
    rfl
  · exact hend

section

variable (hlevel : level.Recognises α n)
include hlevel

theorem typedName_gives {typed : TypedName α} (hspells : typed.phrase.Between s t)
    (hend : t.current.kind.endsType = true) :
    Gives False (typed.phrase.nesting ≤ n) (fun value => value.map forget = typed.map forget)
      (typedName level) s t := by
  obtain ⟨_, ⟨hname, rfl, -⟩, _, ⟨hcolon, rfl, -⟩, htype⟩ := hspells
  replace htype : typed.type.phrase.Between s.advance.advance t := htype
  refine .imp (.name (Token.kind_of_terminal? hname) (.expect (Token.kind_of_terminal? hcolon)
    (.finish (hlevel.typeExpr htype hend) fun type hvalue => .pure ?_))) ?_
    fun _ hgood => hgood
  · simp [TypedName.map, Name.map, forget, hvalue]
  · simp [TypedName.phrase, Name.phrase]

theorem typedName_readsElement (typed : TypedName α) {close : Symbol}
    (hclose : (TokenKind.symbol close).endsType = true) :
    ReadsElement n close (typedName level) typed.phrase
      fun value => value.map forget = typed.map forget where
  gives hspells hend := by
    refine typedName_gives hlevel hspells ?_
    rcases hend with hkind | hkind
    · rw [hkind]
      rfl
    · rw [hkind]
      exact hclose
  head := by
    rintro s t ⟨_, hname, -⟩
    exact ⟨_, State.Spells.kind hname, by simp, by simp⟩

theorem prototype_gives {name : Name Span} {proto : Prototype α}
    (hname : name.map forget = proto.name.map forget) (hopen : s.Spells [.symbol .leftParen] u)
    (hparams : (Phrase.params (proto.params.map TypedName.phrase) proto.variadic).Between u v)
    (hclose : v.Spells [.symbol .rightParen] w)
    (hresult : (TypeExpr.resultPhrase proto.result).Between w t)
    (hend : t.current.kind.endsType = true) :
    Gives False (proto.phrase.nesting ≤ n) (fun value => value.map forget = proto.map forget)
      (prototype level name) s t := by
  have hcolon : t.current.kind ≠ .symbol .colon := by
    intro hkind
    rw [hkind] at hend
    cases hend
  have hopen' := hopen.kind
  have hclose' := hclose.kind
  obtain ⟨-, rfl, -⟩ := hopen
  obtain ⟨-, rfl, -⟩ := hclose
  have hparams := paramList_gives
    (fun param _ => typedName_readsElement hlevel param rfl) hparams hclose'
  have hresult := resultType_gives hlevel hresult hcolon fun _ => hend
  refine .imp (.expect hopen' (.bind hparams fun read hread => .expect hclose'
    (.finish hresult fun result hresult' => .spanFrom (.pure ?_)))) ?_ fun _ hgood => hgood
  · simp [Prototype.map, hname, hread, hresult']
  · simp [Prototype.phrase, Name.phrase]

theorem recordDef_gives {record : RecordDef α} {k : Keyword}
    (hspells : (record.phrase k).Between s t) :
    Gives False ((record.phrase k).nesting ≤ n)
      (fun value => value.map forget = record.map forget) (recordDef level) s t := by
  obtain ⟨_, ⟨-, rfl, -⟩, _, ⟨hname, rfl, -⟩, _, ⟨hopen, rfl, -⟩, u, hfields, hclose⟩ := hspells
  have hclose' := State.Spells.kind hclose
  obtain ⟨-, rfl, -⟩ := hclose
  have hgives := commaList_gives (by decide)
    (fun field _ => typedName_readsElement hlevel field rfl) hfields hclose'
  refine .imp (.advance (.name (Token.kind_of_terminal? hname)
    (.expect (Token.kind_of_terminal? hopen) (.finish hgives fun fields hfields' =>
      .expect hclose' (.spanFrom (.pure ?_)))))) ?_ fun _ hgood => hgood
  · simp [RecordDef.map, Name.map, forget, hfields']
  · simp [RecordDef.phrase, Name.phrase]

theorem variant_gives {variant : Variant α} (hspells : variant.phrase.Between s t)
    (hend : t.current.kind = .symbol .comma ∨ t.current.kind = .symbol .rightBrace) :
    Gives False (variant.phrase.nesting ≤ n)
      (fun value => value.map forget = variant.map forget) (Rule.variant level) s t := by
  obtain ⟨name, value, note⟩ := variant
  obtain ⟨_, ⟨hname, rfl, -⟩, hvalue⟩ := hspells
  have hkind := Token.kind_of_terminal? hname
  unfold Rule.variant
  cases value with
  | none =>
      obtain ⟨rfl, -⟩ := hvalue
      have hassign : s.advance.current.kind ≠ .symbol .assign := by
        rcases hend with hend | hend <;> simp [hend]
      refine .imp (.name hkind (.unlessTaken hassign (.step rfl (.spanFrom (.pure ?_))))) ?_
        fun _ hgood => hgood
      · simp [Variant.map, Name.map, forget]
      · simp [Variant.phrase, Name.phrase]
  | some value =>
      obtain ⟨_, ⟨hassign, rfl, -⟩, hvalue⟩ := hvalue
      have hend' : t.current.kind.endsExpr .free 0 = true := by
        rcases hend with hend | hend <;> rw [hend] <;> rfl
      have hgives := hlevel.expr (Nat.zero_le _) hvalue hend'
      refine .imp (.name hkind (.whenTaken (Token.kind_of_terminal? hassign) (.finish hgives
        fun value' hvalue' => .step rfl (.spanFrom (.pure ?_))))) ?_ fun _ hgood => hgood
      · simp [Variant.map, Name.map, forget, hvalue']
      · simp [Variant.phrase, Name.phrase, Expr.whole]

theorem enumDef_gives {enum : EnumDef α} (hspells : enum.phrase.Between s t) :
    Gives False (enum.phrase.nesting ≤ n) (fun value => value.map forget = enum.map forget)
      (enumDef level) s t := by
  obtain ⟨_, ⟨-, rfl, -⟩, _, ⟨hname, rfl, -⟩, _, ⟨hopen, rfl, -⟩, u, hvariants, hclose⟩ :=
    hspells
  have hclose' := State.Spells.kind hclose
  obtain ⟨-, rfl, -⟩ := hclose
  have helement (variant : Variant α) :
      ReadsElement n .rightBrace (Rule.variant level) variant.phrase
        fun value => value.map forget = variant.map forget := by
    refine ⟨variant_gives hlevel, ?_⟩
    rintro s t ⟨_, hname, -⟩
    exact ⟨_, State.Spells.kind hname, by simp, by simp⟩
  have hgives := commaList_gives (by decide) (fun variant _ => helement variant) hvariants hclose'
  refine .imp (.advance (.name (Token.kind_of_terminal? hname)
    (.expect (Token.kind_of_terminal? hopen) (.finish hgives fun variants hvariants' =>
      .expect hclose' (.spanFrom (.pure ?_)))))) ?_ fun _ hgood => hgood
  · simp [EnumDef.map, Name.map, forget, hvariants']
  · simp [EnumDef.phrase, Name.phrase]

theorem constantDef_gives {constant : ConstantDef α} (hspells : constant.phrase.Between s t) :
    Gives False (constant.phrase.nesting ≤ n)
      (fun value => value.map forget = constant.map forget) (constantDef level) s t := by
  obtain ⟨name, value, note⟩ := constant
  have hat (u : State) : isAt (.keyword .import_) u =
      .ok (decide (u.current.kind = .keyword .import_)) u := rfl
  unfold constantDef
  obtain ⟨_, ⟨-, rfl, -⟩, _, ⟨hname, rfl, -⟩, w, hvalue, hsemicolon⟩ := hspells
  have hsemicolon' := State.Spells.kind hsemicolon
  cases value with
  | expr type value =>
      obtain ⟨u, htype, _, ⟨hassign, rfl, -⟩, hvalue⟩ := hvalue
      have hassign' := Token.kind_of_terminal? hassign
      obtain ⟨a, hkind, hbegins, -⟩ := value.between_kind hvalue
      have himport : ¬ u.advance.current.kind = .keyword .import_ := by
        rw [hkind]
        rintro himport
        cases a <;> cases himport
        cases hbegins
      have htype := typeAnnotation?_gives hlevel htype (by rw [hassign']; rfl)
      have hvalue := freeExpr_gives hlevel hvalue hsemicolon rfl
      obtain ⟨-, rfl, -⟩ := hsemicolon
      refine .imp (.advance (.name (Token.kind_of_terminal? hname) (.bind htype
        fun type' htype' => .expect hassign' (.step (hat _) (.ifNeg (by simp [himport])
          (.finish hvalue fun value' hvalue' => .step rfl (.expect hsemicolon'
            (.spanFrom (.pure ?_))))))))) ?_ fun _ hgood => hgood
      · simp [ConstantDef.map, ConstantValue.map, Name.map, forget, htype', hvalue']
      · simp [ConstantDef.phrase, ConstantValue.phrase, Name.phrase]
  | import_ source =>
      obtain ⟨_, ⟨hassign, rfl, -⟩, _, himport, hpath⟩ := hvalue
      have hassign' := Token.kind_of_terminal? hassign
      have himport' := State.Spells.kind himport
      have hsource := import_gives (State.Spells.trans himport hpath)
      obtain ⟨-, rfl, -⟩ := hsemicolon
      have hcolon : s.advance.advance.current.kind ≠ .symbol .colon := by
        simp [hassign', Terminal.kind]
      have htype : typeAnnotation? level s.advance.advance = .ok none s.advance.advance := by
        rw [typeAnnotation?, take?_bind, if_neg hcolon]
        rfl
      refine .imp (.advance (.name (Token.kind_of_terminal? hname) (.step htype
        (.expect hassign' (.step (hat _) (.ifPos (by simp [himport', Terminal.kind])
          (.finish hsource fun source' hsource' => .step rfl
            (.expect hsemicolon' (.spanFrom (.pure ?_)))))))))) ?_ fun _ hgood => hgood
      · simp [ConstantDef.map, ConstantValue.map, Name.map, forget, hsource']
      · simp [ConstantDef.phrase, ConstantValue.phrase, Import.phrase, Name.phrase]

theorem externalFunction_gives {proto : Prototype α}
    (hspells : (Definition.externalFunction proto).phrase.Between s t)
    (hend : t.current.kind.followsItem = true) :
    Gives False (proto.phrase.nesting ≤ n)
      (fun value => value.map forget = (Definition.externalFunction proto).map forget)
      (external level) s t := by
  obtain ⟨_, ⟨-, rfl, -⟩, w, hfn, u, hproto, hoptional⟩ := hspells
  obtain ⟨_, ⟨hname, rfl, -⟩, _, hopen, _, hparams, _, hclose, hresult⟩ := hproto
  obtain ⟨hendsType, hsemicolon⟩ := TokenKind.endsType_of_followsItem hend
  have hsame : (⟨proto.name.text, w.current.span⟩ : Name Span).map forget =
      proto.name.map forget := rfl
  have hname' := Token.kind_of_terminal? hname
  have hopen' : w.advance.current.kind = .symbol .leftParen := State.Spells.kind hopen
  have hproto := prototype_gives hlevel hsame hopen hparams hclose hresult
    (endsType_of_optional hoptional hendsType)
  obtain ⟨taken, htaken⟩ := take?_of_optional hoptional hsemicolon
  obtain ⟨marked, hmarked⟩ : ∃ marked, take? (.keyword .fn) s.advance = .ok marked w := by
    rcases hfn with ⟨hfn, rfl, -⟩ | ⟨rfl, -⟩
    · exact ⟨true, take?_eq_ok.mpr (.inl ⟨Token.kind_of_terminal? hfn, rfl, rfl⟩)⟩
    · exact ⟨false, take?_eq_ok.mpr (.inr ⟨by simp [hname', Terminal.kind], rfl, rfl⟩)⟩
  have hat : isAt (.symbol .leftParen) w.advance = .ok true w.advance := by
    simp [isAt, current_bind, pure_apply, hopen']
  unfold external
  refine .advance (.step hmarked (.name hname' (.step hat
    (.ifPos (by simp) (.finish hproto fun value hvalue => .step rfl (.step htaken
      (.pure ?_)))))))
  simp [Definition.map, hvalue]

theorem externalVariable_gives {typed : TypedName α}
    (hspells : (Definition.externalVariable typed).phrase.Between s t)
    (hend : t.current.kind.followsItem = true) :
    Gives False (typed.phrase.nesting ≤ n)
      (fun value => value.map forget = (Definition.externalVariable typed).map forget)
      (external level) s t := by
  obtain ⟨u, ⟨_, ⟨-, rfl, -⟩, _, ⟨hname, rfl, -⟩, _, ⟨hcolon, rfl, -⟩, htype⟩, hoptional⟩ :=
    hspells
  obtain ⟨hendsType, hsemicolon⟩ := TokenKind.endsType_of_followsItem hend
  have hname' := Token.kind_of_terminal? hname
  have hcolon' := Token.kind_of_terminal? hcolon
  have hgives := hlevel.typeExpr htype (endsType_of_optional hoptional hendsType)
  have hfn : take? (.keyword .fn) s.advance = .ok false s.advance :=
    take?_eq_ok.mpr (.inr ⟨by simp [hname', Terminal.kind], rfl, rfl⟩)
  obtain ⟨taken, htaken⟩ := take?_of_optional hoptional hsemicolon
  unfold external
  refine .imp (.advance (.step hfn (.name hname' (.step rfl (.ifNeg (by simp [hcolon',
    Terminal.kind]) (.whenTaken hcolon' (.finish hgives fun value hvalue => .spanFrom
      (.step rfl (.step htaken (.pure ?_)))))))))) ?_ fun _ hgood => hgood
  · simp [Definition.map, TypedName.map, Name.map, forget, hvalue]
  · simp [TypedName.phrase, Name.phrase]

theorem function_gives {function : FunctionDef α} (hspells : function.phrase.Between s t) :
    Gives True (function.phrase.nesting ≤ n)
      (fun value => value.map forget = function.map forget) (Rule.function level) s t := by
  obtain ⟨proto, body, note⟩ := function
  obtain ⟨_, ⟨-, rfl, -⟩, u, hproto, hbody⟩ := hspells
  replace hbody : body.phrase.Between u t := hbody
  obtain ⟨_, ⟨hname, rfl, -⟩, _, hopen, _, hparams, _, hclose, hresult⟩ := hproto
  have hsame : (⟨proto.name.text, s.advance.current.span⟩ : Name Span).map forget =
      proto.name.map forget := rfl
  have hproto := prototype_gives hlevel hsame hopen hparams hclose hresult
    (by rw [block_kind hbody]; rfl)
  refine .imp (.advance (.name (Token.kind_of_terminal? hname) (.bind hproto
    fun proto' hproto' => .finishLoose (hlevel.block hbody) (fun _ => .pure _)
      fun body' hbody' => .pure ?_))) ?_ fun _ hgood => hgood
  · simp [FunctionDef.map, hproto', hbody']
  · simp [FunctionDef.phrase]

theorem definition_gives {definition : Definition α} (hspells : definition.phrase.Between s t)
    (hend : t.current.kind.followsItem = true) :
    Gives True (definition.phrase.nesting ≤ n)
      (fun value => value.map forget = definition.map forget) (Rule.definition level) s t := by
  refine .current ?_
  cases definition with
  | function def_ =>
      have hkind : s.current.kind = .keyword .fn := keyword_kind hspells
      simp only [hkind]
      refine .finishLoose (function_gives hlevel hspells) (fun _ => .pure _)
        fun value hvalue => .pure ?_
      simp [Definition.map, hvalue]
  | struct def_ =>
      have hkind : s.current.kind = .keyword .struct := keyword_kind hspells
      simp only [hkind]
      refine .finish (recordDef_gives hlevel hspells) fun value hvalue => .pure ?_
      simp [Definition.map, hvalue]
  | union def_ =>
      have hkind : s.current.kind = .keyword .union := keyword_kind hspells
      simp only [hkind]
      refine .finish (recordDef_gives hlevel hspells) fun value hvalue => .pure ?_
      simp [Definition.map, hvalue]
  | enum def_ =>
      have hkind : s.current.kind = .keyword .enum := keyword_kind hspells
      simp only [hkind]
      refine .finish (enumDef_gives hlevel hspells) fun value hvalue => .pure ?_
      simp [Definition.map, hvalue]
  | externalFunction proto =>
      have hkind : s.current.kind = .keyword .external := keyword_kind hspells
      simp only [hkind]
      refine (externalFunction_gives hlevel hspells hend).loosen.imp ?_ fun _ hgood => hgood
      simp [Definition.phrase]
  | externalVariable typed =>
      have hkind : s.current.kind = .keyword .external := by
        obtain ⟨_, hspells, -⟩ := hspells
        exact keyword_kind hspells
      simp only [hkind]
      refine (externalVariable_gives hlevel hspells hend).loosen.imp ?_ fun _ hgood => hgood
      simp [Definition.phrase, TypedName.phrase, Name.phrase]
  | constant def_ =>
      have hkind : s.current.kind = .keyword .const := keyword_kind hspells
      simp only [hkind]
      refine .finish (constantDef_gives hlevel hspells) fun value hvalue => .pure ?_
      simp [Definition.map, hvalue]
  | variable_ binding =>
      have hkind : s.current.kind = .keyword .let_ := keyword_kind hspells
      simp only [hkind]
      refine .finish (binding_gives hlevel hspells) fun value hvalue => .pure ?_
      simp [Definition.map, hvalue]

theorem declaration_gives {decl : Declaration α} (hspells : decl.phrase.Between s t)
    (hend : t.current.kind.followsItem = true) :
    Gives True (decl.phrase.nesting ≤ n) (fun value => value.map forget = decl.map forget)
      (declaration level) s t := by
  obtain ⟨isPublic, definition, note⟩ := decl
  obtain ⟨u, hpub, hdefinition⟩ := hspells
  refine .current ?_
  cases isPublic with
  | false =>
      obtain ⟨rfl, -⟩ := hpub
      have hpub : take? (.keyword .pub) s = .ok false s := by
        obtain ⟨k, hkind, hpub, -⟩ := Definition.between_kind hdefinition
        exact take?_eq_ok.mpr (.inr ⟨by simp [hkind, hpub], rfl, rfl⟩)
      refine .imp (.step hpub (.finishLoose (definition_gives hlevel hdefinition hend)
        (fun _ => .bind (.spanFrom _) fun _ => .pure _)
        fun value hvalue => .spanFrom (.pure ?_))) ?_ fun _ hgood => hgood
      · simp [Declaration.map, hvalue]
      · simp [Declaration.phrase]
  | true =>
      obtain ⟨hpub, rfl, -⟩ := hpub
      have hpub : take? (.keyword .pub) s = .ok true s.advance :=
        take?_eq_ok.mpr (.inl ⟨Token.kind_of_terminal? hpub, rfl, rfl⟩)
      refine .imp (.step hpub (.finishLoose (definition_gives hlevel hdefinition hend)
        (fun _ => .bind (.spanFrom _) fun _ => .pure _)
        fun value hvalue => .spanFrom (.pure ?_))) ?_ fun _ hgood => hgood
      · simp [Declaration.map, hvalue]
      · simp [Declaration.phrase]

theorem item_gives {item : Item α} (hspells : item.phrase.Between s t)
    (hend : t.current.kind.followsItem = true) :
    Gives True (item.phrase.nesting ≤ n) (fun value => value.map forget = item.map forget)
      (Rule.item level) s t := by
  cases item with
  | import_ source =>
      obtain ⟨_, himport, _, hpath, hsemicolon⟩ := hspells
      have himport' : s.current.kind = .keyword .import_ := State.Spells.kind himport
      have hsemicolon' := State.Spells.kind hsemicolon
      have hsource : Gives False True (fun value => value.map forget = source.map forget)
          import_ s _ := import_gives (State.Spells.trans himport hpath)
      obtain ⟨-, rfl, -⟩ := hsemicolon
      refine .imp (.whenAt himport' (.finish hsource fun value hvalue =>
        .expect hsemicolon' (.spanFrom (.pure ?_)))) ?_ fun _ hgood => hgood
      · simpa [Item.map, Import.map, forget] using hvalue
      · simp [Item.phrase]
  | declaration decl =>
      have himport : s.current.kind ≠ .keyword .import_ := by
        obtain ⟨isPublic, definition, note⟩ := decl
        obtain ⟨_, hpub, hdefinition⟩ := hspells
        cases isPublic with
        | false =>
            obtain ⟨rfl, -⟩ := hpub
            obtain ⟨k, hkind, -, himport⟩ := Definition.between_kind hdefinition
            simp [hkind, himport]
        | true =>
            have hpub : s.current.kind = .keyword .pub := State.Spells.kind hpub
            simp [hpub]
      refine .unlessAt himport (.finishLoose (declaration_gives hlevel hspells hend)
        (fun _ => .pure _) fun value hvalue => .pure ?_)
      simp [Item.map, hvalue]

theorem moduleRound_readsRun (hframed : level.Framed) (items : List (Item α)) :
    ReadsRun True n (· = .eof) (·.followsItem = true) (moduleRound level)
      (fun read shapes => read.map (Item.map forget) = shapes) Item.phrase (Item.map forget)
      items where
  framed _ := moduleRound_framed hframed
  solid item _ := item.isSolid_phrase
  ended := by
    rintro kind rfl
    rfl
  head := by
    intro item _ s t hspells
    obtain ⟨k, hkind⟩ := Item.between_kind hspells
    rw [hkind]
    rfl
  last := by
    intro s read shapes hread hend
    have hends : s.current.isEof = true := by simp [Token.isEof, hend]
    exact .current (.ifPos hends (.pure ⟨_, rfl, hread⟩))
  more := by
    intro item hmem s t read shapes hread hspells hend
    have hmore : ¬ s.current.isEof = true := by
      obtain ⟨k, hkind⟩ := Item.between_kind hspells
      simp [Token.isEof, hkind]
    refine .current (.ifNeg hmore (.finishLoose
      ((item_gives hlevel hspells hend).recover (item_framed hframed)
        State.skipItem_resumption) (fun _ => .pure _) ?_))
    rintro _ ⟨value, rfl, hvalue⟩
    exact .pure ⟨_, rfl, by simp [hread, hvalue]⟩

/-- The items of a module, however they are written, if nothing comes behind them. -/
theorem module_gives {module : Module α} (hframed : level.Framed)
    (hspells : module.phrase.Between s t) (hend : t.current.kind = .eof) :
    Gives True (module.phrase.nesting ≤ n)
      (fun items => items.map (Item.map forget) = module.items.map (Item.map forget))
      (items level) s t := by
  rw [Module.phrase, Phrase.between_gapped] at hspells
  have hnone : ([] : List (Item Span)).map (Item.map forget) = [] := rfl
  refine ((moduleRound_readsRun hlevel hframed module.items).gives hnone hspells hend).imp ?_
    fun _ hgood => hgood
  rw [Module.phrase, Phrase.nesting_gapped_le, Phrase.nesting_concat_le]

/-- The items of a module that is written in the usual way. -/
theorem items_gives {module : Module α} (hframed : level.Framed)
    (hholds : module.phrase.holds = true) (hspells : s.Spells module.phrase.terminals t)
    (hend : t.current.kind = .eof) :
    Gives True (module.phrase.nesting ≤ n)
      (fun items => items.map (Item.map forget) = module.items.map (Item.map forget))
      (items level) s t :=
  module_gives hlevel hframed (Phrase.between_of_spells hholds hspells) hend

end

end Rule

end SourceFront
