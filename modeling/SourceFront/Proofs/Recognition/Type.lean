import SourceFront.Proofs.Recognition.Basic

/-!
The types and names that are written are those that are read.
-/

namespace SourceFront

/-- Whether a type may end before a token of the kind. -/
def TokenKind.endsType : TokenKind → Bool
  | .symbol .leftBracket | .symbol .colon => false
  | _ => true

/-- Whether an operand may end before a token of the kind. -/
def TokenKind.endsOperand (place : Place) (kind : TokenKind) : Bool :=
  kind.endsType &&
    match kind with
    | .symbol .dot | .symbol .colonColon | .symbol .leftParen => false
    | .symbol .leftBrace => place = .beforeBlock
    | _ => true

/-- Whether an expression whose bare operators have precedence `least` at least may end
before a token of the kind. -/
def TokenKind.endsExpr (place : Place) (least : Nat) (kind : TokenKind) : Bool :=
  kind.endsOperand place && kind.precedence?.all (· < least)

/-- Whether a type may begin with the terminal. -/
def Terminal.beginsType : Terminal → Bool
  | symbol s => s = .star
  | ident _ => true
  | keyword k => k = .fn || k = .int || k = .str || k = .char || k = .bool || k = .float
  | _ => false

/-- The rules of a level read what is written, if it is nested no more than `n` levels
deep. -/
structure Level.Recognises (α : Type) (n : Nat) (level : Level) : Prop where
  expr : ∀ {place : Place} {least : Nat} {expr : Expr α} {s t : State},
    least ≤ expr.precedence → (expr.phrase place).Between s t →
    t.current.kind.endsExpr place least = true →
    Rule.Gives False ((expr.whole place).nesting ≤ n)
      (fun value => value.map forget = expr.map forget) (level.expr place least) s t
  operand : ∀ {place : Place} {expr : Expr α} {s t : State},
    UnaryOp.precedence ≤ expr.precedence → (expr.phrase place).Between s t →
    t.current.kind.endsOperand place = true →
    Rule.Gives False ((expr.whole place).nesting ≤ n)
      (fun value => value.map forget = expr.map forget) (level.operand place) s t
  typeExpr : ∀ {type : TypeExpr α} {s t : State}, type.phrase.Between s t →
    t.current.kind.endsType = true →
    Rule.Gives False ((Phrase.deeper type.phrase).nesting ≤ n)
      (fun value => value.map forget = type.map forget) level.typeExpr s t
  block : ∀ {body : Block α} {s t : State}, body.phrase.Between s t →
    Rule.Gives True ((Phrase.deeper body.phrase).nesting ≤ n)
      (fun value => value.map forget = body.map forget) level.block s t
  branch : ∀ {branch : IfStmt α} {s t : State}, branch.phrase.Between s t →
    t.current.kind ≠ .keyword .else_ →
    Rule.Gives True ((Phrase.deeper branch.phrase).nesting ≤ n)
      (fun value => value.map forget = branch.map forget) level.branch s t
  choice : ∀ {choice : MatchStmt α} {s t : State}, choice.phrase.Between s t →
    Rule.Gives True ((Phrase.deeper choice.phrase).nesting ≤ n)
      (fun value => value.map forget = choice.map forget) level.choice s t

variable {α : Type}

namespace TypeBase

/-- The stars that belong to the base. -/
def ownStars : TypeBase α → Nat
  | .anyPointer => 1
  | _ => 0

/-- The base without stars. -/
def word : TypeBase α → Phrase α
  | .anyPointer => .terminal (.ident "any")
  | base => base.phrase

variable {base : TypeBase α} {s t : State}

theorem between_word (h : base.phrase.Between s t) :
    ∃ u, s.Spells (List.replicate base.ownStars (.symbol .star)) u ∧ base.word.Between u t := by
  cases base with
  | anyPointer => exact h
  | _ => exact ⟨s, ⟨rfl, h.clean⟩, h⟩

theorem word_kind (h : base.word.Between s t) : s.current.kind ≠ .symbol .star := by
  cases base with
  | anyPointer =>
      have hkind : s.current.kind = .ident "any" := State.Spells.kind h
      simp [hkind]
  | primitive type =>
      have hkind : s.current.kind = .keyword type.keyword := State.Spells.kind h
      simp [hkind]
  | named name =>
      have hkind : s.current.kind = .ident name.text := State.Spells.kind h
      simp [hkind]
  | function types variadic result =>
      obtain ⟨_, hfn, -⟩ := h
      simp [hfn.kind, Terminal.kind]

end TypeBase

theorem TypeExpr.between_kind {type : TypeExpr α} {s t : State}
    (h : type.phrase.Between s t) :
    ∃ a : Terminal, s.current.kind = a.kind ∧ a.beginsType = true := by
  obtain ⟨pointers, base, sizes, note⟩ := type
  obtain ⟨_, ⟨-, rfl, -⟩, _, ⟨-, rfl, -⟩, u, hstars, v, hbase, -⟩ := h
  cases pointers with
  | succ pointers =>
      obtain ⟨_, hstar, -⟩ := hstars
      exact ⟨_, hstar.kind, rfl⟩
  | zero =>
      obtain ⟨rfl, -⟩ := hstars
      cases base with
      | anyPointer =>
          obtain ⟨_, hstar, -⟩ := hbase
          exact ⟨_, hstar.kind, rfl⟩
      | primitive type => exact ⟨_, State.Spells.kind hbase, by cases type <;> rfl⟩
      | named name => exact ⟨_, State.Spells.kind hbase, rfl⟩
      | function types variadic result =>
          obtain ⟨_, hfn, -⟩ := hbase
          exact ⟨_, hfn.kind, rfl⟩

namespace Rule

variable {n : Nat} {inner : Level} {s t : State}

theorem stars_of_spells (count : Nat) {pointers : Nat}
    (hspells : s.Spells (List.replicate pointers (.symbol .star)) t)
    (hend : t.current.kind ≠ .symbol .star) :
    iterate (fun count => do
      if ← take? (.symbol .star) then return .more (count + 1)
      else return .last count) count s = .ok (count + pointers) t := by
  induction pointers generalizing s count with
  | zero =>
      obtain ⟨rfl, -⟩ := hspells
      refine iterate_of_last ?_
      rw [take?_bind, if_neg hend]
      rfl
  | succ pointers ih =>
      have hkind : s.current.kind = .symbol .star := hspells.kind
      refine (iterate_of_more ?_ hspells.advance_length_lt).trans
        ((ih (count + 1) hspells.2).trans ?_)
      · rw [take?_bind, if_pos hkind]
        rfl
      · rw [Nat.add_right_comm, Nat.add_assoc]

theorem spells_of_stars {pointers : Nat} (h : (Phrase.stars pointers : Phrase α).Between s t) :
    s.Spells (List.replicate pointers (.symbol .star)) t := by
  induction pointers generalizing s with
  | zero => exact h
  | succ pointers ih =>
      obtain ⟨_, ⟨hstar, rfl, -⟩, hrest⟩ := h
      exact ⟨hstar, ih hrest⟩

variable (hinner : inner.Recognises α n)
include hinner

theorem typeExpr_readsElement (type : TypeExpr α) :
    ReadsElement n .rightParen inner.typeExpr (.deeper type.phrase)
      fun value => value.map forget = type.map forget where
  gives hspells hend :=
    hinner.typeExpr hspells (by rcases hend with h | h <;> rw [h] <;> rfl)
  head hspells := by
    obtain ⟨a, hkind, hbegins⟩ := type.between_kind hspells
    refine ⟨a, hkind, ?_, ?_⟩
    · rintro rfl
      cases hbegins
    · rintro rfl
      cases hbegins

theorem resultType_gives {result : Option (TypeExpr α)}
    (hspells : (TypeExpr.resultPhrase result).Between s t)
    (hend : t.current.kind ≠ .symbol .colon)
    (hend' : result.isSome = true → t.current.kind.endsType = true) :
    Gives False ((TypeExpr.resultPhrase result).nesting ≤ n)
      (fun value => value.map (TypeExpr.map forget) = result.map (TypeExpr.map forget))
      (resultType inner) s t := by
  cases result with
  | none =>
      have hfits : (TypeExpr.resultPhrase (none : Option (TypeExpr α))).nesting ≤ n ↔ True := by
        simp [TypeExpr.resultPhrase, Phrase.noResult]
      rcases hspells with ⟨rfl, -⟩ | ⟨hcolon, hvoid, rfl, -⟩
      · refine .imp (.unlessTaken hend (.pure ?_)) hfits fun _ hgood => hgood
        rfl
      · refine .imp (.whenTaken (Token.kind_of_terminal? hcolon)
          (.whenTaken (Token.kind_of_terminal? hvoid) (.pure ?_))) hfits fun _ hgood => hgood
        rfl
  | some type =>
      obtain ⟨_, hcolon, htype⟩ := hspells
      have hcolon' := hcolon.kind
      obtain ⟨-, rfl, -⟩ := hcolon
      obtain ⟨a, hkind, hbegins⟩ := type.between_kind htype
      have hvoid : s.advance.current.kind ≠ .keyword .void := by
        rw [hkind]
        rintro hvoid
        cases a <;> simp_all [Terminal.kind, Terminal.beginsType]
      refine .imp (.whenTaken hcolon' (.unlessTaken hvoid
        (.finish (hinner.typeExpr htype (hend' rfl)) fun value hvalue => ?_))) ?_
        fun _ hgood => hgood
      · exact .pure (by simp [hvalue])
      · simp [TypeExpr.resultPhrase]

theorem functionType_gives {types : List (TypeExpr α)} {variadic : Bool}
    {result : Option (TypeExpr α)}
    (hspells : (TypeBase.function types variadic result).phrase.Between s t)
    (hend : t.current.kind ≠ .symbol .colon)
    (hend' : result.isSome = true → t.current.kind.endsType = true) :
    Gives False ((TypeBase.function types variadic result).phrase.nesting ≤ n)
      (fun value => value.map forget = (TypeBase.function types variadic result).map forget)
      (functionType inner) s t := by
  obtain ⟨_, ⟨-, rfl, -⟩, _, hopen, u, hparams, _, hclose, hresult⟩ := hspells
  have hopen' := hopen.kind
  have hclose' := hclose.kind
  obtain ⟨-, rfl, -⟩ := hopen
  obtain ⟨-, rfl, -⟩ := hclose
  rw [TypeExpr.phrases_eq_map] at hparams
  have hread := paramList_gives (fun type _ => typeExpr_readsElement hinner type) hparams hclose'
  have hresult := resultType_gives hinner hresult hend hend'
  refine .imp (.advance (.expect hopen' (.bind hread fun read hread =>
    .expect hclose' (.finish hresult fun value hvalue => .pure ?_)))) ?_
    fun _ hgood => hgood
  · simp [TypeBase.map, TypeExpr.mapList_eq_map, TypeExpr.mapOption_eq_map, hread, hvalue]
  · simp [TypeBase.phrase, TypeExpr.phrases_eq_map]

omit hinner in
theorem primitive_gives (n pointers : Nat) {type : Primitive}
    (hspells : (TypeBase.primitive type : TypeBase α).word.Between s t) :
    Gives False ((TypeBase.primitive type : TypeBase α).phrase.nesting ≤ n)
      (fun value => value.1 = pointers ∧
        value.2.map forget = (TypeBase.primitive type : TypeBase α).map forget)
      (primitive type >>= fun base => pure (pointers, base)) s t := by
  obtain ⟨-, rfl, -⟩ := hspells
  refine .imp (.step rfl (.pure ⟨rfl, rfl⟩)) ?_ fun _ hgood => hgood
  simp [TypeBase.phrase]

theorem typeBase_gives {base : TypeBase α} {pointers : Nat}
    (hadmits : base.admitsPointers pointers = true) (hspells : base.word.Between s t)
    (hend : t.current.kind ≠ .symbol .colon)
    (hend' : base.admitsSizes = false → t.current.kind.endsType = true) :
    Gives False (base.phrase.nesting ≤ n)
      (fun value => value.1 = pointers ∧ value.2.map forget = base.map forget)
      (typeBase inner (pointers + base.ownStars)) s t := by
  refine .current ?_
  cases base with
  | anyPointer =>
      have hkind : s.current.kind = .ident "any" := State.Spells.kind hspells
      obtain ⟨-, rfl, -⟩ := hspells
      simp only [hkind, TypeBase.ownStars, true_and, Nat.zero_lt_succ, if_true]
      refine .imp (.advance (.pure ⟨rfl, rfl⟩)) ?_ fun _ hgood => hgood
      simp [TypeBase.phrase]
  | primitive type =>
      have hkind : s.current.kind = .keyword type.keyword := State.Spells.kind hspells
      have hgives := primitive_gives n pointers hspells
      cases type <;> simp only [hkind, Primitive.keyword] <;> exact hgives
  | named name =>
      have hkind : s.current.kind = .ident name.text := State.Spells.kind hspells
      obtain ⟨-, rfl, -⟩ := hspells
      have hname : ¬ (name.text = "any" ∧ 0 < pointers + (TypeBase.named name).ownStars) := by
        rintro ⟨hany, hpos⟩
        simp only [TypeBase.admitsPointers, hany, TypeBase.ownStars] at hadmits hpos
        simp at hadmits
        omega
      simp only [hkind]
      rw [if_neg hname]
      refine .imp (.name hkind (.pure ⟨rfl, rfl⟩)) ?_ fun _ hgood => hgood
      simp [TypeBase.phrase, Name.phrase]
  | function types variadic result =>
      have hkind : s.current.kind = .keyword .fn := by
        obtain ⟨_, hfn, -⟩ := hspells
        exact hfn.kind
      have hfunction := functionType_gives hinner hspells hend fun hsome => hend' (by
        cases result with
        | none => cases hsome
        | some type => rfl)
      simp only [hkind, TypeBase.ownStars, Nat.add_zero]
      exact .finish hfunction fun value hvalue => .pure ⟨rfl, hvalue⟩

/-- A size in brackets. -/
def sizePhrase (size : Expr α) : Phrase α :=
  .concat [.symbol .leftBracket, .deeper (size.phrase .free), .symbol .rightBracket]

omit hinner in
/-- A round of the sizes of a type. -/
def sizeRound (inner : Level) (read : List (Expr Span)) : Rule (Round (List (Expr Span))) := do
  if ← take? (.symbol .leftBracket) then
    let size ← inner.freeExpr
    let _ ← expect .rightBracket
    return .more (read ++ [size])
  else return .last read

theorem sizeRound_readsRun (sizes : List (Expr α)) :
    ReadsRun False n (· ≠ .symbol .leftBracket) (fun _ => True) (sizeRound inner)
      (fun read shapes => read.map (Expr.map forget) = shapes) sizePhrase (Expr.map forget)
      sizes where
  framed := False.elim
  solid _ _ := rfl
  ended _ _ := trivial
  head _ _ _ _ _ := trivial
  last hread hend := .unlessTaken hend (.pure ⟨_, rfl, hread⟩)
  more := by
    intro size hmem s t read shapes hread hspells _
    obtain ⟨_, hopen, u, hsize, hclose⟩ := hspells
    have hopen' := hopen.kind
    have hclose' := hclose.kind
    obtain ⟨-, rfl, -⟩ := hopen
    obtain ⟨-, rfl, -⟩ := hclose
    have hend : u.current.kind.endsExpr .free 0 = true := by
      rw [hclose']
      rfl
    refine .imp (.whenTaken hopen'
      (.finish (hinner.expr (Nat.zero_le _) hsize hend) fun value hvalue =>
        .expect hclose' (.pure ⟨_, rfl, ?_⟩))) ?_ fun _ hgood => hgood
    · simp [sizePhrase, Expr.whole]
    · simp [hread, hvalue]

theorem sizes_gives {sizes : List (Expr α)}
    (hspells : (Phrase.concat (TypeExpr.sizePhrases sizes)).Between s t)
    (hend : t.current.kind ≠ .symbol .leftBracket) :
    Gives False ((Phrase.concat (TypeExpr.sizePhrases sizes)).nesting ≤ n)
      (fun values => values.map (Expr.map forget) = sizes.map (Expr.map forget))
      (Rule.sizes inner) s t := by
  rw [TypeExpr.sizePhrases_eq_map] at hspells ⊢
  have hnone : ([] : List (Expr Span)).map (Expr.map forget) = [] := rfl
  exact (sizeRound_readsRun hinner sizes).gives hnone hspells hend

theorem typeExpr_gives {type : TypeExpr α} (hspells : type.phrase.Between s t)
    (hend : t.current.kind.endsType = true) :
    Gives False (type.phrase.nesting ≤ n) (fun value => value.map forget = type.map forget)
      (typeExpr inner) s t := by
  obtain ⟨pointers, base, sizes, note⟩ := type
  obtain ⟨_, ⟨hpointers, rfl, -⟩, _, ⟨hadmits, rfl, -⟩, _, hstars, v, hbase, hsizes⟩ := hspells
  replace hsizes : (Phrase.concat (TypeExpr.sizePhrases sizes)).Between v t := hsizes
  obtain ⟨u, hownStars, hword⟩ := TypeBase.between_word hbase
  have hspellsStars := (spells_of_stars hstars).trans hownStars
  rw [List.replicate_append_replicate] at hspellsStars
  have hstars' : stars s = .ok (pointers + base.ownStars) u := by
    rw [stars, stars_of_spells 0 hspellsStars (TypeBase.word_kind hword), Nat.zero_add]
  have hbracket : t.current.kind ≠ .symbol .leftBracket := by
    intro hkind
    rw [hkind] at hend
    cases hend
  have hempty (hnil : sizes = []) : v.current.kind.endsType = true := by
    subst hnil
    obtain ⟨rfl, -⟩ := hsizes
    exact hend
  have hcolon : v.current.kind ≠ .symbol .colon := by
    intro hkind
    cases sizes with
    | nil => simp [hkind, TokenKind.endsType] at hempty
    | cons size sizes =>
        obtain ⟨_, ⟨_, hopen, -⟩, -⟩ := Phrase.between_concat_cons.mp hsizes
        rw [hopen.kind] at hkind
        cases hkind
  have hends (hadmits' : base.admitsSizes = false) : v.current.kind.endsType = true := by
    refine hempty ?_
    simpa [hadmits'] using hadmits
  have hbase := typeBase_gives hinner hpointers hword hcolon hends
  have hsizes := sizes_gives hinner hsizes hbracket
  refine .imp (.current (.step hstars' (.bind hbase fun read hread => .finish hsizes
    fun values hvalues => .spanFrom (.pure ?_)))) ?_ fun _ hgood => hgood
  · simp [TypeExpr.map, Expr.mapList_eq_map, hread, hvalues]
  · simp [TypeExpr.phrase, Phrase.nesting_stars]

theorem typeAnnotation?_gives {type : Option (TypeExpr α)}
    (hspells : (TypeExpr.annotation type).Between s t)
    (hend : t.current.kind.endsType = true) :
    Gives False ((TypeExpr.annotation type).nesting ≤ n)
      (fun value => value.map (TypeExpr.map forget) = type.map (TypeExpr.map forget))
      (typeAnnotation? inner) s t := by
  cases type with
  | none =>
      obtain ⟨rfl, -⟩ := hspells
      have hcolon : s.current.kind ≠ .symbol .colon := by
        intro hkind
        rw [hkind] at hend
        cases hend
      refine .imp (.unlessTaken hcolon (.pure ?_)) ?_ fun _ hgood => hgood
      · rfl
      · simp [TypeExpr.annotation]
  | some type =>
      obtain ⟨_, hcolon, htype⟩ := hspells
      have hcolon' := hcolon.kind
      obtain ⟨-, rfl, -⟩ := hcolon
      refine .imp (.whenTaken hcolon'
        (.finish (hinner.typeExpr htype hend) fun value hvalue => .pure ?_)) ?_
        fun _ hgood => hgood
      · simp [hvalue]
      · simp [TypeExpr.annotation]

end Rule

end SourceFront
