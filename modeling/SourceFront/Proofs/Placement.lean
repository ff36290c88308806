import SourceFront.Proofs.Layer
import SourceFront.Proofs.Part
import SourceFront.Tree.Slot

/-!
Where struct literals stand. A name with a brace behind it is a struct literal wherever it
is an operand, but not where a block follows: there only brackets and types have struct
literals inside. This holds in the tree of any source, whatever fails before or around it.
-/

namespace SourceFront

theorem Token.Placed.suffix_inj {fileId length : Nat} {a b : Token}
    {tokens rest rest' : List Token} (h : Placed fileId length tokens)
    (ha : a :: rest <:+ tokens) (hb : b :: rest' <:+ tokens)
    (hstart : a.span.start = b.span.start) : a :: rest = b :: rest' := by
  have hbehind {a b : Token} {rest rest' : List Token} (hb : b :: rest' <:+ tokens)
      (hab : a :: rest <:+ b :: rest') (hstart : a.span.start = b.span.start) :
      a :: rest = b :: rest' := by
    rcases List.suffix_cons_iff.mp hab with heq | hrest
    · exact heq
    · have hb' := h.sublist hb.sublist
      have hstop := (List.pairwise_cons.mp hb'.apart).1 a (hrest.subset (by simp))
      have hlt := (hb'.within b (by simp)).1
      omega
  rcases List.suffix_or_suffix_of_suffix ha hb with hab | hba
  · exact hbehind hb hab hstart
  · exact (hbehind ha hba hstart.symm).symm

/-- Whether the expression may stand in its slot: only a free operand may be a struct
literal, and it is one if it begins with a name and a brace. -/
structure Expr.Placed (tokens : List Token) (entry : Slot × Expr Span) : Prop where
  barred : entry.1 ≠ .operand .free → ∀ type inits note, entry.2 ≠ .record type inits note
  opened : entry.1 = .operand .free → entry.2.layer = .primary →
    ∀ {name brace : Token} {back : List Token} {text : String},
      name :: brace :: back <:+ tokens → name.span.start = entry.2.note.start →
      name.kind = .ident text → brace.kind = .symbol .leftBrace →
      ∃ inits note, entry.2 = .record ⟨text, name.span⟩ inits note

theorem Expr.Placed.of_layer {tokens : List Token} {slot : Slot} {expr : Expr Span}
    (h : expr.layer ≠ .primary) : Placed tokens (slot, expr) where
  barred := by
    rintro - type inits note rfl
    exact h rfl
  opened _ hprimary := absurd hprimary h

theorem Expr.slotsInside_infix {α : Type} {symbol : Symbol} {op : BinaryOp}
    (hop : BinaryOp.ofSymbol? symbol = some op) (place : Place) (left right : Expr α) (note : α) :
    (Expr.binary op left right note).slotsInside place = left.slots place ++ right.slots place := by
  obtain rfl := BinaryOp.symbol_of_ofSymbol? hop
  cases op <;> first | rfl | simp [BinaryOp.symbol, BinaryOp.ofSymbol?] at hop

namespace Rule

variable {fileId length n : Nat} {place : Place} {tokens : List Token}

/-- A name with a brace behind it is read as a struct literal where one may stand. -/
theorem primary_of_brace {inner : Level} {s t : State} {expr : Expr Span} {text : String}
    (hname : s.current.kind = .ident text) (hbrace : s.advance.current.kind = .symbol .leftBrace)
    (h : primary inner .free s = .ok expr t) :
    ∃ inits note, expr = .record ⟨text, s.current.span⟩ inits note := by
  rw [primary, current_bind] at h
  simp only [hname] at h
  obtain ⟨name, u, hread, h⟩ := bind_eq_ok.mp h
  obtain ⟨text', hname', rfl, rfl⟩ := name_eq_ok.mp hread
  obtain rfl : text = text' := TokenKind.ident.inj (hname.symm.trans hname')
  simp only [isAt_bind, hbrace, decide_eq_true_eq, TokenKind.symbol.injEq, reduceCtorEq,
    if_false, if_true] at h
  obtain ⟨_, _, -, h⟩ := bind_eq_ok.mp h
  obtain ⟨inits, _, -, h⟩ := bind_eq_ok.mp h
  obtain ⟨close, _, -, h⟩ := bind_eq_ok.mp h
  cases h
  exact ⟨inits, _, rfl⟩

theorem primary_placed {s t : State} {expr : Expr Span}
    (hplaced : Token.Placed fileId length tokens) (hs : s.ahead <:+ tokens)
    (h : primary (Level.allowing n) place s = .ok expr t) :
    Expr.Placed tokens (.operand place, expr) := by
  obtain ⟨part, hreads, hderives, -⟩ :=
    primary_derives
      (show (Level.allowing n).DerivesStmts True from Level.allowing_derivesStmts n).exprs h
  refine ⟨?_, ?_⟩
  · rintro hplace type inits note rfl
    obtain rfl : place = .beforeBlock := by cases place <;> simp_all
    rw [Expr.phrase] at hderives
    obtain ⟨⟨_, _, -, ⟨-, hfree⟩, -⟩, -⟩ := hderives
    simp at hfree
  · intro hplace _ name brace back text hsuffix hstart hname hbrace
    obtain rfl : place = .free := by cases place <;> simp_all
    have hpart : part.Sublist tokens :=
      (List.prefix_append part t.ahead).sublist.trans (hreads.ahead ▸ hs.sublist)
    obtain ⟨first, _, hfirst, -, hnote⟩ := hderives.exprCovers (hplaced.ordered.sublist hpart)
    obtain ⟨rest, rfl⟩ := List.head?_eq_some_iff.mp hfirst
    have hahead := hreads.ahead
    rw [List.cons_append] at hahead
    have hsame : name :: brace :: back = first :: (rest ++ t.ahead) := by
      refine hplaced.suffix_inj hsuffix (hahead ▸ hs) ?_
      simp only at hstart
      rw [hstart, hnote]
    obtain ⟨rfl, hback⟩ := List.cons.inj hsame
    have hcurrent := State.current_of_ahead hahead
    have hnext : s.advance.current = brace := by
      simp [State.current, State.advance, hahead, ← hback]
    rw [← hcurrent]
    exact primary_of_brace (by rw [hcurrent, hname]) (by rw [hnext, hbrace]) h

end Rule

/-- What the rules of the level read stands well with all inside of it, wherever they
begin. -/
structure Level.Places (tokens : List Token) (level : Level) : Prop where
  framed : level.Framed
  expr : ∀ place least, Rule.Finds tokens
    (fun expr => ∀ entry ∈ expr.slots place, Expr.Placed tokens entry) (level.expr place least)
  operand : ∀ place, Rule.Finds tokens
    (fun expr => ∀ entry ∈ expr.slots place, Expr.Placed tokens entry) (level.operand place)
  typeExpr : Rule.Finds tokens (fun type => ∀ entry ∈ type.slots, Expr.Placed tokens entry)
    level.typeExpr

namespace Rule

section

variable {tokens : List Token} {inner : Level} (h : inner.Places tokens)
include h

theorem resultType_places :
    Finds tokens (fun result => ∀ entry ∈ TypeExpr.optionSlots result, Expr.Placed tokens entry)
      (resultType inner) := by
  refine .after (.take? _) fun _ => .ite (.after (.take? _) fun _ => .ite
    (.pure (by simp [TypeExpr.optionSlots])) ?_) (.pure (by simp [TypeExpr.optionSlots]))
  exact h.typeExpr.bind fun type htype => .pure htype

omit h in
theorem primitive_places (type : Primitive) :
    Finds tokens (fun base => ∀ entry ∈ base.slots, Expr.Placed tokens entry)
      (primitive type) :=
  .after .advance fun _ => .pure (by simp [TypeBase.slots])

theorem functionType_places :
    Finds tokens (fun base => ∀ entry ∈ base.slots, Expr.Placed tokens entry)
      (functionType inner) := by
  refine .after .advance fun _ => .after (.expect _) fun _ =>
    .bind (.paramList h.typeExpr) fun read hread => .after (.expect _) fun _ =>
      .bind (resultType_places h) fun result hresult => .pure ?_
  rw [TypeBase.slots, TypeExpr.listSlots_eq, List.forall_mem_append]
  exact ⟨forall_mem_flatMap.mpr hread, hresult⟩

theorem typeBase_places (pointers : Nat) :
    Finds tokens (fun base => ∀ entry ∈ base.2.slots, Expr.Placed tokens entry)
      (typeBase inner pointers) := by
  refine .after .current fun token => ?_
  split
  · exact .bind (primitive_places _) fun _ hbase => .pure hbase
  · exact .bind (primitive_places _) fun _ hbase => .pure hbase
  · exact .bind (primitive_places _) fun _ hbase => .pure hbase
  · exact .bind (primitive_places _) fun _ hbase => .pure hbase
  · exact .bind (primitive_places _) fun _ hbase => .pure hbase
  · exact .bind (functionType_places h) fun _ hbase => .pure hbase
  · exact .ite (.after .advance fun _ => .pure (by simp [TypeBase.slots]))
      (.after name_framed fun _ => .pure (by simp [TypeBase.slots]))
  · exact .failWith _

theorem sizes_places :
    Finds tokens (fun sizes => ∀ size ∈ sizes, ∀ entry ∈ size.slots .free,
      Expr.Placed tokens entry) (sizes inner) := by
  refine .iterate (by simp) fun read hread => .after (.take? _) fun _ => .ite ?_ (.pure hread)
  refine .bind (h.expr .free 0) fun size hsize => .after (.expect _) fun _ => .pure ?_
  simpa only [Round.value, List.forall_mem_append, List.forall_mem_singleton] using ⟨hread, hsize⟩

theorem typeExpr_places :
    Finds tokens (fun type => ∀ entry ∈ type.slots, Expr.Placed tokens entry)
      (typeExpr inner) := by
  refine .after .current fun _ => .after stars_framed fun _ =>
    .bind (typeBase_places h _) fun base hbase => .bind (sizes_places h) fun sizes hsizes =>
      .after (.spanFrom _) fun _ => .pure ?_
  rw [TypeExpr.slots, Expr.listSlots_eq, List.forall_mem_append]
  exact ⟨hbase, forall_mem_flatMap.mpr hsizes⟩

theorem call_places (callee : Name Span) (place : Place) :
    Finds tokens (fun expr => ∀ entry ∈ expr.slotsInside place, Expr.Placed tokens entry)
      (call inner callee) := by
  refine .after (.expect _) fun _ => .bind (.commaList (h.expr .free 0) _) fun args hargs =>
    .after (.expect _) fun _ => .pure ?_
  rw [Expr.slotsInside, Expr.listSlots_eq]
  exact forall_mem_flatMap.mpr hargs

theorem fieldInit_places :
    Finds tokens (fun init => ∀ entry ∈ init.value.slots .free, Expr.Placed tokens entry)
      (fieldInit inner) :=
  .after name_framed fun _ => .after (.expect _) fun _ => .bind (h.expr .free 0)
    fun _ hvalue => .pure hvalue

theorem record_places (type : Name Span) (place : Place) :
    Finds tokens (fun expr => ∀ entry ∈ expr.slotsInside place, Expr.Placed tokens entry)
      (record inner type) := by
  refine .after (.expect _) fun _ => .bind (.commaList (fieldInit_places h) _) fun inits hinits =>
    .after (.expect _) fun _ => .pure ?_
  rw [Expr.slotsInside, FieldInit.listSlots_eq]
  exact forall_mem_flatMap.mpr hinits

theorem named_places (place : Place) :
    Finds tokens (fun expr => ∀ entry ∈ expr.slotsInside place, Expr.Placed tokens entry)
      (named inner place) := by
  have hname (name : Name Span) : Finds tokens
      (fun expr : Expr Span => ∀ entry ∈ expr.slotsInside place, Expr.Placed tokens entry)
      (pure (.ident name)) :=
    .pure (by simp [Expr.slotsInside])
  refine .after name_framed fun name => .after (.isAt _) fun _ =>
    .ite (call_places h name place) (.ite ?_ (hname name))
  exact .after (.isAt _) fun _ => .ite (record_places h name place) (hname name)

theorem primary_places (place : Place) :
    Finds tokens (fun expr => ∀ entry ∈ expr.slotsInside place, Expr.Placed tokens entry)
      (primary inner place) := by
  have hconstant (value : Constant) : Finds tokens
      (fun expr => ∀ entry ∈ expr.slotsInside place, Expr.Placed tokens entry)
      (constant value) :=
    .after .advance fun _ => .pure (by simp [Expr.slotsInside])
  refine .after .current fun token => ?_
  generalize token.kind = kind
  cases kind with
  | number | string | char => exact hconstant _
  | ident text => exact named_places h place
  | keyword word =>
      cases word with
      | true_ | false_ | null => exact hconstant _
      | sizeof =>
          exact .after .advance fun _ => .after (.expect _) fun _ => .bind h.typeExpr
            fun type htype => .after (.expect _) fun _ => .pure (by rwa [Expr.slotsInside])
      | _ => exact .failWith _
  | symbol sign =>
      cases sign with
      | leftParen =>
          exact .after .advance fun _ => .bind (h.expr .free 0) fun value hvalue =>
            .after (.expect _) fun _ => .pure hvalue
      | leftBracket =>
          refine .after .advance fun _ => .bind (.commaList (h.expr .free 0) _)
            fun elements helements => .after (.expect _) fun _ => .pure ?_
          rw [Expr.slotsInside, Expr.listSlots_eq]
          exact forall_mem_flatMap.mpr helements
      | _ => exact .failWith _
  | _ => exact .failWith _

theorem member_places (place : Place) :
    Finds tokens (fun expr => ∀ entry ∈ (.member, expr) :: expr.slotsInside place,
      Expr.Placed tokens entry) (member inner) := by
  have hbarred {expr : Expr Span} (hno : ∀ type inits note, expr ≠ .record type inits note) :
      Expr.Placed tokens (.member, expr) :=
    ⟨fun _ => hno, fun hslot => nomatch hslot⟩
  refine .after name_framed fun name => .after (.isAt _) fun _ => .ite ?_ (.pure ?_)
  · have hself : Finds tokens (fun expr => Expr.Placed tokens (.member, expr))
        (call inner name) :=
      .after (.expect _) fun _ => .after (.commaList (h.framed.expr _ _) _) fun _ =>
        .after (.expect _) fun _ => .pure (hbarred (by simp))
    exact (hself.and (call_places h name place)).imp fun expr hexpr =>
      List.forall_mem_cons.mpr hexpr
  · have hident : Expr.Placed tokens (.member, .ident name) := hbarred (by simp)
    simpa [Expr.slotsInside] using hident

theorem suffix_places (place : Place) {base : Expr Span}
    (hbase : ∀ entry ∈ base.slots place, Expr.Placed tokens entry) :
    Finds tokens (fun round => ∀ entry ∈ round.value.slots place, Expr.Placed tokens entry)
      (suffix inner base) := by
  have hmember (op : BinaryOp) (hop : op = .member ∨ op = .path) (note : Span) {right : Expr Span}
      (hright : ∀ entry ∈ (.member, right) :: right.slotsInside place,
        Expr.Placed tokens entry) :
      ∀ entry ∈ (Expr.binary op base right note).slots place, Expr.Placed tokens entry := by
    have hinside : (Expr.binary op base right note).slotsInside place =
        base.slots place ++ (.member, right) :: right.slotsInside place := by
      rcases hop with rfl | rfl <;> rw [Expr.slotsInside] <;> rfl
    rw [Expr.slots, hinside, List.forall_mem_cons, List.forall_mem_append]
    refine ⟨.of_layer ?_, hbase, hright⟩
    rcases hop with rfl | rfl <;> simp [Expr.layer, BinaryOp.layer]
  refine .after (.take? _) fun _ => .ite (.bind (member_places h place) fun right hright =>
    .pure (hmember .member (.inl rfl) _ hright)) (.after (.take? _) fun _ => .ite
      (.bind (member_places h place) fun right hright =>
        .pure (hmember .path (.inr rfl) _ hright))
      (.after (.take? _) fun _ => .ite ?_ (.pure hbase)))
  refine .bind (h.expr .free 0) fun right hright => .after (.expect _) fun _ => .pure ?_
  rw [Round.value, Expr.slots, Expr.slotsInside, List.forall_mem_cons]
  exact ⟨.of_layer (by simp [Expr.layer, BinaryOp.layer]),
    List.forall_mem_append.mpr ⟨hbase, hright⟩⟩

theorem operand_places {fileId length n : Nat} (hplaced : Token.Placed fileId length tokens)
    (hinner : inner = Level.allowing n) (place : Place) :
    Finds tokens (fun expr => ∀ entry ∈ expr.slots place, Expr.Placed tokens entry)
      (operand inner place) := by
  have hprimary : Finds tokens (fun expr => ∀ entry ∈ expr.slots place, Expr.Placed tokens entry)
      (primary inner place) := by
    have hself : Finds tokens (fun expr => Expr.Placed tokens (.operand place, expr))
        (primary inner place) :=
      .of_framed (primary_framed h.framed place) fun hs hread => by
        subst hinner
        exact primary_placed hplaced hs hread
    exact (hself.and (primary_places h place)).imp fun expr hexpr => List.forall_mem_cons.mpr hexpr
  refine .after .current fun token => ?_
  split
  · refine .after .advance fun _ => .bind (h.operand place) fun operand hoperand => .pure ?_
    rw [Expr.slots, Expr.slotsInside]
    exact List.forall_mem_cons.mpr ⟨.of_layer (by simp [Expr.layer]), hoperand⟩
  · exact .bind hprimary fun first hfirst => .iterate hfirst fun _ hbase =>
      suffix_places h place hbase

theorem operation_places (place : Place) (least : Nat) {left : Expr Span}
    (hleft : ∀ entry ∈ left.slots place, Expr.Placed tokens entry) :
    Finds tokens (fun round => ∀ entry ∈ round.value.slots place, Expr.Placed tokens entry)
      (operation inner place least left) := by
  refine .after .current fun token => ?_
  split
  · exact .pure hleft
  next op hop =>
    refine .ite (.pure hleft) (.after .advance fun _ => ?_)
    cases op with
    | cast =>
        refine .bind h.typeExpr fun type htype => .pure ?_
        rw [Round.value, Expr.slots, Expr.slotsInside, List.forall_mem_cons]
        exact ⟨.of_layer (by simp [Expr.layer]), List.forall_mem_append.mpr ⟨hleft, htype⟩⟩
    | binary op =>
        refine .bind (h.expr place _) fun right hright => .pure ?_
        obtain ⟨symbol, -, hsymbol⟩ := InfixOp.kind_of_binary hop
        rw [Round.value, Expr.slots, Expr.slotsInside_infix hsymbol, List.forall_mem_cons]
        exact ⟨.of_layer (by cases op <;> simp [Expr.layer, BinaryOp.layer]),
          List.forall_mem_append.mpr ⟨hleft, hright⟩⟩

theorem expression_places {fileId length n : Nat} (hplaced : Token.Placed fileId length tokens)
    (hinner : inner = Level.allowing n) (place : Place) (least : Nat) :
    Finds tokens (fun expr => ∀ entry ∈ expr.slots place, Expr.Placed tokens entry)
      (expression inner place least) :=
  .bind (operand_places h hplaced hinner place) fun _ hfirst =>
    .iterate hfirst fun _ hleft => operation_places h place least hleft

end

end Rule

namespace Level

variable {fileId length : Nat} {tokens : List Token}

theorem allowing_places (hplaced : Token.Placed fileId length tokens) (n : Nat) :
    (allowing n).Places tokens := by
  induction n with
  | zero =>
      exact ⟨lowest_framed, fun _ _ => .failWith _, fun _ => .failWith _, .failWith _⟩
  | succ n ih =>
      exact ⟨ih.framed.above, Rule.expression_places ih hplaced rfl,
        Rule.operand_places ih hplaced rfl, Rule.typeExpr_places ih⟩

theorem allowing_admits_placed (hplaced : Token.Placed fileId length tokens) (n : Nat) :
    (allowing n).Admits tokens fun part => ∀ entry ∈ part.slots, Expr.Placed tokens entry where
  expr place := (allowing_places hplaced n).expr place 0
  typeExpr := (allowing_places hplaced n).typeExpr
  block := .of_framed (allowing_framed n).block fun _ _ => by simp [Part.slots]
  choice := .of_framed (allowing_framed n).choice fun _ _ => by simp [Part.slots]

end Level

example :
    (analyse "fn f() \x7b if p[S \x7b a: 1 \x7d] \x7b let s = S \x7b a: 2 \x7d; \x7d \x7d"
      0).module.slots.map (fun entry => (entry.1, entry.2.layer)) =
    [(.operand .beforeBlock, .suffix), (.operand .beforeBlock, .primary),
      (.operand .free, .primary), (.operand .free, .primary), (.operand .free, .primary),
      (.operand .free, .primary)] := by
  decide +kernel

end SourceFront
