import SourceFront.Proofs.Pairing
import SourceFront.Proofs.Part
import SourceFront.Proofs.Within
import SourceFront.Tree.Enclosure

/-!
Braces in the tree. The last token of each block, match, struct literal and definition with
fields is the brace that its opening one is paired with by counting.
-/

namespace SourceFront

/-- Whether the node ends with the brace that closes its opening one. -/
def Enclosure.Closed (tokens : List Token) (enclosure : Enclosure Span) : Prop :=
  ∃ front opening inner closing back, tokens = front ++ opening :: (inner ++ closing :: back) ∧
    opening.kind = .symbol .leftBrace ∧ Balanced inner ∧
    closing.kind = .symbol .rightBrace ∧ closing.span.stop = enclosure.note.stop ∧
    match enclosure.behind with
    | none => opening.span.start = enclosure.note.start
    | some before => ∃ last ∈ front.getLast?, last.span.stop = before.stop

namespace Rule

variable {level : Level} {s t : State}

theorem block_enclosed (h : level.Paired) {body : Block Span} (hrun : block level s = .ok body t) :
    ∃ opening inner closing, s.ahead = opening :: (inner ++ closing :: t.ahead) ∧
      opening.kind = .symbol .leftBrace ∧ Balanced inner ∧
      closing.kind = .symbol .rightBrace ∧ body.note = opening.span.merge closing.span := by
  obtain ⟨_, _, hopen, hrest⟩ := bind_eq_ok.mp hrun
  obtain ⟨hleft, rfl, rfl⟩ := expect_eq_ok.mp hopen
  obtain ⟨stmts, u, hstmts, hclose⟩ := bind_eq_ok.mp hrest
  simp only [bind_eq_ok, expect_eq_ok] at hclose
  obtain ⟨_, _, ⟨hright, rfl, rfl⟩, _, _, hspan, hresult⟩ := hclose
  cases hspan
  cases hresult
  obtain ⟨depth, ⟨inner, hinner, hleaves⟩, hdepth⟩ :=
    blockRounds_leaves h (.here s.advance) hstmts
  obtain rfl : depth = 0 := hdepth.resolve_right (by simp [hright])
  have hclosing := State.reads_symbol hright
  refine ⟨s.current, inner, u.current, ?_, hleft, hleaves, hright, ?_⟩
  · rw [(State.reads_symbol hleft).ahead, hinner, hclosing.ahead]
    rfl
  · rw [hclosing.last]
    rfl

theorem choice_enclosed (h : level.Paired) {result : MatchStmt Span}
    (hrun : choice level s = .ok result t) :
    ∃ u opening inner closing, level.condition s.advance = .ok result.subject u ∧
      u.ahead = opening :: (inner ++ closing :: t.ahead) ∧
      opening.kind = .symbol .leftBrace ∧ Balanced inner ∧
      closing.kind = .symbol .rightBrace ∧ result.note = s.current.span.merge closing.span := by
  rw [choice, advance_bind] at hrun
  obtain ⟨subject, u, hsubject, hrest⟩ := bind_eq_ok.mp hrun
  obtain ⟨_, _, hopen, hrest⟩ := bind_eq_ok.mp hrest
  obtain ⟨hleft, rfl, rfl⟩ := expect_eq_ok.mp hopen
  obtain ⟨arms, v, harms, hclose⟩ := bind_eq_ok.mp hrest
  simp only [bind_eq_ok, expect_eq_ok] at hclose
  obtain ⟨_, _, ⟨hright, rfl, rfl⟩, _, _, hspan, hresult⟩ := hclose
  cases hspan
  cases hresult
  have hhere : u.advance.Leaves u.advance.ahead (0 + 0) := .here u.advance
  obtain ⟨inner, hinner, hleaves⟩ := (arms_paired h u.advance).ok hhere harms
  have hclosing := State.reads_symbol hright
  refine ⟨u, u.current, inner, v.current, hsubject, ?_, hleft, hleaves, hright, ?_⟩
  · rw [(State.reads_symbol hleft).ahead, hinner, hclosing.ahead]
    rfl
  · rw [hclosing.last]
    rfl

end Rule

theorem Token.Ordered.merge_eq {first last : Token} {tokens : List Token}
    (h : Token.Ordered tokens) (hpair : [first, last].Sublist tokens) :
    (first.span.merge last.span).start = first.span.start ∧
      (first.span.merge last.span).stop = last.span.stop := by
  have hle := List.rel_of_pairwise_cons (h.sublist hpair) (List.mem_singleton_self last)
  simp only [Span.merge]
  omega

namespace Enclosure

variable {fileId length : Nat} {tokens : List Token}

theorem closed_of_block {level : Level} {s t : State} {body : Block Span} (h : level.Paired)
    (hplaced : Token.Placed fileId length tokens) (hs : s.ahead <:+ tokens)
    (hrun : Rule.block level s = .ok body t) : Closed tokens ⟨body.note, none⟩ := by
  obtain ⟨front, rfl⟩ := hs
  obtain ⟨opening, inner, closing, hahead, hleft, hinner, hright, hnote⟩ :=
    Rule.block_enclosed h hrun
  have hordered := (hplaced.sublist (List.sublist_append_right front _)).ordered
  rw [hahead] at hordered
  have hpair : [opening, closing].Sublist (opening :: (inner ++ closing :: t.ahead)) :=
    .cons_cons _ (List.singleton_sublist.mpr (by simp))
  obtain ⟨hstart, hstop⟩ := hordered.merge_eq hpair
  exact ⟨front, opening, inner, closing, t.ahead, by rw [hahead], hleft, hinner, hright,
    by rw [hnote, hstop], by rw [hnote, hstart]⟩

theorem closed_of_choice {n : Nat} {s t : State} {choice : MatchStmt Span}
    (hplaced : Token.Placed fileId length tokens) (hs : s.ahead <:+ tokens)
    (hrun : Rule.choice (Level.allowing n) s = .ok choice t) :
    Closed tokens ⟨choice.note, some choice.subject.note⟩ := by
  obtain ⟨front, rfl⟩ := hs
  obtain ⟨u, opening, inner, closing, hsubject, hahead, hleft, hinner, hright, hnote⟩ :=
    Rule.choice_enclosed (Level.allowing_paired n) hrun
  obtain ⟨part, hreads, hderives⟩ :=
    Rule.condition_derives
      (show (Level.allowing n).DerivesStmts True from Level.allowing_derivesStmts n).exprs hsubject
  have hordered := (hplaced.sublist (List.sublist_append_right front _)).ordered
  have hnext : s.ahead = s.current :: (part ++ u.ahead) := by
    cases hnil : s.ahead with
    | nil =>
        have hadvance := hreads.ahead
        rw [State.advance, hahead] at hadvance
        simp [hnil] at hadvance
    | cons token rest => rw [← hreads.ahead, State.current_of_ahead hnil, State.advance, hnil]; rfl
  rw [hnext] at hordered ⊢
  have hderives' : (choice.subject.phrase .beforeBlock).Derives True part := hderives
  obtain ⟨first, last, -, hlast, hsubject⟩ := hderives'.exprCovers
    (hordered.sublist ((List.sublist_append_left part u.ahead).trans
      (List.sublist_cons_self _ _)))
  rw [hahead] at hordered ⊢
  have hpair : [s.current, closing].Sublist
      (s.current :: (part ++ opening :: (inner ++ closing :: t.ahead))) :=
    .cons_cons _ (List.singleton_sublist.mpr (by simp))
  obtain ⟨-, hstop⟩ := hordered.merge_eq hpair
  refine ⟨front ++ s.current :: part, opening, inner, closing, t.ahead, by simp, hleft, hinner,
    hright, by rw [hnote, hstop], last, ?_, by rw [hsubject]⟩
  simp [List.getLast?_append, List.getLast?_cons, hlast]

variable {note : Span} {name : Name Span} {p q : Phrase Span} {part : List Token}

theorem closed_of_derives (hplaced : Token.Placed fileId length tokens)
    (hpart : part <:+: tokens) (hq : q.Braced False)
    (h : (Phrase.node note (Phrase.concat [p, name.phrase, .symbol .leftBrace, q,
      .symbol .rightBrace])).Derives True part) : Closed tokens ⟨note, some name.note⟩ := by
  have hordered := hplaced.ordered.sublist hpart.sublist
  obtain ⟨front, back, rfl⟩ := hpart
  obtain ⟨⟨first, _, rfl, -, written, _, rfl, hname, _, _, rfl, ⟨opening, rfl, hleft⟩, inner, _,
    rfl, hinner, closing, rfl, hright⟩, hcovers⟩ := h
  obtain ⟨_, last, -, hlast, hnote⟩ := hcovers hordered
  obtain ⟨_, before, -, hbefore, hbehind⟩ :=
    Phrase.Derives.covers hname (hordered.sublist (by simp))
  obtain rfl : closing = last := by simpa [List.getLast?_append, List.getLast?_cons] using hlast
  refine ⟨front ++ (first ++ written), opening, inner, closing, back, by simp,
    Token.kind_of_terminal? hleft, ?_, Token.kind_of_terminal? hright, by rw [hnote], before, ?_,
    by rw [hbehind]⟩
  · exact hq.closed (hinner.plain (fun _ _ htoken => htoken) fun _ hbegins =>
      (hq.opened hbegins).1)
  · simp [List.getLast?_append, hbefore]

variable {phrase : Phrase Span}

theorem closed_of_expr (hplaced : Token.Placed fileId length tokens)
    (h : phrase.Derives True tokens) {expr : Expr Span} {place : Place}
    (hwithin : (expr.phrase place).Within phrase) :
    ∀ enclosure ∈ expr.enclosure?, Closed tokens enclosure := by
  obtain ⟨part, hpart, hexpr⟩ := hwithin.spelled h
  cases expr with
  | record type inits note =>
      rw [Expr.phrase] at hexpr
      have hbraced : (Phrase.commas (FieldInit.phrases inits)).Braced False :=
        .commas (FieldInit.list_braced inits)
      simpa [Expr.enclosure?] using closed_of_derives hplaced hpart hbraced hexpr
  | _ => simp [Expr.enclosure?]

theorem closed_of_definition (hplaced : Token.Placed fileId length tokens)
    (h : phrase.Derives True tokens) {definition : Definition Span}
    (hwithin : definition.phrase.Within phrase) :
    ∀ enclosure ∈ definition.enclosure?, Closed tokens enclosure := by
  obtain ⟨part, hpart, hdefinition⟩ := hwithin.spelled h
  cases definition with
  | struct def_ | union def_ =>
      have hbraced : (Phrase.commas (def_.fields.map TypedName.phrase)).Braced False :=
        .commas (TypedName.list_braced def_.fields)
      simpa [Definition.enclosure?] using closed_of_derives hplaced hpart hbraced hdefinition
  | enum def_ =>
      have hbraced : (Phrase.commas (def_.variants.map Variant.phrase)).Braced False :=
        .commas fun _ hmem => by
          obtain ⟨variant, -, rfl⟩ := List.mem_map.mp hmem
          exact variant.braced
      simpa [Definition.enclosure?] using closed_of_derives hplaced hpart hbraced hdefinition
  | _ => simp [Definition.enclosure?]

theorem allowing_admits_closed (hplaced : Token.Placed fileId length tokens) (n : Nat) :
    (Level.allowing n).Admits tokens fun part =>
      ∀ enclosure ∈ part.enclosures, Closed tokens enclosure where
  expr place := .of_framed ((Level.allowing_framed n).expr place 0) fun _ _ => by
    simp [Part.enclosures]
  typeExpr := .of_framed (Level.allowing_framed n).typeExpr fun _ _ => by simp [Part.enclosures]
  block := .of_framed (Level.allowing_framed n).block fun hs hrun => by
    cases n with
    | zero => cases hrun
    | succ n =>
        simpa [Part.enclosures] using
          closed_of_block (Level.allowing_paired n) hplaced hs hrun
  choice := .of_framed (Level.allowing_framed n).choice fun hs hrun => by
    cases n with
    | zero => cases hrun
    | succ n => simpa [Part.enclosures] using closed_of_choice hplaced hs hrun

end Enclosure

/-- In the tree of any source, each block and match, each struct literal, and each definition
of a struct, a union or an enum ends with a closing brace, and between its opening brace and
this one, the tokens close each brace that they open. -/
theorem analyse_enclosures_closed (source : String) (fileId : Nat) :
    ∀ enclosure ∈ (analyse source fileId).module.enclosures,
      ∃ front opening inner closing back,
        bodyTokens source fileId = front ++ opening :: (inner ++ closing :: back) ∧
        opening.kind = .symbol .leftBrace ∧ Balanced inner ∧
        closing.kind = .symbol .rightBrace ∧ closing.span.stop = enclosure.note.stop ∧
        match enclosure.behind with
        | none => opening.span.start = enclosure.note.start
        | some before => ∃ last ∈ front.getLast?, last.span.stop = before.stop := by
  have hplaced := Token.Placed.of_follow (bodyTokens_follow source fileId)
  obtain ⟨⟨module, after⟩, hread⟩ : ∃ result,
      (Reading.ofSource source fileId).readModule = result := ⟨_, rfl⟩
  obtain ⟨hderives, -⟩ := ofSource_readModule hread fun _ => trivial
  have hparts := parts_of_admits fun n _ =>
    Enclosure.allowing_admits_closed hplaced n
  rw [analyse_eq hread] at hparts ⊢
  intro enclosure hmem
  rcases List.mem_append.mp hmem with hmem | hmem
  · rcases List.mem_append.mp hmem with hmem | hmem
    · exact forall_mem_flatMap.mpr hparts enclosure hmem
    · obtain ⟨expr, hexpr, henclosure⟩ := List.mem_filterMap.mp hmem
      obtain ⟨place, hwithin⟩ := module.phrase_contains expr hexpr
      exact Enclosure.closed_of_expr hplaced hderives hwithin enclosure henclosure
  · obtain ⟨item, hitem, henclosure⟩ := List.mem_filterMap.mp hmem
    have hwithin : item.phrase.Within module.phrase :=
      Phrase.within_gapped (List.mem_map_of_mem hitem)
    cases item with
    | import_ source => cases henclosure
    | declaration decl =>
        exact Enclosure.closed_of_definition hplaced hderives
          (.trans (.node _ (.second _ (.refl _))) hwithin) enclosure henclosure

/-- A failed statement with a block of its own does not shift the end of the block around
it. -/
theorem analyse_enclosures_closed_recovery :
    ⟨⟨7, 27, 0⟩, none⟩ ∈ (analyse "fn f() \x7b if \x7b break; \x7d x; \x7d" 0).module.enclosures ∧
      ∃ front opening inner closing back,
        bodyTokens "fn f() \x7b if \x7b break; \x7d x; \x7d" 0 =
          front ++ opening :: (inner ++ closing :: back) ∧
        opening.kind = .symbol .leftBrace ∧ Balanced inner ∧
        closing.kind = .symbol .rightBrace ∧ closing.span.stop = 27 ∧ opening.span.start = 7 :=
  have hmem : ⟨⟨7, 27, 0⟩, none⟩ ∈
      (analyse "fn f() \x7b if \x7b break; \x7d x; \x7d" 0).module.enclosures := by
    decide +kernel
  ⟨hmem, analyse_enclosures_closed _ _ _ hmem⟩

end SourceFront
