import SourceFront.Proofs.Diagnosis
import SourceFront.Proofs.Recognition.Item
import SourceFront.Proofs.Sequence

/-!
Items among tokens that belong to none. Each item is read as if it stood alone, and each
run of other tokens is passed over with one problem, at its first token.
-/

namespace SourceFront

variable {α : Type} {tokens rest : List Token}

/-- The problem of a token at which an item should begin. -/
def Token.strayProblem (token : Token) : Problem :=
  ⟨.unexpectedToken "declaration (`fn`, `struct`, `union`, `enum`, `extern`, `const`, `let`)"
    token.describe, token.span⟩

/-- None of the tokens can begin an item, and the first of them is not malformed. -/
structure Stray (tokens : List Token) : Prop where
  begins : ∀ token ∈ tokens, token.kind.beginsItem = false
  valid : ∀ token ∈ tokens.head?, token.kind ≠ .invalid

/-- The tokens spell the item, which is nested no deeper than is allowed, and the last of
them is a semicolon or a closing brace. -/
structure Item.WrittenBy (item : Item α) (tokens : List Token) : Prop where
  spelled : item.phrase.Spelled .plain tokens
  fits : item.phrase.nesting ≤ Level.limit
  ends : ∀ token ∈ tokens.getLast?, token.endsItem = true

/-- The tokens of an item, and in front of them the tokens that belong to none. -/
structure Item.Part (α : Type) where
  stray : List Token
  item : Item α
  tokens : List Token

namespace Item.Part

/-- The stray tokens and the item behind them. -/
def all (part : Part α) : List Token :=
  part.stray ++ part.tokens

/-- The stray tokens begin no item, and the others are those of the item. -/
structure Valid (part : Part α) : Prop where
  stray : Stray part.stray
  written : part.item.WrittenBy part.tokens

/-- The items were read from the tokens of the parts: each as from its tokens alone, and as
the item that they spell. -/
def Yield (parts : List (Part α)) (items : List (Item Span)) : Prop :=
  List.Forall₂ (fun part value =>
    (Reading.ofTokens part.tokens).readModule.1.items = [value] ∧
      value.map forget = part.item.map forget) parts items

/-- The problems of the runs of tokens that belong to no item, the last of them behind the
parts. -/
def strayProblems (parts : List (Part α)) (last : List Token) : List Problem :=
  (parts.map stray ++ [last]).filterMap fun run => run.head?.map Token.strayProblem

end Item.Part

theorem itemRest_append_of_stray (hstray : ∀ token ∈ tokens, token.kind.beginsItem = false)
    (hgoes : ∀ token ∈ tokens, token.kind ≠ .eof) (hrest : itemRest rest = 0) :
    itemRest (tokens ++ rest) = tokens.length := by
  induction tokens with
  | nil => exact hrest
  | cons token tokens ih =>
      have hmore : ¬ (token.isEof || token.kind.beginsItem) = true := by
        simp [Token.isEof, hgoes token (by simp), hstray token (by simp)]
      rw [List.cons_append, itemRest, if_neg hmore,
        ih (fun other hmem => hstray other (by simp [hmem]))
          fun other hmem => hgoes other (by simp [hmem]), List.length_cons, Nat.add_comm]

namespace State

variable {s t : State}

theorem ofTokens_ahead (h : ∀ token ∈ tokens.getLast?, token.isEof = false) :
    (ofTokens tokens).ahead = tokens ∧ (ofTokens tokens).problems = [] := by
  unfold ofTokens
  dsimp only
  split
  next hnone => exact ⟨(List.getLast?_eq_none_iff.mp hnone).symm, rfl⟩
  next token hlast =>
    rw [if_neg (by simp [h token hlast])]
    exact ⟨rfl, rfl⟩

theorem isEof_of_begins (h : s.current.kind.beginsItem = true) : s.current.isEof = false := by
  cases hkind : s.current.kind <;> simp_all [Token.isEof, TokenKind.beginsItem]

theorem itemRest_of_begins (h : s.current.kind.beginsItem = true) : itemRest s.ahead = 0 := by
  obtain ⟨rest, hahead⟩ := ahead_of_current (s := s)
    (by simpa [Token.isEof] using isEof_of_begins h)
  rw [hahead, itemRest, h, Bool.or_true, if_pos rfl]

/-- No token ahead is the end, each starts before those behind it, and the problems
reported before all start before them. -/
structure Orderly (s : State) : Prop where
  goes : ∀ token ∈ s.ahead, token.kind ≠ .eof
  ordered : s.ahead.Pairwise fun a b => a.span.start < b.span.start
  before : ∀ problem ∈ s.problems, ∀ token ∈ s.ahead, problem.start < token.span.start

theorem Orderly.of_append (h : s.Orderly) (hahead : s.ahead = tokens ++ t.ahead)
    (hproblems : ∀ problem ∈ t.problems, problem ∈ s.problems ∨
      ∃ token ∈ tokens, problem.start = token.span.start) : t.Orderly := by
  obtain ⟨-, hordered, hacross⟩ := List.pairwise_append.mp (hahead ▸ h.ordered)
  have hmem {token : Token} (hmem : token ∈ t.ahead) : token ∈ s.ahead := by
    rw [hahead]
    exact List.mem_append_right tokens hmem
  refine ⟨fun token hahead => h.goes token (hmem hahead), hordered, ?_⟩
  intro problem hproblem token hahead
  rcases hproblems problem hproblem with hbefore | ⟨first, hfirst, hstart⟩
  · exact h.before problem hbefore token (hmem hahead)
  · exact hstart ▸ hacross first hfirst token hahead

theorem report_of_fresh {problem : Problem} (hvalid : s.current.kind ≠ .invalid)
    (hfresh : ∀ earlier ∈ s.problems, earlier.start < problem.start) :
    s.report problem = s.noting (s.problems ++ [problem]) := by
  rw [State.report, if_neg fun hinvalid => hvalid hinvalid.1, if_neg, noting]
  cases hlast : s.problems.getLast? with
  | none => simp
  | some last => simpa using Nat.ne_of_lt (hfresh last (List.mem_of_getLast? hlast))

theorem Orderly.fresh (h : s.Orderly) {token : Token} {problem : Problem} (hmem : token ∈ s.ahead)
    (hspan : problem.span = token.span) :
    ∀ earlier ∈ s.problems, earlier.start < problem.start := by
  intro earlier hearlier
  rw [Problem.start, Problem.start, hspan]
  exact h.before earlier hearlier token hmem

end State

namespace Rule

variable {level : Level} {s t : State} {read : List (Item Span)}

theorem item_of_stray (h : s.current.kind.beginsItem = false) :
    item level s = .error s.current.strayProblem s := by
  have hnot {k : Keyword} (hbegins : k.beginsItem = true) :
      s.current.kind ≠ .keyword k := by
    intro hkind
    rw [hkind] at h
    exact absurd (h.symm.trans hbegins) Bool.false_ne_true
  have hdefinition : definition level s = .error s.current.strayProblem s := by
    rw [definition, current_bind]
    generalize s.current.kind = kind at h
    cases kind with
    | keyword k => cases k <;> first | rfl | cases h
    | _ => rfl
  have hdeclaration : declaration level s = .error s.current.strayProblem s := by
    rw [declaration, current_bind, take?_bind, if_neg (hnot rfl), bind_of_error hdefinition]
  rw [item, isAt_bind, decide_eq_false (hnot rfl), if_neg Bool.false_ne_true,
    bind_of_error hdeclaration]

theorem moduleRound_of_stray (level : Level) {token : Token} (hstray : Stray (token :: tokens))
    (hahead : s.ahead = (token :: tokens) ++ rest) (horderly : s.Orderly)
    (hrest : itemRest rest = 0) (read : List (Item Span)) :
    moduleRound level read s = .ok (.more read)
      ((s.skip (tokens.length + 1)).noting (s.problems ++ [token.strayProblem])) := by
  have hcurrent : s.current = token := State.current_of_ahead hahead
  have hmore : s.current.isEof = false := by
    simpa [hcurrent, Token.isEof] using horderly.goes token (by simp [hahead])
  have hitem : item level s = .error token.strayProblem s := by
    rw [← hcurrent]
    exact item_of_stray (hcurrent ▸ hstray.begins token (by simp))
  have hreport : s.report token.strayProblem = s.noting (s.problems ++ [token.strayProblem]) :=
    State.report_of_fresh (hcurrent ▸ hstray.valid token rfl)
      (horderly.fresh (by simp [hahead]) rfl)
  have hskip : itemRest s.advance.ahead = tokens.length := by
    have hadvance : s.advance.ahead = tokens ++ rest := by simp [State.advance, hahead]
    rw [hadvance]
    refine itemRest_append_of_stray (fun other hmem => hstray.begins other (by simp [hmem])) ?_
      hrest
    exact fun other hmem => horderly.goes other (by simp [hahead, hmem])
  have hrecover : recover (item level) State.skipItem s = .ok none
      ((s.skip (tokens.length + 1)).noting (s.problems ++ [token.strayProblem])) := by
    have hread : State.readSince s (s.noting (s.problems ++ [token.strayProblem])) = [] := by
      rw [State.readSince, State.noting, Nat.sub_self, List.take_zero]
    rw [recover, hitem]
    dsimp only
    rw [hreport, State.skipItem, hread, List.isEmpty_nil, if_pos rfl, ← State.skip_noting,
      State.skip, ← hskip]
    rfl
  rw [moduleRound, current_bind, hmore, if_neg Bool.false_ne_true, bind_of_ok hrecover]
  simp [pure_apply]

/-- Stray tokens in front of an item, or of the end, may be none. -/
theorem iterate_moduleRound_of_stray (level : Level) (hstray : Stray tokens)
    (hahead : s.ahead = tokens ++ rest) (horderly : s.Orderly) (hrest : itemRest rest = 0)
    (read : List (Item Span)) :
    ∃ u, iterate (moduleRound level) read s = iterate (moduleRound level) read u ∧
      u.ahead = rest ∧ u.Orderly ∧
      u.problems = s.problems ++ (tokens.head?.map Token.strayProblem).toList := by
  cases tokens with
  | nil => exact ⟨s, rfl, hahead, horderly, (List.append_nil _).symm⟩
  | cons token tokens =>
      have hround := moduleRound_of_stray level hstray hahead horderly hrest read
      have hbehind : (s.skip (tokens.length + 1)).ahead = rest := by
        rw [State.skip_ahead, hahead]
        exact List.drop_left
      refine ⟨_, iterate_of_more hround ?_, hbehind,
        horderly.of_append (hahead.trans (congrArg ((token :: tokens) ++ ·) hbehind.symm)) ?_, rfl⟩
      · rw [State.noting, hbehind, hahead, List.length_append, List.length_cons]
        omega
      · intro problem hmem
        rcases List.mem_append.mp hmem with hmem | hmem
        · exact .inl hmem
        · obtain rfl := List.mem_singleton.mp hmem
          exact .inr ⟨token, List.mem_cons_self, rfl⟩

theorem beginsItem_of_item {value : Item Span} (h : item level s = .ok value t) :
    s.current.kind.beginsItem = true := by
  by_contra hstray
  rw [item_of_stray (Bool.eq_false_iff.mpr hstray)] at h
  cases h

theorem items_of_item {value : Item Span} (h : item level s = .ok value t) (hend : t.ahead = []) :
    items level s = .ok [value] t := by
  have hgoes := State.isEof_of_begins (beginsItem_of_item h)
  obtain ⟨rest, hahead⟩ := State.ahead_of_current (s := s) (by simpa [Token.isEof] using hgoes)
  have hend' : t.current.isEof = true := by
    rw [State.current, hend]
    rfl
  rw [items, iterate_of_more (moduleRound_of_item hgoes h) (by simp [hend, hahead]),
    iterate_of_last (moduleRound_of_end hend'), List.nil_append]

/-- What is read as an item up to the end is read as that item also if more follows, behind
other tokens and other problems. -/
theorem item_anywhere {alone : State} {value : Item Span}
    (h : item .outermost alone = .ok value t) (hclean : alone.Clean) (hends : alone.EndsItem)
    (hend : t.ahead = []) (hquiet : t.problems = []) (hahead : s.ahead = alone.ahead ++ rest) :
    item .outermost s = .ok value { s with last := t.last, ahead := rest } := by
  have hnoting := (item_framed (Level.allowing_framed _)).quiet h hclean hquiet s.problems
  obtain ⟨hne, hextend⟩ :=
    Level.item_closed _ (alone.noting s.problems) _ _ hends hnoting
  have hs : s = { (alone.noting s.problems).extend rest s.stop with last := s.last } := by
    simp only [State.extend, State.noting, ← hahead]
  have ht : (t.noting s.problems).extend rest s.stop =
      { s with last := t.last, ahead := rest } := by
    simp only [State.extend, State.noting, hend, List.nil_append]
  rw [← ht, ← hextend rest s.stop]
  rcases item_forgets ((alone.noting s.problems).extend rest s.stop) s.last
    (List.append_ne_nil_of_left_ne_nil hne rest) with hsame | ⟨problem, hfails, -⟩
  · rw [← hsame, ← hs]
    rfl
  · cases (hextend rest s.stop).symm.trans hfails

theorem item_of_written {item : Item α} (h : item.WrittenBy tokens) :
    ∃ value last, value.map forget = item.map forget ∧
      (Reading.ofTokens tokens).readModule.1.items = [value] ∧
      ∀ (s : State) (rest : List Token), s.ahead = tokens ++ rest →
        Rule.item .outermost s = .ok value { s with last, ahead := rest } := by
  have hgoes : ∀ token ∈ tokens.getLast?, token.isEof = false := by
    intro token hlast
    have hends := h.ends token hlast
    cases hkind : token.kind <;> simp_all [Token.endsItem, Token.isEof]
  obtain ⟨hahead, hproblems⟩ := State.ofTokens_ahead hgoes
  generalize hstate : State.ofTokens tokens = alone at hahead hproblems
  subst hahead
  have hclean : alone.Clean := ⟨hproblems, h.spelled.kind_ne_invalid⟩
  have hspells := Phrase.between_of_spelled h.spelled (List.append_nil _).symm hclean
  have hend : (alone.skip alone.ahead.length).ahead = [] := by
    rw [State.skip_ahead, List.drop_length]
  generalize alone.skip alone.ahead.length = t at hspells hend
  have hnext : t.current.kind.followsItem = true := by
    rw [State.current, hend]
    rfl
  obtain ⟨value, hitem, hshape⟩ :=
    (item_gives (Level.allowing_recognises Level.limit) hspells hnext).ok h.fits
  have hitems : items .outermost alone = .ok [value] t := items_of_item hitem hend
  refine ⟨value, t.last, hshape, ?_, fun s rest hs => ?_⟩
  · simp only [Reading.readModule, Reading.ofTokens, hstate, hitems]
  · exact item_anywhere hitem hclean h.ends hend hspells.clean_end.1 hs

theorem iterate_moduleRound_of_parts {parts : List (Item.Part α)} {last : List Token}
    (hparts : ∀ part ∈ parts, part.Valid) (hlast : Stray last) (horderly : s.Orderly)
    (hahead : s.ahead = parts.flatMap Item.Part.all ++ last) (read : List (Item Span)) :
    ∃ values u, iterate (moduleRound .outermost) read s = .ok (read ++ values) u ∧
      Item.Part.Yield parts values ∧
      u.problems = s.problems ++ Item.Part.strayProblems parts last := by
  induction parts generalizing s read with
  | nil =>
      obtain ⟨u, hrun, hend, -, hproblems⟩ := iterate_moduleRound_of_stray .outermost hlast
        (hahead.trans (List.append_nil last).symm) horderly rfl read
      have hends : u.current.isEof = true := by
        rw [State.current, hend]
        rfl
      refine ⟨[], u, ?_, .nil, ?_⟩
      · rw [hrun, iterate_of_last (moduleRound_of_end hends), List.append_nil]
      · rw [hproblems]
        cases last <;> rfl
  | cons part parts ih =>
      obtain ⟨hstray, hwritten⟩ := hparts part List.mem_cons_self
      obtain ⟨value, after, hshape, halone, hitem⟩ := item_of_written hwritten
      rw [List.flatMap_cons, Item.Part.all, List.append_assoc, List.append_assoc] at hahead
      -- Read in any place, the item begins with a token at which the stray ones end.
      have hrest : itemRest (part.tokens ++ (parts.flatMap Item.Part.all ++ last)) = 0 :=
        State.itemRest_of_begins (beginsItem_of_item (hitem { s with ahead := _ } _ rfl))
      obtain ⟨u, hrun, hu, horderly', hproblems⟩ :=
        iterate_moduleRound_of_stray .outermost hstray hahead horderly hrest read
      have hround := hitem u _ hu
      have hgoes : u.current.isEof = false := State.isEof_of_begins (beginsItem_of_item hround)
      have hlt := item_consumes (Level.allowing_consuming _) u _ value hround
      obtain ⟨values, v, hrest', hyield, hproblems'⟩ := ih
        (s := { u with last := after, ahead := parts.flatMap Item.Part.all ++ last })
        (fun other hmem => hparts other (List.mem_cons_of_mem part hmem))
        (horderly'.of_append hu fun problem hmem => .inl hmem) rfl (read ++ [value])
      refine ⟨value :: values, v, ?_, .cons ⟨halone, hshape⟩ hyield, ?_⟩
      · rw [hrun, iterate_of_more (moduleRound_of_item hgoes hround) hlt, hrest',
          List.append_assoc, List.singleton_append]
      · rw [hproblems', hproblems, List.append_assoc, Item.Part.strayProblems]
        cases hhead : part.stray.head? <;>
          simp [Item.Part.strayProblems, List.filterMap_cons, hhead]

end Rule

variable {source : String} {fileId : Nat}

theorem ofSource_orderly (source : String) (fileId : Nat) :
    (Reading.ofSource source fileId).state.Orderly := by
  obtain ⟨hahead, -, hproblems⟩ := ofSource_state source fileId
  have hfollow := bodyTokens_follow source fileId
  have hordered := tokens_pairwise source fileId
  rw [tokens_eq_append] at hordered
  refine ⟨fun token hmem => ?_, hahead ▸ (List.pairwise_append.mp hordered).1, ?_⟩
  · exact (hfollow.of_mem (hahead ▸ hmem)).2.2.2.2
  · simp [hproblems]

/-- Items that each end with a semicolon or a closing brace, and runs of tokens that can
begin no item between them: the items are read as if each stood alone, and the problems
besides those of the tokens themselves are one at the first token of each run. -/
theorem analyse_parts {parts : List (Item.Part α)} {last : List Token}
    (hparts : ∀ part ∈ parts, part.Valid) (hlast : Stray last)
    (hbody : bodyTokens source fileId = parts.flatMap Item.Part.all ++ last) :
    Item.Part.Yield parts (analyse source fileId).module.items ∧
      (analyse source fileId).diagnostics.toList =
        (SourceOrder.sort Problem.start (lexicalProblems source fileId ++
          Item.Part.strayProblems parts last)).map Diagnostic.ofProblem := by
  obtain ⟨values, after, hitems, hyield, hproblems⟩ := Rule.iterate_moduleRound_of_parts hparts
    hlast (ofSource_orderly source fileId) ((ofSource_state source fileId).1.trans hbody) []
  obtain ⟨hmodule, hdiagnostics⟩ := analyse_of_items hitems
  rw [(ofSource_state source fileId).2.2, List.nil_append] at hproblems
  exact ⟨hmodule ▸ hyield, hproblems ▸ hdiagnostics⟩

/-- The parts of `} # import "a"; ) let x = 1; loop`, but for the last token. -/
def Item.Part.sample : List (Item.Part Unit) :=
  let tokens := bodyTokens "\x7d # import \"a\"; ) let x = 1; loop" 0
  let one : Expr Unit := .constant (.number "1") ()
  [⟨tokens.take 2, .import_ ⟨"a", ()⟩, (tokens.drop 2).take 3⟩,
    ⟨(tokens.drop 5).take 1, .declaration ⟨false, .variable_ ⟨⟨"x", ()⟩, none, one, ()⟩, ()⟩,
      (tokens.drop 6).take 5⟩]

theorem analyse_parts_sample :
    let source := "\x7d # import \"a\"; ) let x = 1; loop"
    let last := (bodyTokens source 0).drop 11
    (∀ part ∈ Item.Part.sample, part.Valid) ∧ Stray last ∧
      bodyTokens source 0 = Item.Part.sample.flatMap Item.Part.all ++ last ∧
      Item.Part.Yield Item.Part.sample (analyse source 0).module.items ∧
      (analyse source 0).diagnostics.toList =
        (SourceOrder.sort Problem.start (lexicalProblems source 0 ++
          Item.Part.strayProblems Item.Part.sample last)).map Diagnostic.ofProblem := by
  intro source last
  have hstray (tokens : List Token)
      (h : (tokens.all fun token => !token.kind.beginsItem) = true ∧
        ∀ token ∈ tokens.head?, token.kind ≠ .invalid) : Stray tokens :=
    ⟨by simpa using h.1, h.2⟩
  have hparts : ∀ part ∈ Item.Part.sample, part.Valid := by
    simp only [Item.Part.sample, List.forall_mem_cons, List.not_mem_nil, false_implies,
      implies_true, and_true]
    refine ⟨⟨hstray _ (by decide +kernel), Phrase.spelled_of_terminals (by decide +kernel)
      (by decide +kernel), by decide +kernel, by decide +kernel⟩, ⟨hstray _ (by decide +kernel),
      Phrase.spelled_of_terminals (by decide +kernel) (by decide +kernel), by decide +kernel,
      by decide +kernel⟩⟩
  have hlast : Stray last := hstray _ (by decide +kernel)
  have hbody : bodyTokens source 0 = Item.Part.sample.flatMap Item.Part.all ++ last := by
    decide +kernel
  exact ⟨hparts, hlast, hbody, analyse_parts hparts hlast hbody⟩

end SourceFront
