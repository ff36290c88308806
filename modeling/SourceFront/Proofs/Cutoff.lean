import SourceFront.Proofs.Cutoff.Rules
import SourceFront.Proofs.Isolation

/-!
Functions that break off between two statements, with an item behind them. The block that
breaks off ends there, for want of its closing brace. If it is the body of the function,
the item behind it is read next. If it stands in another block, the statement it belongs to
is given up; the brace that is open in it is then looked for among the items behind, and
these are lost.
-/

namespace SourceFront

variable {α : Type}

namespace Rule

variable {level : Level} {s u : State}

theorem moduleRound_of_lacks {problems : List Problem} (h : (Rule.item level).Lacks s u)
    (hgoes : s.current.isEof = false) (hlt : u.ahead.length < s.ahead.length)
    (hreport : u.report u.current.missingBrace = u.noting problems)
    (hrest : itemRest u.ahead = 0) (read : List (Item Span)) :
    moduleRound level read s = .ok (.more read) (u.noting problems) := by
  have hread : (State.readSince s (u.noting problems)).isEmpty = false := by
    have hlength : (u.noting problems).ahead.length = u.ahead.length := rfl
    rw [List.isEmpty_eq_false_iff, ← List.length_pos_iff, State.readSince, List.length_take,
      hlength]
    omega
  have hrecover : recover (Rule.item level) State.skipItem s = .ok none (u.noting problems) := by
    rw [recover, h]
    dsimp only
    rw [hreport, State.skipItem, hread, if_neg Bool.false_ne_true,
      show itemRest (u.noting problems).ahead = 0 from hrest, State.skip]
  rw [moduleRound, current_bind, hgoes, if_neg Bool.false_ne_true, bind_of_ok hrecover]
  simp [pure_apply]

end Rule

theorem Phrase.Begins.kind_ne_invalid {p : Phrase α} {tokens : List Token} (h : p.Begins tokens) :
    ∀ token ∈ tokens, token.kind ≠ .invalid := by
  induction p generalizing tokens with
  | empty | terminal | either | provided => exact h.elim
  | gap =>
      obtain rfl : tokens = [] := h
      simp
  | seq first second ih ih' =>
      rcases h with h | ⟨front, back, rfl, hfront, hback⟩
      · exact ih h
      · intro token hmem
        rcases List.mem_append.mp hmem with hmem | hmem
        · exact hfront.kind_ne_invalid token hmem
        · exact ih' hback token hmem
  | deeper inner ih | node note inner ih => exact ih h

theorem State.ofTokens_concat_eof (tokens : List Token) (stop : Span) :
    (ofTokens (tokens ++ [.eof stop])).ahead = tokens ∧
      (ofTokens (tokens ++ [.eof stop])).stop = stop ∧
      (ofTokens (tokens ++ [.eof stop])).problems = [] := by
  simp [ofTokens, Token.isEof, Token.eof]

theorem Rule.items_behind {module : Module α} {tokens : List Token} {s : State}
    (h : module.phrase.Spelled .plain tokens) (hfits : module.phrase.nesting ≤ Level.limit)
    (hahead : s.ahead = tokens) :
    ∃ u, Rule.items .outermost s =
        .ok (Reading.ofTokens (tokens ++ [.eof s.stop])).readModule.1.items u ∧
      u.problems = s.problems ∧
      (Reading.ofTokens (tokens ++ [.eof s.stop])).readModule.1.items.map (Item.map forget) =
        module.items.map (Item.map forget) := by
  obtain ⟨hahead', hstop, hproblems⟩ := State.ofTokens_concat_eof tokens s.stop
  generalize hstate : State.ofTokens (tokens ++ [.eof s.stop]) = alone at hahead' hstop hproblems
  have hclean : alone.Clean := ⟨hproblems, hahead' ▸ h.kind_ne_invalid⟩
  have hspells := Phrase.between_of_spelled h (by rw [hahead', List.append_nil]) hclean
  have hend : (alone.skip tokens.length).current.kind = .eof := by
    rw [State.current, State.skip_ahead, hahead', List.drop_length]
    rfl
  obtain ⟨items, hitems, hshapes⟩ := (module_gives (Level.allowing_recognises Level.limit)
    (Level.allowing_framed _) hspells hend).ok hfits
  have hread : (Reading.ofTokens (tokens ++ [.eof s.stop])).readModule.1.items = items := by
    rw [← Level.outermost] at hitems
    simp only [Reading.readModule, Reading.ofTokens, hstate, hitems]
  have hbehind := (items_framed (Level.allowing_framed _)).quiet hitems hclean
    hspells.clean_end.1 s.problems
  obtain ⟨u, hu, hproblems'⟩ := iterate_moduleRound_last hbehind s.last
  have hs : { alone.noting s.problems with last := s.last } = s := by
    simp only [State.noting, hahead', hstop, ← hahead]
  rw [hs] at hu
  rw [hread]
  exact ⟨u, hu, hproblems', hshapes⟩

/-- Behind an item that breaks off the items are read, or lost with all that follows. -/
theorem Rule.items_of_breaks {item : Item α} {module : Module α} {s t : State}
    (h : item.phrase.Breaks s t) (hfits : item.phrase.nesting ≤ Level.limit)
    (hgoes : s.current.isEof = false) (hitem : t.AtItem)
    (hmodule : module.phrase.Spelled .plain t.ahead)
    (hfits' : module.phrase.nesting ≤ Level.limit) :
    ∃ tokens values u, s.Reads tokens t ∧ items .outermost s = .ok values u ∧
      (openBraces tokens = 1 ∧
          values = (Reading.ofTokens (t.ahead ++ [.eof t.stop])).readModule.1.items ∧
          values.map (Item.map forget) = module.items.map (Item.map forget) ∧
          u.problems = [t.current.missingBrace] ∨
        1 < openBraces tokens ∧ values = [] ∧
          u.problems = [t.current.missingBrace, (Token.eof t.stop).missingBrace]) := by
  obtain ⟨tokens, u, hreads, hlacks, hu⟩ := item_lacks h hitem hfits
  rw [← Level.outermost] at hlacks
  have hlt : t.ahead.length < s.ahead.length := by
    have hne : tokens ≠ [] := by
      rintro rfl
      rcases hu with ⟨-, hbraces⟩ | ⟨-, hbraces⟩
      · cases hbraces
      · exact absurd hbraces (by decide)
    have hpos := List.length_pos_iff.mpr hne
    rw [hreads.ahead, List.length_append]
    omega
  refine ⟨tokens, ?_⟩
  rcases hu with ⟨rfl, hbraces⟩ | ⟨hlost, hbraces⟩
  · have hround := moduleRound_of_lacks hlacks hgoes hlt hitem.report
      (State.itemRest_of_begins hitem.beginsItem) []
    obtain ⟨v, hitems, hproblems, hshapes⟩ :=
      items_behind (s := u.noting [u.current.missingBrace]) hmodule hfits' rfl
    exact ⟨_, v, hreads, (iterate_of_more hround hlt).trans hitems,
      .inl ⟨hbraces, rfl, hshapes, hproblems⟩⟩
  · have hlt' : u.ahead.length < s.ahead.length := by
      rw [hlost.ahead]
      exact Nat.zero_lt_of_lt hlt
    have hreport := hlost.report hitem
    rw [← hlost.current] at hreport
    have hround := moduleRound_of_lacks hlacks hgoes hlt' hreport (by rw [hlost.ahead]; rfl) []
    have hend : (u.noting [t.current.missingBrace, u.current.missingBrace]).current.isEof =
        true := by
      rw [hlost.current, hlost.noting.current]
      rfl
    exact ⟨[], _, hreads, (iterate_of_more hround hlt').trans
      (iterate_of_last (moduleRound_of_end hend)), .inr ⟨hbraces, rfl, by rw [hlost.current]; rfl⟩⟩

variable {source : String} {fileId : Nat}

/-- A function that breaks off between two statements, and items behind it, of which the
first begins with a keyword that can begin no statement. If the body of the function is all
that is open, the items are read as if they stood alone, and the one problem besides those of
the tokens is the missing brace in front of them. If more is open, no item is read, and a
brace is missing at the end as well. -/
theorem analyse_cut {item : Item α} {module : Module α} {front rest : List Token} {first : Token}
    (hcut : item.phrase.Begins front) (hfits : item.phrase.nesting ≤ Level.limit)
    (hmodule : module.phrase.Spelled .plain (first :: rest))
    (hfits' : module.phrase.nesting ≤ Level.limit)
    (hfirst : first.kind.beginsItemOnly = true)
    (hbody : bodyTokens source fileId = front ++ first :: rest) :
    let stop := Token.eof ⟨source.utf8ByteSize, source.utf8ByteSize, fileId⟩
    0 < openBraces front ∧
    (openBraces front = 1 →
      (analyse source fileId).module.items =
          (Reading.ofTokens (first :: rest ++ [stop])).readModule.1.items ∧
        (analyse source fileId).module.items.map (Item.map forget) =
          module.items.map (Item.map forget) ∧
        (analyse source fileId).diagnostics.toList =
          (SourceOrder.sort Problem.start (lexicalProblems source fileId ++
            [first.missingBrace])).map Diagnostic.ofProblem) ∧
    (1 < openBraces front →
      (analyse source fileId).module.items = [] ∧
        (analyse source fileId).diagnostics.toList =
          (SourceOrder.sort Problem.start (lexicalProblems source fileId ++
            [first.missingBrace, stop.missingBrace])).map Diagnostic.ofProblem) := by
  intro stop
  obtain ⟨hahead, hstop, hproblems⟩ := ofSource_state source fileId
  have horderly := ofSource_orderly source fileId
  generalize hs : (Reading.ofSource source fileId).state = s at hahead hstop hproblems horderly
  rw [hbody] at hahead
  have hclean : s.Clean := by
    refine ⟨hproblems, fun token hmem => ?_⟩
    rw [hahead] at hmem
    exact (List.mem_append.mp hmem).elim (hcut.kind_ne_invalid token)
      (hmodule.kind_ne_invalid token)
  have hgoes : s.current.isEof = false := by
    obtain ⟨token, tokens, hcons⟩ :=
      List.exists_cons_of_ne_nil (l := s.ahead) (by simp [hahead])
    simpa [State.current_of_ahead hcons, Token.isEof] using horderly.goes token (by simp [hcons])
  have hbreaks := Phrase.breaks_of_begins hcut hahead hclean
  have hrest : (s.skip front.length).ahead = first :: rest := by
    rw [State.skip_ahead, hahead, List.drop_left]
  have hquiet := (State.skip_problems front.length s).trans hproblems
  have hlast := (State.skip_stop front.length s).trans hstop
  generalize s.skip front.length = t at hbreaks hrest hquiet hlast
  have hcurrent : t.current = first := State.current_of_ahead hrest
  have hitem : t.AtItem := by
    refine ⟨⟨hquiet, hrest ▸ hmodule.kind_ne_invalid⟩, hcurrent ▸ hfirst,
      hrest ▸ Module.balanced hmodule, ?_⟩
    have hmem : first ∈ bodyTokens source fileId := by simp [hbody]
    obtain ⟨-, hlt, hle, -⟩ := (bodyTokens_follow source fileId).of_mem hmem
    rw [hcurrent, hlast]
    exact Nat.ne_of_lt (Nat.lt_of_lt_of_le hlt hle)
  obtain ⟨tokens, values, u, hreads, hitems, hcases⟩ :=
    Rule.items_of_breaks hbreaks hfits hgoes hitem (hrest ▸ hmodule) hfits'
  obtain rfl : tokens = front := by
    have htokens := hreads.ahead
    rw [hahead, hrest] at htokens
    exact (List.append_cancel_right htokens).symm
  obtain ⟨hvalues, hdiagnostics⟩ := analyse_of_items (hs ▸ hitems)
  rw [hcurrent, hrest, hlast] at hcases
  rw [hvalues, hdiagnostics]
  rcases hcases with ⟨hbraces, hsame, hshapes, hfound⟩ | ⟨hbraces, hnone, hfound⟩
  · rw [hbraces, hfound]
    exact ⟨Nat.one_pos, fun _ => ⟨hsame, hshapes, rfl⟩, fun h => absurd h (Nat.lt_irrefl 1)⟩
  · rw [hnone, hfound]
    exact ⟨Nat.zero_lt_of_lt hbraces, fun h => absurd h (Nat.ne_of_gt hbraces),
      fun _ => ⟨rfl, rfl⟩⟩

/-- The item `fn f() {…}`, by its name and statements. -/
def Item.ofStmts (name : String) (stmts : List (Stmt Unit)) : Item Unit :=
  .declaration ⟨false, .function ⟨⟨⟨name, ()⟩, [], false, none, ()⟩, ⟨stmts, ()⟩, ()⟩, ()⟩

/-- The body of a function is open, and a block in the body as well. -/
theorem analyse_cut_open :
    let flat := "fn f() \x7b fn g() \x7b\x7d"
    let deep := "fn f() \x7b \x7b fn g() \x7b\x7d"
    ((analyse flat 0).module.items.map (Item.map forget) = [.ofStmts "g" []] ∧
      (analyse flat 0).diagnostics.toList.map Diagnostic.start = [9]) ∧
    (analyse deep 0).module.items = [] ∧
      (analyse deep 0).diagnostics.toList.map Diagnostic.start = [11, 20] := by
  intro flat deep
  let behind : Module Unit := ⟨[.ofStmts "g" []], ()⟩
  have hholds : behind.phrase.holds = true := by decide +kernel
  have hfits : behind.phrase.nesting ≤ Level.limit := by decide +kernel
  have hend {tokens : List Token} (h : tokens = []) : (Phrase.gap : Phrase Unit).Begins tokens := h
  constructor
  · let tokens := bodyTokens flat 0
    have hbody : tokens = tokens.take 5 ++ ⟨.keyword .fn, "fn", ⟨9, 11, 0⟩⟩ :: tokens.drop 6 := by
      decide +kernel
    have hcut : (Item.ofStmts "f" []).phrase.Begins (tokens.take 5) :=
      Phrase.Begins.behind 0 rfl rfl (.behind 1 rfl (by decide +kernel)
        (.behind 3 rfl (by decide +kernel) (.behind 1 rfl (by decide +kernel)
          (.inl (hend (by decide +kernel))))))
    obtain ⟨-, hone, -⟩ := analyse_cut hcut (by decide +kernel)
      (Phrase.spelled_of_terminals hholds (by decide +kernel)) hfits rfl hbody
    obtain ⟨-, hitems, hdiagnostics⟩ := hone (by decide +kernel)
    refine ⟨hitems, ?_⟩
    rw [hdiagnostics]
    decide +kernel
  · let tokens := bodyTokens deep 0
    have hbody : tokens = tokens.take 6 ++ ⟨.keyword .fn, "fn", ⟨11, 13, 0⟩⟩ :: tokens.drop 7 := by
      decide +kernel
    have hcut : (Item.ofStmts "f" [.block ⟨[], ()⟩]).phrase.Begins (tokens.take 6) :=
      Phrase.Begins.behind 0 rfl rfl (.behind 1 rfl (by decide +kernel)
        (.behind 3 rfl (by decide +kernel) (.behind 1 rfl (by decide +kernel)
          (.inl (.behind 0 rfl rfl (.inl (.behind 1 rfl (by decide +kernel)
            (.inl (hend (by decide +kernel))))))))))
    obtain ⟨-, -, hmore⟩ := analyse_cut hcut (by decide +kernel)
      (Phrase.spelled_of_terminals hholds (by decide +kernel)) hfits rfl hbody
    obtain ⟨hitems, hdiagnostics⟩ := hmore (by decide +kernel)
    refine ⟨hitems, ?_⟩
    rw [hdiagnostics]
    decide +kernel

end SourceFront
