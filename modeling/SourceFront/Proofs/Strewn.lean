import SourceFront.Proofs.Cutoff
import SourceFront.Proofs.MalformedLoop
import SourceFront.Proofs.Strewn.Item

/-!
Sources with malformed statements between the statements that are written. Each of them costs
one problem, and the module is read as if they were not there.
-/

namespace SourceFront

variable {α : Type} {module : Module α} {bits : List Bit} {source : String} {fileId : Nat}

theorem Bit.tokens_sublist (bits : List Bit) : (tokens false bits).Sublist (tokens true bits) := by
  induction bits with
  | nil => exact .slnil
  | cons bit bits ih =>
      cases bit with
      | token kept => exact ih.cons_cons kept
      | stray run => exact ih.trans (List.sublist_append_right run _)

/-- The module is read from a source into which runs of tokens are strewn: it is the one that is
read without them, and besides the problems of the tokens themselves there is one problem for
each run, of a token in it. -/
structure Module.Survives (module : Module α) (bits : List Bit) (source : String)
    (fileId : Nat) : Prop where
  items : (analyse source fileId).module.items = (Reading.ofTokens (Bit.tokens false bits ++
    [.eof ⟨source.utf8ByteSize, source.utf8ByteSize, fileId⟩])).readModule.1.items
  shapes : (analyse source fileId).module.items.map (Item.map forget) =
    module.items.map (Item.map forget)
  diagnostics : ∃ found, Located (Bit.runs true bits) found ∧
    (analyse source fileId).diagnostics.toList =
      (SourceOrder.sort Problem.start (lexicalProblems source fileId ++ found)).map
        Diagnostic.ofProblem

theorem Module.Survives.length_eq (h : module.Survives bits source fileId) :
    (analyse source fileId).diagnostics.toList.length =
      (lexicalProblems source fileId).length + (Bit.runs true bits).length := by
  obtain ⟨found, hfound, hdiagnostics⟩ := h.diagnostics
  rw [hdiagnostics, List.length_map, (SourceOrder.sort_perm _ _).length_eq, List.length_append,
    List.Forall₂.length_eq hfound]

/-- A module is read from a source as if nothing were strewn into it, and besides the problems of
the tokens themselves there is one problem for each run. -/
theorem Module.weathers {straying : Straying}
    (hstrewn : (Phrase.concat (module.items.map Item.phrase)).Strewn straying.allowed Level.limit
      bits)
    (hbody : bodyTokens source fileId = Bit.tokens true bits)
    (hfollowed : Bit.Followed straying.follows bits [])
    (hsteady : straying.steady (Reading.ofSource source fileId).state) :
    ∃ found, Located (Bit.sites straying.site true bits []) found ∧
      found.Pairwise (fun a b => a.start ≤ b.start) ∧
      (analyse source fileId).module.items = (Reading.ofTokens (Bit.tokens false bits ++
        [.eof ⟨source.utf8ByteSize, source.utf8ByteSize, fileId⟩])).readModule.1.items ∧
      (analyse source fileId).module.items.map (Item.map forget) =
        module.items.map (Item.map forget) ∧
      (analyse source fileId).diagnostics.toList =
        (SourceOrder.sort Problem.start (lexicalProblems source fileId ++ found)).map
          Diagnostic.ofProblem := by
  obtain ⟨hahead, hstop, hproblems⟩ := ofSource_state source fileId
  generalize hs : (Reading.ofSource source fileId).state = s at hahead hstop hproblems hsteady
  rw [hbody] at hahead
  have hweathers : Rule.Weathers straying s.stop (some s.last) (· = none) bits
      (Rule.items .outermost) := Rule.items_weather hstrewn []
  obtain ⟨value, _, hread⟩ := hweathers
  obtain ⟨last, found, -, hfound, -, hrun⟩ := hread true s []
    ⟨rfl, by simp, hahead.trans (List.append_nil _).symm, fun _ => hfollowed, hsteady⟩ rfl
  -- The same is read where the runs are left out, and that is what the module looks like.
  have hplain : module.phrase.Spelled .plain (Bit.tokens false bits) :=
    Phrase.spelled_gapped rfl hstrewn.spelled
  have hfits : module.phrase.nesting ≤ Level.limit := by
    rw [Module.phrase, Phrase.nesting_gapped_le, ← Phrase.nesting_concat_le]
    exact hstrewn.fits
  let alone : State := { s with ahead := Bit.tokens false bits }
  have hsteady' : straying.steady alone :=
    straying.steady_of_sublist hsteady (hahead ▸ Bit.tokens_sublist bits) rfl
  obtain ⟨last', found', -, -, -, hrun'⟩ := hread false alone []
    ⟨rfl, by simp [alone], (List.append_nil _).symm, by simp, hsteady'⟩ rfl
  obtain ⟨after, hitems, -, hshapes⟩ :=
    Rule.items_behind hplain hfits (rfl : alone.ahead = Bit.tokens false bits)
  obtain ⟨hsame, -⟩ : value = _ ∧ _ := by simpa using hrun'.symm.trans hitems
  rw [hproblems, List.nil_append] at hrun
  obtain ⟨hvalue, hdiagnostics⟩ := analyse_of_items (hs ▸ hrun)
  replace hvalue := hvalue.trans hsame
  exact ⟨found, hfound, items_problems_pairwise (hs ▸ hrun), hstop ▸ hvalue, hvalue ▸ hshapes,
    hdiagnostics⟩

/-- Runs of tokens that are given up where they stand in a block, each with a problem of one of its
tokens. -/
def Straying.givenUp : Straying where
  allowed n run := (Level.allowing n).GivesUp run
  follows _ := True
  site run _ := run
  steady := State.Orderly
  steady_of_sublist horderly hsub hproblems :=
    ⟨fun token hmem => horderly.goes token (hsub.subset hmem), horderly.ordered.sublist hsub,
      fun problem hmem token hmem' =>
        horderly.before problem (hproblems ▸ hmem) token (hsub.subset hmem')⟩
  head hrun := hrun.head
  round := by
    intro n run rest s hrun _ hahead horderly
    obtain ⟨problem, last, ⟨token, hmem, hspan⟩, hround⟩ := hrun.round hahead horderly
    refine ⟨problem, last, ⟨token, hmem, hspan⟩, horderly.of_append hahead ?_, hround⟩
    intro other hother
    rcases List.mem_append.mp hother with hother | hother
    · exact .inl hother
    · obtain rfl := List.mem_singleton.mp hother
      exact .inr ⟨token, hmem, congrArg Span.start hspan⟩

/-- A module whose functions are strewn with runs of tokens that are given up. -/
theorem Module.survives
    (hstrewn : (Phrase.concat (module.items.map Item.phrase)).Strewn
      (fun n run => (Level.allowing n).GivesUp run) Level.limit bits)
    (hbody : bodyTokens source fileId = Bit.tokens true bits) :
    module.Survives bits source fileId := by
  have hstrewn' : (Phrase.concat (module.items.map Item.phrase)).Strewn Straying.givenUp.allowed
      Level.limit bits := hstrewn
  obtain ⟨found, hfound, -, hitems, hshapes, hdiagnostics⟩ := Module.weathers hstrewn' hbody
    (Bit.followed_of_forall fun _ => trivial) (ofSource_orderly source fileId)
  refine ⟨hitems, hshapes, found, ?_, hdiagnostics⟩
  exact Bit.sites_eq_runs ▸ hfound

/-- Malformed statements without braces between the statements of any block: each of them costs
one problem, and the module is read as if they were not there. -/
theorem analyse_malformed_unbraced
    (hstrewn : (Phrase.concat (module.items.map Item.phrase)).Strewn
      (fun _ run => Malformed run ∧ Token.Unbraced run) Level.limit bits)
    (hbody : bodyTokens source fileId = Bit.tokens true bits) :
    module.Survives bits source fileId :=
  Module.survives (hstrewn.imp fun n _ hrun => hrun.1.givesUp hrun.2 n) hbody

/-- One malformed statement in the body of a function, and one in a block in the body. -/
theorem analyse_malformed_unbraced_nested :
    let source := "fn f() \x7b let = 1; a; \x7b ); \x7d \x7d"
    let tokens := bodyTokens source 0
    let stray := (tokens.drop 5).take 4
    let stray' := (tokens.drop 12).take 2
    let bits := (tokens.take 5).map .token ++ .stray stray :: ((tokens.drop 9).take 3).map .token ++
      .stray stray' :: (tokens.drop 14).map .token
    let module : Module Unit :=
      ⟨[.ofStmts "f" [.expr (.ident ⟨"a", ()⟩) (), .block ⟨[], ()⟩]], ()⟩
    (Malformed stray ∧ Token.Unbraced stray) ∧ (Malformed stray' ∧ Token.Unbraced stray') ∧
      module.Survives bits source 0 := by
  intro source tokens stray stray' bits module
  have hstray : Malformed stray ∧ Token.Unbraced stray :=
    ⟨.of_rejects 1 (by decide +kernel), by decide +kernel⟩
  have hstray' : Malformed stray' ∧ Token.Unbraced stray' :=
    ⟨.of_rejects 1 (by decide +kernel), by decide +kernel⟩
  have hstrewn : (Phrase.concat (module.items.map Item.phrase)).Strewn
      (fun _ run => Malformed run ∧ Token.Unbraced run) Level.limit bits := by
    let known (_ : Nat) (run : List Token) : Bool := run = stray ∨ run = stray'
    have hunwritten : (Phrase.concat (module.items.map Item.phrase)).unwritten known Level.limit
        bits = some [] := by decide +kernel
    refine .of_unwritten hunwritten fun m run hrun => ?_
    rcases of_decide_eq_true hrun with rfl | rfl
    · exact hstray
    · exact hstray'
  have hbody : bodyTokens source 0 = Bit.tokens true bits := by decide +kernel
  exact ⟨hstray, hstray', analyse_malformed_unbraced hstrewn hbody⟩

/-- Malformed statements that close the braces they open, between the statements of any block, if
no closing brace is left where the rule for a statement fails: each of them costs one problem, and
the module is read as if they were not there. Where one is left, recovery stops at it. -/
theorem analyse_malformed_braced
    (hstrewn : (Phrase.concat (module.items.map Item.phrase)).Strewn (fun n run =>
      MalformedBraced run ∧
        ∀ token ∈ (Level.allowing n).unread run, token.kind ≠ .symbol .rightBrace)
      Level.limit bits)
    (hbody : bodyTokens source fileId = Bit.tokens true bits) :
    module.Survives bits source fileId ∧ ∀ n run, MalformedBraced run →
      (∃ token ∈ (Level.allowing n).unread run, token.kind = .symbol .rightBrace) →
        (Level.allowing n).StopsShort run :=
  ⟨Module.survives (hstrewn.imp fun _ _ ⟨hrun, hunread⟩ => hrun.givesUp hunread) hbody,
    fun _ _ hrun hunread => hrun.stopsShort hunread⟩

/-- In `let x = Foo { a: 1 } 2;` the rule for a statement fails behind the closing brace. -/
theorem analyse_malformed_braced_literal :
    let source := "fn f() \x7b let x = Foo \x7b a: 1 \x7d 2; b; \x7d"
    let tokens := bodyTokens source 0
    let stray := (tokens.drop 5).take 11
    let bits := (tokens.take 5).map .token ++ .stray stray :: (tokens.drop 16).map .token
    let module : Module Unit := ⟨[.ofStmts "f" [.expr (.ident ⟨"b", ()⟩) ()]], ()⟩
    (MalformedBraced stray ∧
      ∀ token ∈ (Level.allowing 63).unread stray, token.kind ≠ .symbol .rightBrace) ∧
      module.Survives bits source 0 := by
  intro source tokens stray bits module
  have hstray : MalformedBraced stray :=
    ⟨.of_rejects 2 (by decide +kernel), by decide +kernel, by decide +kernel⟩
  have hunread : ∀ token ∈ (Level.allowing 63).unread stray, token.kind ≠ .symbol .rightBrace := by
    decide +kernel
  have hstrewn : (Phrase.concat (module.items.map Item.phrase)).Strewn (fun n run =>
      MalformedBraced run ∧
        ∀ token ∈ (Level.allowing n).unread run, token.kind ≠ .symbol .rightBrace)
      Level.limit bits :=
    .of_unwritten_run (m := 63) (by decide +kernel) ⟨hstray, hunread⟩
  have hbody : bodyTokens source 0 = Bit.tokens true bits := by decide +kernel
  exact ⟨⟨hstray, hunread⟩, (analyse_malformed_braced hstrewn hbody).1⟩

/-- In `let x = Foo { y: };` the rule fails in front of the closing brace, and the semicolon is
reported besides. -/
example :
    let source := "fn f() \x7b a; let x = Foo \x7b y: \x7d; b; \x7d"
    (analyse source 0).diagnostics.toList.length = 2 := by
  decide +kernel

/-- Loops with malformed headers between the statements of any block, each of which is caught: each
of them is passed over through the brace that closes its body and costs one problem, and the
module is read as if they were not there. -/
theorem analyse_malformed_loops
    (hstrewn : (Phrase.concat (module.items.map Item.phrase)).Strewn
      (fun n run => ∃ header body, MalformedLoop.Caught n run header body) Level.limit bits)
    (hbody : bodyTokens source fileId = Bit.tokens true bits) :
    module.Survives bits source fileId ∧ ∀ n run header body,
      MalformedLoop.Caught n run header body → (Level.allowing n).GivesUp run :=
  ⟨Module.survives (hstrewn.imp fun _ _ ⟨_, _, hrun⟩ => hrun.givesUp) hbody,
    fun _ _ _ _ hrun => hrun.givesUp⟩

/-- In `for let i = ; i < 3; i += 1 { x; }` the rule for a statement fails at the first
semicolon. -/
theorem analyse_malformed_loops_let :
    let source := "fn f() \x7b for let i = ; i < 3; i += 1 \x7b x; \x7d y; \x7d"
    let tokens := bodyTokens source 0
    let stray := (tokens.drop 5).take 16
    let header := (stray.drop 1).take 11
    let body := (stray.drop 13).take 2
    let bits := (tokens.take 5).map .token ++ .stray stray :: (tokens.drop 21).map .token
    let module : Module Unit := ⟨[.ofStmts "f" [.expr (.ident ⟨"y", ()⟩) ()]], ()⟩
    MalformedLoop.Caught 63 stray header body ∧ module.Survives bits source 0 := by
  intro source tokens stray header body bits module
  let written (i : Nat) : Token := stray.getD i (.eof ⟨0, 0, 0⟩)
  have hwritten : stray = written 0 :: header ++ (written 12 :: body ++ [written 15]) ∧
      (written 0).kind = .keyword .for_ ∧ (written 12).kind = .symbol .leftBrace ∧
      (written 15).kind = .symbol .rightBrace := by decide +kernel
  let stmts : List (Stmt Span) := [.expr (.ident ⟨"x", ⟨0, 0, 0⟩⟩) ⟨0, 0, 0⟩]
  have hstmts : (Phrase.concat (stmts.map Stmt.phrase)).Spelled .plain body :=
    Phrase.spelled_of_terminals (by decide +kernel) (by decide +kernel)
  have hstray : MalformedLoop.Caught 63 stray header body := by
    have hunbraced : Token.Unbraced header := by decide +kernel
    have hunread : (Level.allowing 63).unread stray ≠ [] ∧
        ∀ token ∈ ((Level.allowing 63).unread stray).take
          (((Level.allowing 63).unread stray).length - (body.length + 2)),
          token.kind ≠ .symbol .rightBrace := by decide +kernel
    exact ⟨.of_rejects 3 hwritten (by decide +kernel) hstmts, fun front token back hcut hleft =>
      absurd hleft (hunbraced token (by rw [hcut]; simp)).1, hunread.1, hunread.2⟩
  have hstrewn : (Phrase.concat (module.items.map Item.phrase)).Strewn
      (fun n run => ∃ header body, MalformedLoop.Caught n run header body) Level.limit bits :=
    .of_unwritten_run (m := 63) (by decide +kernel) ⟨header, body, hstray⟩
  have hbody : bodyTokens source 0 = Bit.tokens true bits := by decide +kernel
  exact ⟨hstray, (analyse_malformed_loops hstrewn hbody).1⟩

/-- In `for a; b; c {} {}` the first braces are read as the body of the loop and the others as a
block. Though what stands between the keyword and the last braces is no header, nothing is
reported. -/
theorem analyse_loop_of_braces :
    let source := "fn f() \x7b for a; b; c \x7b\x7d \x7b\x7d \x7d"
    let tokens := bodyTokens source 0
    let stray := (tokens.drop 5).take 10
    let header := (stray.drop 1).take 7
    let bits := (tokens.take 5).map .token ++ .stray stray :: (tokens.drop 15).map .token
    let module : Module Unit := ⟨[.ofStmts "f" []], ()⟩
    MalformedLoop stray header [] ∧
      (Phrase.concat (module.items.map Item.phrase)).Strewn
        (fun _ run => ∃ header body, MalformedLoop run header body) Level.limit bits ∧
      bodyTokens source 0 = Bit.tokens true bits ∧
      (analyse source 0).diagnostics.toList = [] ∧ ¬ module.Survives bits source 0 := by
  intro source tokens stray header bits module
  let written (i : Nat) : Token := stray.getD i (.eof ⟨0, 0, 0⟩)
  have hwritten : stray = written 0 :: header ++ (written 8 :: [] ++ [written 9]) ∧
      (written 0).kind = .keyword .for_ ∧ (written 8).kind = .symbol .leftBrace ∧
      (written 9).kind = .symbol .rightBrace := by decide +kernel
  have hstmts : (Phrase.concat (([] : List (Stmt Span)).map Stmt.phrase)).Spelled .plain [] := rfl
  have hstray : MalformedLoop stray header [] :=
    .of_rejects 3 hwritten (by decide +kernel) hstmts
  have hstrewn : (Phrase.concat (module.items.map Item.phrase)).Strewn
      (fun _ run => ∃ header body, MalformedLoop run header body) Level.limit bits :=
    .of_unwritten_run (m := 63) (by decide +kernel) ⟨header, [], hstray⟩
  have hbody : bodyTokens source 0 = Bit.tokens true bits := by decide +kernel
  have hnone : (analyse source 0).diagnostics.toList = [] := by decide +kernel
  refine ⟨hstray, hstrewn, hbody, hnone, fun hsurvives => ?_⟩
  -- One problem would be found in the loop.
  have hruns : Bit.runs true bits = [stray] := by decide +kernel
  have hlength := hsurvives.length_eq
  rw [hnone, hruns, List.length_singleton] at hlength
  cases hlength

/-- In `for let i = Foo { a: }; i < 3; i += 1 { x; }` the rule fails in front of a closing brace of
the header. Recovery stops at it, and the rest of the loop is read as statements of its own. -/
theorem analyse_loop_of_literal :
    let source := "fn f() \x7b for let i = Foo \x7b a: \x7d; i < 3; i += 1 \x7b x; \x7d y; \x7d"
    let tokens := bodyTokens source 0
    let stray := (tokens.drop 5).take 21
    let header := (stray.drop 1).take 16
    let body := (stray.drop 18).take 2
    let bits := (tokens.take 5).map .token ++ .stray stray :: (tokens.drop 26).map .token
    let module : Module Unit := ⟨[.ofStmts "f" [.expr (.ident ⟨"y", ()⟩) ()]], ()⟩
    (MalformedLoop stray header body ∧
        (∀ front token back, header = front ++ token :: back →
          token.kind = .symbol .leftBrace → ¬ Token.IsHeader front) ∧
        (Level.allowing 63).unread stray ≠ []) ∧
      (Phrase.concat (module.items.map Item.phrase)).Strewn
        (fun _ run => ∃ header body, MalformedLoop run header body) Level.limit bits ∧
      bodyTokens source 0 = Bit.tokens true bits ∧
      (analyse source 0).diagnostics.toList.length = 3 ∧ ¬ module.Survives bits source 0 := by
  intro source tokens stray header body bits module
  let written (i : Nat) : Token := stray.getD i (.eof ⟨0, 0, 0⟩)
  have hwritten : stray = written 0 :: header ++ (written 17 :: body ++ [written 20]) ∧
      (written 0).kind = .keyword .for_ ∧ (written 17).kind = .symbol .leftBrace ∧
      (written 20).kind = .symbol .rightBrace := by decide +kernel
  let stmts : List (Stmt Span) := [.expr (.ident ⟨"x", ⟨0, 0, 0⟩⟩) ⟨0, 0, 0⟩]
  have hstmts : (Phrase.concat (stmts.map Stmt.phrase)).Spelled .plain body :=
    Phrase.spelled_of_terminals (by decide +kernel) (by decide +kernel)
  have hstray : MalformedLoop stray header body :=
    .of_rejects 3 hwritten (by decide +kernel) hstmts
  have hlate : ∀ front token back, header = front ++ token :: back →
      token.kind = .symbol .leftBrace → ¬ Token.IsHeader front := by
    intro front token back hcut hleft hheader
    -- The only brace of the header stands behind `let i = Foo`.
    obtain rfl : front = header.take 4 := by
      have honly : ∀ place < 16, (header[place]?.map Token.kind) = some (.symbol .leftBrace) →
          place = 4 := by decide +kernel
      have hplace : header[front.length]? = some token := by simp [hcut]
      have hlt : front.length < 16 := by
        rw [← (by decide +kernel : header.length = 16)]
        exact (List.getElem?_eq_some_iff.mp hplace).1
      have hlength := honly _ hlt (by rw [hplace, Option.map_some, hleft])
      rw [← hlength, hcut, List.take_left]
    have hnone : (Phrase.concat (([] : List (Stmt Span)).map Stmt.phrase)).Spelled .plain [] := rfl
    obtain ⟨-, hfor, hopen, hclose⟩ := hwritten
    obtain ⟨stmt, hspelled⟩ := hheader.spelled_for hnone hfor hopen hclose
    exact Stmt.not_spelled_of_rejects (n := 3) (by decide +kernel) stmt hspelled
  have hstrewn : (Phrase.concat (module.items.map Item.phrase)).Strewn
      (fun _ run => ∃ header body, MalformedLoop run header body) Level.limit bits :=
    .of_unwritten_run (m := 63) (by decide +kernel) ⟨header, body, hstray⟩
  have hbody : bodyTokens source 0 = Bit.tokens true bits := by decide +kernel
  have hthree : (analyse source 0).diagnostics.toList.length = 3 := by decide +kernel
  refine ⟨⟨hstray, hlate, by decide +kernel⟩, hstrewn, hbody, hthree, fun hsurvives => ?_⟩
  have hlexical : lexicalProblems source 0 = [] := by decide +kernel
  have hruns : Bit.runs true bits = [stray] := by decide +kernel
  have hlength := hsurvives.length_eq
  rw [hthree, hlexical, hruns, List.length_nil, List.length_singleton] at hlength
  cases hlength

/-- In `for x {}` all is read before the rule fails, at the token behind the loop. Recovery goes on
from there, and the statements behind the loop are lost. -/
theorem analyse_loop_of_name :
    let source := "fn f() \x7b for x \x7b\x7d a; b; \x7d"
    let tokens := bodyTokens source 0
    let stray := (tokens.drop 5).take 4
    let header := (stray.drop 1).take 1
    let bits := (tokens.take 5).map .token ++ .stray stray :: (tokens.drop 9).map .token
    let module : Module Unit :=
      ⟨[.ofStmts "f" [.expr (.ident ⟨"a", ()⟩) (), .expr (.ident ⟨"b", ()⟩) ()]], ()⟩
    (MalformedLoop stray header [] ∧ Token.Unbraced header ∧
        (Level.allowing 63).unread stray = []) ∧
      (Phrase.concat (module.items.map Item.phrase)).Strewn
        (fun _ run => ∃ header body, MalformedLoop run header body) Level.limit bits ∧
      bodyTokens source 0 = Bit.tokens true bits ∧ ¬ module.Survives bits source 0 := by
  intro source tokens stray header bits module
  let written (i : Nat) : Token := stray.getD i (.eof ⟨0, 0, 0⟩)
  have hwritten : stray = written 0 :: header ++ (written 2 :: [] ++ [written 3]) ∧
      (written 0).kind = .keyword .for_ ∧ (written 2).kind = .symbol .leftBrace ∧
      (written 3).kind = .symbol .rightBrace := by decide +kernel
  have hstmts : (Phrase.concat (([] : List (Stmt Span)).map Stmt.phrase)).Spelled .plain [] := rfl
  have hstray : MalformedLoop stray header [] :=
    .of_rejects 3 hwritten (by decide +kernel) hstmts
  have hstrewn : (Phrase.concat (module.items.map Item.phrase)).Strewn
      (fun _ run => ∃ header body, MalformedLoop run header body) Level.limit bits :=
    .of_unwritten_run (m := 63) (by decide +kernel) ⟨header, [], hstray⟩
  have hbody : bodyTokens source 0 = Bit.tokens true bits := by decide +kernel
  refine ⟨⟨hstray, by decide +kernel, by decide +kernel⟩, hstrewn, hbody, fun hsurvives => ?_⟩
  -- The statements behind the loop are not read.
  have hterminals := congrArg (List.map fun item => item.phrase.terminals.length) hsurvives.shapes
  exact absurd hterminals (by decide +kernel)

end SourceFront
