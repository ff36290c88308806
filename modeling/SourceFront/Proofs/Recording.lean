import SourceFront.Proofs.Lexing
import SourceFront.Proofs.Reporting

/-!
Each lexical problem is recorded once. Apart from unknown escapes and from a comment that is
never closed, the problems of the tokens are one for each invalid token, in their order and
with their ranges. An unknown escape is a backslash and a character inside a literal, and an
unclosed comment comes last, behind all tokens.
-/

namespace SourceFront

open Text

namespace Cause

/-- Whether the problem is one of an escape that is not known. -/
def isUnknownEscape : Cause → Bool
  | unknownEscape _ => true
  | _ => false

/-- Whether the cause concerns a token as a whole, if it is a lexical one: not just an escape
in it, and no gap. -/
def concernsToken (cause : Cause) : Bool :=
  !cause.isUnknownEscape && cause != unterminatedComment

/-- The part of the message that is not fixed by the kind of the cause. -/
def quoted : Cause → List Char
  | unexpectedChar c | unknownEscape c => [c]
  | malformedNumber text => text.toList
  | unexpectedToken expected found => expected.toList ++ found.toList
  | expectedExpr found | expectedType found | expectedPattern found => found.toList
  | nestingTooDeep limit => (toString limit).toList
  | unterminatedString | unterminatedChar | badCharLiteral | unterminatedComment => []

end Cause

/-- Whether tokens of the kind are literals in quotes. -/
def TokenKind.isQuoted : TokenKind → Bool
  | .string _ | .char _ => true
  | _ => false

/-- What a quote is that opens a literal. -/
def Literal.IsQuote (c : Char) : Prop :=
  c = '"' ∨ c = '\''

theorem Literal.IsQuote.utf8Size {quote : Char} (h : IsQuote quote) : quote.utf8Size = 1 := by
  rcases h with rfl | rfl <;> rfl

theorem Literal.exists_of_mem_unknownEscapes {quote : Char} {pieces : List Piece} {offset : Nat} :
    ∀ found ∈ unknownEscapes quote offset pieces, ∃ before behind,
      piecesText pieces = before ++ '\\' :: found.1 :: behind ∧
        found.2 = offset + byteLength before := by
  induction pieces generalizing offset with
  | nil => simp [unknownEscapes]
  | cons piece pieces ih =>
      have htext : piecesText (piece :: pieces) = piece.text ++ piecesText pieces :=
        List.flatMap_cons
      have hlater : ∀ found ∈ unknownEscapes quote (offset + byteLength piece.text) pieces,
          ∃ before behind, piecesText (piece :: pieces) = before ++ '\\' :: found.1 :: behind ∧
            found.2 = offset + byteLength before := by
        intro found hmem
        obtain ⟨before, behind, hsplit, hplace⟩ := ih found hmem
        refine ⟨piece.text ++ before, behind, ?_, ?_⟩
        · rw [htext, hsplit, List.append_assoc]
        · rw [hplace, byteLength_append, Nat.add_assoc]
      intro found hmem
      rw [unknownEscapes] at hmem
      cases piece with
      | plain c => exact hlater found hmem
      | escape c =>
          cases hunknown : (Piece.escape c).unknown? quote with
          | none =>
              rw [hunknown] at hmem
              exact hlater found hmem
          | some d =>
              rw [hunknown] at hmem
              rcases List.mem_cons.mp hmem with rfl | hmem
              · obtain rfl : c = d := by
                  simp only [Piece.unknown?, Option.ite_none_right_eq_some] at hunknown
                  exact Option.some.inj hunknown.2
                exact ⟨[], piecesText pieces, htext, rfl⟩
              · exact hlater found hmem

namespace Lexeme

/-- A lexeme is sound or not as a whole, and it may be a literal with unknown escapes in it. -/
inductive Verdict : Lexeme → Prop where
  | sound {kind : TokenKind} {text rest : List Char} (hkind : kind ≠ .invalid) :
      Verdict ⟨kind, text, rest, []⟩
  | spoiled {cause : Cause} {text rest : List Char} (hcause : cause.concernsToken = true)
      (hquoted : cause.quoted ⊆ text) : Verdict (invalid cause text rest [])
  | literal {quote : Char} {kind : TokenKind} {pieces : List Literal.Piece}
      {tail rest : List Char} (hquote : Literal.IsQuote quote) (hkind : kind.isQuoted = true) :
      Verdict ⟨kind, quote :: Literal.piecesText pieces ++ tail, rest, escapeFaults quote pieces⟩
  | spoiledLiteral {quote : Char} {cause : Cause} {pieces : List Literal.Piece}
      {tail rest : List Char} (hquote : Literal.IsQuote quote)
      (hcause : cause.concernsToken = true)
      (hquoted : cause.quoted ⊆ quote :: Literal.piecesText pieces ++ tail) :
      Verdict (invalid cause (quote :: Literal.piecesText pieces ++ tail) rest
        (escapeFaults quote pieces))

variable {c : Char} {cs : List Char}

theorem Verdict.broken {quote : Char} {cause : Cause} {pieces : List Literal.Piece}
    {rest : List Char} (hquote : Literal.IsQuote quote) (hcause : cause.concernsToken = true)
    (hquoted : cause.quoted = []) :
    Verdict (invalid cause (quote :: Literal.piecesText pieces) rest
      (escapeFaults quote pieces)) := by
  have hverdict : Verdict (invalid cause (quote :: Literal.piecesText pieces ++ []) rest
      (escapeFaults quote pieces)) := .spoiledLiteral hquote hcause (by simp [hquoted])
  rwa [List.append_nil] at hverdict

theorem word_verdict : (word cs).Verdict := by
  unfold word
  dsimp only
  split
  · exact .sound (by simp)
  · exact .sound (by simp)

theorem number_verdict : (number cs).Verdict := by
  unfold number
  dsimp only
  split
  · exact .sound (by simp)
  · exact .spoiled rfl (by simp [Cause.quoted])

theorem string_verdict : (string cs).Verdict := by
  unfold string
  dsimp only
  split
  · exact .literal (.inl rfl) rfl
  · exact .spoiledLiteral (.inl rfl) rfl (List.nil_subset _)
  · exact .broken (.inl rfl) rfl rfl

theorem char_verdict : (char cs).Verdict := by
  unfold char
  split
  · exact .spoiled rfl (List.nil_subset _)
  next piece rest _ _ =>
    have htext : piece.text = Literal.piecesText [piece] := by simp [Literal.piecesText]
    dsimp only
    rw [htext]
    split
    · split
      · exact .literal (.inr rfl) rfl
      · rw [List.append_assoc]
        exact .spoiledLiteral (.inr rfl) rfl (List.nil_subset _)
    · exact .broken (.inr rfl) rfl rfl
  · split
    · exact .spoiled rfl (List.nil_subset _)
    · exact .spoiled rfl (List.nil_subset _)

theorem mark_verdict : (mark c cs).Verdict := by
  unfold mark
  split
  · exact .sound (by simp)
  · exact .spoiled rfl (by simp [Cause.quoted])

theorem read_verdict : (read c cs).Verdict := by
  unfold read
  split
  · exact word_verdict
  split
  · exact number_verdict
  split
  · exact string_verdict
  split
  · exact char_verdict
  · exact mark_verdict

theorem escapeFaults_isUnknownEscape {quote : Char} {pieces : List Literal.Piece} :
    ∀ fault ∈ escapeFaults quote pieces, fault.cause.isUnknownEscape = true := by
  intro fault hmem
  obtain ⟨found, -, rfl⟩ := List.mem_map.mp hmem
  rfl

theorem exists_of_mem_escapeFaults {quote c : Char} {pieces : List Literal.Piece}
    {tail : List Char} {fault : Fault} (hquote : Literal.IsQuote quote)
    (hmem : fault ∈ escapeFaults quote pieces) (hcause : fault.cause = .unknownEscape c) :
    Slice (quote :: Literal.piecesText pieces ++ tail) fault.start fault.stop ['\\', c] ∧
      0 < fault.start := by
  obtain ⟨⟨d, start⟩, hfound, rfl⟩ := List.mem_map.mp hmem
  obtain rfl : d = c := Cause.unknownEscape.inj hcause
  obtain ⟨before, behind, hsplit, hplace⟩ := Literal.exists_of_mem_unknownEscapes _ hfound
  obtain rfl : start = 1 + byteLength before := hplace
  have hbackslash : '\\'.utf8Size = 1 := rfl
  refine ⟨⟨quote :: before, behind ++ tail, by simp [hsplit], ?_, ?_⟩, ?_⟩
  · rw [byteLength_cons, hquote.utf8Size]
  · simp only [byteLength_cons, byteLength_nil, hquote.utf8Size, hbackslash]
    omega
  · dsimp only
    omega

namespace Verdict

variable {lexeme : Lexeme} (h : lexeme.Verdict)
include h

theorem filter_faults :
    (lexeme.faults.filter (·.cause.concernsToken)).map (fun fault => (fault.start, fault.stop)) =
      if lexeme.kind = .invalid then [(0, byteLength lexeme.text)] else [] := by
  have hescapes (quote : Char) (pieces : List Literal.Piece) :
      (escapeFaults quote pieces).filter (·.cause.concernsToken) = [] := by
    refine List.filter_eq_nil_iff.mpr fun fault hmem => ?_
    simp [Cause.concernsToken, escapeFaults_isUnknownEscape fault hmem]
  cases h with
  | sound hkind => simp [hkind]
  | spoiled hcause => simp [invalid, hcause]
  | @literal quote kind pieces tail rest hquote hkind =>
      have hvalid : kind ≠ .invalid := by
        rintro rfl
        cases hkind
      simp [hescapes, hvalid]
  | spoiledLiteral hquote hcause => simp [invalid, hescapes, hcause]

/-- What is at fault is an invalid lexeme as a whole, or an unknown escape in a literal. -/
theorem fault_cases {fault : Fault} (hmem : fault ∈ lexeme.faults) :
    (lexeme.kind = .invalid ∧ fault.cause.concernsToken = true ∧
        fault.cause.quoted ⊆ lexeme.text ∧ fault.start = 0 ∧
        fault.stop = byteLength lexeme.text) ∨
      ∃ quote pieces tail, Literal.IsQuote quote ∧
        (lexeme.kind.isQuoted = true ∨ lexeme.kind = .invalid) ∧
        lexeme.text = quote :: Literal.piecesText pieces ++ tail ∧
        fault ∈ escapeFaults quote pieces := by
  cases h with
  | sound => cases hmem
  | spoiled hcause hquoted =>
      obtain rfl := List.mem_singleton.mp hmem
      exact .inl ⟨rfl, hcause, hquoted, rfl, rfl⟩
  | literal hquote hkind => exact .inr ⟨_, _, _, hquote, .inl hkind, rfl, hmem⟩
  | spoiledLiteral hquote hcause hquoted =>
      rcases List.mem_append.mp hmem with hmem | hmem
      · exact .inr ⟨_, _, _, hquote, .inr rfl, rfl, hmem⟩
      · obtain rfl := List.mem_singleton.mp hmem
        exact .inl ⟨rfl, hcause, hquoted, rfl, rfl⟩

theorem unknownEscape {fault : Fault} {c : Char} (hmem : fault ∈ lexeme.faults)
    (hcause : fault.cause = .unknownEscape c) :
    Slice lexeme.text fault.start fault.stop ['\\', c] ∧ 0 < fault.start ∧
      (lexeme.kind.isQuoted = true ∨ lexeme.kind = .invalid) ∧
      ∃ quote, Literal.IsQuote quote ∧ lexeme.text.head? = some quote := by
  rcases h.fault_cases hmem with
    ⟨-, hconcerns, -⟩ | ⟨quote, pieces, tail, hquote, hkind, htext, hescape⟩
  · rw [hcause] at hconcerns
    cases hconcerns
  · obtain ⟨hslice, hpos⟩ := exists_of_mem_escapeFaults hquote hescape hcause
    rw [htext]
    exact ⟨hslice, hpos, hkind, quote, hquote, rfl⟩

theorem isUnknownEscape (hkind : lexeme.kind.isQuoted = true) :
    ∀ fault ∈ lexeme.faults, fault.cause.isUnknownEscape = true := by
  intro fault hmem
  rcases h.fault_cases hmem with ⟨hinvalid, -⟩ | ⟨quote, pieces, tail, -, -, -, hescape⟩
  · rw [hinvalid] at hkind
    cases hkind
  · exact escapeFaults_isUnknownEscape fault hescape

theorem quoted_subset : ∀ fault ∈ lexeme.faults, fault.cause.quoted ⊆ lexeme.text := by
  intro fault hmem
  rcases h.fault_cases hmem with
    ⟨-, -, hquoted, -⟩ | ⟨quote, pieces, tail, -, -, htext, hescape⟩
  · exact hquoted
  · obtain ⟨found, hfound, rfl⟩ := List.mem_map.mp hescape
    obtain ⟨before, behind, hsplit, -⟩ := Literal.exists_of_mem_unknownEscapes _ hfound
    simp [htext, Cause.quoted, hsplit]

theorem cause_ne_unterminatedComment :
    ∀ fault ∈ lexeme.faults, fault.cause ≠ .unterminatedComment := by
  intro fault hmem hcause
  rcases h.fault_cases hmem with ⟨-, hconcerns, -⟩ | ⟨quote, pieces, tail, -, -, -, hescape⟩
  · rw [hcause] at hconcerns
    cases hconcerns
  · have hunknown := escapeFaults_isUnknownEscape fault hescape
    rw [hcause] at hunknown
    cases hunknown

end Verdict

end Lexeme

theorem Text.Slice.trans {source text part : List Char} {start stop start' stop' : Nat}
    (h : Slice source start stop text) (h' : Slice text start' stop' part) :
    Slice source (start + start') (start + stop') part := by
  obtain ⟨before, behind, rfl, rfl, rfl⟩ := h
  obtain ⟨before', behind', rfl, rfl, rfl⟩ := h'
  refine ⟨before ++ before', behind' ++ behind, by simp, ?_, ?_⟩
  · rw [byteLength_append]
  · rw [byteLength_append, Nat.add_assoc]

namespace PlacedLexeme

theorem filter_problems {placed : PlacedLexeme} (h : placed.lexeme.Verdict) (fileId : Nat) :
    ((placed.problems fileId).filter (·.cause.concernsToken)).map Problem.span =
      ([placed.token fileId].filter (·.kind = .invalid)).map Token.span := by
  have hspans := congrArg
    (List.map fun bounds => Span.mk (placed.start + bounds.1) (placed.start + bounds.2) fileId)
    h.filter_faults
  rw [List.map_map] at hspans
  rw [problems, List.filter_map, List.map_map]
  refine hspans.trans ?_
  by_cases hkind : placed.lexeme.kind = .invalid
  · simp [token, stop, hkind]
  · simp [token, hkind]

/-- The problems of whole tokens are those of the invalid ones, in their order. -/
theorem filter_flatMap_problems {lexemes : List PlacedLexeme}
    (h : ∀ placed ∈ lexemes, placed.lexeme.Verdict) (fileId : Nat) :
    ((lexemes.flatMap (·.problems fileId)).filter (·.cause.concernsToken)).map Problem.span =
      ((lexemes.map (·.token fileId)).filter (·.kind = .invalid)).map Token.span := by
  induction lexemes with
  | nil => rfl
  | cons placed lexemes ih =>
      have hhead := filter_problems (h placed List.mem_cons_self) fileId
      have htail := ih fun other hmem => h other (List.mem_cons_of_mem _ hmem)
      rw [List.flatMap_cons, List.filter_append, List.map_append, hhead, htail,
        ← List.map_append, ← List.filter_append]
      rfl

end PlacedLexeme

theorem PlacedLexeme.ReadIn.verdict {cs : List Char} {placed : PlacedLexeme}
    (h : placed.ReadIn cs) : placed.lexeme.Verdict := by
  obtain ⟨before, c, behind, -, rfl, -⟩ := h
  exact Lexeme.read_verdict

section Source

variable {source : String} {fileId : Nat}

theorem unknownEscape_of_mem_lexicalProblems {problem : Problem} {c : Char}
    (hmem : problem ∈ lexicalProblems source fileId) (hcause : problem.cause = .unknownEscape c) :
    Slice source.toList problem.span.start problem.span.stop ['\\', c] ∧
      ∃ token ∈ tokens source fileId, (token.kind.isQuoted = true ∨ token.kind = .invalid) ∧
        (∃ quote, Literal.IsQuote quote ∧ token.text.toList.head? = some quote) ∧
          token.span.start < problem.span.start ∧ problem.span.stop ≤ token.span.stop := by
  rcases exists_lexeme_of_mem_lexicalProblems hmem with
    ⟨placed, hread, htoken, hproblem⟩ | ⟨opened, -, rfl⟩
  · obtain ⟨fault, hfault, rfl⟩ := List.mem_map.mp hproblem
    obtain ⟨hslice, hpos, hkind, hquote⟩ := hread.verdict.unknownEscape hfault hcause
    have hstop := (hread.faulted.within fault hfault).2.2
    refine ⟨hread.slice.trans hslice, _, htoken, hkind, ?_, ?_, ?_⟩
    · simpa [PlacedLexeme.token] using hquote
    · exact Nat.lt_add_of_pos_right hpos
    · exact Nat.add_le_add_left hstop _
  · cases hcause

theorem unterminatedComment_of_append {front later : List Problem} {problem : Problem}
    (hsplit : lexicalProblems source fileId = front ++ problem :: later)
    (hcause : problem.cause = .unterminatedComment) :
    later = [] ∧ Slice source.toList problem.span.start problem.span.stop ['/', '*'] ∧
      ∀ token ∈ bodyTokens source fileId, token.span.stop ≤ problem.span.start := by
  obtain ⟨lexemes, unclosed, hlexed, htokens, hproblems⟩ := exists_lexed source fileId
  have hfaults : problem ∉ lexemes.flatMap (·.problems fileId) := by
    intro hmem
    obtain ⟨placed, hplaced, hmem⟩ := List.mem_flatMap.mp hmem
    obtain ⟨fault, hfault, rfl⟩ := List.mem_map.mp hmem
    exact (hlexed.readIn placed hplaced).verdict.cause_ne_unterminatedComment fault hfault hcause
  rw [hproblems] at hsplit
  cases unclosed with
  | none =>
      rw [Option.toList_none, List.map_nil, List.append_nil] at hsplit
      exact absurd (hsplit ▸ List.mem_append_right front List.mem_cons_self) hfaults
  | some opened =>
      rw [Option.toList_some, List.map_singleton] at hsplit
      obtain rfl | ⟨between, last, rfl⟩ := List.eq_nil_or_concat later
      · obtain ⟨-, hlast⟩ := List.append_inj' hsplit rfl
        obtain rfl : Problem.ofComment fileId opened = problem := by simpa using hlast
        refine ⟨rfl, hlexed.slice_of_unclosed, fun token hmem => ?_⟩
        rw [htokens] at hmem
        obtain ⟨placed, hplaced, rfl⟩ := List.mem_map.mp hmem
        exact hlexed.exists_of_unclosed.2 placed hplaced
      · -- The problem would be one of those before the last.
        rw [List.concat_eq_append, ← List.cons_append, ← List.append_assoc] at hsplit
        obtain ⟨hfront, -⟩ := List.append_inj' hsplit rfl
        exact absurd (hfront ▸ List.mem_append_right front List.mem_cons_self) hfaults

end Source

/-- Each lexical problem is recorded once. Those that are neither unknown escapes nor comments
have the ranges of the invalid tokens, one each, in the order of the tokens. An unknown escape
is a backslash and the escaped character behind the opening quote of a literal or of what would
have been one, and no two of them start alike. A comment that is never closed is recorded last,
with its mark, behind every token but the end. -/
theorem lexicalProblems_recorded (source : String) (fileId : Nat) :
    ((lexicalProblems source fileId).filter (·.cause.concernsToken)).map Problem.span =
        ((tokens source fileId).filter (·.kind = .invalid)).map Token.span ∧
      (∀ problem ∈ lexicalProblems source fileId, ∀ c, problem.cause = .unknownEscape c →
        Slice source.toList problem.span.start problem.span.stop ['\\', c] ∧
          ∃ token ∈ tokens source fileId,
            (token.kind.isQuoted = true ∨ token.kind = .invalid) ∧
              (∃ quote, Literal.IsQuote quote ∧ token.text.toList.head? = some quote) ∧
                token.span.start < problem.span.start ∧
                  problem.span.stop ≤ token.span.stop) ∧
      ((lexicalProblems source fileId).filter (·.cause.isUnknownEscape)).Pairwise
        (fun a b => a.start ≠ b.start) ∧
      ∀ front problem later, lexicalProblems source fileId = front ++ problem :: later →
        problem.cause = .unterminatedComment →
          later = [] ∧ Slice source.toList problem.span.start problem.span.stop ['/', '*'] ∧
            ∀ token ∈ tokens source fileId,
              if token.isEof then problem.span.stop ≤ token.span.start
              else token.span.stop ≤ problem.span.start := by
  obtain ⟨lexemes, unclosed, hlexed, htokens, hproblems⟩ := exists_lexed source fileId
  have hnoted := lexicalProblems_noted source fileId
  refine ⟨?_, fun problem hmem c hcause => unknownEscape_of_mem_lexicalProblems hmem hcause,
    hnoted.apart.filter _, fun front problem later hsplit hcause => ?_⟩
  · have hcomments : (unclosed.toList.map (Problem.ofComment fileId)).filter
        (·.cause.concernsToken) = [] := by
      cases unclosed <;> rfl
    have hend : (tokens source fileId).filter (·.kind = .invalid) =
        (lexemes.map (·.token fileId)).filter (·.kind = .invalid) := by
      rw [tokens_eq_append, htokens]
      simp [Token.eof]
    rw [hend, hproblems, List.filter_append, hcomments, List.append_nil]
    exact PlacedLexeme.filter_flatMap_problems
      (fun placed hplaced => (hlexed.readIn placed hplaced).verdict) fileId
  · obtain ⟨hlast, hslice, hbefore⟩ := unterminatedComment_of_append hsplit hcause
    refine ⟨hlast, hslice, fun token hmem => ?_⟩
    rw [tokens_eq_append] at hmem
    rcases List.mem_append.mp hmem with hmem | hmem
    · have hkind := ((bodyTokens_follow source fileId).of_mem hmem).2.2.2.2
      rw [if_neg (by simpa [Token.isEof] using hkind)]
      exact hbefore token hmem
    · obtain rfl := List.mem_singleton.mp hmem
      exact (hnoted.within problem (by simp [hsplit])).2.2.2.1

/-- An unknown escape in a string that is not terminated, and a comment that is not closed. -/
theorem lexicalProblems_recorded_escape :
    ∃ problem ∈ lexicalProblems "\"\\q\n@ /*" 0, ∃ front comment,
      problem.cause = .unknownEscape 'q' ∧
        Slice "\"\\q\n@ /*".toList problem.span.start problem.span.stop ['\\', 'q'] ∧
        lexicalProblems "\"\\q\n@ /*" 0 = front ++ [comment] ∧
        comment.cause = .unterminatedComment ∧
        Slice "\"\\q\n@ /*".toList comment.span.start comment.span.stop ['/', '*'] := by
  have hproblems : lexicalProblems "\"\\q\n@ /*" 0 =
      [⟨.unknownEscape 'q', ⟨1, 3, 0⟩⟩, ⟨.unterminatedString, ⟨0, 3, 0⟩⟩,
        ⟨.unexpectedChar '@', ⟨4, 5, 0⟩⟩] ++ [⟨.unterminatedComment, ⟨6, 8, 0⟩⟩] := by
    decide +kernel
  have hmem : ⟨.unknownEscape 'q', ⟨1, 3, 0⟩⟩ ∈ lexicalProblems "\"\\q\n@ /*" 0 := by
    rw [hproblems]
    exact List.mem_cons_self
  obtain ⟨-, hescape, -, hcomment⟩ := lexicalProblems_recorded "\"\\q\n@ /*" 0
  exact ⟨_, hmem, _, _, rfl, (hescape _ hmem _ rfl).1, hproblems, rfl,
    (hcomment _ _ _ hproblems rfl).2.1⟩

end SourceFront
