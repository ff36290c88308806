import SourceFront.Proofs.Tokenization

/-!
A line feed between two texts. No token goes on behind it, and no comment that is closed
before it, so the tokens of the whole are those of the one text and then those of the
other, further on.
-/

namespace SourceFront

open Text

variable (cs bs : List Char)

theorem takeWhile_feed {p : Char → Bool} (hp : p '\n' = false) :
    (cs ++ '\n' :: bs).takeWhile p = cs.takeWhile p ∧
      (cs ++ '\n' :: bs).dropWhile p = cs.dropWhile p ++ '\n' :: bs := by
  induction cs with
  | nil => simp [hp]
  | cons c cs ih =>
      rw [List.cons_append, List.takeWhile_cons, List.takeWhile_cons, List.dropWhile_cons,
        List.dropWhile_cons, ih.1, ih.2]
      split
      · exact ⟨rfl, rfl⟩
      · exact ⟨rfl, rfl⟩

namespace Literal

theorem Piece.read?_feed :
    read? (cs ++ '\n' :: bs) =
      (read? cs).map fun (piece, rest) => (piece, rest ++ '\n' :: bs) := by
  cases cs with
  | nil => rfl
  | cons c cs =>
      by_cases hslash : c = '\\'
      · subst hslash
        cases cs with
        | nil => rfl
        | cons d cs =>
            by_cases hfeed : d = '\n'
            · subst hfeed
              rfl
            · simp [read?]
      · by_cases hfeed : c = '\n'
        · subst hfeed
          rfl
        · simp [read?, hslash]

theorem readPieces_feed (quote : Char) (hquote : quote ≠ '\n') :
    readPieces quote (cs ++ '\n' :: bs) =
      ((readPieces quote cs).1, (readPieces quote cs).2 ++ '\n' :: bs) := by
  fun_induction readPieces quote cs with
  | case1 cs hclosed =>
      obtain ⟨rest, rfl⟩ : ∃ rest, cs = quote :: rest := List.head?_eq_some_iff.mp hclosed
      rw [readPieces, if_pos (by simp)]
  | case2 cs hopen hnone =>
      have hopen' : (cs ++ '\n' :: bs).head? ≠ some quote := by
        cases cs with
        | nil => simpa using hquote.symm
        | cons c cs => exact hopen
      have hread := Piece.read?_feed cs bs
      rw [hnone, Option.map_none] at hread
      rw [readPieces, if_neg hopen']
      split
      next => rfl
      next hsome =>
        rw [hread] at hsome
        cases hsome
  | case3 cs hopen piece rest hpiece pieces after hrest ih =>
      have hread := Piece.read?_feed cs bs
      rw [hpiece, Option.map_some] at hread
      have hopen' : (cs ++ '\n' :: bs).head? ≠ some quote := by
        cases cs with
        | nil => cases hpiece
        | cons c cs => exact hopen
      rw [readPieces, if_neg hopen']
      split
      next hnone =>
        rw [hread] at hnone
        cases hnone
      next hsome =>
        rw [hread] at hsome
        cases hsome
        rw [ih, hrest]

end Literal

namespace Lexeme

/-- The lexeme as it is cut off if `more` follows the text. -/
def before (more : List Char) (lexeme : Lexeme) : Lexeme :=
  { lexeme with rest := lexeme.rest ++ more }

theorem word_feed : word (cs ++ '\n' :: bs) = (word cs).before ('\n' :: bs) := by
  obtain ⟨htake, hdrop⟩ := takeWhile_feed cs bs (p := isWordChar) (by decide)
  rw [word, htake, hdrop]
  rfl

theorem splitFraction_feed :
    splitFraction (cs ++ '\n' :: bs) =
      ((splitFraction cs).1, (splitFraction cs).2 ++ '\n' :: bs) := by
  cases cs with
  | nil => rfl
  | cons c cs =>
      by_cases hdot : c = '.'
      · subst hdot
        cases cs with
        | nil => rfl
        | cons d cs =>
            obtain ⟨htake, hdrop⟩ := takeWhile_feed (d :: cs) bs (p := Char.isDigit) (by decide)
            rw [List.cons_append] at htake hdrop
            simp only [List.cons_append, splitFraction, htake, hdrop]
            split
            · rfl
            · rfl
      · simp [splitFraction, hdot]

theorem number_feed : number (cs ++ '\n' :: bs) = (number cs).before ('\n' :: bs) := by
  obtain ⟨hdigits, hbehind⟩ := takeWhile_feed cs bs (p := Char.isDigit) (by decide)
  obtain ⟨htail, hrest⟩ := takeWhile_feed
    (splitFraction (cs.dropWhile Char.isDigit)).2 bs (p := isWordChar) (by decide)
  simp only [number, hdigits, hbehind, splitFraction_feed, htail, hrest]
  split
  · rfl
  · rfl

theorem string_feed : string (cs ++ '\n' :: bs) = (string cs).before ('\n' :: bs) := by
  simp only [string, Literal.readPieces_feed cs bs '"' (by decide)]
  cases (Literal.readPieces '"' cs).2 with
  | nil => rfl
  | cons c rest =>
      by_cases hclosed : c = '"'
      · subst hclosed
        rfl
      by_cases hslash : c = '\\'
      · subst hslash
        rfl
      · simp [hclosed, hslash, before, invalid]

theorem char_feed : char (cs ++ '\n' :: bs) = (char cs).before ('\n' :: bs) := by
  unfold char
  rw [Literal.Piece.read?_feed]
  cases Literal.Piece.read? cs with
  | none =>
      dsimp only [Option.map_none]
      cases cs with
      | nil => rfl
      | cons c cs =>
          by_cases hslash : c = '\\'
          · subst hslash
            rfl
          · simp [hslash, before, invalid]
  | some found =>
      obtain ⟨piece, rest⟩ := found
      dsimp only [Option.map_some]
      by_cases hempty : piece = .plain '\''
      · subst hempty
        rfl
      obtain ⟨htake, hdrop⟩ := takeWhile_feed rest bs (p := staysInChar) (by decide)
      simp only [htake, hdrop]
      cases rest.dropWhile staysInChar with
      | nil => rfl
      | cons c after =>
          by_cases hclosed : c = '\''
          · subst hclosed
            by_cases hsurplus : rest.takeWhile staysInChar = []
            · simp only [if_pos hsurplus]
              rfl
            · simp only [if_neg hsurplus]
              rfl
          · simp [hclosed, before, invalid]

theorem longest?_feed : Symbol.longest? (cs ++ '\n' :: bs) = Symbol.longest? cs := by
  unfold Symbol.longest?
  congr 1
  funext s
  rw [Bool.eq_iff_iff, List.isPrefixOf_iff_prefix, List.isPrefixOf_iff_prefix]
  refine ⟨fun ⟨more, hmore⟩ => ?_, fun h => h.trans (List.prefix_append _ _)⟩
  rcases List.append_eq_append_iff.mp hmore with ⟨extra, rfl, -⟩ | ⟨extra, hs, hextra⟩
  · exact List.prefix_append _ _
  cases extra with
  | nil =>
      rw [List.append_nil] at hs
      exact hs ▸ List.prefix_rfl
  | cons c extra =>
      obtain ⟨rfl, -⟩ := List.cons.inj hextra
      have hblank := symbol_chars s '\n' (by simp [hs])
      cases hblank

theorem mark_feed (c : Char) : mark c (cs ++ '\n' :: bs) = (mark c cs).before ('\n' :: bs) := by
  rw [mark_eq, mark_eq, ← List.cons_append, longest?_feed]
  cases hs : Symbol.longest? (c :: cs) with
  | none => rfl
  | some s =>
      have hspelled := Symbol.spelling_prefix_of_longest? hs
      dsimp only
      rw [List.drop_append_of_le_length hspelled.length_le]
      rfl

/-- A lexeme ends at a line feed, if not before it. -/
theorem read_feed (c : Char) : read c (cs ++ '\n' :: bs) = (read c cs).before ('\n' :: bs) := by
  simp only [read, ← List.cons_append, word_feed, number_feed, string_feed, char_feed, mark_feed]
  split
  · rfl
  split
  · rfl
  split
  · rfl
  split
  · rfl
  · rfl

end Lexeme

namespace Gap

theorem splitCommentEnd?_append_right {cs text rest : List Char}
    (h : splitCommentEnd? cs = some (text, rest)) (more : List Char) :
    splitCommentEnd? (cs ++ more) = some (text, rest ++ more) := by
  obtain ⟨body, rfl, hbody⟩ := splitCommentEnd?_eq_some h
  rw [splitCommentEnd?_eq_append h]
  simpa using splitCommentEnd?_append hbody (rest ++ more)

theorem piece?_feed {cs text rest : List Char} (h : piece? cs = some (text, rest)) :
    piece? (cs ++ '\n' :: bs) = some (text, rest ++ '\n' :: bs) := by
  unfold piece? at h
  split at h
  next body =>
    obtain ⟨rfl, rfl⟩ := Prod.mk.inj (Option.some.inj h)
    obtain ⟨htake, hdrop⟩ := takeWhile_feed body bs (p := (· != '\n')) (by decide)
    simp only [List.cons_append, piece?, htake, hdrop]
  next body =>
    obtain ⟨⟨comment, behind⟩, hsplit, hsame⟩ := Option.map_eq_some_iff.mp h
    obtain ⟨rfl, rfl⟩ := Prod.mk.inj hsame
    simp only [List.cons_append, piece?, splitCommentEnd?_append_right hsplit, Option.map_some]
  next c behind hline hblock =>
    split at h
    next hblank =>
      obtain ⟨rfl, rfl⟩ := Prod.mk.inj (Option.some.inj h)
      have hslash : c ≠ '/' := by
        rintro rfl
        cases hblank
      simp [piece?, hslash, hblank]
    next => cases h
  next => cases h

theorem absent_feed {c : Char} (h : Absent (c :: cs)) : Absent (c :: cs ++ '\n' :: bs) := by
  obtain ⟨hpiece, hopens⟩ := h
  by_cases hslash : c = '/'
  · subst hslash
    cases cs with
    | nil => exact ⟨rfl, rfl⟩
    | cons d cs =>
        have hline : d ≠ '/' := by
          rintro rfl
          cases hpiece
        have hblock : d ≠ '*' := by
          rintro rfl
          cases hopens
        constructor
        · simp [piece?, hline, hblock, show isBlank '/' = false from rfl]
        · simp [opensComment, hblock]
  · refine absent_cons (Bool.eq_false_iff.mpr fun hblank => ?_) hslash
    simp [piece?, hslash, hblank] at hpiece

theorem read_feed_of_ne_nil (h : (read cs).rest ≠ []) :
    read (cs ++ '\n' :: bs) = ⟨(read cs).text, (read cs).rest ++ '\n' :: bs, none⟩ ∧
      (read cs).unclosed = none := by
  fun_induction read cs with
  | case1 cs text rest hpiece gap ih =>
      obtain ⟨hread, hclosed⟩ := ih h
      rw [read_of_piece (piece?_feed bs hpiece), hread, hclosed]
      exact ⟨rfl, rfl⟩
  | case2 => exact absurd rfl h
  | case3 cs hpiece hopens =>
      cases cs with
      | nil => exact absurd rfl h
      | cons c cs =>
          exact ⟨read_of_absent (absent_feed cs bs ⟨hpiece, Bool.eq_false_iff.mpr hopens⟩), rfl⟩

theorem read_feed_of_nil (h : (read cs).rest = []) (hclosed : (read cs).unclosed = none) :
    read (cs ++ '\n' :: bs) =
      ⟨cs ++ '\n' :: (read bs).text, (read bs).rest,
        (read bs).unclosed.map (byteLength cs + 1 + ·)⟩ := by
  fun_induction read cs with
  | case1 cs text rest hpiece gap ih =>
      rw [read_of_piece (piece?_feed bs hpiece), ih h (Option.map_eq_none_iff.mp hclosed),
        piece?_eq_append hpiece, Option.map_map, byteLength_append]
      simp only [List.append_assoc]
      congr 2
      funext opened
      simp only [Function.comp_apply]
      omega
  | case2 => cases hclosed
  | case3 cs hpiece hopens =>
      obtain rfl : cs = [] := h
      have hfeed : piece? ('\n' :: bs) = some (['\n'], bs) := rfl
      rw [List.nil_append, read_of_piece hfeed]
      rfl

end Gap

namespace TokenStream

variable {stream : TokenStream}

/-- The stream with a line feed and `bs` behind its text. -/
def feed (stream : TokenStream) (bs : List Char) : TokenStream :=
  { stream with rest := stream.rest ++ '\n' :: bs }

/-- The stream of `bs` behind a line feed that follows the text. -/
def behindFeed (stream : TokenStream) (bs : List Char) (problems : List Problem) : TokenStream :=
  ⟨stream.fileId, stream.offset + byteLength stream.rest + 1, bs, problems⟩

/-- The stream `n` bytes further on, with other problems noted before its own. -/
def shift (n : Nat) (earlier : List Problem) (stream : TokenStream) : TokenStream :=
  ⟨stream.fileId, stream.offset + n, stream.rest,
    earlier ++ stream.problems.map (Problem.shift n)⟩

theorem tokenize_congr {other : TokenStream} (h : stream.next = other.next) :
    stream.tokenize = other.tokenize := by
  rw [tokenize, h, ← tokenize]

theorem gapProblems_of_closed {gap : Gap} (h : gap.unclosed = none) :
    stream.gapProblems gap = [] := by
  rw [gapProblems, h]
  rfl

theorem next_feed_of_end (h : (Gap.read stream.rest).rest = [])
    (hclosed : (Gap.read stream.rest).unclosed = none) :
    (stream.feed bs).next = (stream.behindFeed bs stream.problems).next := by
  have hgap : Gap.read (stream.feed bs).rest = _ :=
    Gap.read_feed_of_nil stream.rest bs h hclosed
  have hgap' : Gap.read (stream.behindFeed bs stream.problems).rest = Gap.read bs := rfl
  have hoffset : stream.offset + byteLength (stream.rest ++ '\n' :: (Gap.read bs).text) =
      stream.offset + byteLength stream.rest + 1 + byteLength (Gap.read bs).text := by
    rw [byteLength_append, byteLength_cons, show '\n'.utf8Size = 1 from rfl]
    omega
  have hproblems : (stream.feed bs).gapProblems (Gap.read (stream.feed bs).rest) =
      (stream.behindFeed bs stream.problems).gapProblems (Gap.read bs) := by
    rw [hgap, gapProblems, gapProblems]
    cases (Gap.read bs).unclosed with
    | none => rfl
    | some opened => simp [range, feed, behindFeed, Nat.add_assoc]
  simp only [next, hproblems]
  rw [hgap, hgap']
  simp only [feed, behindFeed, range, hoffset]
  rfl

theorem next_feed_of_lexeme {c : Char} {cs : List Char}
    (h : (Gap.read stream.rest).rest = c :: cs) :
    (stream.feed bs).next =
      (stream.lexemeToken (Lexeme.read c cs),
        (stream.behindLexeme (Lexeme.read c cs)).feed bs) := by
  obtain ⟨hread, hclosed⟩ := Gap.read_feed_of_ne_nil stream.rest bs (by simp [h])
  have hgap : Gap.read (stream.feed bs).rest =
      ⟨(Gap.read stream.rest).text, c :: (cs ++ '\n' :: bs), none⟩ := by
    rw [feed, hread, h]
    rfl
  have hrest : (Gap.read (stream.feed bs).rest).rest = c :: (cs ++ '\n' :: bs) := by
    rw [hgap]
  rw [next_of_lexeme hrest, Lexeme.read_feed]
  simp only [lexemeToken, behindLexeme, hgap, gapProblems_of_closed hclosed]
  rfl

theorem tokenize_feed
    (h : ∀ problem ∈ stream.tokenize.2.problems, problem.cause ≠ .unterminatedComment) :
    (stream.feed bs).tokenize =
      (stream.tokenize.1.dropLast ++
          (stream.behindFeed bs stream.tokenize.2.problems).tokenize.1,
        (stream.behindFeed bs stream.tokenize.2.problems).tokenize.2) := by
  fun_induction tokenize stream with
  | case1 stream hend =>
      have hrest := rest_of_isEof hend
      rw [next_of_end hrest] at h ⊢
      have hclosed : (Gap.read stream.rest).unclosed = none := by
        refine Option.eq_none_iff_forall_ne_some.mpr fun opened hopened => ?_
        refine h ⟨.unterminatedComment, stream.range (stream.offset + opened) 2⟩ ?_ rfl
        simp [gapProblems, hopened]
      rw [tokenize_congr (next_feed_of_end bs hrest hclosed), gapProblems_of_closed hclosed,
        List.append_nil]
      rfl
  | case2 stream hend tokens last hmore ih =>
      obtain ⟨c, cs, hrest⟩ := exists_rest_of_not_isEof hend
      rw [next_of_lexeme hrest] at hmore ih ⊢
      obtain ⟨body, hbody, -⟩ := (stream.behindLexeme (Lexeme.read c cs)).tokenize_follow
      have hne : tokens ≠ [] := by
        obtain rfl : tokens = _ := (congrArg Prod.fst hmore).symm.trans hbody
        simp
      have hbehind : (stream.behindLexeme (Lexeme.read c cs)).behindFeed bs last.problems =
          stream.behindFeed bs last.problems := by
        rw [behindFeed, behindLexeme_end hrest]
        rfl
      rw [hmore] at ih
      rw [tokenize_of_more, next_feed_of_lexeme bs hrest, ih h, hbehind,
        List.dropLast_cons_of_ne_nil hne]
      · rfl
      · rw [next_feed_of_lexeme bs hrest]
        exact decide_eq_false (Lexeme.read_kind_ne_eof c cs)

section

variable (n : Nat) (earlier : List Problem)

theorem range_shift (offset length : Nat) :
    (stream.shift n earlier).range (offset + n) length = (stream.range offset length).shift n := by
  simp [range, shift, Span.shift, Nat.add_right_comm]

theorem gapProblems_shift (gap : Gap) :
    (stream.shift n earlier).gapProblems gap =
      (stream.gapProblems gap).map (Problem.shift n) := by
  have hoffset (opened : Nat) :
      (stream.shift n earlier).offset + opened = stream.offset + opened + n :=
    Nat.add_right_comm _ _ _
  simp only [gapProblems, List.map_map, hoffset, range_shift]
  rfl

theorem lexemeProblems_shift (offset : Nat) (lexeme : Lexeme) :
    (stream.shift n earlier).lexemeProblems (offset + n) lexeme =
      (stream.lexemeProblems offset lexeme).map (Problem.shift n) := by
  simp only [lexemeProblems, List.map_map, Nat.add_right_comm offset n]
  rfl

theorem next_shift :
    (stream.shift n earlier).next = (stream.next.1.shift n, stream.next.2.shift n earlier) := by
  have hoffset (length : Nat) :
      (stream.shift n earlier).offset + length = stream.offset + length + n :=
    Nat.add_right_comm _ _ _
  have hrest' : (stream.shift n earlier).rest = stream.rest := rfl
  cases hrest : (Gap.read stream.rest).rest with
  | nil =>
      rw [next_of_end hrest, @next_of_end (stream.shift n earlier) hrest]
      simp only [hoffset, hrest', range_shift, gapProblems_shift]
      simp [shift, Token.shift, Token.eof]
  | cons c cs =>
      rw [next_of_lexeme hrest, @next_of_lexeme (stream.shift n earlier) _ _ hrest]
      simp only [lexemeToken, behindLexeme, hoffset, hrest', range_shift, gapProblems_shift,
        lexemeProblems_shift]
      simp [shift, Token.shift, Nat.add_right_comm _ n]

end

theorem tokenize_shift (n : Nat) (earlier : List Problem) :
    (stream.shift n earlier).tokenize =
      (stream.tokenize.1.map (Token.shift n), stream.tokenize.2.shift n earlier) := by
  fun_induction tokenize stream with
  | case1 stream hend =>
      rw [tokenize_of_end (by rw [next_shift]; exact hend), next_shift]
      rfl
  | case2 stream hend tokens last hmore ih =>
      rw [tokenize_of_more (by rw [next_shift]; exact Bool.eq_false_iff.mpr hend), next_shift]
      rw [hmore] at ih
      simp only [ih]
      rfl

/-- A source behind another one, from which a line feed divides it, is tokenized as if it
stood alone, but further on. -/
theorem tokenize_concat {a : String} (b : String) {fileId : Nat}
    (h : ∀ problem ∈ lexicalProblems a fileId, problem.cause ≠ .unterminatedComment) :
    (ofSource (a ++ "\n" ++ b) fileId).tokenize =
      (bodyTokens a fileId ++ (tokens b fileId).map (Token.shift (a.utf8ByteSize + 1)),
        (ofSource b fileId).tokenize.2.shift (a.utf8ByteSize + 1)
          (lexicalProblems a fileId)) := by
  have hfeed : ofSource (a ++ "\n" ++ b) fileId = (ofSource a fileId).feed b.toList := by
    simp [ofSource, feed]
  have hlength : byteLength a.toList = a.utf8ByteSize := (utf8ByteSize_eq a).symm
  have hbehind (problems : List Problem) : (ofSource a fileId).behindFeed b.toList problems =
      (ofSource b fileId).shift (a.utf8ByteSize + 1) problems := by
    simp [ofSource, behindFeed, shift, hlength]
  rw [hfeed, tokenize_feed b.toList h, hbehind, tokenize_shift]
  rfl

end TokenStream

section

variable (a b : String) (fileId : Nat)
  (h : ∀ problem ∈ lexicalProblems a fileId, problem.cause ≠ .unterminatedComment)
include h

theorem lexicalProblems_concat :
    lexicalProblems (a ++ "\n" ++ b) fileId = lexicalProblems a fileId ++
      (lexicalProblems b fileId).map (Problem.shift (a.utf8ByteSize + 1)) := by
  rw [lexicalProblems, TokenStream.tokenize_concat b h]
  rfl

theorem bodyTokens_concat :
    bodyTokens (a ++ "\n" ++ b) fileId = bodyTokens a fileId ++
      (bodyTokens b fileId).map (Token.shift (a.utf8ByteSize + 1)) := by
  rw [bodyTokens, tokens, TokenStream.tokenize_concat b h, tokens_eq_append b, List.map_append,
    List.map_singleton, ← List.append_assoc, List.dropLast_concat]

/-- What is malformed in a line stays there: behind a source in which every comment is
closed, any other on the next line has the tokens and the problems that it has alone, all
further on. Before them are those of the first source, but for its end. -/
theorem tokens_concat :
    ∃ body, tokens a fileId = body ++ [.eof ⟨a.utf8ByteSize, a.utf8ByteSize, fileId⟩] ∧
      (∀ token ∈ body, token.kind ≠ .eof) ∧
      tokens (a ++ "\n" ++ b) fileId =
        body ++ (tokens b fileId).map (Token.shift (a.utf8ByteSize + 1)) ∧
      lexicalProblems (a ++ "\n" ++ b) fileId = lexicalProblems a fileId ++
        (lexicalProblems b fileId).map (Problem.shift (a.utf8ByteSize + 1)) := by
  refine ⟨bodyTokens a fileId, tokens_eq_append a fileId, fun token hmem => ?_, ?_,
    lexicalProblems_concat a b fileId h⟩
  · exact ((bodyTokens_follow a fileId).of_mem hmem).2.2.2.2
  · rw [tokens, TokenStream.tokenize_concat b h]

end

/-- A string that is not terminated and a character literal that is too long. -/
theorem tokens_concat_openString :
    (∀ problem ∈ lexicalProblems "'ab' \"x" 0, problem.cause ≠ .unterminatedComment) ∧
      ∃ body,
        tokens "'ab' \"x" 0 =
          body ++ [.eof ⟨"'ab' \"x".utf8ByteSize, "'ab' \"x".utf8ByteSize, 0⟩] ∧
        (∀ token ∈ body, token.kind ≠ .eof) ∧
        tokens ("'ab' \"x" ++ "\n" ++ "\"y\"") 0 =
          body ++ (tokens "\"y\"" 0).map (Token.shift ("'ab' \"x".utf8ByteSize + 1)) ∧
        lexicalProblems ("'ab' \"x" ++ "\n" ++ "\"y\"") 0 = lexicalProblems "'ab' \"x" 0 ++
          (lexicalProblems "\"y\"" 0).map (Problem.shift ("'ab' \"x".utf8ByteSize + 1)) :=
  have hclosed : ∀ problem ∈ lexicalProblems "'ab' \"x" 0,
      problem.cause ≠ .unterminatedComment := by
    decide +kernel
  ⟨hclosed, tokens_concat _ _ _ hclosed⟩

end SourceFront
