import SourceFront.Proofs.Stream

/-!
Where lexical problems stand: inside the source, each at a place of its own. A token is
invalid exactly if one of them starts where it does, so each invalid token has a problem.
-/

namespace SourceFront

open Text

/-- The faults of a lexeme lie in its text and start apart from one another. One that
starts with the text makes the lexeme invalid. -/
structure Lexeme.Faulted (lexeme : Lexeme) : Prop where
  within : ∀ fault ∈ lexeme.faults, fault.start < byteLength lexeme.text ∧
    fault.start ≤ fault.stop ∧ fault.stop ≤ byteLength lexeme.text
  apart : lexeme.faults.Pairwise fun a b => a.start ≠ b.start
  lexical : ∀ fault ∈ lexeme.faults, fault.cause.isLexical = true
  invalid : lexeme.kind = .invalid ↔ ∃ fault ∈ lexeme.faults, fault.start = 0

namespace Literal

variable (quote : Char) (pieces : List Piece)

theorem unknownEscapes_placed (offset : Nat) :
    (∀ found ∈ unknownEscapes quote offset pieces, offset ≤ found.2 ∧
        found.2 + 1 + found.1.utf8Size ≤ offset + byteLength (piecesText pieces)) ∧
      (unknownEscapes quote offset pieces).Pairwise fun a b =>
        a.2 + 1 + a.1.utf8Size ≤ b.2 := by
  induction pieces generalizing offset with
  | nil => exact ⟨by simp [unknownEscapes], .nil⟩
  | cons piece pieces ih =>
      obtain ⟨hplaced, hapart⟩ := ih (offset + byteLength piece.text)
      have hlength : byteLength (piecesText (piece :: pieces)) =
          byteLength piece.text + byteLength (piecesText pieces) := by
        rw [piecesText, List.flatMap_cons, byteLength_append, piecesText]
      rw [unknownEscapes, hlength]
      split
      next =>
        refine ⟨fun found hmem => ?_, hapart⟩
        have := hplaced found hmem
        omega
      next c hc =>
        obtain rfl : piece = .escape c := by
          cases piece with
          | plain d => simp [Piece.unknown?] at hc
          | escape d =>
              simp only [Piece.unknown?, Option.ite_none_right_eq_some, Option.some.injEq] at hc
              rw [hc.2]
        have hpiece : byteLength (Piece.escape c).text = 1 + c.utf8Size := rfl
        rw [hpiece] at hplaced ⊢
        refine ⟨fun found hmem => ?_, .cons (fun found hmem => ?_) hapart⟩
        · rcases List.mem_cons.mp hmem with rfl | hmem
          · dsimp only
            omega
          · have := hplaced found hmem
            omega
        · have := hplaced found hmem
          dsimp only
          omega

end Literal

namespace Lexeme

variable {quote : Char} {pieces : List Literal.Piece} {kind : TokenKind}
  {text rest : List Char} {faults : List Fault} {cause : Cause}

theorem escapeFaults_placed (quote : Char) (pieces : List Literal.Piece) :
    (∀ fault ∈ escapeFaults quote pieces, 0 < fault.start ∧
        fault.start < 1 + byteLength (Literal.piecesText pieces) ∧
        fault.start ≤ fault.stop ∧ fault.stop ≤ 1 + byteLength (Literal.piecesText pieces) ∧
        fault.cause.isLexical = true) ∧
      (escapeFaults quote pieces).Pairwise fun a b => a.start ≠ b.start := by
  obtain ⟨hplaced, hapart⟩ := Literal.unknownEscapes_placed quote pieces 1
  constructor
  · intro fault hmem
    obtain ⟨found, hfound, rfl⟩ := List.mem_map.mp hmem
    have hle := hplaced found hfound
    have := found.1.utf8Size_pos
    refine ⟨?_, ?_, ?_, ?_, rfl⟩ <;> dsimp only <;> omega
  · refine List.pairwise_map.mpr (hapart.imp fun hle => ?_)
    dsimp only
    omega

theorem faulted_of_pos (hkind : kind ≠ .invalid)
    (hplaced : ∀ fault ∈ faults, 0 < fault.start ∧ fault.start < byteLength text ∧
      fault.start ≤ fault.stop ∧ fault.stop ≤ byteLength text ∧ fault.cause.isLexical = true)
    (hapart : faults.Pairwise fun a b => a.start ≠ b.start) :
    Faulted ⟨kind, text, rest, faults⟩ where
  within fault hmem := by
    obtain ⟨-, hlt, hle, hstop, -⟩ := hplaced fault hmem
    exact ⟨hlt, hle, hstop⟩
  apart := hapart
  lexical fault hmem := (hplaced fault hmem).2.2.2.2
  invalid := by
    refine ⟨fun h => absurd h hkind, ?_⟩
    rintro ⟨fault, hmem, hzero⟩
    have := (hplaced fault hmem).1
    omega

theorem faulted_invalid (hcause : cause.isLexical = true) (htext : text ≠ [])
    (hplaced : ∀ fault ∈ faults, 0 < fault.start ∧ fault.start < byteLength text ∧
      fault.start ≤ fault.stop ∧ fault.stop ≤ byteLength text ∧ fault.cause.isLexical = true)
    (hapart : faults.Pairwise fun a b => a.start ≠ b.start) :
    (Lexeme.invalid cause text rest faults).Faulted where
  within fault hmem := by
    rcases List.mem_append.mp hmem with hmem | hmem
    · obtain ⟨-, hlt, hle, hstop, -⟩ := hplaced fault hmem
      exact ⟨hlt, hle, hstop⟩
    · obtain rfl := List.mem_singleton.mp hmem
      exact ⟨byteLength_pos htext, Nat.zero_le _, Nat.le_refl _⟩
  apart := by
    refine List.pairwise_append.mpr ⟨hapart, List.pairwise_singleton _ _, ?_⟩
    intro fault hmem last hlast
    obtain rfl := List.mem_singleton.mp hlast
    exact Nat.ne_of_gt (hplaced fault hmem).1
  lexical fault hmem := by
    rcases List.mem_append.mp hmem with hmem | hmem
    · exact (hplaced fault hmem).2.2.2.2
    · obtain rfl := List.mem_singleton.mp hmem
      exact hcause
  invalid :=
    ⟨fun _ => ⟨_, List.mem_append_right _ (List.mem_singleton_self _), rfl⟩, fun _ => rfl⟩

theorem escapeFaults_within (quote : Char) (pieces : List Literal.Piece) (more : List Char) :
    ∀ fault ∈ escapeFaults quote pieces, 0 < fault.start ∧
      fault.start < byteLength (quote :: Literal.piecesText pieces ++ more) ∧
      fault.start ≤ fault.stop ∧
      fault.stop ≤ byteLength (quote :: Literal.piecesText pieces ++ more) ∧
      fault.cause.isLexical = true := by
  intro fault hmem
  obtain ⟨hpos, hlt, hle, hstop, hcause⟩ := (escapeFaults_placed quote pieces).1 fault hmem
  have := quote.utf8Size_pos
  rw [byteLength_append, byteLength_cons]
  refine ⟨hpos, ?_, hle, ?_, hcause⟩ <;> omega

theorem word_faulted (cs : List Char) : (word cs).Faulted := by
  refine faulted_of_pos ?_ (by simp) .nil
  split <;> simp

theorem number_faulted (cs : List Char) : (number cs).Faulted := by
  unfold number
  dsimp only
  split
  · exact faulted_of_pos (by simp) (by simp) .nil
  next htail => exact faulted_invalid rfl (by simp [htail]) (by simp) .nil

theorem string_faulted (cs : List Char) : (string cs).Faulted := by
  have hapart := (escapeFaults_placed '"' (Literal.readPieces '"' cs).1).2
  unfold string
  dsimp only
  split
  · exact faulted_of_pos (by simp) (escapeFaults_within _ _ ['"']) hapart
  · exact faulted_invalid rfl (by simp) (escapeFaults_within _ _ ['\\']) hapart
  · refine faulted_invalid rfl (by simp) ?_ hapart
    simpa using escapeFaults_within '"' (Literal.readPieces '"' cs).1 []

theorem char_faulted (cs : List Char) : (char cs).Faulted := by
  unfold char
  split
  · exact faulted_invalid rfl (by simp) (by simp) .nil
  next piece rest _ _ =>
    have hapart := (escapeFaults_placed '\'' [piece]).2
    have hwithin (more : List Char) :
        ∀ fault ∈ escapeFaults '\'' [piece], 0 < fault.start ∧
          fault.start < byteLength ('\'' :: piece.text ++ more) ∧
          fault.start ≤ fault.stop ∧
          fault.stop ≤ byteLength ('\'' :: piece.text ++ more) ∧
          fault.cause.isLexical = true := by
      simpa [Literal.piecesText] using
        escapeFaults_within '\'' [piece] more
    dsimp only
    split
    · split
      · exact faulted_of_pos (by simp) (hwithin ['\'']) hapart
      · refine faulted_invalid rfl (by simp) ?_ hapart
        rw [List.append_assoc]
        exact hwithin _
    · refine faulted_invalid rfl (by simp) ?_ hapart
      simpa using hwithin []
  · split <;> exact faulted_invalid rfl (by simp) (by simp) .nil

theorem mark_faulted (c : Char) (cs : List Char) : (mark c cs).Faulted := by
  unfold mark
  split
  · exact faulted_of_pos (by simp) (by simp) .nil
  · exact faulted_invalid rfl (by simp) (by simp) .nil

theorem read_faulted (c : Char) (cs : List Char) : (read c cs).Faulted := by
  unfold read
  split
  · exact word_faulted _
  split
  · exact number_faulted _
  split
  · exact string_faulted _
  split
  · exact char_faulted _
  · exact mark_faulted _ _

end Lexeme

theorem Gap.read_unclosed (cs : List Char) :
    ∀ opened, (Gap.read cs).unclosed = some opened →
      (Gap.read cs).rest = [] ∧ opened + 2 ≤ byteLength (Gap.read cs).text := by
  fun_induction Gap.read cs with
  | case1 cs text rest hpiece gap ih =>
      intro opened h
      obtain ⟨inner, hinner, rfl⟩ := Option.map_eq_some_iff.mp h
      obtain ⟨hrest, hle⟩ := ih inner hinner
      have hinside : inner + 2 ≤ byteLength gap.text := hle
      refine ⟨hrest, ?_⟩
      rw [byteLength_append]
      omega
  | case2 cs hpiece hopens =>
      intro opened h
      obtain rfl : 0 = opened := Option.some.inj h
      unfold opensComment at hopens
      split at hopens
      next rest =>
        refine ⟨rfl, ?_⟩
        rw [byteLength_cons, byteLength_cons]
        have : '/'.utf8Size = 1 := rfl
        have : '*'.utf8Size = 1 := rfl
        omega
      next => cases hopens
  | case3 => simp

/-- The problems `found` in the bytes from `start` to `stop`, where `tokens` stand. -/
structure Noted (fileId start stop : Nat) (tokens : List Token) (found : List Problem) :
    Prop where
  within : ∀ problem ∈ found, start ≤ problem.start ∧ problem.start < stop ∧
    problem.span.start ≤ problem.span.stop ∧ problem.span.stop ≤ stop ∧
    problem.span.fileId = fileId
  apart : found.Pairwise fun a b => a.start ≠ b.start
  lexical : ∀ problem ∈ found, problem.cause.isLexical = true
  invalid : ∀ token ∈ tokens,
    token.kind = .invalid ↔ ∃ problem ∈ found, problem.start = token.span.start

theorem Noted.append {fileId start first middle stop : Nat} {front tokens : List Token}
    {found later : List Problem} (hfront : Noted fileId first middle front found)
    (hlater : Noted fileId middle stop tokens later) (hstart : start ≤ first)
    (hfirst : first ≤ middle) (hmiddle : middle ≤ stop)
    (hbefore : ∀ token ∈ front, token.span.start < middle)
    (hbehind : ∀ token ∈ tokens, middle ≤ token.span.start) :
    Noted fileId start stop (front ++ tokens) (found ++ later) where
  within problem hmem := by
    rcases List.mem_append.mp hmem with hmem | hmem
    · obtain ⟨hfrom, hlt, hle, hend, hfile⟩ := hfront.within problem hmem
      exact ⟨by omega, by omega, hle, by omega, hfile⟩
    · obtain ⟨hfrom, hothers⟩ := hlater.within problem hmem
      exact ⟨by omega, hothers⟩
  apart := by
    refine List.pairwise_append.mpr
      ⟨hfront.apart, hlater.apart, fun problem hmem other hother => ?_⟩
    have := (hfront.within problem hmem).2.1
    have := (hlater.within other hother).1
    omega
  lexical problem hmem := by
    rcases List.mem_append.mp hmem with hmem | hmem
    · exact hfront.lexical problem hmem
    · exact hlater.lexical problem hmem
  invalid token hmem := by
    simp only [List.mem_append, or_and_right, exists_or]
    rcases List.mem_append.mp hmem with hmem | hmem
    · rw [hfront.invalid token hmem, or_iff_left]
      rintro ⟨problem, hproblem, hsame⟩
      have := (hlater.within problem hproblem).1
      have := hbefore token hmem
      omega
    · rw [hlater.invalid token hmem, or_iff_right]
      rintro ⟨problem, hproblem, hsame⟩
      have := (hfront.within problem hproblem).2.1
      have := hbehind token hmem
      omega

namespace TokenStream

variable {stream : TokenStream}

theorem noted_end (h : (Gap.read stream.rest).rest = []) :
    Noted stream.fileId stream.offset (stream.offset + byteLength stream.rest)
      [.eof (stream.range (stream.offset + byteLength stream.rest) 0)]
      (stream.gapProblems (Gap.read stream.rest)) := by
  have hsplit := Gap.read_text_append_rest stream.rest
  rw [h, List.append_nil] at hsplit
  have hcomment : ∀ problem ∈ stream.gapProblems (Gap.read stream.rest),
      ∃ opened, opened + 2 ≤ byteLength stream.rest ∧
        problem = ⟨.unterminatedComment, stream.range (stream.offset + opened) 2⟩ := by
    intro problem hmem
    obtain ⟨opened, hopened, rfl⟩ := List.mem_map.mp hmem
    obtain ⟨-, hle⟩ := Gap.read_unclosed _ opened (Option.mem_toList.mp hopened)
    exact ⟨opened, hsplit ▸ hle, rfl⟩
  refine ⟨fun problem hmem => ?_, ?_, fun problem hmem => ?_, fun token hmem => ?_⟩
  · obtain ⟨opened, hle, rfl⟩ := hcomment problem hmem
    simp only [Problem.start, range, and_true]
    omega
  · rw [gapProblems]
    cases (Gap.read stream.rest).unclosed with
    | none => exact .nil
    | some opened => exact List.pairwise_singleton _ _
  · obtain ⟨opened, -, rfl⟩ := hcomment problem hmem
    rfl
  · obtain rfl := List.mem_singleton.mp hmem
    refine iff_of_false (by simp [Token.eof]) ?_
    rintro ⟨problem, hproblem, hstart⟩
    obtain ⟨opened, hle, rfl⟩ := hcomment problem hproblem
    simp only [Problem.start, range, Token.eof] at hstart
    omega

theorem noted_lexeme {lexeme : Lexeme} (h : lexeme.Faulted) (stream : TokenStream) :
    Noted stream.fileId (stream.offset + byteLength (Gap.read stream.rest).text)
      (stream.offset + byteLength (Gap.read stream.rest).text + byteLength lexeme.text)
      [stream.lexemeToken lexeme]
      (stream.lexemeProblems (stream.offset + byteLength (Gap.read stream.rest).text) lexeme) where
  within problem hmem := by
    obtain ⟨fault, hfault, rfl⟩ := List.mem_map.mp hmem
    obtain ⟨hlt, hle, hstop⟩ := h.within fault hfault
    simp only [Problem.start, and_true]
    omega
  apart := by
    refine List.pairwise_map.mpr (h.apart.imp fun hne hsame => hne ?_)
    simp only [Problem.start] at hsame
    omega
  lexical problem hmem := by
    obtain ⟨fault, hfault, rfl⟩ := List.mem_map.mp hmem
    exact h.lexical fault hfault
  invalid token hmem := by
    obtain rfl := List.mem_singleton.mp hmem
    rw [lexemeToken, h.invalid]
    constructor
    · rintro ⟨fault, hfault, hzero⟩
      exact ⟨_, List.mem_map_of_mem hfault,
        by simp only [Problem.start, range, hzero, Nat.add_zero]⟩
    · rintro ⟨problem, hproblem, hstart⟩
      obtain ⟨fault, hfault, rfl⟩ := List.mem_map.mp hproblem
      simp only [Problem.start, range] at hstart
      exact ⟨fault, hfault, by omega⟩

theorem noted_more {c : Char} {cs : List Char} (h : (Gap.read stream.rest).rest = c :: cs)
    {tokens : List Token} {found : List Problem}
    (hbehind : ∀ token ∈ tokens,
      (stream.behindLexeme (Lexeme.read c cs)).offset ≤ token.span.start)
    (hrest : Noted stream.fileId (stream.behindLexeme (Lexeme.read c cs)).offset
      (stream.offset + byteLength stream.rest) tokens found) :
    Noted stream.fileId stream.offset (stream.offset + byteLength stream.rest)
      (stream.lexemeToken (Lexeme.read c cs) :: tokens)
      (stream.lexemeProblems (stream.offset + byteLength (Gap.read stream.rest).text)
        (Lexeme.read c cs) ++ found) := by
  have hend := behindLexeme_end h
  have hlength := byteLength_pos (Lexeme.read_text_ne_nil c cs)
  have hnoted := noted_lexeme (Lexeme.read_faulted c cs) stream
  simp only [behindLexeme] at hend hbehind hrest
  refine hnoted.append hrest (by omega) (by omega) (by omega) ?_ hbehind
  intro token hmem
  obtain rfl := List.mem_singleton.mp hmem
  simp only [lexemeToken, range]
  omega

theorem offset_le_start (stream : TokenStream) :
    ∀ token ∈ stream.tokenize.1, stream.offset ≤ token.span.start := by
  obtain ⟨body, hbody, hfollow⟩ := stream.tokenize_follow
  intro token hmem
  rw [hbody] at hmem
  rcases List.mem_append.mp hmem with hmem | hmem
  · exact (hfollow.of_mem hmem).1
  · obtain rfl := List.mem_singleton.mp hmem
    exact Nat.le_add_right _ _

theorem gapProblems_of_lexeme {c : Char} {cs : List Char}
    (h : (Gap.read stream.rest).rest = c :: cs) :
    stream.gapProblems (Gap.read stream.rest) = [] := by
  rw [gapProblems]
  cases hunclosed : (Gap.read stream.rest).unclosed with
  | none => rfl
  | some opened =>
      have hrest := (Gap.read_unclosed _ opened hunclosed).1
      rw [h] at hrest
      cases hrest

/-- All problems of a token stream. -/
theorem tokenize_noted (stream : TokenStream) :
    ∃ found, stream.tokenize.2.problems = stream.problems ++ found ∧
      Noted stream.fileId stream.offset (stream.offset + byteLength stream.rest)
        stream.tokenize.1 found := by
  fun_induction tokenize stream with
  | case1 stream hend =>
      have hrest := rest_of_isEof hend
      rw [next_of_end hrest]
      exact ⟨_, rfl, noted_end hrest⟩
  | case2 stream hend tokens last hmore ih =>
      obtain ⟨c, cs, hrest⟩ := exists_rest_of_not_isEof hend
      rw [next_of_lexeme hrest] at hmore ih ⊢
      rw [hmore, behindLexeme_end hrest] at ih
      obtain ⟨found, hfound, hnoted⟩ := ih
      have hbehind := offset_le_start (stream.behindLexeme (Lexeme.read c cs))
      rw [hmore] at hbehind
      refine ⟨_, ?_, noted_more hrest hbehind hnoted⟩
      rw [hfound, behindLexeme, gapProblems_of_lexeme hrest, List.append_nil, List.append_assoc]

end TokenStream

end SourceFront
