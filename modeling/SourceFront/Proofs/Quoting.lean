import SourceFront.Proofs.Recording

/-!
Literals stand for what is written in them. Whatever a text is, it can be written between
quotes, with an escape for each character that needs one, and is then read as a literal of that
text; and every literal that is read without an unknown escape in it is written in this way.
-/

namespace SourceFront

open Text

namespace Literal

/-- How a character may be written in a literal between `quote`s. -/
inductive Writes (quote : Char) : Char → List Char → Prop where
  | plain {c : Char} (hquote : c ≠ quote) (hbackslash : c ≠ '\\') (hfeed : c ≠ '\n') :
      Writes quote c [c]
  | quote : Writes quote quote ['\\', quote]
  | backslash : Writes quote '\\' ['\\', '\\']
  | feed : Writes quote '\n' ['\\', 'n']
  | tab : Writes quote '\t' ['\\', 't']
  | return_ : Writes quote '\r' ['\\', 'r']
  | nul : Writes quote '\x00' ['\\', '0']

/-- How a text may be written in a literal between `quote`s, character by character. -/
inductive Encodes (quote : Char) : List Char → List Char → Prop where
  | nil : Encodes quote [] []
  | cons {c : Char} {text value body : List Char} (hchar : Writes quote c text)
      (hrest : Encodes quote value body) : Encodes quote (c :: value) (text ++ body)

variable {quote : Char} {value body : List Char}

theorem exists_encodes (quote : Char) (value : List Char) : ∃ body, Encodes quote value body := by
  have hwrites (c : Char) : ∃ text, Writes quote c text := by
    by_cases hquote : c = quote
    · subst hquote
      exact ⟨_, .quote⟩
    by_cases hbackslash : c = '\\'
    · subst hbackslash
      exact ⟨_, .backslash⟩
    by_cases hfeed : c = '\n'
    · subst hfeed
      exact ⟨_, .feed⟩
    · exact ⟨_, .plain hquote hbackslash hfeed⟩
  induction value with
  | nil => exact ⟨[], .nil⟩
  | cons c value ih =>
      obtain ⟨body, hbody⟩ := ih
      obtain ⟨text, htext⟩ := hwrites c
      exact ⟨_, .cons htext hbody⟩

theorem unescape?_eq_some_iff (hquote : IsQuote quote) {c d : Char} :
    unescape? quote c = some d ↔ Writes quote d ['\\', c] := by
  constructor
  · intro h
    unfold unescape? at h
    split at h
    iterate 5
      obtain rfl := Option.some.inj h
      constructor
    split at h
    next hc =>
      obtain rfl := Option.some.inj h
      exact hc ▸ .quote
    next => cases h
  · intro h
    cases h with
    | quote => rcases hquote with rfl | rfl <;> rfl
    | _ => rfl

theorem writes_iff_exists_piece (hquote : IsQuote quote) {c : Char} {text : List Char} :
    Writes quote c text ↔
      ∃ piece : Piece, piece.isProper quote = true ∧ piece.value quote = c ∧
        piece.text = text := by
  constructor
  · have hescape {d e : Char} (h : Writes quote d ['\\', e]) :
        ∃ piece : Piece, piece.isProper quote = true ∧ piece.value quote = d ∧
          piece.text = ['\\', e] := by
      have hknown := (unescape?_eq_some_iff hquote).mpr h
      exact ⟨.escape e, by simp [Piece.isProper, hknown], by simp [Piece.value, hknown], rfl⟩
    intro h
    cases h with
    | plain hne hbackslash hfeed =>
        exact ⟨.plain c, by simp [Piece.isProper, hne, hbackslash, hfeed], rfl, rfl⟩
    | quote => exact hescape .quote
    | backslash => exact hescape .backslash
    | feed => exact hescape .feed
    | tab => exact hescape .tab
    | return_ => exact hescape .return_
    | nul => exact hescape .nul
  · rintro ⟨piece, hproper, rfl, rfl⟩
    cases piece with
    | plain c =>
        simp only [Piece.isProper, Bool.and_eq_true, bne_iff_ne, ne_eq] at hproper
        exact .plain hproper.1.1 hproper.1.2 hproper.2
    | escape c =>
        obtain ⟨d, hd⟩ := Option.isSome_iff_exists.mp hproper
        rw [Piece.value, hd]
        exact (unescape?_eq_some_iff hquote).mp hd

/-- A text is written as the pieces that stand for its characters. -/
theorem encodes_iff_exists_pieces (hquote : IsQuote quote) :
    Encodes quote value body ↔
      ∃ pieces : List Piece, (∀ piece ∈ pieces, piece.isProper quote = true) ∧
        pieces.map (·.value quote) = value ∧ piecesText pieces = body := by
  constructor
  · intro h
    induction h with
    | nil => exact ⟨[], by simp, rfl, rfl⟩
    | cons hchar _ ih =>
        obtain ⟨piece, hproper, rfl, rfl⟩ := (writes_iff_exists_piece hquote).mp hchar
        obtain ⟨pieces, hpieces, rfl, rfl⟩ := ih
        exact ⟨piece :: pieces, List.forall_mem_cons.mpr ⟨hproper, hpieces⟩, rfl, rfl⟩
  · rintro ⟨pieces, hpieces, rfl, rfl⟩
    induction pieces with
    | nil => exact .nil
    | cons piece pieces ih =>
        obtain ⟨hproper, hpieces⟩ := List.forall_mem_cons.mp hpieces
        exact .cons ((writes_iff_exists_piece hquote).mpr ⟨piece, hproper, rfl, rfl⟩) (ih hpieces)

end Literal

theorem TokenStream.next_ofSource {c : Char} {cs text rest : List Char} {kind : TokenKind}
    (habsent : Gap.Absent (c :: cs)) (hread : Lexeme.read c cs = ⟨kind, text, rest, []⟩)
    (fileId : Nat) :
    (ofSource (String.ofList (c :: cs)) fileId).next =
      (⟨kind, String.ofList text, ⟨0, byteLength text, fileId⟩⟩,
        ⟨fileId, byteLength text, rest, []⟩) := by
  have hgap : Gap.read (ofSource (String.ofList (c :: cs)) fileId).rest = ⟨[], c :: cs, none⟩ := by
    rw [ofSource, String.toList_ofList, Gap.read_of_absent habsent]
  have hrest := congrArg Gap.rest hgap
  rw [next_of_lexeme hrest, hread, lexemeToken, behindLexeme, hgap]
  simp [ofSource, range, gapProblems, lexemeProblems]

theorem tokens_head? (source : String) (fileId : Nat) :
    (tokens source fileId).head? = some (TokenStream.ofSource source fileId).next.1 := by
  rw [tokens, TokenStream.tokenize]
  split
  · rfl
  · rfl

/-- A literal token in which no unknown escape is noted is written as its kind asks for. -/
theorem written_of_isQuoted {source : String} {fileId : Nat} {token : Token}
    (hmem : token ∈ tokens source fileId) (hkind : token.kind.isQuoted = true)
    (hknown : ∀ problem ∈ lexicalProblems source fileId,
      problem.cause.isUnknownEscape = true → ¬ token.span.contains problem.span = true) :
    token.kind.Written token.text.toList := by
  rcases exists_lexeme_of_mem_tokens hmem with rfl | ⟨placed, hread, rfl, hproblems⟩
  · cases hkind
  · have hfaults : placed.lexeme.faults = [] := by
      refine List.eq_nil_iff_forall_not_mem.mpr fun fault hfault => ?_
      obtain ⟨-, hle, hstop⟩ := hread.faulted.within fault hfault
      refine hknown _ (hproblems (List.mem_map_of_mem hfault)) ?_ ?_
      · exact hread.verdict.isUnknownEscape hkind fault hfault
      · simp only [Span.contains_iff, PlacedLexeme.token, PlacedLexeme.stop]
        omega
    obtain ⟨before, c, behind, -, rfl, -⟩ := hread
    rw [PlacedLexeme.token, String.toList_ofList]
    exact Lexeme.read_written hfaults

namespace Lexeme

variable {value body : List Char} {c : Char}

theorem read_of_encodes (h : Literal.Encodes '"' value body) (rest : List Char) :
    read '"' (body ++ ['"'] ++ rest) =
      ⟨.string (String.ofList value), '"' :: (body ++ ['"']), rest, []⟩ := by
  obtain ⟨pieces, hpieces, rfl, rfl⟩ := (Literal.encodes_iff_exists_pieces (.inl rfl)).mp h
  have hread := string_ends hpieces rest
  rwa [List.append_cons] at hread

theorem read_of_writes (h : Literal.Writes '\'' c body) (rest : List Char) :
    read '\'' (body ++ ['\''] ++ rest) =
      ⟨.char c, '\'' :: (body ++ ['\'']), rest, []⟩ := by
  obtain ⟨piece, hpiece, rfl, rfl⟩ := (Literal.writes_iff_exists_piece (.inr rfl)).mp h
  have hread := char_ends hpiece rest
  rwa [List.append_cons] at hread

end Lexeme

/-- What stands in a string literal is written for one text only: the value of the literal. -/
theorem Literal.encodes_iff_of_encodes {value value' body : List Char}
    (h : Encodes '"' value body) : Encodes '"' value' body ↔ value' = value := by
  refine ⟨fun h' => ?_, fun hsame => hsame ▸ h⟩
  have hread := (Lexeme.read_of_encodes h' []).symm.trans (Lexeme.read_of_encodes h [])
  have hkind : TokenKind.string (String.ofList value') = .string (String.ofList value) :=
    congrArg Lexeme.kind hread
  exact String.ofList_injective (TokenKind.string.inj hkind)

theorem Literal.writes_iff_of_writes {c c' : Char} {body : List Char} (h : Writes '\'' c body) :
    Writes '\'' c' body ↔ c' = c := by
  refine ⟨fun h' => ?_, fun hsame => hsame ▸ h⟩
  have hread := (Lexeme.read_of_writes h' []).symm.trans (Lexeme.read_of_writes h [])
  have hkind : TokenKind.char c' = .char c := congrArg Lexeme.kind hread
  exact TokenKind.char.inj hkind

theorem TokenKind.Written.exists_encodes {value : String} {text : List Char}
    (h : (TokenKind.string value).Written text) :
    ∃ body, text = '"' :: (body ++ ['"']) ∧ Literal.Encodes '"' value.toList body := by
  cases h with
  | @string pieces hpieces =>
      refine ⟨Literal.piecesText pieces, rfl, ?_⟩
      rw [String.toList_ofList]
      exact (Literal.encodes_iff_exists_pieces (.inl rfl)).mpr ⟨pieces, hpieces, rfl, rfl⟩

theorem TokenKind.Written.exists_writes {c : Char} {text : List Char}
    (h : (TokenKind.char c).Written text) :
    ∃ body, text = '\'' :: (body ++ ['\'']) ∧ Literal.Writes '\'' c body := by
  cases h with
  | @char piece hpiece =>
      exact ⟨piece.text, rfl,
        (Literal.writes_iff_exists_piece (.inr rfl)).mpr ⟨piece, hpiece, rfl, rfl⟩⟩

/-- However a text is written between quotes, it is read as a string literal of that text, and a
character as a character literal, with no problem and whatever comes behind. Every text can be
written so. The other way round, what stands between the quotes of a literal without an unknown
escape in it is written for the value of the literal, and for no other. -/
theorem literals_decoded :
    (∀ value body rest fileId, Literal.Encodes '"' value body →
      let text := '"' :: (body ++ ['"'])
      let source := String.ofList (text ++ rest)
      (tokens source fileId).head? =
          some ⟨.string (String.ofList value), String.ofList text, ⟨0, byteLength text, fileId⟩⟩ ∧
        (TokenStream.ofSource source fileId).next.2.problems = []) ∧
      (∀ c body rest fileId, Literal.Writes '\'' c body →
        let text := '\'' :: (body ++ ['\''])
        let source := String.ofList (text ++ rest)
        (tokens source fileId).head? =
            some ⟨.char c, String.ofList text, ⟨0, byteLength text, fileId⟩⟩ ∧
          (TokenStream.ofSource source fileId).next.2.problems = []) ∧
      (∀ quote value, ∃ body, Literal.Encodes quote value body) ∧
      ∀ source fileId, ∀ token ∈ tokens source fileId,
        (∀ problem ∈ lexicalProblems source fileId, problem.cause.isUnknownEscape = true →
          ¬ token.span.contains problem.span = true) →
        (∀ value, token.kind = .string value → ∃ body,
          token.text.toList = '"' :: (body ++ ['"']) ∧
            ∀ value', Literal.Encodes '"' value' body ↔ value' = value.toList) ∧
          ∀ c, token.kind = .char c → ∃ body,
            token.text.toList = '\'' :: (body ++ ['\'']) ∧
              ∀ c', Literal.Writes '\'' c' body ↔ c' = c := by
  refine ⟨fun value body rest fileId h => ?_, fun c body rest fileId h => ?_,
    Literal.exists_encodes, fun source fileId token hmem hknown => ⟨?_, ?_⟩⟩
  · have hnext := TokenStream.next_ofSource (Gap.absent_cons rfl (by decide))
      (Lexeme.read_of_encodes h rest) fileId
    dsimp only
    rw [tokens_head?, List.cons_append, hnext]
    exact ⟨rfl, rfl⟩
  · have hnext := TokenStream.next_ofSource (Gap.absent_cons rfl (by decide))
      (Lexeme.read_of_writes h rest) fileId
    dsimp only
    rw [tokens_head?, List.cons_append, hnext]
    exact ⟨rfl, rfl⟩
  · intro value hkind
    have hwritten := written_of_isQuoted hmem (by rw [hkind]; rfl) hknown
    rw [hkind] at hwritten
    obtain ⟨body, htext, hbody⟩ := hwritten.exists_encodes
    exact ⟨body, htext, fun _ => Literal.encodes_iff_of_encodes hbody⟩
  · intro c hkind
    have hwritten := written_of_isQuoted hmem (by rw [hkind]; rfl) hknown
    rw [hkind] at hwritten
    obtain ⟨body, htext, hbody⟩ := hwritten.exists_writes
    exact ⟨body, htext, fun _ => Literal.writes_iff_of_writes hbody⟩

/-- A string of a quote and a line feed, and a quote as a character. -/
theorem literals_decoded_quote :
    (tokens (String.ofList ("\"\\\"\\n\"".toList ++ "x\n".toList)) 0).head? =
        some ⟨.string "\"\n", "\"\\\"\\n\"", ⟨0, 6, 0⟩⟩ ∧
      (tokens (String.ofList ("'\\''".toList ++ "'".toList)) 0).head? =
        some ⟨.char '\'', "'\\''", ⟨0, 4, 0⟩⟩ ∧
      ⟨.string "\"\n", "\"\\\"\\n\"", ⟨1, 7, 0⟩⟩ ∈ tokens "x\"\\\"\\n\"'\\q'" 0 ∧
      ∃ body, "\"\\\"\\n\"".toList = '"' :: (body ++ ['"']) ∧
        ∀ value, Literal.Encodes '"' value body ↔ value = "\"\n".toList := by
  obtain ⟨hstring, hchar, -, hvalue⟩ := literals_decoded
  have hmem : ⟨.string "\"\n", "\"\\\"\\n\"", ⟨1, 7, 0⟩⟩ ∈ tokens "x\"\\\"\\n\"'\\q'" 0 := by
    decide +kernel
  have hknown : ∀ problem ∈ lexicalProblems "x\"\\\"\\n\"'\\q'" 0,
      problem.cause.isUnknownEscape = true →
        ¬ (⟨1, 7, 0⟩ : Span).contains problem.span = true := by
    decide +kernel
  exact ⟨(hstring ['"', '\n'] _ "x\n".toList 0 (.cons .quote (.cons .feed .nil))).1,
    (hchar '\'' _ "'".toList 0 .quote).1, hmem, (hvalue _ 0 _ hmem hknown).1 _ rfl⟩

end SourceFront
