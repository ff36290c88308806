import SourceFront.Grammar.Reading
import SourceFront.Proofs.Derivation.Basic
import SourceFront.Proofs.Lexeme
import SourceFront.Token.Stream

/-!
Where the tokens of a source stand. Each begins where the one before it stops, or
later, and the end is where the text ends.
-/

namespace SourceFront

open Text

/-- The tokens stand behind one another from `start` to `stop`, and none of them is
the end. -/
def Token.Follow (fileId stop : Nat) : (start : Nat) → List Token → Prop
  | start, [] => start ≤ stop
  | start, token :: tokens =>
      start ≤ token.span.start ∧ token.span.start < token.span.stop ∧
        token.span.fileId = fileId ∧ token.kind ≠ .eof ∧
        Follow fileId stop token.span.stop tokens

namespace Token.Follow

variable {fileId stop start : Nat} {tokens : List Token}

theorem start_le (h : Follow fileId stop start tokens) : start ≤ stop := by
  induction tokens generalizing start with
  | nil => exact h
  | cons token tokens ih =>
      obtain ⟨hstart, hlt, -, -, hrest⟩ := h
      have := ih hrest
      omega

theorem of_mem (h : Follow fileId stop start tokens) {token : Token} (hmem : token ∈ tokens) :
    start ≤ token.span.start ∧ token.span.start < token.span.stop ∧
      token.span.stop ≤ stop ∧ token.span.fileId = fileId ∧ token.kind ≠ .eof := by
  induction tokens generalizing start with
  | nil => cases hmem
  | cons first tokens ih =>
      obtain ⟨hstart, hlt, hfile, hkind, hrest⟩ := h
      rcases List.mem_cons.mp hmem with rfl | hmem
      · exact ⟨hstart, hlt, hrest.start_le, hfile, hkind⟩
      · obtain ⟨hstart', hothers⟩ := ih hrest hmem
        exact ⟨by omega, hothers⟩

theorem pairwise (h : Follow fileId stop start tokens) :
    tokens.Pairwise fun a b => a.span.stop ≤ b.span.start := by
  induction tokens generalizing start with
  | nil => exact .nil
  | cons first tokens ih =>
      obtain ⟨-, -, -, -, hrest⟩ := h
      exact .cons (fun token hmem => (hrest.of_mem hmem).1) (ih hrest)

end Token.Follow

theorem Lexeme.read_kind_ne_eof (c : Char) (cs : List Char) : (read c cs).kind ≠ .eof := by
  unfold read
  split
  · unfold word
    dsimp only
    split <;> simp
  split
  · unfold number
    dsimp only
    split <;> simp [invalid]
  split
  · unfold string
    dsimp only
    split <;> simp [invalid]
  split
  · unfold char
    split
    · simp [invalid]
    · dsimp only
      split
      · split <;> simp [invalid]
      · simp [invalid]
    · split <;> simp [invalid]
  · unfold mark
    split <;> simp [invalid]

namespace TokenStream

variable {stream : TokenStream}

/-- The token that a lexeme makes where it begins. -/
def lexemeToken (stream : TokenStream) (lexeme : Lexeme) : Token :=
  ⟨lexeme.kind, String.ofList lexeme.text,
    stream.range (stream.offset + byteLength (Gap.read stream.rest).text)
      (byteLength lexeme.text)⟩

/-- The stream behind a lexeme. -/
def behindLexeme (stream : TokenStream) (lexeme : Lexeme) : TokenStream :=
  let offset := stream.offset + byteLength (Gap.read stream.rest).text
  ⟨stream.fileId, offset + byteLength lexeme.text, lexeme.rest,
    stream.problems ++ stream.gapProblems (Gap.read stream.rest) ++
      stream.lexemeProblems offset lexeme⟩

theorem next_of_end (h : (Gap.read stream.rest).rest = []) :
    stream.next =
      (.eof (stream.range (stream.offset + byteLength stream.rest) 0),
        ⟨stream.fileId, stream.offset + byteLength stream.rest, [],
          stream.problems ++ stream.gapProblems (Gap.read stream.rest)⟩) := by
  have hsplit := Gap.read_text_append_rest stream.rest
  rw [h, List.append_nil] at hsplit
  simp only [next, h, hsplit]

theorem next_of_lexeme {c : Char} {cs : List Char}
    (h : (Gap.read stream.rest).rest = c :: cs) :
    stream.next =
      (stream.lexemeToken (Lexeme.read c cs), stream.behindLexeme (Lexeme.read c cs)) := by
  simp only [next, h, lexemeToken, behindLexeme]

theorem next_isEof_of_lexeme {c : Char} {cs : List Char}
    (h : (Gap.read stream.rest).rest = c :: cs) : stream.next.1.isEof = false := by
  rw [next_of_lexeme h]
  exact decide_eq_false (Lexeme.read_kind_ne_eof c cs)

theorem rest_of_isEof (h : stream.next.1.isEof = true) : (Gap.read stream.rest).rest = [] := by
  cases hrest : (Gap.read stream.rest).rest with
  | nil => rfl
  | cons c cs => rw [next_isEof_of_lexeme hrest] at h; cases h

theorem exists_rest_of_not_isEof (h : ¬stream.next.1.isEof = true) :
    ∃ c cs, (Gap.read stream.rest).rest = c :: cs :=
  List.exists_cons_of_ne_nil fun hrest => h (by rw [next_of_end hrest]; rfl)

theorem behindLexeme_end {c : Char} {cs : List Char}
    (h : (Gap.read stream.rest).rest = c :: cs) :
    (stream.behindLexeme (Lexeme.read c cs)).offset +
        byteLength (stream.behindLexeme (Lexeme.read c cs)).rest =
      stream.offset + byteLength stream.rest := by
  have hgap := congrArg byteLength (Gap.read_text_append_rest stream.rest)
  have hlexeme := congrArg byteLength (Lexeme.read_text_append_rest c cs)
  rw [h] at hgap
  rw [byteLength_append] at hgap hlexeme
  simp only [behindLexeme]
  omega

/-- The tokens of a stream are those that follow one another, and the end. -/
theorem tokenize_follow (stream : TokenStream) :
    ∃ tokens, stream.tokenize.1 =
        tokens ++ [.eof (stream.range (stream.offset + byteLength stream.rest) 0)] ∧
      Token.Follow stream.fileId (stream.offset + byteLength stream.rest) stream.offset
        tokens := by
  fun_induction tokenize stream with
  | case1 stream hend =>
      refine ⟨[], ?_, Nat.le_add_right _ _⟩
      rw [next_of_end (rest_of_isEof hend), List.nil_append]
  | case2 stream hend tokens last hmore ih =>
      obtain ⟨c, cs, hrest⟩ := exists_rest_of_not_isEof hend
      rw [next_of_lexeme hrest] at hmore ih ⊢
      rw [hmore, behindLexeme_end hrest] at ih
      obtain ⟨more, hsame, hfollow⟩ := ih
      refine ⟨stream.lexemeToken (Lexeme.read c cs) :: more, ?_, ?_⟩
      · obtain rfl : tokens = _ := hsame
        rfl
      · have hpos := byteLength_pos (Lexeme.read_text_ne_nil c cs)
        refine ⟨?_, ?_, rfl, Lexeme.read_kind_ne_eof c cs, hfollow⟩
        · simp only [lexemeToken, range]
          omega
        · simp only [lexemeToken, range]
          omega

theorem tokenize_problems (stream : TokenStream) :
    stream.problems <+: stream.tokenize.2.problems := by
  fun_induction tokenize stream with
  | case1 stream hend =>
      cases hrest : (Gap.read stream.rest).rest with
      | nil => rw [next_of_end hrest]; exact List.prefix_append _ _
      | cons c cs =>
          rw [next_of_lexeme hrest, behindLexeme, List.append_assoc]
          exact List.prefix_append _ _
  | case2 stream hend tokens last hmore ih =>
      rw [hmore] at ih
      refine List.IsPrefix.trans ?_ ih
      cases hrest : (Gap.read stream.rest).rest with
      | nil => rw [next_of_end hrest]; exact List.prefix_append _ _
      | cons c cs =>
          rw [next_of_lexeme hrest, behindLexeme, List.append_assoc]
          exact List.prefix_append _ _

theorem faults_of_quiet {c : Char} {cs : List Char}
    (hrest : (Gap.read stream.rest).rest = c :: cs) (hquiet : stream.next.2.problems = []) :
    (Lexeme.read c cs).faults = [] := by
  rw [next_of_lexeme hrest] at hquiet
  simpa [lexemeProblems] using (List.append_eq_nil_iff.mp hquiet).2

/-- If no problem is noted, every token but the end is written as its kind asks for. -/
theorem tokenize_written (stream : TokenStream) (h : stream.tokenize.2.problems = []) :
    ∀ token ∈ stream.tokenize.1, token.isEof = false →
      token.kind.Written token.text.toList := by
  fun_induction tokenize stream with
  | case1 stream hend => simp_all
  | case2 stream hend tokens last hmore ih =>
      rw [hmore] at ih
      intro token hmem hkind
      rcases List.mem_cons.mp hmem with rfl | hmem
      · obtain ⟨c, cs, hrest⟩ := exists_rest_of_not_isEof hend
        have hproblems := stream.next.2.tokenize_problems
        rw [hmore, show last.problems = [] from h, List.prefix_nil] at hproblems
        rw [next_of_lexeme hrest]
        simpa [lexemeToken] using Lexeme.read_written (faults_of_quiet hrest hproblems)
      · exact ih h token hmem hkind

end TokenStream

theorem utf8ByteSize_ofList (cs : List Char) :
    (String.ofList cs).utf8ByteSize = byteLength cs := by
  induction cs with
  | nil => rfl
  | cons c cs ih =>
      rw [String.ofList_cons, String.utf8ByteSize_append, String.utf8ByteSize_singleton, ih,
        byteLength_cons]

theorem utf8ByteSize_eq (source : String) : source.utf8ByteSize = byteLength source.toList := by
  rw [← utf8ByteSize_ofList, String.ofList_toList]

/-- The tokens of a source, but for the end. -/
def bodyTokens (source : String) (fileId : Nat) : List Token :=
  (tokens source fileId).dropLast

variable (source : String) (fileId : Nat)

theorem tokens_eq_append :
    tokens source fileId = bodyTokens source fileId ++
      [.eof ⟨source.utf8ByteSize, source.utf8ByteSize, fileId⟩] := by
  have hlength := utf8ByteSize_eq source
  obtain ⟨body, hbody, -⟩ := (TokenStream.ofSource source fileId).tokenize_follow
  rw [bodyTokens, tokens, hbody, List.dropLast_concat]
  simp [TokenStream.range, TokenStream.ofSource, hlength]

theorem bodyTokens_follow :
    Token.Follow fileId source.utf8ByteSize 0 (bodyTokens source fileId) := by
  have hlength := utf8ByteSize_eq source
  obtain ⟨body, hbody, hfollow⟩ := (TokenStream.ofSource source fileId).tokenize_follow
  rw [bodyTokens, tokens, hbody, List.dropLast_concat]
  simpa [TokenStream.ofSource, hlength] using hfollow

theorem tokens_pairwise :
    (tokens source fileId).Pairwise fun a b => a.span.start < b.span.start := by
  have hfollow := bodyTokens_follow source fileId
  rw [tokens_eq_append]
  refine List.pairwise_append.mpr ⟨?_, List.pairwise_singleton _ _, ?_⟩
  · refine hfollow.pairwise.imp_of_mem fun {a b} ha _ hle => ?_
    obtain ⟨-, hlt, -⟩ := hfollow.of_mem ha
    exact Nat.lt_of_lt_of_le hlt hle
  · rintro token hmem last hlast
    obtain rfl := List.mem_singleton.mp hlast
    obtain ⟨-, hlt, hstop, -⟩ := hfollow.of_mem hmem
    exact Nat.lt_of_lt_of_le hlt hstop

theorem bodyTokens_nodup : (bodyTokens source fileId).Nodup := by
  have hordered := (tokens_pairwise source fileId).sublist (List.dropLast_sublist _)
  refine List.nodup_iff_pairwise_ne.mpr (hordered.imp fun hlt heq => ?_)
  exact Nat.ne_of_lt hlt (congrArg (·.span.start) heq)

/-- The state in which the items of a source are read. -/
theorem ofSource_state :
    (Reading.ofSource source fileId).state.ahead = bodyTokens source fileId ∧
      (Reading.ofSource source fileId).state.stop =
        ⟨source.utf8ByteSize, source.utf8ByteSize, fileId⟩ ∧
      (Reading.ofSource source fileId).state.problems = [] := by
  rw [Reading.ofSource, State.ofTokens, tokens_eq_append]
  simp [Token.isEof, Token.eof]

variable {source fileId}

theorem bodyTokens_written (h : lexicalProblems source fileId = []) :
    ∀ token ∈ bodyTokens source fileId, token.kind.Written token.text.toList := by
  intro token hmem
  have hkind := ((bodyTokens_follow source fileId).of_mem hmem).2.2.2.2
  refine (TokenStream.ofSource source fileId).tokenize_written h token ?_ ?_
  · exact List.dropLast_subset _ hmem
  · simpa [Token.isEof] using hkind

end SourceFront
