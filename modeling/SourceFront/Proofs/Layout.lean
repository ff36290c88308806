import SourceFront.Proofs.Stream

/-!
Layouts of a source. The texts of tokens may be written with blanks and comments
between them in many ways; all of them are read as the same tokens.
-/

namespace SourceFront

open Text

/-- Blanks, line comments with the line feeds behind them, and block comments that
are closed. -/
inductive Gap.Filler : List Char → Prop where
  | nil : Filler []
  | blank {c : Char} {cs : List Char} (h : isBlank c = true) (hrest : Filler cs) :
      Filler (c :: cs)
  | line {body cs : List Char} (h : '\n' ∉ body) (hrest : Filler cs) :
      Filler ('/' :: '/' :: body ++ '\n' :: cs)
  | block {body cs : List Char} (h : ¬ ['*', '/'] <:+: body) (hrest : Filler cs) :
      Filler ('/' :: '*' :: body ++ '*' :: '/' :: cs)

/-- Texts one after the other with a gap behind each, which begins with a blank. Only
the last gap may be empty. -/
inductive Laid : List String → List Char → Prop where
  | nil : Laid [] []
  | cons {text : String} {texts : List String} {gap cs : List Char}
      (hfiller : Gap.Filler gap) (hends : Ends gap) (hnonempty : texts ≠ [] → gap ≠ [])
      (hrest : Laid texts cs) : Laid (text :: texts) (text.toList ++ (gap ++ cs))

/-- Whether the source is a layout of the texts: a gap may stand before the first. -/
def LaidOut (texts : List String) (source : String) : Prop :=
  ∃ gap cs, Gap.Filler gap ∧ Laid texts cs ∧ source.toList = gap ++ cs

namespace Gap

/-- No gap begins the text. -/
def Absent (cs : List Char) : Prop :=
  piece? cs = none ∧ opensComment cs = false

theorem absent_nil : Absent [] := ⟨rfl, rfl⟩

theorem absent_cons {c : Char} {cs : List Char} (hblank : isBlank c = false)
    (hslash : c ≠ '/') : Absent (c :: cs) := by
  unfold Absent piece? opensComment
  simp [hblank, hslash]

theorem read_of_absent {cs : List Char} (h : Absent cs) : read cs = ⟨[], cs, none⟩ := by
  obtain ⟨hpiece, hcomment⟩ := h
  rw [read]
  split
  next text rest hsome =>
    rw [hpiece] at hsome
    cases hsome
  next => simp [hcomment]

theorem read_of_piece {cs text rest : List Char} (h : piece? cs = some (text, rest)) :
    read cs =
      ⟨text ++ (read rest).text, (read rest).rest,
        (read rest).unclosed.map (byteLength text + ·)⟩ := by
  rw [read]
  split
  next text' rest' hsome =>
    rw [h] at hsome
    obtain ⟨rfl, rfl⟩ := Prod.mk.inj (Option.some.inj hsome)
    rfl
  next hnone =>
    rw [h] at hnone
    cases hnone

theorem splitCommentEnd?_append {body : List Char} (h : ¬ ['*', '/'] <:+: body)
    (cs : List Char) :
    splitCommentEnd? (body ++ '*' :: '/' :: cs) = some (body ++ ['*', '/'], cs) := by
  induction body with
  | nil => rfl
  | cons c body ih =>
      have hbody : ¬ ['*', '/'] <:+: body := fun hpart => h (List.infix_cons hpart)
      have hmark : ∀ more, c :: (body ++ '*' :: '/' :: cs) ≠ '*' :: '/' :: more := by
        rintro more hsame
        cases body with
        | nil => cases hsame
        | cons d body =>
            obtain ⟨rfl, htail⟩ := List.cons.inj hsame
            obtain ⟨rfl, -⟩ := List.cons.inj htail
            exact h (List.prefix_append ['*', '/'] body).isInfix
      rw [List.cons_append, splitCommentEnd?, ih hbody]
      · rfl
      · intro more hc htail
        exact hmark more (by rw [hc, htail])

theorem read_filler_append {gap : List Char} (hfiller : Filler gap) (cs : List Char) :
    read (gap ++ cs) =
      ⟨gap ++ (read cs).text, (read cs).rest, (read cs).unclosed.map (byteLength gap + ·)⟩ := by
  induction hfiller with
  | nil => simp
  | @blank c gap hblank _ ih =>
      have hpiece : piece? (c :: (gap ++ cs)) = some ([c], gap ++ cs) := by
        unfold piece?
        split
        next hsame =>
          obtain ⟨rfl, -⟩ := List.cons.inj hsame
          cases hblank
        next hsame =>
          obtain ⟨rfl, -⟩ := List.cons.inj hsame
          cases hblank
        next hsame =>
          obtain ⟨rfl, rfl⟩ := List.cons.inj hsame
          exact if_pos hblank
        next hsame => cases hsame
      rw [List.cons_append, read_of_piece hpiece, ih]
      simp [Function.comp_def, Nat.add_assoc]
  | @line body gap hbody _ ih =>
      have hfeed : ∀ c ∈ body, (c != '\n') = true := by
        intro c hmem
        simpa using fun hc : c = '\n' => hbody (hc ▸ hmem)
      have hpiece : piece? ('/' :: '/' :: body ++ '\n' :: gap ++ cs) =
          some ('/' :: '/' :: body, '\n' :: (gap ++ cs)) := by
        simp only [List.cons_append, List.append_assoc, piece?]
        rw [List.takeWhile_append_of_pos hfeed, List.dropWhile_append_of_pos hfeed]
        simp
      have hpiece' : piece? ('\n' :: (gap ++ cs)) = some (['\n'], gap ++ cs) := rfl
      rw [read_of_piece hpiece, read_of_piece hpiece', ih]
      simp [Function.comp_def, Nat.add_assoc]
  | @block body gap hbody _ ih =>
      have hpiece : piece? ('/' :: '*' :: body ++ '*' :: '/' :: gap ++ cs) =
          some ('/' :: '*' :: body ++ ['*', '/'], gap ++ cs) := by
        simp only [List.cons_append, List.append_assoc, piece?]
        rw [splitCommentEnd?_append hbody]
        rfl
      rw [read_of_piece hpiece, ih]
      simp [Function.comp_def, Nat.add_assoc]

theorem read_filler {gap cs : List Char} (hfiller : Filler gap) (habsent : Absent cs) :
    read (gap ++ cs) = ⟨gap, cs, none⟩ := by
  rw [read_filler_append hfiller, read_of_absent habsent, List.append_nil]
  rfl

end Gap

namespace Lexeme

theorem isBlank_of_isWordStart {c : Char} (h : isWordStart c = true) : isBlank c = false := by
  cases hblank : isBlank c with
  | false => rfl
  | true => rw [← isWordChar_of_isBlank hblank, isWordChar_of_isWordStart h]

theorem isBlank_of_isDigit {c : Char} (h : c.isDigit = true) : isBlank c = false := by
  cases hblank : isBlank c with
  | false => rfl
  | true => rw [← isDigit_of_isBlank hblank, h]

end Lexeme

open Gap (Absent)

theorem Gap.absent_slash {rest : List Char} (h : Ends rest) : Absent ('/' :: rest) := by
  cases rest with
  | nil => exact ⟨rfl, rfl⟩
  | cons c cs =>
      have hblank : isBlank c = true := h c rfl
      constructor
      · unfold piece?
        split
        next hsame =>
          obtain ⟨-, hsame⟩ := List.cons.inj hsame
          obtain ⟨rfl, -⟩ := List.cons.inj hsame
          cases hblank
        next hsame =>
          obtain ⟨-, hsame⟩ := List.cons.inj hsame
          obtain ⟨rfl, -⟩ := List.cons.inj hsame
          cases hblank
        next hsame =>
          obtain ⟨rfl, -⟩ := List.cons.inj hsame
          rfl
        next => rfl
      · unfold opensComment
        split
        next hsame =>
          obtain ⟨-, hsame⟩ := List.cons.inj hsame
          obtain ⟨rfl, -⟩ := List.cons.inj hsame
          cases hblank
        next => rfl

theorem Lexeme.absent_word {text : List Char} (h : text.head?.any isWordStart = true)
    (rest : List Char) : Absent (text ++ rest) := by
  cases text with
  | nil => cases h
  | cons c cs =>
      have hstart : isWordStart c = true := by simpa using h
      refine Gap.absent_cons (isBlank_of_isWordStart hstart) ?_
      rintro rfl
      cases hstart

theorem TokenKind.Written.absent {kind : TokenKind} {text rest : List Char}
    (h : kind.Written text) (hrest : Ends rest) : Absent (text ++ rest) := by
  cases h with
  | keyword k => exact Lexeme.absent_word (Lexeme.keyword_chars k).1 rest
  | ident hname =>
      simp only [isName, Bool.and_eq_true] at hname
      exact Lexeme.absent_word hname.1.1 rest
  | number hnumeral =>
      simp only [isNumeral, Bool.and_eq_true] at hnumeral
      cases text with
      | nil => simp at hnumeral
      | cons c cs =>
          have hdigit : c.isDigit = true := by
            cases hc : c.isDigit with
            | true => rfl
            | false => simp [hc] at hnumeral
          refine Gap.absent_cons (Lexeme.isBlank_of_isDigit hdigit) ?_
          rintro rfl
          cases hdigit
  | string => exact Gap.absent_cons rfl (by decide)
  | char => exact Gap.absent_cons rfl (by decide)
  | symbol s =>
      cases s
      case slash => exact Gap.absent_slash hrest
      case slashAssign => exact ⟨rfl, rfl⟩
      all_goals exact Gap.absent_cons rfl (by decide)

/-- What a token is apart from its place. -/
def Token.form (token : Token) : TokenKind × String :=
  (token.kind, token.text)

namespace TokenStream

theorem next_of_written {stream : TokenStream} {gap rest : List Char} {kind : TokenKind}
    {text : String} (hfiller : Gap.Filler gap) (hwritten : kind.Written text.toList)
    (hends : Ends rest) (h : stream.rest = gap ++ (text.toList ++ rest)) :
    stream.next.1.form = (kind, text) ∧ stream.next.2.rest = rest ∧
      stream.next.2.problems = stream.problems := by
  have hgap : Gap.read stream.rest = ⟨gap, text.toList ++ rest, none⟩ := by
    rw [h, Gap.read_filler hfiller (hwritten.absent hends)]
  obtain ⟨c, cs, htext, hread⟩ := Lexeme.read_of_written hwritten hends
  have hbehind : (Gap.read stream.rest).rest = c :: (cs ++ rest) := by
    rw [hgap, htext, List.cons_append]
  rw [next_of_lexeme hbehind, hread]
  refine ⟨?_, rfl, ?_⟩
  · simp [lexemeToken, Token.form]
  · simp [behindLexeme, gapProblems, lexemeProblems, hgap]

theorem tokenize_of_end {stream : TokenStream} (h : stream.next.1.isEof = true) :
    stream.tokenize = ([stream.next.1], stream.next.2) := by
  rw [tokenize, dif_pos h]

theorem tokenize_of_more {stream : TokenStream} (h : stream.next.1.isEof = false) :
    stream.tokenize = (stream.next.1 :: stream.next.2.tokenize.1, stream.next.2.tokenize.2) := by
  rw [tokenize, dif_neg (by simp [h])]

/-- Texts that are laid out are read one by one. -/
theorem tokenize_laid {forms : List (TokenKind × String)}
    (hwritten : ∀ form ∈ forms, form.1.Written form.2.toList) {stream : TokenStream}
    {gap cs : List Char} (hfiller : Gap.Filler gap) (hlaid : Laid (forms.map Prod.snd) cs)
    (h : stream.rest = gap ++ cs) :
    stream.tokenize.1.map Token.form = forms ++ [(.eof, "")] ∧
      stream.tokenize.2.problems = stream.problems := by
  induction forms generalizing stream gap cs with
  | nil =>
      cases hlaid
      have hgap : Gap.read stream.rest = ⟨gap, [], none⟩ := by
        rw [h, Gap.read_filler hfiller Gap.absent_nil]
      have hend : (Gap.read stream.rest).rest = [] := by rw [hgap]
      have hnext := next_of_end hend
      rw [tokenize_of_end (by rw [hnext]; rfl), hnext]
      exact ⟨rfl, by simp [gapProblems, hgap]⟩
  | cons form forms ih =>
      obtain ⟨kind, text⟩ := form
      rw [List.map_cons] at hlaid
      cases hlaid with
      | @cons _ _ behind cs hbehind hends hnonempty hrest =>
          have hends' : Ends (behind ++ cs) := by
            cases behind with
            | cons c behind => exact hends
            | nil =>
                have htexts : forms.map Prod.snd = [] := by
                  by_contra hne
                  exact hnonempty hne rfl
                rw [htexts] at hrest
                cases hrest
                exact hends
          have hkind := hwritten (kind, text) (by simp)
          obtain ⟨hform, hnext, hproblems⟩ := next_of_written hfiller hkind hends' h
          have hnotEof : stream.next.1.isEof = false := by
            rw [Token.isEof, decide_eq_false_iff_not, (Prod.mk.inj hform).1]
            rintro rfl
            cases hkind
          obtain ⟨htokens, hquiet⟩ := ih (fun other hmem => hwritten other (by simp [hmem]))
            hbehind hrest hnext
          rw [tokenize_of_more hnotEof]
          exact ⟨by rw [List.map_cons, hform, htokens, List.cons_append],
            hquiet.trans hproblems⟩

end TokenStream

/-- A layout of texts, each written as its kind asks for, has the tokens of these kinds
and texts, and nothing in it is malformed. -/
theorem tokens_of_laidOut {forms : List (TokenKind × String)} {source : String}
    (hwritten : ∀ form ∈ forms, form.1.Written form.2.toList)
    (h : LaidOut (forms.map Prod.snd) source) (fileId : Nat) :
    (bodyTokens source fileId).map Token.form = forms ∧
      lexicalProblems source fileId = [] := by
  obtain ⟨gap, cs, hfiller, hlaid, hsource⟩ := h
  obtain ⟨htokens, hproblems⟩ :=
    (TokenStream.ofSource source fileId).tokenize_laid hwritten hfiller hlaid hsource
  refine ⟨?_, hproblems⟩
  rw [bodyTokens, tokens, List.map_dropLast, htokens, List.dropLast_concat]

end SourceFront
