import SourceFront.Proofs.Excerpt
import SourceFront.Proofs.Soundness

/-!
Sources in which semicolons are replaced by blanks. The other tokens are read as before, each in
its place.
-/

namespace SourceFront

open Text

/-- The text with a blank for each character that begins at a byte that is `covered`. -/
def Text.blanked (covered : Nat → Bool) : (offset : Nat) → List Char → List Char
  | _, [] => []
  | offset, c :: cs =>
      (if covered offset then ' ' else c) :: blanked covered (offset + c.utf8Size) cs

/-- Whether the byte lies in one of the tokens. -/
def Token.anyAt (tokens : List Token) (byte : Nat) : Bool :=
  tokens.any fun token => token.span.start ≤ byte && byte < token.span.stop

/-- The source with blanks for the tokens. -/
def blanking (source : String) (cut : List Token) : String :=
  String.ofList (blanked (Token.anyAt cut) 0 source.toList)

namespace Text

variable {covered : Nat → Bool}

theorem blanked_append (offset : Nat) (cs ds : List Char) :
    blanked covered offset (cs ++ ds) =
      blanked covered offset cs ++ blanked covered (offset + byteLength cs) ds := by
  induction cs generalizing offset with
  | nil => rfl
  | cons c cs ih =>
      rw [List.cons_append, blanked, ih, blanked, List.cons_append, byteLength_cons,
        Nat.add_assoc]

theorem blanked_of_uncovered {offset : Nat} {cs : List Char}
    (h : ∀ byte, offset ≤ byte → byte < offset + byteLength cs → covered byte = false) :
    blanked covered offset cs = cs := by
  induction cs generalizing offset with
  | nil => rfl
  | cons c cs ih =>
      have hpos := c.utf8Size_pos
      rw [byteLength_cons] at h
      rw [blanked, h offset (Nat.le_refl _) (by omega), if_neg Bool.false_ne_true,
        ih fun byte hle hlt => h byte (by omega) (by omega)]

theorem blanked_stops (offset : Nat) (cs : List Char) :
    ∃ before post more, cs = before ++ post ∧ blanked covered offset cs = before ++ more ∧
      Stops more := by
  induction cs generalizing offset with
  | nil => exact ⟨[], [], [], rfl, rfl, nofun⟩
  | cons c cs ih =>
      by_cases hcovered : covered offset = true
      · refine ⟨[], c :: cs, blanked covered offset (c :: cs), rfl, rfl, ?_⟩
        rw [blanked, if_pos hcovered]
        rintro d hd
        obtain rfl := Option.some.inj hd
        rfl
      · obtain ⟨before, post, more, rfl, hmore, hstops⟩ := ih (offset + c.utf8Size)
        refine ⟨c :: before, post, more, rfl, ?_, hstops⟩
        rw [blanked, if_neg hcovered, hmore, List.cons_append]

end Text

namespace TokenStream

/-- From `start` on, the bytes that are covered are those of the tokens that are dropped, which
are semicolons. -/
structure Covers (covered : Nat → Bool) (dropped : Token → Bool) (start : Nat)
    (tokens : List Token) : Prop where
  covered : ∀ byte, start ≤ byte → (covered byte = true ↔ ∃ token ∈ tokens,
    dropped token = true ∧ token.span.start ≤ byte ∧ byte < token.span.stop)
  semicolon : ∀ token ∈ tokens, dropped token = true → token.kind = .symbol .semicolon

variable {covered : Nat → Bool} {dropped : Token → Bool}

namespace Covers

variable {start : Nat} {first : Token} {tokens : List Token}

theorem uncovered (h : Covers covered dropped start tokens) {byte : Nat} (hle : start ≤ byte)
    (hbefore : ∀ token ∈ tokens, dropped token = true → byte < token.span.start) :
    covered byte = false := by
  refine Bool.eq_false_iff.mpr fun hcovered => ?_
  obtain ⟨token, hmem, hdropped, hstart, -⟩ := (h.covered byte hle).mp hcovered
  exact Nat.not_le.mpr (hbefore token hmem hdropped) hstart

theorem behind (h : Covers covered dropped start (first :: tokens))
    (hle : start ≤ first.span.stop) : Covers covered dropped first.span.stop tokens where
  covered byte hbyte := by
    rw [h.covered byte (Nat.le_trans hle hbyte)]
    constructor
    · rintro ⟨token, hmem, hdropped, hstart, hstop⟩
      rcases List.mem_cons.mp hmem with rfl | hmem
      · exact absurd hstop (Nat.not_lt.mpr hbyte)
      · exact ⟨token, hmem, hdropped, hstart, hstop⟩
    · rintro ⟨token, hmem, hplace⟩
      exact ⟨token, List.mem_cons_of_mem first hmem, hplace⟩
  semicolon token hmem := h.semicolon token (List.mem_cons_of_mem first hmem)

theorem uncovered_first (h : Covers covered dropped start (first :: tokens)) {next : Nat}
    (hbehind : ∀ token ∈ tokens, next ≤ token.span.start) {byte : Nat} (hle : start ≤ byte)
    (hlt : byte < next) (hfirst : dropped first = true → byte < first.span.start) :
    covered byte = false := by
  refine h.uncovered hle fun token hmem hdropped => ?_
  rcases List.mem_cons.mp hmem with rfl | hmem
  · exact hfirst hdropped
  · exact Nat.lt_of_lt_of_le hlt (hbehind token hmem)

theorem of_isEof (h : Covers covered dropped start [first]) (heof : first.isEof = true) :
    dropped first = false ∧ ∀ byte, start ≤ byte → covered byte = false := by
  have hkept : dropped first = false := by
    refine Bool.eq_false_iff.mpr fun hdropped => ?_
    have hkind := h.semicolon first List.mem_cons_self hdropped
    simp [Token.isEof, hkind] at heof
  refine ⟨hkept, fun byte hle => h.uncovered hle fun token hmem hdropped => ?_⟩
  obtain rfl := List.mem_singleton.mp hmem
  exact absurd hdropped (by simp [hkept])

end Covers

/-- The other stream comes to the same text with blanks in it, behind a gap. -/
structure Blanks (covered : Nat → Bool) (gap : List Char) (stream other : TokenStream) :
    Prop where
  filler : Gap.Filler gap
  fileId : other.fileId = stream.fileId
  offset : other.offset + byteLength gap = stream.offset
  rest : other.rest = gap ++ blanked covered stream.offset stream.rest
  problems : other.problems = []

variable {stream other : TokenStream} {gap : List Char}

theorem next_span {c : Char} {cs : List Char} (hrest : (Gap.read stream.rest).rest = c :: cs) :
    stream.offset ≤ stream.next.1.span.start ∧
      stream.next.1.span.start < stream.next.1.span.stop ∧
      stream.next.1.span.stop = stream.next.2.offset := by
  have hpos := byteLength_pos (Lexeme.read_text_ne_nil c cs)
  rw [next_of_lexeme hrest]
  exact ⟨Nat.le_add_right _ _, Nat.lt_add_of_pos_right hpos, rfl⟩

theorem Blanks.next_of_end (h : Blanks covered gap stream other)
    (hrest : (Gap.read stream.rest).rest = []) (hquiet : stream.next.2.problems = [])
    (hcovered : ∀ byte, stream.offset ≤ byte → covered byte = false) :
    other.next.1 = stream.next.1 ∧ other.next.2.problems = [] := by
  have hsame := h.rest
  rw [blanked_of_uncovered fun byte hle _ => hcovered byte hle] at hsame
  have hread := Gap.read_filler_append h.filler stream.rest
  rw [← hsame] at hread
  have hunclosed : (Gap.read stream.rest).unclosed = none := by
    rw [TokenStream.next_of_end hrest] at hquiet
    simpa [gapProblems] using (List.append_eq_nil_iff.mp hquiet).2
  rw [TokenStream.next_of_end hrest, TokenStream.next_of_end (by rw [hread]; exact hrest)]
  refine ⟨?_, by simp [gapProblems, hread, hunclosed, h.problems]⟩
  simp only [range, h.fileId, ← h.offset, hsame, byteLength_append, Nat.add_assoc]

theorem blanked_rest {c : Char} {cs : List Char} (hrest : (Gap.read stream.rest).rest = c :: cs)
    (hgap : ∀ byte, stream.offset ≤ byte →
      byte < stream.offset + byteLength (Gap.read stream.rest).text → covered byte = false) :
    blanked covered stream.offset stream.rest = (Gap.read stream.rest).text ++
      (blanked covered (stream.offset + byteLength (Gap.read stream.rest).text)
          (Lexeme.read c cs).text ++
        blanked covered (stream.behindLexeme (Lexeme.read c cs)).offset
          (Lexeme.read c cs).rest) := by
  rw [congrArg (blanked covered stream.offset) (rest_eq_append hrest), blanked_append,
    blanked_append, blanked_of_uncovered hgap]
  rfl

section

variable (h : Blanks covered gap stream other) {c : Char} {cs : List Char}
  (hrest : (Gap.read stream.rest).rest = c :: cs) (hquiet : stream.next.2.problems = [])
include h hrest hquiet

theorem Blanks.next_of_kept (hcovered : ∀ byte, stream.offset ≤ byte →
      byte < (stream.behindLexeme (Lexeme.read c cs)).offset → covered byte = false) :
    other.next.1 = stream.next.1 ∧ Blanks covered [] stream.next.2 other.next.2 := by
  have hfaults := faults_of_quiet hrest hquiet
  have hvalid : (Lexeme.read c cs).kind ≠ .invalid := fun hinvalid =>
    not_written_invalid (hinvalid ▸ Lexeme.read_written hfaults)
  -- What is behind the lexeme is the same, or a blank has been put there.
  obtain ⟨before, post, more, hbehind, hblanked, hstops⟩ := @blanked_stops covered
    (stream.behindLexeme (Lexeme.read c cs)).offset (Lexeme.read c cs).rest
  obtain ⟨front, hfront, habsent, hread⟩ :=
    Lexeme.exists_stops (Gap.absent_of_read hrest) hvalid hbehind hstops
  have hother : other.rest = gap ++ (Gap.read stream.rest).text ++ c :: front := by
    rw [h.rest, blanked_rest hrest, blanked_of_uncovered, hblanked, hfront, List.append_assoc]
    · exact fun byte hle hlt => hcovered byte (by omega) hlt
    · exact fun byte hle hlt => hcovered byte hle (by simp only [behindLexeme]; omega)
  have hfiller := h.filler.append ((Gap.read_text stream.rest).1 (by simp [hrest]))
  have hgap := Gap.read_filler hfiller habsent
  rw [← hother] at hgap
  rw [TokenStream.next_of_lexeme hrest, TokenStream.next_of_lexeme (by rw [hgap]), hread]
  have hplace : other.offset + byteLength (Gap.read other.rest).text =
      stream.offset + byteLength (Gap.read stream.rest).text := by
    rw [hgap, ← h.offset, byteLength_append, Nat.add_assoc]
  refine ⟨?_, .nil, h.fileId, ?_, ?_, ?_⟩
  · simp only [lexemeToken, range, Lexeme.upTo, h.fileId, hplace]
  · simp only [behindLexeme, Lexeme.upTo, hplace, byteLength_nil, Nat.add_zero]
  · exact hblanked.symm
  · simp [behindLexeme, gapProblems, lexemeProblems, Lexeme.upTo, hgap, hfaults, h.problems]

theorem Blanks.of_dropped (hkind : stream.next.1.kind = .symbol .semicolon)
    (hgap : ∀ byte, stream.offset ≤ byte → byte < stream.next.1.span.start →
      covered byte = false)
    (hcovered : covered stream.next.1.span.start = true) :
    Blanks covered (gap ++ ((Gap.read stream.rest).text ++ [' '])) stream.next.2 other := by
  have hwritten := Lexeme.read_written (faults_of_quiet hrest hquiet)
  rw [TokenStream.next_of_lexeme hrest] at hkind hgap hcovered ⊢
  have htext : (Lexeme.read c cs).text = [';'] := by
    rw [show (Lexeme.read c cs).kind = _ from hkind] at hwritten
    generalize (Lexeme.read c cs).text = text at hwritten
    cases hwritten
    rfl
  have hfiller := (Gap.read_text stream.rest).1 (by simp [hrest])
  refine ⟨h.filler.append (hfiller.append (.blank rfl .nil)), h.fileId, ?_, ?_, h.problems⟩
  · simp only [behindLexeme, htext, ← h.offset, byteLength_append, Nat.add_assoc]
    rfl
  · replace hcovered : covered (stream.offset + byteLength (Gap.read stream.rest).text) = true :=
      hcovered
    rw [h.rest, blanked_rest hrest hgap, htext, blanked, if_pos hcovered]
    simp [blanked, behindLexeme]

end

/-- Without the semicolons, the others of the tokens are read, each in its place. -/
theorem tokenize_blanked (hquiet : stream.tokenize.2.problems = [])
    (hcovers : Covers covered dropped stream.offset stream.tokenize.1)
    (hblanks : Blanks covered gap stream other) :
    other.tokenize.1 = stream.tokenize.1.filter (!dropped ·) ∧ other.tokenize.2.problems = [] := by
  fun_induction tokenize stream generalizing other gap with
  | case1 stream hend =>
      obtain ⟨hkept, hcovered⟩ := hcovers.of_isEof hend
      obtain ⟨htoken, hproblems⟩ := hblanks.next_of_end (rest_of_isEof hend) hquiet hcovered
      rw [tokenize_of_end (by rw [htoken, hend]), htoken,
        List.filter_cons_of_pos (by simp [hkept])]
      exact ⟨rfl, hproblems⟩
  | case2 stream hend tokens last hmore ih =>
      obtain ⟨c, cs, hrest⟩ := exists_rest_of_not_isEof hend
      have hbehind := stream.next.2.offset_le_start
      have hproblems := stream.next.2.tokenize_problems
      rw [hmore] at ih hbehind hproblems
      rw [show last.problems = [] from hquiet, List.prefix_nil] at hproblems
      obtain ⟨hstart, hstop, hnext⟩ := next_span hrest
      have hcovers' := hcovers.behind (by omega)
      rw [hnext] at hcovers' hstop
      by_cases hdropped : dropped stream.next.1 = true
      · have hkind := hcovers.semicolon _ List.mem_cons_self hdropped
        have hgap : ∀ byte, stream.offset ≤ byte → byte < stream.next.1.span.start →
            covered byte = false := fun byte hle hlt =>
          hcovers.uncovered_first hbehind hle (Nat.lt_trans hlt hstop) fun _ => hlt
        have hcovered : covered stream.next.1.span.start = true :=
          (hcovers.covered _ hstart).mpr
            ⟨_, List.mem_cons_self, hdropped, Nat.le_refl _, hnext ▸ hstop⟩
        rw [List.filter_cons_of_neg (by simp [hdropped])]
        exact ih hquiet hcovers' (hblanks.of_dropped hrest hproblems hkind hgap hcovered)
      · have hcovered : ∀ byte, stream.offset ≤ byte → byte < stream.next.2.offset →
            covered byte = false := fun byte hle hlt =>
          hcovers.uncovered_first hbehind hle hlt fun hfirst => absurd hfirst hdropped
        rw [next_of_lexeme hrest] at hcovered
        obtain ⟨htoken, hother⟩ := hblanks.next_of_kept hrest hproblems hcovered
        obtain ⟨htokens, hlast⟩ := ih hquiet hcovers' hother
        rw [tokenize_of_more (by rw [htoken]; simpa using hend), htoken, htokens,
          List.filter_cons_of_pos (by simp [hdropped])]
        exact ⟨rfl, hlast⟩

end TokenStream

/-- A source without malformed tokens in which blanks are put for semicolons has the other
tokens. -/
theorem tokens_blanking {source : String} {fileId : Nat} {cut : List Token}
    (hquiet : lexicalProblems source fileId = [])
    (hcut : cut ⊆ bodyTokens source fileId)
    (hsemicolon : ∀ token ∈ cut, token.kind = .symbol .semicolon) :
    bodyTokens (blanking source cut) fileId =
        (bodyTokens source fileId).filter (fun token => !cut.contains token) ∧
      lexicalProblems (blanking source cut) fileId = [] := by
  have hmem : ∀ token ∈ cut, token ∈ tokens source fileId := fun token hmem =>
    List.dropLast_subset _ (hcut hmem)
  have hcovers : TokenStream.Covers (Token.anyAt cut) cut.contains 0 (tokens source fileId) := by
    refine ⟨fun byte _ => ?_, fun token _ hdropped => hsemicolon token (by simpa using hdropped)⟩
    rw [Token.anyAt, List.any_eq_true]
    constructor
    · rintro ⟨token, htoken, hplace⟩
      exact ⟨token, hmem token htoken, by simpa using htoken, by simpa using hplace⟩
    · rintro ⟨token, -, hdropped, hplace⟩
      exact ⟨token, by simpa using hdropped, by simpa using hplace⟩
  have hblanks : TokenStream.Blanks (Token.anyAt cut) [] (.ofSource source fileId)
      (.ofSource (blanking source cut) fileId) :=
    ⟨.nil, rfl, rfl, by simp [TokenStream.ofSource, blanking], rfl⟩
  obtain ⟨htokens, hproblems⟩ := TokenStream.tokenize_blanked hquiet hcovers hblanks
  refine ⟨?_, hproblems⟩
  have hkept : ∀ token ∈ [Token.eof ⟨source.utf8ByteSize, source.utf8ByteSize, fileId⟩],
      (!cut.contains token) = true := by
    intro token hlast
    obtain rfl := List.mem_singleton.mp hlast
    have hneither : Token.eof ⟨source.utf8ByteSize, source.utf8ByteSize, fileId⟩ ∉ cut :=
      fun hmem => by simpa [Token.eof] using hsemicolon _ hmem
    simpa using hneither
  rw [show (TokenStream.ofSource source fileId).tokenize.1 = _ from tokens_eq_append source fileId,
    List.filter_append, List.filter_eq_self.mpr hkept] at htokens
  rw [bodyTokens, tokens, htokens, List.dropLast_concat]

end SourceFront
