import SourceFront.Token.Gap
import SourceFront.Token.Lexeme

/-!
The tokens of a source text, one after the other. Every text has tokens: what is
malformed becomes an invalid token, and a problem is noted beside it.
-/

namespace SourceFront

open Text

/-- A place in a source text, with the problems noted on the way to it. -/
structure TokenStream where
  fileId : Nat
  /-- The bytes that have been read. -/
  offset : Nat
  rest : List Char
  /-- In the order in which they were noted. -/
  problems : List Problem
  deriving Repr

namespace TokenStream

/-- The stream at the beginning of a source. -/
def ofSource (source : String) (fileId : Nat) : TokenStream :=
  ⟨fileId, 0, source.toList, []⟩

/-- The range of `length` bytes that begins `offset` bytes into the file. -/
def range (stream : TokenStream) (offset length : Nat) : Span :=
  ⟨offset, offset + length, stream.fileId⟩

/-- A comment that is never closed is a problem of the mark that opens it. -/
def gapProblems (stream : TokenStream) (gap : Gap) : List Problem :=
  gap.unclosed.toList.map fun opened =>
    ⟨.unterminatedComment, stream.range (stream.offset + opened) 2⟩

/-- The faults of a lexeme that begins at `offset`. -/
def lexemeProblems (stream : TokenStream) (offset : Nat) (lexeme : Lexeme) :
    List Problem :=
  lexeme.faults.map fun fault =>
    ⟨fault.cause, ⟨offset + fault.start, offset + fault.stop, stream.fileId⟩⟩

/-- The next token and the stream behind it. At the end this is the token of the
end, again and again. -/
def next (stream : TokenStream) : Token × TokenStream :=
  let gap := Gap.read stream.rest
  let offset := stream.offset + byteLength gap.text
  let problems := stream.problems ++ stream.gapProblems gap
  match gap.rest with
  | [] =>
      (.eof (stream.range offset 0), ⟨stream.fileId, offset, [], problems⟩)
  | c :: cs =>
      let lexeme := Lexeme.read c cs
      let length := byteLength lexeme.text
      (⟨lexeme.kind, String.ofList lexeme.text, stream.range offset length⟩,
        ⟨stream.fileId, offset + length, lexeme.rest,
          problems ++ stream.lexemeProblems offset lexeme⟩)

theorem next_rest_length_lt {stream : TokenStream}
    (h : stream.next.1.isEof = false) :
    stream.next.2.rest.length < stream.rest.length := by
  have whole := congrArg List.length (Gap.read_text_append_rest stream.rest)
  rw [List.length_append] at whole
  unfold next at h ⊢
  dsimp only at h ⊢
  split at h
  · exact absurd h (by simp [Token.isEof, Token.eof])
  next c cs rest =>
    have shorter := Lexeme.read_rest_length_lt c cs
    rw [rest] at whole
    dsimp only
    omega

/-- All tokens from here to the end, that of the end included. -/
def tokenize (stream : TokenStream) : List Token × TokenStream :=
  if _ended : stream.next.1.isEof then ([stream.next.1], stream.next.2)
  else
    let (tokens, last) := tokenize stream.next.2
    (stream.next.1 :: tokens, last)
termination_by stream.rest.length
decreasing_by exact next_rest_length_lt (Bool.eq_false_iff.mpr _ended)

/-- The same place with no problem noted. -/
def clearProblems (stream : TokenStream) : TokenStream :=
  { stream with problems := [] }

end TokenStream

/-- The tokens of a source text, that of its end included. -/
def tokens (source : String) (fileId : Nat) : List Token :=
  (TokenStream.ofSource source fileId).tokenize.1

/-- The problems of a source text that lie in its tokens and comments. -/
def lexicalProblems (source : String) (fileId : Nat) : List Problem :=
  (TokenStream.ofSource source fileId).tokenize.2.problems

end SourceFront
