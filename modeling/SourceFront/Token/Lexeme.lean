import SourceFront.Problem
import SourceFront.Token.Basic
import SourceFront.Token.Literal

/-!
The token that begins a text, cut off without regard to where the text stands.
The main statements say that nothing is lost (`read_text_append_rest`) and that
every lexeme has a text (`read_text_ne_nil`).
-/

namespace SourceFront

open Text

/-- A cause with the bytes of a lexeme that it concerns. -/
structure Fault where
  cause : Cause
  start : Nat
  stop : Nat
  deriving DecidableEq, Repr

/-- A token without its place: `text` is cut off and `rest` remains. -/
structure Lexeme where
  kind : TokenKind
  text : List Char
  rest : List Char
  /-- The faults inside the text come before the one that makes it invalid. -/
  faults : List Fault
  deriving Repr

namespace Lexeme

/-- Names and keywords begin with a letter or an underscore. -/
def isWordStart (c : Char) : Bool :=
  c.isAlpha || c == '_'

/-- Whether a word goes on with the character. -/
def isWordChar (c : Char) : Bool :=
  c.isAlphanum || c == '_'

/-- An invalid lexeme. The fault that makes it so concerns its whole text. -/
def invalid (cause : Cause) (text rest : List Char) (faults : List Fault) : Lexeme :=
  ⟨.invalid, text, rest, faults ++ [⟨cause, 0, byteLength text⟩]⟩

/-- The longest run of name characters, a keyword if it is spelled as one. -/
def word (cs : List Char) : Lexeme :=
  let text := cs.takeWhile isWordChar
  let name := String.ofList text
  let kind :=
    match Keyword.ofSpelling? name with
    | some k => .keyword k
    | none => .ident name
  ⟨kind, text, cs.dropWhile isWordChar, []⟩

/-- Splits off a point and the digits that follow it, if there are any. -/
def splitFraction : List Char → List Char × List Char
  | '.' :: c :: cs =>
      if c.isDigit then
        ('.' :: (c :: cs).takeWhile Char.isDigit, (c :: cs).dropWhile Char.isDigit)
      else ([], '.' :: c :: cs)
  | cs => ([], cs)

/-- Digits with an optional fraction. A name character must not follow. -/
def number (cs : List Char) : Lexeme :=
  let whole := cs.takeWhile Char.isDigit
  let (fraction, rest) := splitFraction (cs.dropWhile Char.isDigit)
  let tail := rest.takeWhile isWordChar
  if tail = [] then ⟨.number, whole ++ fraction, rest, []⟩
  else
    let text := whole ++ fraction ++ tail
    invalid (.malformedNumber (String.ofList text)) text (rest.dropWhile isWordChar) []

/-- The unknown escapes of a literal whose opening quote takes one byte. -/
def escapeFaults (quote : Char) (pieces : List Literal.Piece) : List Fault :=
  (Literal.unknownEscapes quote 1 pieces).map fun (c, start) =>
    ⟨.unknownEscape c, start, start + 1 + c.utf8Size⟩

/-- The string literal that goes on with `cs` behind its opening quote. -/
def string (cs : List Char) : Lexeme :=
  let (pieces, rest) := Literal.readPieces '"' cs
  let text := '"' :: Literal.piecesText pieces
  let faults := escapeFaults '"' pieces
  match rest with
  | '"' :: rest =>
      ⟨.string (String.ofList (pieces.map (·.value '"'))), text ++ ['"'], rest, faults⟩
  | '\\' :: rest => invalid .unterminatedString (text ++ ['\\']) rest faults
  | rest => invalid .unterminatedString text rest faults

/-- Whether a character goes on a literal that ends with a single quote. -/
def staysInChar (c : Char) : Bool :=
  c != '\'' && c != '\n'

/-- The character literal that goes on with `cs` behind its opening quote. With
more than one character in it, it runs to the next quote of its line. -/
def char (cs : List Char) : Lexeme :=
  match Literal.Piece.read? cs with
  | some (.plain '\'', rest) => invalid .badCharLiteral ['\'', '\''] rest []
  | some (piece, rest) =>
      let text := '\'' :: piece.text
      let faults := escapeFaults '\'' [piece]
      let surplus := rest.takeWhile staysInChar
      match rest.dropWhile staysInChar with
      | '\'' :: after =>
          if surplus = [] then
            ⟨.char (piece.value '\''), text ++ ['\''], after, faults⟩
          else invalid .badCharLiteral (text ++ surplus ++ ['\'']) after faults
      | _ => invalid .unterminatedChar text rest faults
  | none =>
      match cs with
      | '\\' :: rest => invalid .unterminatedChar ['\'', '\\'] rest []
      | rest => invalid .unterminatedChar ['\''] rest []

/-- The operator or punctuation mark that looking ahead finds, or else one character
that begins no token. -/
def mark (c : Char) (cs : List Char) : Lexeme :=
  match Symbol.read? c cs with
  | some (s, further) => ⟨.symbol s, c :: cs.take further, cs.drop further, []⟩
  | none => invalid (.unexpectedChar c) [c] cs []

/-- The lexeme that begins with `c` and goes on in `cs`. -/
def read (c : Char) (cs : List Char) : Lexeme :=
  if isWordStart c then word (c :: cs)
  else if c.isDigit then number (c :: cs)
  else if c = '"' then string cs
  else if c = '\'' then char cs
  else mark c cs

theorem word_text_append_rest (cs : List Char) : (word cs).text ++ (word cs).rest = cs :=
  List.takeWhile_append_dropWhile

theorem splitFraction_eq_append (cs : List Char) :
    (splitFraction cs).1 ++ (splitFraction cs).2 = cs := by
  unfold splitFraction
  split
  · split <;> simp [List.takeWhile_append_dropWhile]
  · rfl

theorem number_text_append_rest (cs : List Char) :
    (number cs).text ++ (number cs).rest = cs := by
  have whole := @List.takeWhile_append_dropWhile _ Char.isDigit cs
  have parts := splitFraction_eq_append (cs.dropWhile Char.isDigit)
  have tail := @List.takeWhile_append_dropWhile _ isWordChar
    (splitFraction (cs.dropWhile Char.isDigit)).2
  unfold number
  dsimp only
  split
  · simp only [List.append_assoc, parts, whole]
  · simp only [invalid, List.append_assoc, tail, parts, whole]

theorem string_text_append_rest (cs : List Char) :
    (string cs).text ++ (string cs).rest = '"' :: cs := by
  have parts := Literal.readPieces_eq_append '"' cs
  unfold string
  dsimp only
  split
  next rest same => simp [← same, parts]
  next rest same => simp [invalid, ← same, parts]
  next => simp [invalid, parts]

theorem char_text_append_rest (cs : List Char) :
    (char cs).text ++ (char cs).rest = '\'' :: cs := by
  unfold char
  split
  next rest first =>
    simp [invalid, Literal.Piece.read?_eq_append first, Literal.Piece.text]
  next piece rest _ first =>
    have parts := Literal.Piece.read?_eq_append first
    have line := @List.takeWhile_append_dropWhile _ staysInChar rest
    dsimp only
    split
    next after same =>
      rw [same] at line
      rw [← line] at parts
      split
      next none_ => simp [parts, none_]
      next => simp [invalid, parts]
    next => simp [invalid, parts]
  next =>
    split <;> simp [invalid]

theorem mark_text_append_rest (c : Char) (cs : List Char) :
    (mark c cs).text ++ (mark c cs).rest = c :: cs := by
  unfold mark
  split
  next s further found => simp
  next => rfl

/-- The mark is the longest symbol that the text begins with, and its text is how that is
written. -/
theorem mark_eq (c : Char) (cs : List Char) :
    mark c cs =
      match Symbol.longest? (c :: cs) with
      | some s =>
          ⟨.symbol s, s.spelling.toList, (c :: cs).drop s.spelling.toList.length, []⟩
      | none => invalid (.unexpectedChar c) [c] cs [] := by
  rw [mark, Symbol.read?_eq_longest?]
  cases found : Symbol.longest? (c :: cs) with
  | none => rfl
  | some s =>
      have begins := Symbol.spelling_prefix_of_longest? found
      have length : s.spelling.toList.length = s.further + 1 := by
        have := List.length_pos_iff.mpr s.spelling_ne_nil
        rw [Symbol.further]
        omega
      have text : c :: cs.take s.further = s.spelling.toList := by
        rw [← List.take_succ_cons, ← length]
        exact (List.prefix_iff_eq_take.mp begins).symm
      simp only [Option.map_some, text, length, List.drop_succ_cons]

/-- Nothing is lost when a lexeme is cut off. -/
theorem read_text_append_rest (c : Char) (cs : List Char) :
    (read c cs).text ++ (read c cs).rest = c :: cs := by
  unfold read
  split
  · exact word_text_append_rest _
  split
  · exact number_text_append_rest _
  split
  next quote => rw [quote, string_text_append_rest]
  split
  next quote => rw [quote, char_text_append_rest]
  · exact mark_text_append_rest c cs

theorem read_text_ne_nil (c : Char) (cs : List Char) : (read c cs).text ≠ [] := by
  unfold read
  split
  next start =>
    have : isWordChar c = true := by
      simp only [isWordStart, Bool.or_eq_true] at start
      simp only [isWordChar, Char.isAlphanum, Bool.or_eq_true]
      exact start.imp_left .inl
    simp [word, this]
  split
  next digit =>
    unfold number
    dsimp only
    split <;> simp [invalid, digit]
  split
  · unfold string
    dsimp only
    split <;> simp [invalid]
  split
  · unfold char
    split
    · simp [invalid]
    · dsimp only
      split
      · split <;> simp [invalid]
      · simp [invalid]
    · split <;> simp [invalid]
  · unfold mark
    split <;> simp [invalid]

theorem read_rest_length_lt (c : Char) (cs : List Char) :
    (read c cs).rest.length < (c :: cs).length := by
  have taken := List.length_pos_iff.mpr (read_text_ne_nil c cs)
  have whole := congrArg List.length (read_text_append_rest c cs)
  rw [List.length_append] at whole
  omega

end Lexeme

end SourceFront
