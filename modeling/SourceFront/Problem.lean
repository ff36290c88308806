import SourceFront.Span

/-!
What can be wrong with a source text. A problem is a cause and the place where
it was found; its code, its wording and the hint for its repair follow from the
cause.
-/

namespace SourceFront

/-- What is the matter, with what its message quotes. -/
inductive Cause where
  | unexpectedChar (c : Char)
  | unterminatedString
  | unknownEscape (c : Char)
  | unterminatedChar
  /-- A character literal of no or of several characters. -/
  | badCharLiteral
  /-- A number that runs into a name. -/
  | malformedNumber (text : String)
  | unterminatedComment
  | unexpectedToken (expected found : String)
  | expectedExpr (found : String)
  | expectedType (found : String)
  | expectedPattern (found : String)
  | nestingTooDeep (limit : Nat)
  deriving DecidableEq, Repr

namespace Cause

/-- The stable number of the cause. -/
def code : Cause → String
  | unexpectedChar _ => "E0001"
  | unterminatedString => "E0002"
  | unknownEscape _ => "E0003"
  | badCharLiteral => "E0004"
  | malformedNumber _ => "E0005"
  | unterminatedComment => "E0006"
  | unterminatedChar => "E0007"
  | unexpectedToken .. => "E0100"
  | expectedExpr _ => "E0101"
  | expectedType _ => "E0102"
  | expectedPattern _ => "E0103"
  | nestingTooDeep _ => "E0104"

/-- The text that tells what is the matter. -/
def message : Cause → String
  | unexpectedChar c => "unexpected character `" ++ c.toString ++ "`"
  | unterminatedString => "unterminated string literal"
  | unknownEscape c => "unknown escape sequence `\\" ++ c.toString ++ "`"
  | unterminatedChar => "unterminated character literal"
  | badCharLiteral => "character literal must contain exactly one character"
  | malformedNumber text => "malformed numeric literal `" ++ text ++ "`"
  | unterminatedComment => "unterminated block comment"
  | unexpectedToken expected found => "expected " ++ expected ++ ", found " ++ found
  | expectedExpr found => "expected expression, found " ++ found
  | expectedType found => "expected type, found " ++ found
  | expectedPattern found => "expected pattern, found " ++ found
  | nestingTooDeep limit => "nesting deeper than " ++ toString limit ++ " levels"

/-- A hint, where one repair is the obvious one. -/
def help : Cause → Option String
  | unterminatedString => some "add a closing `\"` before the end of the line"
  | unterminatedChar => some "add a closing `'`"
  | unknownEscape _ =>
      some ("supported escapes are `\\n`, `\\t`, `\\r`, `\\0`, `\\\\` and " ++
        "the quote character")
  | badCharLiteral => some "use a string literal for more than one character"
  | malformedNumber _ => some "separate the number from the name that follows it"
  | unterminatedComment => some "close the comment with `*/`"
  | nestingTooDeep _ => some "move inner parts into local variables or functions"
  | unexpectedToken expected _ =>
      if expected = "`;`" then some "statements and declarations end with `;`"
      else none
  | unexpectedChar _ | expectedExpr _ | expectedType _ | expectedPattern _ => none

/-- Whether the problem lies in a token itself and not in its place. -/
def isLexical : Cause → Bool
  | unexpectedChar _ | unterminatedString | unknownEscape _ | unterminatedChar
  | badCharLiteral | malformedNumber _ | unterminatedComment => true
  | unexpectedToken .. | expectedExpr _ | expectedType _ | expectedPattern _
  | nestingTooDeep _ => false

end Cause

/-- What is the matter, and where. -/
structure Problem where
  cause : Cause
  span : Span
  deriving DecidableEq, Repr

namespace Problem

/-- Where the range of the problem starts. -/
def start (problem : Problem) : Nat :=
  problem.span.start

/-- The same problem `n` bytes further on. -/
def shift (n : Nat) (problem : Problem) : Problem :=
  { problem with span := problem.span.shift n }

end Problem

end SourceFront
