import SourceFront.Span
import SourceFront.Token.Keyword
import SourceFront.Token.Symbol

/-!
The tokens of a source text. Comments and blanks are no tokens; text that no
token can begin, or that a token breaks off in, is an invalid token.
-/

namespace SourceFront

/-- What a token is, with what it stands for. -/
inductive TokenKind where
  | keyword (k : Keyword)
  | symbol (s : Symbol)
  | ident (name : String)
  /-- The digits are the token's text. -/
  | number
  /-- A string literal, by what it stands for. -/
  | string (value : String)
  /-- A character literal, by what it stands for. -/
  | char (value : Char)
  | invalid
  | eof
  deriving DecidableEq, Repr

namespace TokenKind

/-- What the kind is called: the spelling where there is just one. -/
def label : TokenKind → String
  | keyword k => k.spelling
  | symbol s => s.spelling
  | ident _ => "identifier"
  | number => "number"
  | string _ => "string literal"
  | char _ => "character literal"
  | invalid => "invalid token"
  | eof => "end of input"

/-- Whether the token is a reserved word. -/
def isKeyword : TokenKind → Bool
  | keyword _ => true
  | _ => false

/-- Kinds that can only begin a top-level item. -/
def beginsItemOnly : TokenKind → Bool
  | keyword k => k.beginsItemOnly
  | _ => false

/-- Keywords that begin a statement. -/
def beginsStatement : TokenKind → Bool
  | keyword k => k.beginsStatement
  | _ => false

/-- Kinds that can begin a top-level item. -/
def beginsItem : TokenKind → Bool
  | keyword k => k.beginsItem
  | _ => false

end TokenKind

/-- A token with its text and its place. -/
structure Token where
  kind : TokenKind
  /-- The token as it stands in the source. -/
  text : String
  span : Span
  deriving DecidableEq, Repr

namespace Token

/-- The token that ends every token list; it has no text. -/
def eof (span : Span) : Token :=
  ⟨.eof, "", span⟩

/-- Whether the token is that of the end. -/
def isEof (token : Token) : Bool :=
  token.kind = .eof

/-- The token in a message about what was found. -/
def describe (token : Token) : String :=
  match token.kind with
  | .ident name => "identifier `" ++ name ++ "`"
  | .number => "number `" ++ token.text ++ "`"
  | .string _ => "string literal"
  | .char _ => "character literal"
  | .invalid => "invalid token `" ++ token.text ++ "`"
  | .eof => "end of input"
  | .keyword _ => "keyword `" ++ token.text ++ "`"
  | .symbol _ => "`" ++ token.text ++ "`"

/-- The same token `n` bytes further on. -/
def shift (n : Nat) (token : Token) : Token :=
  { token with span := token.span.shift n }

end Token

end SourceFront
