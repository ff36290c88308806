/-!
The reserved words of Iblang, the words that name its primitive types included.
-/

namespace SourceFront

/-- The reserved words. -/
inductive Keyword where
  | fn | struct | union | enum | external | const | let_ | import_ | pub
  | if_ | else_ | loop | while_ | for_ | match_ | break_ | continue_ | return_
  | true_ | false_ | null | as_ | sizeof | void
  | int | str | char | bool | float
  deriving DecidableEq, Repr

namespace Keyword

/-- How the word is written. -/
def spelling : Keyword → String
  | fn => "fn"
  | struct => "struct"
  | union => "union"
  | enum => "enum"
  | external => "extern"
  | const => "const"
  | let_ => "let"
  | import_ => "import"
  | pub => "pub"
  | if_ => "if"
  | else_ => "else"
  | loop => "loop"
  | while_ => "while"
  | for_ => "for"
  | match_ => "match"
  | break_ => "break"
  | continue_ => "continue"
  | return_ => "return"
  | true_ => "true"
  | false_ => "false"
  | null => "null"
  | as_ => "as"
  | sizeof => "sizeof"
  | void => "void"
  | int => "int"
  | str => "str"
  | char => "char"
  | bool => "bool"
  | float => "float"

/-- Every reserved word once. -/
def all : List Keyword :=
  [fn, struct, union, enum, external, const, let_, import_, pub, if_, else_,
    loop, while_, for_, match_, break_, continue_, return_, true_, false_, null,
    as_, sizeof, void, int, str, char, bool, float]

/-- The reserved word that is written so, if there is one. -/
def ofSpelling? : String → Option Keyword
  | "fn" => some fn
  | "struct" => some struct
  | "union" => some union
  | "enum" => some enum
  | "extern" => some external
  | "const" => some const
  | "let" => some let_
  | "import" => some import_
  | "pub" => some pub
  | "if" => some if_
  | "else" => some else_
  | "loop" => some loop
  | "while" => some while_
  | "for" => some for_
  | "match" => some match_
  | "break" => some break_
  | "continue" => some continue_
  | "return" => some return_
  | "true" => some true_
  | "false" => some false_
  | "null" => some null
  | "as" => some as_
  | "sizeof" => some sizeof
  | "void" => some void
  | "int" => some int
  | "str" => some str
  | "char" => some char
  | "bool" => some bool
  | "float" => some float
  | _ => none

/-- Words that can only begin a top-level item. -/
def beginsItemOnly : Keyword → Bool
  | fn | struct | union | enum | external | import_ | pub => true
  | _ => false

/-- Words that begin a statement. -/
def beginsStatement : Keyword → Bool
  | let_ | const | if_ | loop | while_ | for_ | match_ | break_ | continue_
  | return_ => true
  | _ => false

/-- Words that can begin a top-level item. -/
def beginsItem (k : Keyword) : Bool :=
  k.beginsItemOnly || k = const || k = let_

theorem mem_all (k : Keyword) : k ∈ all := by
  cases k <;> decide

theorem ofSpelling?_spelling (k : Keyword) : ofSpelling? k.spelling = some k := by
  cases k <;> rfl

theorem spelling_of_ofSpelling? {word : String} {k : Keyword} (h : ofSpelling? word = some k) :
    k.spelling = word := by
  unfold ofSpelling? at h
  split at h <;> cases h <;> rfl

/-- The two tables agree: a word is read as the keyword that is written so. -/
theorem ofSpelling?_eq_some_iff {word : String} {k : Keyword} :
    ofSpelling? word = some k ↔ word = k.spelling := by
  refine ⟨fun h => (spelling_of_ofSpelling? h).symm, ?_⟩
  rintro rfl
  exact ofSpelling?_spelling k

end Keyword

end SourceFront
