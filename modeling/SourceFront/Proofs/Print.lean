import SourceFront.Proofs.Layout
import SourceFront.Proofs.Spelling

/-!
How a module is printed: the terminals of its phrase one after the other, each written
in one way, with blanks between them.
-/

namespace SourceFront

namespace Literal

/-- The piece that is written for a character between `quote`s: its escape, if it may
not stand there itself. -/
def Piece.ofChar (quote c : Char) : Piece :=
  if c = quote ∨ c = '\\' then .escape c
  else if c = '\n' then .escape 'n'
  else .plain c

theorem Piece.ofChar_isProper {quote : Char} (hquote : quote = '"' ∨ quote = '\'') (c : Char) :
    (ofChar quote c).isProper quote = true := by
  unfold ofChar
  split
  next hescape =>
    rcases hescape with rfl | rfl
    · rcases hquote with rfl | rfl <;> rfl
    · rfl
  next hplain =>
    rw [not_or] at hplain
    split
    next => rfl
    next hfeed => simp [isProper, hplain, hfeed]

theorem Piece.value_ofChar {quote : Char} (hquote : quote = '"' ∨ quote = '\'') (c : Char) :
    (ofChar quote c).value quote = c := by
  unfold ofChar
  split
  next hescape =>
    rcases hescape with rfl | rfl
    · rcases hquote with rfl | rfl <;> rfl
    · rfl
  next =>
    split
    next hfeed => exact hfeed.symm
    next => rfl

/-- The characters between two quotes. -/
def quoted (quote : Char) (value : List Char) : List Char :=
  quote :: piecesText (value.map (Piece.ofChar quote)) ++ [quote]

end Literal

namespace Terminal

/-- How the terminal is printed. -/
def text : Terminal → String
  | keyword k => k.spelling
  | symbol s => s.spelling
  | ident name => name
  | number digits => digits
  | string value => String.ofList (Literal.quoted '"' value.toList)
  | char value => String.ofList (Literal.quoted '\'' [value])

/-- Whether a token can be written for the terminal. -/
def isProper : Terminal → Bool
  | ident name => isName name.toList
  | number digits => isNumeral digits.toList
  | _ => true

theorem written {a : Terminal} (h : a.isProper = true) : a.kind.Written a.text.toList := by
  cases a with
  | keyword k => exact .keyword k
  | symbol s => exact .symbol s
  | ident name =>
      have hname := @TokenKind.Written.ident name.toList h
      rwa [String.ofList_toList] at hname
  | number digits => exact .number h
  | string value =>
      have hproper : ∀ piece ∈ value.toList.map (Literal.Piece.ofChar '"'),
          piece.isProper '"' = true := by
        intro piece hmem
        obtain ⟨c, -, rfl⟩ := List.mem_map.mp hmem
        exact Literal.Piece.ofChar_isProper (.inl rfl) c
      have hvalue : (value.toList.map (Literal.Piece.ofChar '"')).map (·.value '"') =
          value.toList := by
        rw [List.map_map]
        exact List.map_id'' (fun c => Literal.Piece.value_ofChar (.inl rfl) c) _
      have hwritten := TokenKind.Written.string hproper
      rw [hvalue, String.ofList_toList] at hwritten
      rw [text, String.toList_ofList]
      exact hwritten
  | char value =>
      have hproper : (Literal.Piece.ofChar '\'' value).isProper '\'' = true :=
        Literal.Piece.ofChar_isProper (.inr rfl) value
      have hwritten := TokenKind.Written.char hproper
      rw [Literal.Piece.value_ofChar (.inr rfl)] at hwritten
      rw [text, String.toList_ofList]
      simpa [kind, Literal.quoted, Literal.piecesText] using hwritten

theorem terminal?_of_form {a : Terminal} {token : Token} (h : token.form = (a.kind, a.text)) :
    token.terminal? = some a := by
  obtain ⟨hkind, htext⟩ := Prod.mk.inj h
  cases a <;> simp_all [Token.terminal?, kind, text]

end Terminal

theorem laidOut_intercalate (texts : List String) : LaidOut texts (" ".intercalate texts) := by
  refine ⟨[], (" ".intercalate texts).toList, .nil, ?_, rfl⟩
  induction texts with
  | nil => exact .nil
  | cons text texts ih =>
      cases texts with
      | nil =>
          have hlaid : Laid [text] (text.toList ++ ([] ++ [])) :=
            .cons .nil (by simp [Text.Ends]) (by simp) .nil
          simpa using hlaid
      | cons next texts =>
          have hlaid : Laid (text :: next :: texts) (text.toList ++
              ([' '] ++ (" ".intercalate (next :: texts)).toList)) :=
            .cons (.blank rfl .nil) (by simp [Text.Ends, Text.isBlank, Text.blankRanges])
              (by simp) ih
          simpa [String.intercalate_cons_cons] using hlaid

namespace Module

variable {α : Type} (module : Module α)

/-- The module as text. -/
def print : String :=
  " ".intercalate (module.phrase.terminals.map Terminal.text)

/-- How many levels the module is nested on its deepest path. -/
def nesting : Nat :=
  module.phrase.nesting

/-- Whether the module can be written: operators, brackets and lists stand as the grammar
has them, and names and numbers are those of tokens. -/
structure WellFormed : Prop where
  holds : module.phrase.holds = true
  proper : ∀ a ∈ module.phrase.terminals, a.isProper = true

variable {module}

/-- What is printed has the tokens of the phrase, and nothing in it is malformed. -/
theorem WellFormed.tokens_print (h : module.WellFormed) (fileId : Nat) :
    (bodyTokens module.print fileId).map Token.form =
        module.phrase.terminals.map (fun a => (a.kind, a.text)) ∧
      lexicalProblems module.print fileId = [] := by
  refine tokens_of_laidOut ?_ ?_ fileId
  · intro form hmem
    obtain ⟨a, ha, rfl⟩ := List.mem_map.mp hmem
    exact Terminal.written (h.proper a ha)
  · rw [List.map_map]
    exact laidOut_intercalate _

end Module

end SourceFront
