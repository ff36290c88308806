import SourceFront.Text.Bytes

/-!
The inside of string and character literals. It is a run of pieces, each a
character that stands for itself or a backslash and the character it escapes. A
literal ends on its line, so a line feed is no piece and cannot be escaped.
-/

namespace SourceFront.Literal

open Text

/-- A character for itself, or one behind a backslash. -/
inductive Piece where
  | plain (c : Char)
  | escape (c : Char)
  deriving DecidableEq, Repr

/-- The character that an escape stands for in a literal between `quote`s, if it
is a known one. -/
def unescape? (quote : Char) : Char → Option Char
  | 'n' => some '\n'
  | 't' => some '\t'
  | 'r' => some '\r'
  | '0' => some '\x00'
  | '\\' => some '\\'
  | c => if c = quote then some quote else none

namespace Piece

/-- The piece as it stands in the source. -/
def text : Piece → List Char
  | plain c => [c]
  | escape c => ['\\', c]

/-- The character that the piece stands for. An unknown escape stands for the
escaped character. -/
def value (quote : Char) : Piece → Char
  | plain c => c
  | escape c => (unescape? quote c).getD c

/-- The character of an escape that is not known. -/
def unknown? (quote : Char) : Piece → Option Char
  | plain _ => none
  | escape c => if (unescape? quote c).isNone then some c else none

/-- The piece that begins a text. There is none at the end of a line. -/
def read? : List Char → Option (Piece × List Char)
  | [] | '\n' :: _ | ['\\'] | '\\' :: '\n' :: _ => none
  | '\\' :: c :: cs => some (escape c, cs)
  | c :: cs => some (plain c, cs)

theorem read?_eq_append {cs rest : List Char} {piece : Piece}
    (h : read? cs = some (piece, rest)) : cs = piece.text ++ rest := by
  unfold read? at h
  split at h
  iterate 4 cases h
  all_goals
    obtain ⟨rfl, rfl⟩ := Prod.mk.inj (Option.some.inj h)
    simp [text]

theorem text_ne_nil (piece : Piece) : piece.text ≠ [] := by
  cases piece <;> simp [text]

theorem length_lt_of_read? {cs rest : List Char} {piece : Piece}
    (h : read? cs = some (piece, rest)) : rest.length < cs.length := by
  have := List.length_pos_iff.mpr piece.text_ne_nil
  simp only [read?_eq_append h, List.length_append]
  omega

end Piece

/-- The pieces up to `quote` or to the end of the line, and what follows. -/
def readPieces (quote : Char) (cs : List Char) : List Piece × List Char :=
  if cs.head? = some quote then ([], cs)
  else
    match _next : Piece.read? cs with
    | none => ([], cs)
    | some (piece, rest) =>
        let (pieces, after) := readPieces quote rest
        (piece :: pieces, after)
termination_by cs.length
decreasing_by exact Piece.length_lt_of_read? _next

/-- The pieces as they stand in the source. -/
def piecesText (pieces : List Piece) : List Char :=
  pieces.flatMap Piece.text

theorem readPieces_eq_append (quote : Char) (cs : List Char) :
    piecesText (readPieces quote cs).1 ++ (readPieces quote cs).2 = cs := by
  fun_induction readPieces quote cs with
  | case1 cs closed => simp [piecesText]
  | case2 cs _ last => simp [piecesText]
  | case3 cs _ piece rest next pieces after same ih =>
      rw [same] at ih
      simp only [piecesText, List.flatMap_cons, List.append_assoc] at ih ⊢
      rw [ih, Piece.read?_eq_append next]

/-- The unknown escapes among `pieces` that begin `offset` bytes into a literal:
the escaped character with the place of its backslash. -/
def unknownEscapes (quote : Char) (offset : Nat) : List Piece → List (Char × Nat)
  | [] => []
  | piece :: pieces =>
      let later := unknownEscapes quote (offset + byteLength piece.text) pieces
      match piece.unknown? quote with
      | none => later
      | some c => (c, offset) :: later

end SourceFront.Literal
