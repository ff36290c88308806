import SourceFront.Text.Blank
import SourceFront.Text.Bytes

/-!
The gaps between tokens. A gap is a run of pieces, each a blank, a line comment
up to its line feed, or a block comment up to the first mark that closes it. A
block comment that is never closed runs to the end of the text.
-/

namespace SourceFront

namespace Gap

open Text

/-- Splits behind the first mark that closes a block comment. -/
def splitCommentEnd? : List Char → Option (List Char × List Char)
  | '*' :: '/' :: cs => some (['*', '/'], cs)
  | c :: cs => (splitCommentEnd? cs).map fun (body, rest) => (c :: body, rest)
  | [] => none

/-- Splits behind the first piece of a gap, if the text begins with one. -/
def piece? : List Char → Option (List Char × List Char)
  | '/' :: '/' :: cs =>
      some ('/' :: '/' :: cs.takeWhile (· != '\n'), cs.dropWhile (· != '\n'))
  | '/' :: '*' :: cs =>
      (splitCommentEnd? cs).map fun (body, rest) => ('/' :: '*' :: body, rest)
  | c :: cs => if isBlank c then some ([c], cs) else none
  | [] => none

/-- Whether a block comment begins the text. -/
def opensComment : List Char → Bool
  | '/' :: '*' :: _ => true
  | _ => false

theorem splitCommentEnd?_eq_append {cs body rest : List Char}
    (h : splitCommentEnd? cs = some (body, rest)) : cs = body ++ rest := by
  fun_induction splitCommentEnd? cs generalizing body with
  | case1 cs =>
      obtain ⟨rfl, rfl⟩ := Prod.mk.inj (Option.some.inj h)
      rfl
  | case2 c cs _ ih =>
      obtain ⟨⟨tail, last⟩, split, same⟩ := Option.map_eq_some_iff.mp h
      obtain ⟨rfl, rfl⟩ := Prod.mk.inj same
      rw [ih split, List.cons_append]
  | case3 => cases h

theorem piece?_eq_append {cs text rest : List Char}
    (h : piece? cs = some (text, rest)) : cs = text ++ rest := by
  unfold piece? at h
  split at h
  next cs =>
    obtain ⟨rfl, rfl⟩ := Prod.mk.inj (Option.some.inj h)
    simp [List.takeWhile_append_dropWhile]
  next cs =>
    obtain ⟨⟨body, last⟩, split, same⟩ := Option.map_eq_some_iff.mp h
    obtain ⟨rfl, rfl⟩ := Prod.mk.inj same
    simp [splitCommentEnd?_eq_append split]
  next =>
    split at h
    · obtain ⟨rfl, rfl⟩ := Prod.mk.inj (Option.some.inj h)
      rfl
    · cases h
  next => cases h

theorem piece?_ne_nil {cs text rest : List Char}
    (h : piece? cs = some (text, rest)) : text ≠ [] := by
  rintro rfl
  unfold piece? at h
  split at h
  · simp at h
  · simp at h
  · split at h <;> simp at h
  · simp at h

theorem length_lt_of_piece? {cs text rest : List Char}
    (h : piece? cs = some (text, rest)) : rest.length < cs.length := by
  have := List.length_pos_iff.mpr (piece?_ne_nil h)
  simp only [piece?_eq_append h, List.length_append]
  omega

end Gap

/-- What stands before a token: `text` is passed over and `rest` remains. -/
structure Gap where
  text : List Char
  rest : List Char
  /-- The byte of `text` at which a comment opens that is never closed. -/
  unclosed : Option Nat

namespace Gap

open Text

/-- Passes over the gap that begins a text. -/
def read (cs : List Char) : Gap :=
  match _split : piece? cs with
  | some (text, rest) =>
      let gap := read rest
      ⟨text ++ gap.text, gap.rest, gap.unclosed.map (byteLength text + ·)⟩
  | none => if opensComment cs then ⟨cs, [], some 0⟩ else ⟨[], cs, none⟩
termination_by cs.length
decreasing_by exact length_lt_of_piece? _split

theorem read_text_append_rest (cs : List Char) :
    (read cs).text ++ (read cs).rest = cs := by
  fun_induction read cs with
  | case1 cs text rest split gap ih =>
      rw [List.append_assoc, ih, piece?_eq_append split]
  | case2 cs split opens => simp
  | case3 cs split opens => simp

end Gap

end SourceFront
