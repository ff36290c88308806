import SourceFront.Proofs.Fault
import SourceFront.Proofs.Stop

/-!
The lexemes of a source, each in its place. Its tokens are these lexemes, and the problems of
its tokens are the faults of these lexemes and, at the very end, a comment that is never
closed. What holds of a lexeme wherever it is cut off so holds of every token.
-/

namespace SourceFront

open Text

/-- A lexeme with the byte at which it begins. -/
structure PlacedLexeme where
  start : Nat
  lexeme : Lexeme

namespace PlacedLexeme

/-- Where the lexeme stops. -/
def stop (placed : PlacedLexeme) : Nat :=
  placed.start + byteLength placed.lexeme.text

/-- The token that the lexeme becomes. -/
def token (fileId : Nat) (placed : PlacedLexeme) : Token :=
  ⟨placed.lexeme.kind, String.ofList placed.lexeme.text, ⟨placed.start, placed.stop, fileId⟩⟩

/-- The faults of the lexeme, where they are in the source. -/
def problems (fileId : Nat) (placed : PlacedLexeme) : List Problem :=
  placed.lexeme.faults.map fun fault =>
    ⟨fault.cause, ⟨placed.start + fault.start, placed.start + fault.stop, fileId⟩⟩

end PlacedLexeme

/-- The problem of a comment that opens at the byte `opened` and is never closed. -/
def Problem.ofComment (fileId opened : Nat) : Problem :=
  ⟨.unterminatedComment, ⟨opened, opened + 2, fileId⟩⟩

/-- From the byte `offset` on, the text is cut into lexemes with gaps between them. A comment
may open in the last gap and never be closed. -/
inductive Lexed : (offset : Nat) → List Char → List PlacedLexeme → Option Nat → Prop where
  | last {offset : Nat} {cs : List Char} (hrest : (Gap.read cs).rest = []) :
      Lexed offset cs [] ((Gap.read cs).unclosed.map (offset + ·))
  | more {offset : Nat} {c : Char} {cs behind : List Char} {placed : PlacedLexeme}
      {lexemes : List PlacedLexeme} {unclosed : Option Nat}
      (hrest : (Gap.read cs).rest = c :: behind)
      (hplaced : placed = ⟨offset + byteLength (Gap.read cs).text, Lexeme.read c behind⟩)
      (hmore : Lexed placed.stop placed.lexeme.rest lexemes unclosed) :
      Lexed offset cs (placed :: lexemes) unclosed

theorem Gap.exists_of_unclosed (cs : List Char) :
    ∀ opened, (Gap.read cs).unclosed = some opened →
      ∃ before behind, cs = before ++ '/' :: '*' :: behind ∧ opened = byteLength before := by
  fun_induction Gap.read cs with
  | case1 cs text rest hpiece gap ih =>
      intro opened h
      obtain ⟨inner, hinner, rfl⟩ := Option.map_eq_some_iff.mp h
      obtain ⟨before, behind, hrest, rfl⟩ := ih inner hinner
      refine ⟨text ++ before, behind, ?_, (byteLength_append text before).symm⟩
      rw [piece?_eq_append hpiece, hrest, List.append_assoc]
  | case2 cs hpiece hopens =>
      intro opened h
      obtain rfl := Option.some.inj h
      unfold opensComment at hopens
      split at hopens
      next behind => exact ⟨[], behind, rfl, rfl⟩
      next => cases hopens
  | case3 => simp

theorem Lexeme.exists_before {c : Char} {cs behind before more : List Char}
    (hrest : (Gap.read cs).rest = c :: behind) (hmore : (read c behind).rest = before ++ more) :
    ∃ front, cs = front ++ more ∧ byteLength front =
      byteLength (Gap.read cs).text + byteLength (read c behind).text + byteLength before := by
  refine ⟨(Gap.read cs).text ++ ((read c behind).text ++ before), ?_, by simp [Nat.add_assoc]⟩
  have hgap := Gap.read_text_append_rest cs
  rw [List.append_assoc, List.append_assoc, ← hmore, read_text_append_rest, ← hrest, hgap]

namespace Lexed

variable {offset opened : Nat} {cs : List Char} {lexemes : List PlacedLexeme}
  {unclosed : Option Nat}

theorem exists_of_mem (h : Lexed offset cs lexemes unclosed) :
    ∀ placed ∈ lexemes, ∃ before c behind, cs = before ++ c :: behind ∧
      placed = ⟨offset + byteLength before, Lexeme.read c behind⟩ ∧
      Gap.Absent (c :: behind) := by
  induction h with
  | last =>
      intro placed hmem
      cases hmem
  | @more offset c cs behind placed lexemes unclosed hrest hplaced _ ih =>
      intro other hmem
      rcases List.mem_cons.mp hmem with rfl | hmem
      · have hgap := Gap.read_text_append_rest cs
        rw [hrest] at hgap
        exact ⟨_, c, behind, hgap.symm, hplaced, Gap.absent_of_read hrest⟩
      · obtain ⟨before, d, more, hmore, rfl, habsent⟩ := ih other hmem
        subst hplaced
        obtain ⟨front, hcs, hlength⟩ := Lexeme.exists_before hrest hmore
        refine ⟨front, d, more, hcs, ?_, habsent⟩
        rw [hlength, PlacedLexeme.stop]
        simp only [Nat.add_assoc]

theorem exists_of_unclosed (h : Lexed offset cs lexemes (some opened)) :
    (∃ before behind, cs = before ++ '/' :: '*' :: behind ∧
        opened = offset + byteLength before) ∧
      ∀ placed ∈ lexemes, placed.stop ≤ opened := by
  generalize hunclosed : some opened = unclosed at h
  induction h with
  | @last offset cs _ =>
      obtain ⟨inner, hinner, rfl⟩ := Option.map_eq_some_iff.mp hunclosed.symm
      obtain ⟨before, behind, hcs, rfl⟩ := Gap.exists_of_unclosed cs inner hinner
      refine ⟨⟨before, behind, hcs, rfl⟩, ?_⟩
      intro placed hmem
      cases hmem
  | @more offset c cs behind placed lexemes unclosed hrest hplaced _ ih =>
      obtain ⟨⟨before, more, hmore, rfl⟩, hstops⟩ := ih hunclosed
      refine ⟨?_, ?_⟩
      · subst hplaced
        obtain ⟨front, hcs, hlength⟩ := Lexeme.exists_before hrest hmore
        refine ⟨front, more, hcs, ?_⟩
        rw [hlength, PlacedLexeme.stop]
        simp only [Nat.add_assoc]
      · intro other hmem
        rcases List.mem_cons.mp hmem with rfl | hmem
        · exact Nat.le_add_right _ _
        · exact hstops other hmem

theorem slice_of_unclosed (h : Lexed 0 cs lexemes (some opened)) :
    Slice cs opened (opened + 2) ['/', '*'] := by
  obtain ⟨⟨before, behind, hcs, rfl⟩, -⟩ := h.exists_of_unclosed
  rw [Nat.zero_add]
  exact ⟨before, behind, hcs, rfl, rfl⟩

end Lexed

/-- The tokens of a stream and the problems noted with them, lexeme by lexeme. -/
theorem TokenStream.exists_lexed (stream : TokenStream) :
    ∃ lexemes unclosed, Lexed stream.offset stream.rest lexemes unclosed ∧
      stream.tokenize.1 = lexemes.map (·.token stream.fileId) ++
        [.eof (stream.range (stream.offset + byteLength stream.rest) 0)] ∧
      stream.tokenize.2.problems = stream.problems ++
        (lexemes.flatMap (·.problems stream.fileId) ++
          unclosed.toList.map (Problem.ofComment stream.fileId)) := by
  fun_induction tokenize stream with
  | case1 stream hend =>
      have hrest := rest_of_isEof hend
      refine ⟨[], _, .last hrest, ?_, ?_⟩
      · rw [next_of_end hrest]
        rfl
      · rw [next_of_end hrest]
        cases hunclosed : (Gap.read stream.rest).unclosed <;>
          simp [gapProblems, hunclosed, Problem.ofComment, range]
  | case2 stream hend tokens last hmore ih =>
      obtain ⟨c, behind, hrest⟩ := exists_rest_of_not_isEof hend
      rw [next_of_lexeme hrest] at hmore ih ⊢
      rw [hmore, behindLexeme_end hrest] at ih
      obtain ⟨lexemes, unclosed, hlexed, htokens, hproblems⟩ := ih
      refine ⟨_, unclosed, .more hrest rfl hlexed, ?_, ?_⟩
      · obtain rfl : tokens = _ := htokens
        rfl
      · rw [hproblems, behindLexeme, gapProblems_of_lexeme hrest]
        simp [PlacedLexeme.problems, lexemeProblems]

theorem exists_lexed (source : String) (fileId : Nat) :
    ∃ lexemes unclosed, Lexed 0 source.toList lexemes unclosed ∧
      bodyTokens source fileId = lexemes.map (·.token fileId) ∧
      lexicalProblems source fileId = lexemes.flatMap (·.problems fileId) ++
        unclosed.toList.map (Problem.ofComment fileId) := by
  obtain ⟨lexemes, unclosed, hlexed, htokens, hproblems⟩ :=
    (TokenStream.ofSource source fileId).exists_lexed
  refine ⟨lexemes, unclosed, hlexed, ?_, ?_⟩
  · rw [bodyTokens, tokens, htokens, List.dropLast_concat]
    rfl
  · exact hproblems.trans (List.nil_append _)

namespace PlacedLexeme

/-- The lexeme is what is read in its place in the text, and no gap begins there. -/
def ReadIn (cs : List Char) (placed : PlacedLexeme) : Prop :=
  ∃ before c behind, cs = before ++ c :: behind ∧
    placed = ⟨byteLength before, Lexeme.read c behind⟩ ∧ Gap.Absent (c :: behind)

variable {cs : List Char} {placed : PlacedLexeme} (h : placed.ReadIn cs)
include h

theorem ReadIn.slice : Slice cs placed.start placed.stop placed.lexeme.text := by
  obtain ⟨before, c, behind, rfl, rfl, -⟩ := h
  refine ⟨before, (Lexeme.read c behind).rest, ?_, rfl, rfl⟩
  rw [Lexeme.read_text_append_rest]

theorem ReadIn.faulted : placed.lexeme.Faulted := by
  obtain ⟨before, c, behind, -, rfl, -⟩ := h
  exact Lexeme.read_faulted c behind

end PlacedLexeme

theorem Lexed.readIn {cs : List Char} {lexemes : List PlacedLexeme} {unclosed : Option Nat}
    (h : Lexed 0 cs lexemes unclosed) : ∀ placed ∈ lexemes, placed.ReadIn cs := by
  intro placed hmem
  obtain ⟨before, c, behind, hcs, rfl, habsent⟩ := h.exists_of_mem placed hmem
  exact ⟨before, c, behind, hcs, by rw [Nat.zero_add], habsent⟩

section Source

variable {source : String} {fileId : Nat}

theorem exists_lexeme_of_mem_tokens {token : Token} (h : token ∈ tokens source fileId) :
    token = .eof ⟨source.utf8ByteSize, source.utf8ByteSize, fileId⟩ ∨
      ∃ placed : PlacedLexeme, placed.ReadIn source.toList ∧ placed.token fileId = token ∧
        placed.problems fileId ⊆ lexicalProblems source fileId := by
  obtain ⟨lexemes, unclosed, hlexed, htokens, hproblems⟩ := exists_lexed source fileId
  rw [tokens_eq_append, htokens] at h
  rcases List.mem_append.mp h with h | h
  · obtain ⟨placed, hplaced, rfl⟩ := List.mem_map.mp h
    refine .inr ⟨placed, hlexed.readIn placed hplaced, rfl, fun problem hproblem => ?_⟩
    rw [hproblems]
    exact List.mem_append_left _ (List.mem_flatMap.mpr ⟨placed, hplaced, hproblem⟩)
  · exact .inl (List.mem_singleton.mp h)

theorem exists_lexeme_of_mem_lexicalProblems {problem : Problem}
    (h : problem ∈ lexicalProblems source fileId) :
    (∃ placed : PlacedLexeme, placed.ReadIn source.toList ∧
        placed.token fileId ∈ tokens source fileId ∧ problem ∈ placed.problems fileId) ∨
      ∃ opened, Slice source.toList opened (opened + 2) ['/', '*'] ∧
        problem = .ofComment fileId opened := by
  obtain ⟨lexemes, unclosed, hlexed, htokens, hproblems⟩ := exists_lexed source fileId
  rw [hproblems] at h
  rcases List.mem_append.mp h with h | h
  · obtain ⟨placed, hplaced, hproblem⟩ := List.mem_flatMap.mp h
    refine .inl ⟨placed, hlexed.readIn placed hplaced, ?_, hproblem⟩
    rw [tokens_eq_append, htokens]
    exact List.mem_append_left _ (List.mem_map_of_mem hplaced)
  · obtain ⟨opened, hopened, rfl⟩ := List.mem_map.mp h
    obtain rfl := Option.mem_toList.mp hopened
    exact .inr ⟨opened, hlexed.slice_of_unclosed, rfl⟩

end Source

end SourceFront
