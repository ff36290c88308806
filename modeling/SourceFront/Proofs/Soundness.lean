import SourceFront.Proofs.Derivation.Source
import SourceFront.Proofs.Diagnosis

/-!
Soundness: the tokens of a source without problems, by their kinds and texts, spell
the module that is read from it.
-/

namespace SourceFront

/-- Whether the text between `quote`s is written for the characters of `value`. A
character may be written as it is or, if it has an escape, as that. -/
def Literal.Denotes (quote : Char) (text value : List Char) : Prop :=
  ∃ pieces : List Piece, (∀ piece ∈ pieces, piece.isProper quote = true) ∧
    text = quote :: piecesText pieces ++ [quote] ∧ value = pieces.map (·.value quote)

/-- Whether a token of this kind and text is written for the terminal. -/
def Terminal.WrittenAs (kind : TokenKind) (text : String) : Terminal → Prop
  | .keyword k => kind = .keyword k ∧ text = k.spelling
  | .symbol s => kind = .symbol s ∧ text = s.spelling
  | .ident name => kind = .ident name ∧ text = name
  | .number digits => kind = .number ∧ text = digits
  | .string value => kind = .string value ∧ Literal.Denotes '"' text.toList value.toList
  | .char value => kind = .char value ∧ Literal.Denotes '\'' text.toList [value]

/-- The orthography of sources without problems. Nothing is passed over. -/
def Orthography.written {α : Type} : Orthography α where
  token t token := t.WrittenAs token.kind token.text
  note _ _ := True
  gap tokens := tokens = []

theorem Terminal.writtenAs_of_written {token : Token} {t : Terminal}
    (h : token.kind.Written token.text.toList) (ht : token.terminal? = some t) :
    t.WrittenAs token.kind token.text := by
  obtain ⟨kind, text, span⟩ := token
  obtain ⟨cs, rfl⟩ : ∃ cs, text = String.ofList cs := ⟨text.toList, by simp⟩
  simp only [String.toList_ofList] at h
  cases h with
  | keyword k => cases ht; exact ⟨rfl, by simp⟩
  | symbol s => cases ht; exact ⟨rfl, by simp⟩
  | ident hname => cases ht; exact ⟨rfl, rfl⟩
  | number hnumeral => cases ht; exact ⟨rfl, rfl⟩
  | @string pieces hpieces =>
      cases ht
      exact ⟨rfl, pieces, hpieces, by simp, by simp⟩
  | @char piece hpiece =>
      cases ht
      refine ⟨rfl, [piece], ?_, ?_, rfl⟩
      · simpa using hpiece
      · simp [Literal.piecesText]

theorem not_written_invalid {text : List Char} : ¬ TokenKind.invalid.Written text := by
  intro h
  cases h

/-- Reading the tree of a source without problems from left to right and writing the
tokens of each node gives the tokens of the source. -/
theorem analyse_spelled (source : String) (fileId : Nat)
    (h : (analyse source fileId).diagnostics.isEmpty = true) :
    (analyse source fileId).module.phrase.Spelled .written (bodyTokens source fileId) := by
  obtain ⟨⟨module, after⟩, hread⟩ : ∃ result,
      (Reading.ofSource source fileId).readModule = result := ⟨_, rfl⟩
  rw [analyse_eq hread] at h ⊢
  obtain ⟨hlexical, hsyntax⟩ :=
    Reading.problems_eq_nil.mp (Diagnostics.isEmpty_ofProblems.mp h)
  have hwritten := bodyTokens_written ((readModule_lexical hread).symm.trans hlexical)
  have hderives : module.phrase.Derives False (bodyTokens source fileId) :=
    (ofSource_readModule hread fun hne => hne hsyntax).1
  refine hderives.imp ?_ (fun _ _ _ _ => trivial) ?_
  · exact fun t token hmem ht => Terminal.writtenAs_of_written (hwritten token hmem) ht
  · rintro part hpart (hnil | hfalse | ⟨token, hmem, hkind⟩)
    · exact hnil
    · exact hfalse.elim
    · have hinvalid := hwritten token (hpart.subset hmem)
      rw [hkind] at hinvalid
      exact absurd hinvalid not_written_invalid

theorem analyse_spelled_import :
    (analyse "import \"a\";" 0).diagnostics.isEmpty = true ∧
      (analyse "import \"a\";" 0).module.phrase.Spelled .written
        (bodyTokens "import \"a\";" 0) :=
  have h : (analyse "import \"a\";" 0).diagnostics.isEmpty = true := by decide +kernel
  ⟨h, analyse_spelled "import \"a\";" 0 h⟩

/-- Tokens that have one text for each terminal. -/
def Orthography.uniform {α : Type} (text : Terminal → String) : Orthography α where
  token t token := token.terminal? = some t ∧ token.text = text t
  note _ _ := True
  gap tokens := tokens = []

/-- The tree does not tell how a literal is written: a tab may stand in a string as it
is or as its escape. -/
theorem not_spelled_uniform :
    ¬ ∃ text : Terminal → String, ∀ source fileId,
      (analyse source fileId).diagnostics.isEmpty = true →
        (analyse source fileId).module.phrase.Spelled (.uniform text)
          (bodyTokens source fileId) := by
  rintro ⟨text, huniform⟩
  have hread (source : String) (token : Token)
      (hempty : (analyse source 0).diagnostics.isEmpty = true)
      (hmem : token ∈ bodyTokens source 0) (hkind : token.kind = .string "\t") :
      token.text = text (.string "\t") := by
    obtain ⟨t, ht, htext⟩ :=
      (huniform source 0 hempty).exists_terminal (fun _ hnil => hnil) token hmem
    simp only [Token.terminal?, hkind, Option.some.injEq] at ht
    rw [htext, ht]
  have hescaped : "\"\\t\"" = text (.string "\t") :=
    hread "import \"\\t\";" ⟨.string "\t", "\"\\t\"", ⟨7, 11, 0⟩⟩
      (by decide +kernel) (by decide +kernel) rfl
  have hplain : "\"\t\"" = text (.string "\t") :=
    hread "import \"\t\";" ⟨.string "\t", "\"\t\"", ⟨7, 10, 0⟩⟩
      (by decide +kernel) (by decide +kernel) rfl
  exact absurd (hescaped.trans hplain.symm) (by decide)

end SourceFront
