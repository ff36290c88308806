import SourceFront.Proofs.LineFeed
import SourceFront.Proofs.Relocation.Rules
import SourceFront.Proofs.Sequence
import SourceFront.Proofs.Soundness

/-!
Sources one after the other. A source without problems may be followed by any other on
the next line: its items are read first, and the other is then read as if it stood
alone.
-/

namespace SourceFront

/-- The same diagnostic `n` bytes further on. -/
def Diagnostic.shift (n : Nat) (diagnostic : Diagnostic) : Diagnostic :=
  { diagnostic with span := diagnostic.span.shift n }

/-- All ranges `n` bytes further on. -/
def Relocation.shift (n : Nat) : Relocation where
  move := Span.shift n
  move_merge a b := by
    simp only [Span.shift, Span.merge, Nat.add_min_add_right, Nat.add_max_add_right]
  start_le_iff _ _ := Nat.add_le_add_iff_right

section

variable (a b : String) (fileId : Nat)

/-- The tokens of a source behind another one are further on, and so is the end. -/
theorem ofSource_state_concat
    (h : ∀ problem ∈ lexicalProblems a fileId, problem.cause ≠ .unterminatedComment) :
    let other := (Reading.ofSource b fileId).state.move (.shift (a.utf8ByteSize + 1))
    ∃ last, (Reading.ofSource (a ++ "\n" ++ b) fileId).state =
      { (Reading.ofSource a fileId).state.extend other.ahead other.stop with last } := by
  intro other
  obtain ⟨hahead, hstop, hproblems⟩ := ofSource_state (a ++ "\n" ++ b) fileId
  obtain ⟨hahead₁, -, hproblems₁⟩ := ofSource_state a fileId
  obtain ⟨hahead₂, hstop₂, -⟩ := ofSource_state b fileId
  have hsize : (a ++ "\n" ++ b).utf8ByteSize = b.utf8ByteSize + (a.utf8ByteSize + 1) := by
    rw [String.utf8ByteSize_append, String.utf8ByteSize_append,
      show "\n".utf8ByteSize = 1 from rfl]
    omega
  refine ⟨(Reading.ofSource (a ++ "\n" ++ b) fileId).state.last, ?_⟩
  have heta (s : State) : s = ⟨s.last, s.ahead, s.stop, s.problems⟩ := rfl
  rw [heta (Reading.ofSource (a ++ "\n" ++ b) fileId).state, hahead, hstop, hproblems,
    bodyTokens_concat a b fileId h, hsize]
  simp only [other, State.extend, State.move, hahead₁, hproblems₁, hahead₂, hstop₂]
  rfl

end

variable {a : String} {fileId : Nat} {items : List (Item Span)} {after : State}

theorem analyse_quiet (hclean : (analyse a fileId).diagnostics.isEmpty = true)
    (hitems : Rule.items .outermost (Reading.ofSource a fileId).state = .ok items after) :
    lexicalProblems a fileId = [] ∧ after.problems = [] := by
  rw [Diagnostics.isEmpty, List.isEmpty_iff, (analyse_of_items hitems).2, List.map_eq_nil_iff,
    SourceOrder.sort_eq_nil] at hclean
  exact List.append_eq_nil_iff.mp hclean

theorem items_ahead
    (hitems : Rule.items .outermost (Reading.ofSource a fileId).state = .ok items after) :
    after.ahead = [] := by
  cases hrest : after.ahead with
  | nil => rfl
  | cons token rest =>
      obtain ⟨tokens, hpasses⟩ := (Rule.items_framed (Level.allowing_framed _)).ok hitems
      have hmem : token ∈ bodyTokens a fileId := by
        rw [← (ofSource_state a fileId).1, hpasses.ahead, hrest]
        simp
      have hkind := Rule.items_end (Level.allowing_consuming _) hitems
      rw [State.current_of_ahead hrest] at hkind
      have hgoes := ((bodyTokens_follow a fileId).of_mem hmem).2.2.2.2
      exact absurd (by simpa [Token.isEof] using hkind) hgoes

/-- A source without problems, the last token of which ends an item, and any other source
on the next line: the items are those of the one and then those of the other, and the
diagnostics are those of the other, both further on. -/
theorem analyse_concat (b : String) (hclean : (analyse a fileId).diagnostics.isEmpty = true)
    (hends : ∀ token ∈ (bodyTokens a fileId).getLast?, token.endsItem = true) :
    (analyse (a ++ "\n" ++ b) fileId).module.items =
        (analyse a fileId).module.items ++
          (analyse b fileId).module.items.map (Item.map (Span.shift (a.utf8ByteSize + 1))) ∧
      (analyse (a ++ "\n" ++ b) fileId).diagnostics.toList =
        (analyse b fileId).diagnostics.toList.map (Diagnostic.shift (a.utf8ByteSize + 1)) := by
  obtain ⟨items, after, hitems⟩ := Rule.exists_items (Reading.ofSource a fileId).state
  obtain ⟨others, behind, hothers⟩ := Rule.exists_items (Reading.ofSource b fileId).state
  obtain ⟨hlexical, hquiet⟩ := analyse_quiet hclean hitems
  obtain ⟨hahead, -, -⟩ := ofSource_state a fileId
  have hclosed : ∀ problem ∈ lexicalProblems a fileId, problem.cause ≠ .unterminatedComment := by
    simp [hlexical]
  have hvalid : ∀ token ∈ (Reading.ofSource a fileId).state.ahead, token.kind ≠ .invalid := by
    intro token hmem hinvalid
    rw [hahead] at hmem
    exact not_written_invalid (hinvalid ▸ bodyTokens_written hlexical token hmem)
  have hmoved := Rule.items_moves (Level.allowing_moves Level.limit) (Level.allowing_framed _)
    (f := .shift (a.utf8ByteSize + 1)) (Reading.ofSource b fileId).state
  rw [← Level.outermost, hothers, Rule.moveResult] at hmoved
  have hfresh : ((Reading.ofSource b fileId).state.move (.shift (a.utf8ByteSize + 1))).problems =
      [] := by
    rw [State.move, (ofSource_state b fileId).2.2, List.map_nil]
  obtain ⟨last, hstate⟩ := ofSource_state_concat a b fileId hclosed
  obtain ⟨whole, hwhole, hproblems⟩ := Rule.items_extend (Level.allowing_consuming _)
    (Level.item_closed _) hitems hquiet (items_ahead hitems) (by rwa [State.EndsItem, hahead])
    hvalid hmoved hfresh last
  rw [← hstate] at hwhole
  replace hproblems : whole.problems =
      behind.problems.map (Problem.shift (a.utf8ByteSize + 1)) := hproblems
  obtain ⟨hmodule, hdiagnostics⟩ := analyse_of_items hwhole
  have horder (p q : Problem) : (p.shift (a.utf8ByteSize + 1)).start ≤
      (q.shift (a.utf8ByteSize + 1)).start ↔ p.start ≤ q.start := Nat.add_le_add_iff_right
  rw [hmodule, hdiagnostics, (analyse_of_items hitems).1, (analyse_of_items hothers).1,
    (analyse_of_items hothers).2, lexicalProblems_concat a b fileId hclosed, hlexical,
    List.nil_append, hproblems, ← List.map_append, SourceOrder.sort_map horder, List.map_map,
    List.map_map]
  exact ⟨rfl, rfl⟩

theorem analyse_concat_import :
    (analyse "import \"a\";" 0).diagnostics.isEmpty = true ∧
      (∀ token ∈ (bodyTokens "import \"a\";" 0).getLast?, token.endsItem = true) ∧
      (analyse ("import \"a\";" ++ "\n" ++ "fn") 0).module.items =
        (analyse "import \"a\";" 0).module.items ++
          (analyse "fn" 0).module.items.map
            (Item.map (Span.shift ("import \"a\";".utf8ByteSize + 1))) ∧
      (analyse ("import \"a\";" ++ "\n" ++ "fn") 0).diagnostics.toList =
        (analyse "fn" 0).diagnostics.toList.map
          (Diagnostic.shift ("import \"a\";".utf8ByteSize + 1)) :=
  have hclean : (analyse "import \"a\";" 0).diagnostics.isEmpty = true := by decide +kernel
  have hends : ∀ token ∈ (bodyTokens "import \"a\";" 0).getLast?, token.endsItem = true := by
    decide +kernel
  ⟨hclean, hends, analyse_concat "fn" hclean hends⟩

end SourceFront
