import SourceFront.Proofs.Cursor.Safety
import SourceFront.Proofs.Diagnosis
import SourceFront.Proofs.Fault

/-!
What is reported: no two diagnostics start at one place, and where a statement or an item
is given up there is one.
-/

namespace SourceFront

variable (source : String) (fileId : Nat)

theorem lexicalProblems_noted :
    Noted fileId 0 source.utf8ByteSize (tokens source fileId) (lexicalProblems source fileId) := by
  have hlength := utf8ByteSize_eq source
  obtain ⟨found, hfound, hnoted⟩ := (TokenStream.ofSource source fileId).tokenize_noted
  have hsame : lexicalProblems source fileId = found := hfound.trans (List.nil_append found)
  simp only [TokenStream.ofSource, Nat.zero_add, ← hlength] at hnoted
  rw [hsame]
  exact hnoted

theorem Walk.tokens_ofTokens :
    (Cursor.ofTokens (tokens source fileId)).tokens = tokens source fileId := by
  obtain ⟨hahead, hstop, -⟩ := ofSource_state source fileId
  have hsame : (Cursor.ofTokens (tokens source fileId)).tokens =
      (Reading.ofSource source fileId).state.ahead ++
        [.eof (Reading.ofSource source fileId).state.stop] := rfl
  rw [hsame, hahead, hstop, tokens_eq_append]

variable {source fileId}

theorem span_of_mem_tokens {token : Token} (h : token ∈ tokens source fileId) :
    token.span.start ≤ token.span.stop ∧ token.span.stop ≤ source.utf8ByteSize ∧
      token.span.fileId = fileId := by
  rw [tokens_eq_append] at h
  rcases List.mem_append.mp h with hmem | hmem
  · obtain ⟨-, hlt, hstop, hfile, -⟩ := (bodyTokens_follow source fileId).of_mem hmem
    exact ⟨Nat.le_of_lt hlt, hstop, hfile⟩
  · obtain rfl := List.mem_singleton.mp hmem
    exact ⟨Nat.le_refl _, Nat.le_refl _, rfl⟩

theorem eq_of_start_eq {a b : Token} (ha : a ∈ tokens source fileId)
    (hb : b ∈ tokens source fileId) (h : a.span.start = b.span.start) : a = b := by
  have hnodup : ((tokens source fileId).map (·.span.start)).Nodup :=
    List.pairwise_map.mpr ((tokens_pairwise source fileId).imp Nat.ne_of_lt)
  exact List.inj_on_of_nodup_map hnodup ha hb h

theorem Cause.isLexical_of_code_eq {a b : Cause} (h : a.code = b.code) :
    a.isLexical = b.isLexical := by
  cases a <;> cases b <;> first | rfl | simp [code] at h

section Accounted

variable {c : Cursor} (h : c.Accounted) (htokens : c.tokens = tokens source fileId)
include h htokens

/-- The problems of a walk, accounted for, are in strict order and apart from those of the
tokens. -/
theorem problems_apart (hordered : c.problems.Pairwise fun a b => a.start ≤ b.start) :
    (lexicalProblems source fileId ++ c.problems).Pairwise fun a b => a.start ≠ b.start := by
  have hnoted := lexicalProblems_noted source fileId
  refine List.pairwise_append.mpr
    ⟨hnoted.apart, ?_, fun problem hproblem other hother hsame => ?_⟩
  · have hchain : c.problems.IsChain fun a b => a.start < b.start := by
      refine List.isChain_iff_getElem.mpr fun index hindex => Nat.lt_of_le_of_ne ?_ ?_
      · exact List.pairwise_iff_getElem.mp hordered index (index + 1) (by omega) hindex (by omega)
      · exact List.isChain_iff_getElem.mp h.distinct index hindex
    have : Trans (fun a b : Problem => a.start < b.start) (fun a b : Problem => a.start < b.start)
        (fun a b : Problem => a.start < b.start) := ⟨Nat.lt_trans⟩
    exact hchain.pairwise.imp Nat.ne_of_lt
  · obtain ⟨token, hmem, hvalid, hspan⟩ := h.located other hother
    rw [htokens] at hmem
    refine hvalid ((hnoted.invalid token hmem).mpr ⟨problem, hproblem, ?_⟩)
    rw [hsame, Problem.start, hspan]

theorem problem_within {problem : Problem}
    (hproblem : problem ∈ lexicalProblems source fileId ++ c.problems) :
    problem.span.start ≤ problem.span.stop ∧ problem.span.stop ≤ source.utf8ByteSize ∧
      problem.span.fileId = fileId := by
  rcases List.mem_append.mp hproblem with hproblem | hproblem
  · obtain ⟨-, -, hle, hstop, hfile⟩ :=
      (lexicalProblems_noted source fileId).within problem hproblem
    exact ⟨hle, hstop, hfile⟩
  · obtain ⟨token, htoken, -, hspan⟩ := h.located problem hproblem
    rw [hspan]
    exact span_of_mem_tokens (htokens ▸ htoken)

/-- A problem that is not of a token itself is at one valid token, and just one. -/
theorem problem_located {problem : Problem}
    (hproblem : problem ∈ lexicalProblems source fileId ++ c.problems)
    (hcause : problem.cause.isLexical = false) :
    ∃! token, token ∈ tokens source fileId ∧ token.kind ≠ .invalid ∧
      token.span = problem.span := by
  rcases List.mem_append.mp hproblem with hproblem | hproblem
  · have hlexical := (lexicalProblems_noted source fileId).lexical problem hproblem
    rw [hcause] at hlexical
    cases hlexical
  · obtain ⟨token, htoken, hvalid, hspan⟩ := h.located problem hproblem
    rw [htokens] at htoken
    refine ⟨token, ⟨htoken, hvalid, hspan.symm⟩, ?_⟩
    rintro other ⟨hother, -, hotherSpan⟩
    refine eq_of_start_eq hother htoken (congrArg Span.start ?_)
    rw [hotherSpan, hspan]

theorem exists_problem_of_abandoned {token : Token} (habandoned : token ∈ c.abandoned) :
    ∃ problem ∈ lexicalProblems source fileId ++ c.problems,
      problem.start = token.span.start := by
  obtain ⟨htoken, hinvalid | ⟨problem, hproblem, hstart⟩⟩ := h.answered token habandoned
  · rw [htokens] at htoken
    obtain ⟨problem, hproblem, hstart⟩ :=
      ((lexicalProblems_noted source fileId).invalid token htoken).mp hinvalid
    exact ⟨problem, List.mem_append_left _ hproblem, hstart⟩
  · exact ⟨problem, List.mem_append_right _ hproblem, hstart⟩

end Accounted

/-- Diagnostics of a source start one behind the other and lie in the source. One that is
not of a token itself has the range of just one token, which is valid. Wherever a walk
through the tokens gives up a statement or an item, a diagnostic starts. -/
theorem analyse_diagnostics_apart (source : String) (fileId : Nat) :
    (analyse source fileId).diagnostics.toList.Pairwise (fun a b => a.start < b.start) ∧
    (∀ diagnostic ∈ (analyse source fileId).diagnostics.toList,
      diagnostic.span.start ≤ diagnostic.span.stop ∧
        diagnostic.span.stop ≤ source.utf8ByteSize ∧ diagnostic.span.fileId = fileId) ∧
    (∀ problem : Problem, problem.cause.isLexical = false →
      .ofProblem problem ∈ (analyse source fileId).diagnostics.toList →
      ∃! token, token ∈ tokens source fileId ∧ token.kind ≠ .invalid ∧
        token.span = problem.span) ∧
    ∃ items after,
      Walk.items .outermost (.ofTokens (tokens source fileId)) = .ok items after ∧
      (analyse source fileId).module.items = items ∧
      ∀ token ∈ after.abandoned, ∃ diagnostic ∈ (analyse source fileId).diagnostics.toList,
        diagnostic.start = token.span.start := by
  obtain ⟨items, after, state, hwalk, hrule, hat⟩ := Walk.items_ofTokens (tokens source fileId)
  have htokens : after.tokens = tokens source fileId :=
    hat.tokens_eq.trans (Walk.tokens_ofTokens source fileId)
  obtain ⟨hmodule, hdiagnostics⟩ := @analyse_of_items source fileId _ _ hrule
  have hapart := problems_apart hat.toAccounted htokens
    (hat.problems_eq ▸ @items_problems_pairwise source fileId _ _ hrule)
  rw [← hat.problems_eq] at hdiagnostics
  have hmem (diagnostic : Diagnostic) :
      diagnostic ∈ (analyse source fileId).diagnostics.toList ↔
        ∃ problem ∈ lexicalProblems source fileId ++ after.problems,
          .ofProblem problem = diagnostic := by
    rw [hdiagnostics, List.mem_map]
    simp only [(SourceOrder.sort_perm Problem.start _).mem_iff]
  refine ⟨?_, fun diagnostic hdiagnostic => ?_, fun problem hcause hdiagnostic => ?_,
    items, after, hwalk, hmodule, fun token habandoned => ?_⟩
  · rw [hdiagnostics]
    exact List.pairwise_map.mpr (SourceOrder.sort_pairwise_lt hapart)
  · obtain ⟨problem, hproblem, rfl⟩ := (hmem diagnostic).mp hdiagnostic
    exact problem_within hat.toAccounted htokens hproblem
  · obtain ⟨other, hother, hsame⟩ := (hmem _).mp hdiagnostic
    have hspan : other.span = problem.span := congrArg Diagnostic.span hsame
    have hcode : other.cause.code = problem.cause.code := congrArg Diagnostic.code hsame
    rw [← Cause.isLexical_of_code_eq hcode] at hcause
    rw [← hspan]
    exact problem_located hat.toAccounted htokens hother hcause
  · obtain ⟨problem, hproblem, hstart⟩ :=
      exists_problem_of_abandoned hat.toAccounted htokens habandoned
    exact ⟨_, (hmem _).mpr ⟨problem, hproblem, rfl⟩, hstart⟩

end SourceFront
