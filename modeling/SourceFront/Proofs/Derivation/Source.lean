import SourceFront.Analysis
import SourceFront.Proofs.Derivation.Item
import SourceFront.Proofs.Stream

/-!
What the module of a source is read from: all tokens of the source.
-/

namespace SourceFront

variable {noisy : Prop} {source : String} {fileId : Nat}

theorem analyse_eq {module : Module Span} {after : Reading}
    (h : (Reading.ofSource source fileId).readModule = (module, after)) :
    analyse source fileId = ⟨module, .ofProblems after.problems⟩ := by
  rw [analyse, h]

theorem readModule_lexical {reading after : Reading} {module : Module Span}
    (h : reading.readModule = (module, after)) : after.lexical = reading.lexical := by
  rw [Reading.readModule] at h
  cases h
  rfl

theorem readModule_note {reading after : Reading} {module : Module Span}
    (h : reading.readModule = (module, after)) :
    module.note =
      ⟨0, after.state.current.span.stop, after.state.current.span.fileId⟩ := by
  rw [Reading.readModule] at h
  cases h
  rfl

/-- No token of a source is left when its module has been read. -/
theorem ofSource_readModule {module : Module Span} {after : Reading}
    (h : (Reading.ofSource source fileId).readModule = (module, after))
    (hnoisy : after.state.problems ≠ [] → noisy) :
    module.phrase.Derives noisy (bodyTokens source fileId) ∧
      module.note = ⟨0, source.utf8ByteSize, fileId⟩ := by
  obtain ⟨hahead, hstop, -⟩ := ofSource_state source fileId
  obtain ⟨⟨tokens, hpasses, hderives⟩, hend⟩ := Reading.readModule_derives h hnoisy
  have hbody := bodyTokens_follow source fileId
  rw [← hahead, hpasses.ahead] at hbody
  have hrest : after.state.ahead = [] := by
    by_contra hne
    obtain ⟨token, rest, hcons⟩ := List.exists_cons_of_ne_nil hne
    have hkind := (hbody.of_mem (List.mem_append_right tokens (hcons ▸ List.mem_cons_self))).2.2.2.2
    rw [State.current_of_ahead hcons] at hend
    exact hkind (by simpa [Token.isEof] using hend)
  have hcurrent : after.state.current.span =
      ⟨source.utf8ByteSize, source.utf8ByteSize, fileId⟩ := by
    rw [State.current, hrest, hpasses.stop, hstop]
    rfl
  refine ⟨?_, ?_⟩
  · rw [← hahead, hpasses.ahead, hrest, List.append_nil]
    exact hderives
  · rw [readModule_note h, hcurrent]

end SourceFront
