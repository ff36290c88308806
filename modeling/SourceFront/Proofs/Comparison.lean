import SourceFront.Proofs.Outline
import SourceFront.Proofs.Relayout
import SourceFront.Proofs.StructuralForm

/-!
Comparing analyses. The texts that are compared tell the trees apart as far as they ask
for, so the answers are about the trees themselves.
-/

namespace SourceFront.Analysis

variable {a b : Analysis}

/-- The trees are the same with their ranges if they differ in no more than the files of the
ranges, and without them if they have one shape. -/
theorem compare_iff :
    ((a.compare b).sameTree = true ↔ a.module.map Span.place = b.module.map Span.place) ∧
      ((a.compare b).sameShape = true ↔ a.module.shape = b.module.shape) ∧
      ((a.compare b).sameDiagnostics = true ↔ a.diagnostics = b.diagnostics) := by
  refine ⟨?_, ?_, decide_eq_true_iff⟩
  · exact decide_eq_true_iff.trans Module.spannedJson_inj
  · exact decide_eq_true_iff.trans Module.bareJson_inj

theorem sameShape_of_sameTree (h : (a.compare b).sameTree = true) :
    (a.compare b).sameShape = true := by
  have hbare (module : Module Span) : (module.map Span.place).bareJson = module.bareJson :=
    Module.toJson_map _ _ module
  refine decide_eq_true ?_
  rw [← hbare, compare_iff.1.mp h, hbare]

theorem outline_of_sameTree (h : (a.compare b).sameTree = true) :
    a.module.outline.map Span.place = b.module.outline.map Span.place := by
  rw [← Module.outline_map, ← Module.outline_map, compare_iff.1.mp h]

theorem roles_of_sameShape (h : (a.compare b).sameShape = true) :
    List.map Prod.fst a.module.outline = List.map Prod.fst b.module.outline := by
  have hroles (module : Module Span) :
      List.map Prod.fst module.shape.outline = List.map Prod.fst module.outline := by
    rw [Module.shape, Module.outline_map, Outline.map, List.map_map]
    rfl
  rw [← hroles, compare_iff.2.1.mp h, hroles]

/-- Sources with the same sound tokens have trees of one shape. -/
theorem sameShape_of_forms {source source' : String} {fileId fileId' : Nat}
    (h : lexicalProblems source fileId = []) (h' : lexicalProblems source' fileId' = [])
    (hforms : (bodyTokens source' fileId').map Token.form =
      (bodyTokens source fileId).map Token.form) :
    ((analyse source' fileId').compare (analyse source fileId)).sameShape = true :=
  decide_eq_true (analyse_of_forms h h' hforms).1

end SourceFront.Analysis
