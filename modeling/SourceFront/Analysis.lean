import SourceFront.Diagnostic
import SourceFront.Grammar.Reading
import SourceFront.Tree.Json

/-!
What there is to know of one source text: the module it makes up and its
diagnostics.
-/

namespace SourceFront

/-- What is known of a source: its module and what is wrong with it. -/
structure Analysis where
  module : Module Span
  diagnostics : Diagnostics

/-- Every text has a module; what is wrong with it is in the diagnostics. -/
def analyse (source : String) (fileId : Nat) : Analysis :=
  let (module, reading) := (Reading.ofSource source fileId).readModule
  ⟨module, .ofProblems reading.problems⟩

/-- How the analyses of two sources agree. -/
structure Comparison where
  /-- The trees are the same, with their ranges. -/
  sameTree : Bool
  /-- The trees are the same but for their ranges. -/
  sameShape : Bool
  sameDiagnostics : Bool

/-- Compares sources of one file; its number is no part of the comparison. -/
def Analysis.compare (a b : Analysis) : Comparison where
  sameTree := a.module.spannedJson = b.module.spannedJson
  sameShape := a.module.bareJson = b.module.bareJson
  sameDiagnostics := a.diagnostics = b.diagnostics

end SourceFront
