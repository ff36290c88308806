import SourceFront.Analysis
import SourceFront.Proofs.Diagnosis
import SourceFront.Proofs.Print
import SourceFront.Proofs.Recognition.Item
import SourceFront.Tree.Map

/-!
Completeness: a module that is printed is read again. If it is nested no deeper than is
allowed, nothing is wrong with what is printed, and the module that is read has the same
shape; otherwise the first thing that is wrong is its nesting.
-/

namespace SourceFront

variable {α : Type}

theorem State.spells_of_forms {terminals : List Terminal} {s : State}
    (hforms : s.ahead.map Token.form = terminals.map fun a => (a.kind, a.text))
    (hproblems : s.problems = []) : ∃ t, s.Spells terminals t ∧ t.ahead = [] := by
  induction terminals generalizing s with
  | nil =>
      have hahead : s.ahead = [] := by simpa using hforms
      exact ⟨s, ⟨rfl, hproblems, by simp [hahead]⟩, hahead⟩
  | cons a terminals ih =>
      cases hahead : s.ahead with
      | nil => simp [hahead] at hforms
      | cons token rest =>
          rw [hahead, List.map_cons, List.map_cons] at hforms
          obtain ⟨hform, hrest⟩ := List.cons.inj hforms
          have hadvance : s.advance.ahead = rest := by simp [advance, hahead]
          obtain ⟨t, hspells, hend⟩ := ih (s := s.advance) (hadvance ▸ hrest) hproblems
          refine ⟨t, ⟨?_, hspells⟩, hend⟩
          rw [current_of_ahead hahead]
          exact Terminal.terminal?_of_form hform

/-- Where no token is malformed, the diagnostics are the problems of the items. -/
theorem analyse_of_written {source : String} {fileId : Nat}
    (hlexical : lexicalProblems source fileId = []) {items : List (Item Span)} {after : State}
    (hitems : Rule.items .outermost (Reading.ofSource source fileId).state = .ok items after) :
    (analyse source fileId).module.items = items ∧
      (analyse source fileId).diagnostics.toList = after.problems.map Diagnostic.ofProblem := by
  obtain ⟨hmodule, hdiagnostics⟩ := analyse_of_items hitems
  rw [hlexical, List.nil_append,
    SourceOrder.sort_of_pairwise (items_problems_pairwise hitems)] at hdiagnostics
  exact ⟨hmodule, hdiagnostics⟩

/-- A module that is printed is read again as a module of its shape, without problems, if
it is nested no deeper than is allowed. If it is nested deeper, that is the first of the
problems. -/
theorem analyse_print {module : Module α} (h : module.WellFormed) (fileId : Nat) :
    (module.nesting ≤ 64 →
      (analyse module.print fileId).diagnostics.toList = [] ∧
        (analyse module.print fileId).module.bareJson = module.bareJson) ∧
    (64 < module.nesting →
      ∃ first rest, (analyse module.print fileId).diagnostics.toList = first :: rest ∧
        first.code = "E0104") := by
  obtain ⟨hforms, hlexical⟩ := h.tokens_print fileId
  obtain ⟨hahead, -, hproblems⟩ := ofSource_state module.print fileId
  rw [← hahead] at hforms
  obtain ⟨t, hspells, hend⟩ := State.spells_of_forms hforms hproblems
  have hgives := Rule.items_gives (Level.allowing_recognises Level.limit)
    (Level.allowing_framed _) h.holds hspells (by rw [State.current, hend]; rfl)
  constructor
  · intro hfits
    obtain ⟨items, hitems, hshape⟩ := hgives.ok hfits
    obtain ⟨hmodule, hdiagnostics⟩ := analyse_of_written hlexical hitems
    refine ⟨?_, ?_⟩
    · rw [hdiagnostics, hspells.clean_end.1]
      rfl
    · rw [← Module.bareJson_shape, ← Module.bareJson_shape module]
      simp only [Module.shape, Module.map, hmodule]
      exact congrArg (fun shapes => Module.bareJson ⟨shapes, ()⟩) hshape
  · intro hdeep
    have hrefused := hgives.refused (Nat.not_le.mpr hdeep)
    cases hitems : Rule.items .outermost (Reading.ofSource module.print fileId).state with
    | error problem after => exact absurd hitems (Rule.items_ne_error _ _ _ _)
    | ok items after =>
        rw [Level.outermost] at hitems
        rw [hitems] at hrefused
        obtain ⟨-, problem, later, hfound, hcause⟩ := hrefused
        refine ⟨.ofProblem problem, later.map .ofProblem, ?_, ?_⟩
        · rw [(analyse_of_written hlexical hitems).2, hfound, List.map_cons]
        · rw [Diagnostic.ofProblem, hcause]
          rfl

/-- The module `let x = -(…(1)…)[2];` with as many groups in one another as `depth`. -/
def Module.ofGroups (depth : Nat) : Module Unit :=
  let one : Expr Unit := .constant (.number "1") ()
  let groups := Nat.rec one (fun _ inner => Expr.group inner ()) depth
  let value := .unary .neg (.binary .index groups (.constant (.number "2") ()) ()) ()
  ⟨[.declaration ⟨false, .variable_ ⟨⟨"x", ()⟩, none, value, ()⟩, ()⟩], ()⟩

theorem analyse_print_ofGroups :
    ((Module.ofGroups 3).WellFormed ∧ (Module.ofGroups 3).nesting ≤ 64 ∧
      (analyse (Module.ofGroups 3).print 0).diagnostics.toList = [] ∧
      (analyse (Module.ofGroups 3).print 0).module.bareJson = (Module.ofGroups 3).bareJson) ∧
    ((Module.ofGroups 63).WellFormed ∧ 64 < (Module.ofGroups 63).nesting ∧
      ∃ first rest, (analyse (Module.ofGroups 63).print 0).diagnostics.toList = first :: rest ∧
        first.code = "E0104") :=
  have hflat : (Module.ofGroups 3).WellFormed := ⟨by decide +kernel, by decide +kernel⟩
  have hdeep : (Module.ofGroups 63).WellFormed := ⟨by decide +kernel, by decide +kernel⟩
  have hfits : (Module.ofGroups 3).nesting ≤ 64 := by decide +kernel
  have hnot : 64 < (Module.ofGroups 63).nesting := by decide +kernel
  ⟨⟨hflat, hfits, (analyse_print hflat 0).1 hfits⟩, hdeep, hnot, (analyse_print hdeep 0).2 hnot⟩

end SourceFront
