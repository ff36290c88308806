import SourceFront.Diagnostic
import SourceFront.Proofs.LineColumn

/-!
The two forms of diagnostics, text and reports, each written by itself: they show the same
diagnostics, and with a larger cap they go on where they ended. Numbers that do not fit spoil
neither form unless they spoil the reports.
-/

namespace SourceFront

section Checked

variable {α β : Type} {f : α → Option β} {as : List α}

theorem map_of_mapM {g : α → β} (hf : ∀ a b, f a = some b → b = g a) {bs : List β}
    (h : as.mapM f = some bs) : bs = as.map g := by
  induction as generalizing bs with
  | nil =>
      rw [List.mapM_nil] at h
      exact (Option.some.inj h).symm
  | cons a as ih =>
      rw [List.mapM_cons] at h
      obtain ⟨b, hb, h⟩ := Option.bind_eq_some_iff.mp h
      obtain ⟨bs, hbs, h⟩ := Option.bind_eq_some_iff.mp h
      obtain rfl := Option.some.inj h
      rw [hf a b hb, ih hbs, List.map_cons]

theorem isSome_mapM_iff : (as.mapM f).isSome ↔ ∀ a ∈ as, (f a).isSome := by
  induction as with
  | nil => simp
  | cons a as ih =>
      rw [List.mapM_cons, List.forall_mem_cons, ← ih]
      cases f a <;> cases as.mapM f <;> simp

end Checked

namespace Diagnostic

variable {file source : String} {diagnostic : Diagnostic}

theorem render_of_render? {text : String}
    (h : diagnostic.render? file (.ofSource source) = some text) :
    text = diagnostic.render file (.ofSource source) := by
  obtain ⟨place, hplace, rfl⟩ := Option.map_eq_some_iff.mp h
  rw [render, LineIndex.position?_eq_some hplace]

theorem report_of_report? {report : Report}
    (h : diagnostic.report? file (.ofSource source) = some report) :
    report = diagnostic.report file (.ofSource source) := by
  obtain ⟨start, hstart, h⟩ := Option.bind_eq_some_iff.mp h
  obtain ⟨stop, hstop, h⟩ := Option.bind_eq_some_iff.mp h
  rw [Diagnostic.report, ← LineIndex.position?_eq_some hstart, ← LineIndex.position?_eq_some hstop]
  exact (Option.some.inj h).symm

theorem isSome_render? (h : (diagnostic.report? file (.ofSource source)).isSome) :
    (diagnostic.render? file (.ofSource source)).isSome := by
  obtain ⟨report, h⟩ := Option.isSome_iff_exists.mp h
  obtain ⟨start, hstart, -⟩ := Option.bind_eq_some_iff.mp h
  rw [render?, hstart]
  rfl

theorem isSome_report? (hstart : diagnostic.span.start < UInt32.size - 1)
    (hstop : diagnostic.span.stop < UInt32.size - 1) :
    (diagnostic.report? file (.ofSource source)).isSome := by
  obtain ⟨-, -, -, hstart, -⟩ := @LineIndex.position_eq source _ hstart
  obtain ⟨-, -, -, hstop, -⟩ := @LineIndex.position_eq source _ hstop
  rw [report?, hstart, hstop]
  rfl

end Diagnostic

namespace Diagnostics

section

variable (diagnostics : Diagnostics) (file source : String) (cap : Option Nat)

theorem shown_eq : diagnostics.shown cap = (diagnostics.upTo cap).length := by
  cases cap with
  | none => exact Nat.min_self _
  | some count => exact (List.length_take ..).symm

/-- What the text shows and what is reported are the same diagnostics. -/
theorem take_shown : diagnostics.toList.take (diagnostics.shown cap) = diagnostics.upTo cap := by
  rw [shown_eq]
  cases cap with
  | none => exact List.take_length
  | some count => exact (List.prefix_iff_eq_take.mp (List.take_prefix ..)).symm

theorem reports_length : (diagnostics.reports file source cap).length = diagnostics.shown cap := by
  rw [reports, List.length_map, shown_eq]

theorem upTo_begin {cap' : Option Nat} (h : diagnostics.shown cap ≤ diagnostics.shown cap') :
    diagnostics.upTo cap <+: diagnostics.upTo cap' := by
  rw [← take_shown, ← take_shown]
  exact List.take_prefix_take_left h

/-- The entry of a report, with all that is in both. -/
theorem entry_of_report {place : Nat} {report : Report}
    (h : (diagnostics.reports file source cap)[place]? = some report) :
    (diagnostics.entries file source cap)[place]? = some
      (file ++ ":" ++ toString report.location.start.line ++ ":" ++
        toString report.location.start.column ++ ": " ++ report.severity.name ++ "[" ++
        report.code ++ "]: " ++ report.message ++
        report.help.elim "" ("\n  = help: " ++ ·)) := by
  rw [reports, List.getElem?_map] at h
  obtain ⟨diagnostic, hdiagnostic, rfl⟩ := Option.map_eq_some_iff.mp h
  rw [entries, take_shown, List.getElem?_map, hdiagnostic, Option.map_some]
  cases hhelp : diagnostic.help <;>
    simp [Diagnostic.render, Diagnostic.renderAt, Diagnostic.report, Diagnostic.reportAt, hhelp,
      String.append_assoc]

theorem entries_of_entries? {entries : List String}
    (h : diagnostics.entries? file source cap = some entries) :
    entries = diagnostics.entries file source cap :=
  map_of_mapM (fun _ _ => Diagnostic.render_of_render?) h

theorem human_of_human? {text : String} (h : diagnostics.human? file source cap = some text) :
    text = diagnostics.human file source cap := by
  obtain ⟨entries, hentries, rfl⟩ := Option.map_eq_some_iff.mp h
  rw [human, diagnostics.entries_of_entries? file source cap hentries]

theorem isSome_human? (h : (diagnostics.reports? file source cap).isSome) :
    (diagnostics.human? file source cap).isSome := by
  rw [human?, Option.isSome_map, entries?, take_shown, isSome_mapM_iff]
  exact fun diagnostic hmem => Diagnostic.isSome_render? (isSome_mapM_iff.mp h diagnostic hmem)

end

/-- For every cap, the reports are those of the first diagnostics, as many as the cap lets pass,
and the text is made up of the entries of the same diagnostics in the same order, each with what
its report has, and of a last line if and only if some are left out, with their number. With a
larger cap, reports and entries go on where they ended. Where numbers must not wrap around, both
forms are the same if there are any, the text is there if the reports are, and the reports are
there if the offsets they speak of can be counted from one. -/
theorem renderings_agree (diagnostics : Diagnostics) (file source : String) (cap : Option Nat) :
    let count := min (cap.getD diagnostics.size) diagnostics.size
    let first := diagnostics.toList.take count
    let reports := diagnostics.reports file source cap
    let entries := diagnostics.entries file source cap
    (reports.length = count ∧
      reports = first.map (·.report file (.ofSource source)) ∧
      entries = first.map (·.render file (.ofSource source)) ∧
      diagnostics.human file source cap =
        "\n".intercalate (entries ++
          if count < diagnostics.size then
            ["... and " ++ toString (diagnostics.size - count) ++ " more diagnostic(s)"]
          else []) ∧
      diagnostics.toJson file source cap = .array (reports.map Report.toJson) ∧
      (∀ (place : Nat) (report : Report), reports[place]? = some report →
        entries[place]? = some
          (file ++ ":" ++ toString report.location.start.line ++ ":" ++
            toString report.location.start.column ++ ": " ++ report.severity.name ++ "[" ++
            report.code ++ "]: " ++ report.message ++
            report.help.elim "" ("\n  = help: " ++ ·))) ∧
      ∀ cap', count ≤ min (cap'.getD diagnostics.size) diagnostics.size →
        reports <+: diagnostics.reports file source cap' ∧
          entries <+: diagnostics.entries file source cap') ∧
    (∀ reports', diagnostics.reports? file source cap = some reports' → reports' = reports) ∧
    (∀ text, diagnostics.human? file source cap = some text →
      text = diagnostics.human file source cap) ∧
    ((diagnostics.reports? file source cap).isSome →
      (diagnostics.human? file source cap).isSome) ∧
    ((∀ diagnostic ∈ first, diagnostic.span.start < 4294967295 ∧
        diagnostic.span.stop < 4294967295) →
      (diagnostics.reports? file source cap).isSome) := by
  intro count first reports entries
  have hfirst : diagnostics.upTo cap = first := (diagnostics.take_shown cap).symm
  refine ⟨⟨diagnostics.reports_length file source cap, ?_, rfl, rfl, rfl,
    fun place report => diagnostics.entry_of_report file source cap, fun cap' hle => ?_⟩,
    fun reports' => map_of_mapM fun _ _ => Diagnostic.report_of_report?,
    fun text => diagnostics.human_of_human? file source cap,
    diagnostics.isSome_human? file source cap, fun hsmall => ?_⟩
  · rw [← hfirst]
    rfl
  · have hbegin := diagnostics.upTo_begin cap hle
    refine ⟨hbegin.map _, ?_⟩
    rw [← take_shown, ← take_shown] at hbegin
    exact hbegin.map _
  · rw [reports?, hfirst, isSome_mapM_iff]
    intro diagnostic hmem
    obtain ⟨hstart, hstop⟩ := hsmall diagnostic hmem
    exact Diagnostic.isSome_report? hstart hstop

/-- Of two diagnostics one is shown, or both; the second cannot be placed. -/
theorem renderings_agree_one :
    let diagnostics : Diagnostics :=
      ⟨[⟨"E1", .error, "m", ⟨2, 3, 0⟩, some "h"⟩,
        ⟨"E2", .error, "n", ⟨4294967295, 4294967295, 0⟩, none⟩]⟩
    diagnostics.human "a" "b\nc" (some 1) =
        "a:2:1: error[E1]: m\n  = help: h\n... and 1 more diagnostic(s)" ∧
      diagnostics.human? "a" "b\nc" (some 1) =
        some (diagnostics.human "a" "b\nc" (some 1)) ∧
      diagnostics.reports "a" "b\nc" (some 1) <+: diagnostics.reports "a" "b\nc" none ∧
      (diagnostics.entries "a" "b\nc" none)[1]? = some "a:2:4294967294: error[E2]: n" := by
  intro diagnostics
  obtain ⟨⟨-, -, -, hhuman, -, -, hfront⟩, -, htext, hsome, hsmall⟩ :=
    diagnostics.renderings_agree "a" "b\nc" (some 1)
  obtain ⟨⟨-, -, -, -, -, hentry, -⟩, -⟩ := diagnostics.renderings_agree "a" "b\nc" none
  obtain ⟨text, htext?⟩ := Option.isSome_iff_exists.mp (hsome (hsmall (by decide)))
  exact ⟨hhuman.trans (by decide +kernel), htext text htext? ▸ htext?, (hfront none (by decide)).1,
    (hentry 1 _ rfl).trans (by decide +kernel)⟩

end Diagnostics

end SourceFront
