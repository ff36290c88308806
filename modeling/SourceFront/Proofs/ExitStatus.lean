import SourceFront.Command.Run
import SourceFront.Proofs.CommandLine
import SourceFront.Proofs.Derivation.Source
import SourceFront.Proofs.Diagnosis

/-!
The exit status: the diagnostics of the file decide it, whatever the options are.
-/

namespace SourceFront

namespace Diagnostics

theorem errorCount_eq_size (diagnostics : Diagnostics) :
    diagnostics.errorCount = diagnostics.size := by
  refine congrArg List.length (List.filter_eq_self.mpr fun diagnostic _ => ?_)
  cases diagnostic.severity
  rfl

theorem hasErrors_eq_false {diagnostics : Diagnostics} :
    diagnostics.hasErrors = false ↔ diagnostics.toList = [] := by
  rw [hasErrors, errorCount_eq_size, size, decide_eq_false_iff_not, Nat.not_lt, Nat.le_zero,
    List.length_eq_zero_iff]

theorem ofProblems_eq_nil {problems : List Problem} :
    (ofProblems problems).toList = [] ↔ problems = [] :=
  List.isEmpty_iff.symm.trans isEmpty_ofProblems

end Diagnostics

theorem lexicalProblems_eq_nil {source : String} {fileId : Nat}
    (h : (analyse source fileId).diagnostics.toList = []) : lexicalProblems source fileId = [] := by
  have hlexical := @readModule_lexical (.ofSource source fileId) _ _ rfl
  rw [analyse_eq rfl, Diagnostics.ofProblems_eq_nil, Reading.problems_eq_nil] at h
  exact hlexical.symm.trans h.1

namespace Command

theorem exitStatus_eq (diagnostics : Diagnostics) :
    exitStatus diagnostics = if diagnostics.toList = [] then 0 else 1 := by
  by_cases hnil : diagnostics.toList = []
  · rw [exitStatus, Diagnostics.hasErrors_eq_false.mpr hnil, if_pos hnil]
    rfl
  · have herrors := mt Diagnostics.hasErrors_eq_false.mp hnil
    rw [exitStatus, if_pos (eq_true_of_ne_false herrors), if_neg hnil]

variable {readArgs : List String → Except Output Invocation} {args : List String}
  {read : String → Except ReadFailure String} {file source : String}

theorem run_eq {invocation : Invocation} {request : Request}
    (h : invocation.request? = some request) :
    run invocation read =
      match request with
      | .check file => onFile read file (check invocation file)
      | .parse file noSpans => onFile read file (parse invocation (!noSpans) file)
      | .tokens file => onFile read file (listTokens invocation file)
      | .version => ⟨0, lines [version, "Iblang front end"], ""⟩ := by
  obtain ⟨command, outer, format, cap⟩ := invocation
  cases command with
  | some command =>
      obtain rfl := Option.some.inj h
      cases command <;> rfl
  | none =>
      obtain ⟨file, rfl, rfl⟩ := Option.map_eq_some_iff.mp h
      rfl

theorem Asks.answer_eq {request : Request} (h : Asks readArgs args request) :
    ∃ invocation : Invocation, invocation.request? = some request ∧
      answerBy readArgs args read = run invocation read := by
  obtain ⟨invocation, hargs, hrequest⟩ := h
  exact ⟨invocation, hrequest, by rw [answerBy, hargs]⟩

section Readable

variable (hread : read file = .ok source)
include hread

theorem Asks.check_exit (h : Asks readArgs args (.check file)) :
    (answerBy readArgs args read).exit = exitStatus (analyse source 0).diagnostics := by
  obtain ⟨invocation, hrequest, hanswer⟩ := @h.answer_eq _ _ read _
  simp only [hanswer, run_eq hrequest, onFile, hread, check]

theorem Asks.parse_exit {noSpans : Bool} (h : Asks readArgs args (.parse file noSpans)) :
    (answerBy readArgs args read).exit = exitStatus (analyse source 0).diagnostics := by
  obtain ⟨invocation, hrequest, hanswer⟩ := @h.answer_eq _ _ read _
  simp only [hanswer, run_eq hrequest, onFile, hread, parse]

theorem Asks.parse_stdout {noSpans : Bool} (h : Asks readArgs args (.parse file noSpans)) :
    (answerBy readArgs args read).stdout =
      lines [(if !noSpans then (analyse source 0).module.spannedJson
        else (analyse source 0).module.bareJson).render] := by
  obtain ⟨invocation, hrequest, hanswer⟩ := @h.answer_eq _ _ read _
  simp only [hanswer, run_eq hrequest, onFile, hread, parse]

theorem Asks.tokens_exit (h : Asks readArgs args (.tokens file)) :
    (answerBy readArgs args read).exit = exitStatus (.ofProblems (lexicalProblems source 0)) := by
  obtain ⟨invocation, hrequest, hanswer⟩ := @h.answer_eq _ _ read _
  simp only [hanswer, run_eq hrequest, onFile, hread, listTokens]

end Readable

/-- For a file that can be read, and however arguments are read: if they ask to check the file or
to write its tree, with whatever options, the exit status is zero if there are no diagnostics and
else one, and the tree that is written is the same for the same text, with ranges or without. If
they ask for a listing of tokens, it is one if and only if there are problems of tokens, and then
it is one for a check as well. Where a reader of arguments reads command lines as they are meant,
every line that is spelled well has this status. -/
theorem answer_exit (readArgs : List String → Except Output Invocation)
    (read : String → Except ReadFailure String) {file source : String}
    (hread : read file = .ok source) :
    (∀ args, (Asks readArgs args (.check file) ∨
        ∃ noSpans, Asks readArgs args (.parse file noSpans)) →
      (answerBy readArgs args read).exit =
        if (analyse source 0).diagnostics.toList = [] then 0 else 1) ∧
    (∀ args noSpans, Asks readArgs args (.parse file noSpans) →
      ∀ (read' : String → Except ReadFailure String) (file' : String) (args' : List String),
        read' file' = .ok source → Asks readArgs args' (.parse file' noSpans) →
          (answerBy readArgs args' read').stdout = (answerBy readArgs args read).stdout) ∧
    (∀ args, Asks readArgs args (.tokens file) →
      ((answerBy readArgs args read).exit = if lexicalProblems source 0 = [] then 0 else 1) ∧
      ((answerBy readArgs args read).exit = 1 →
        ∀ args', Asks readArgs args' (.check file) → (answerBy readArgs args' read).exit = 1)) ∧
    (Understands readArgs → ∀ line : Line, line.WellFormed → line.file = file →
      (answerBy readArgs line.args read).exit =
        if line.verb = some .tokens then if lexicalProblems source 0 = [] then 0 else 1
        else if (analyse source 0).diagnostics.toList = [] then 0 else 1) := by
  have hparsed (args : List String) (hasks : Asks readArgs args (.check file) ∨
      ∃ noSpans, Asks readArgs args (.parse file noSpans)) :
      (answerBy readArgs args read).exit =
        if (analyse source 0).diagnostics.toList = [] then 0 else 1 := by
    rw [← exitStatus_eq]
    rcases hasks with hasks | ⟨noSpans, hasks⟩
    · exact hasks.check_exit hread
    · exact hasks.parse_exit hread
  have hlisted (args : List String) (hasks : Asks readArgs args (.tokens file)) :
      (answerBy readArgs args read).exit = if lexicalProblems source 0 = [] then 0 else 1 := by
    rw [hasks.tokens_exit hread, exitStatus_eq]
    simp only [Diagnostics.ofProblems_eq_nil]
  refine ⟨hparsed, fun args noSpans hasks read' file' args' hread' hasks' => ?_,
    fun args hasks => ⟨hlisted args hasks, fun hexit args' hasks' => ?_⟩,
    fun hargs line hline hfile => ?_⟩
  · rw [hasks'.parse_stdout hread', hasks.parse_stdout hread]
  · rw [hlisted args hasks] at hexit
    rw [hparsed args' (.inl hasks'), if_neg]
    intro hnil
    rw [if_pos (lexicalProblems_eq_nil hnil)] at hexit
    cases hexit
  · have hasks := hargs.asks line hline
    rw [Line.request, hfile] at hasks
    cases hverb : line.verb with
    | none =>
        rw [hverb] at hasks
        exact hparsed _ (.inl hasks)
    | some verb =>
        rw [hverb] at hasks
        cases verb with
        | check => exact hparsed _ (.inl hasks)
        | parse => exact hparsed _ (.inr ⟨_, hasks⟩)
        | tokens => exact hlisted _ hasks
        | version => exact absurd hverb hline.verb

/-- A text that is malformed: its tree with no diagnostic shown, its check, and its tokens. -/
theorem answer_exit_cap_zero :
    let read := fun _ : String => (.ok "'" : Except ReadFailure String)
    let answer := fun args => answerBy Invocation.ofArgs args read
    let bare := answer ["--format", "json", "parse", "a.ib", "--no-spans", "--max-errors=0"]
    bare.exit = 1 ∧ (answer ["a.ib"]).exit = 1 ∧
      (answer ["parse", "--no-spans", "a.ib"]).stdout = bare.stdout ∧
      (answer ["tokens", "a.ib"]).exit = 1 := by
  intro read answer bare
  obtain ⟨hexit, htree, htokens, hlines⟩ := @answer_exit Invocation.ofArgs read "a.ib" "'" rfl
  let line : Line := ⟨some .parse, "a.ib", [.format .json false], [], [.noSpans, .cap 0 true]⟩
  have hline : line.WellFormed :=
    ⟨by decide, by decide, by decide, by decide, by simp [line, Setting.Small], by decide,
      by decide, by decide, by decide⟩
  have hplain : Asks Invocation.ofArgs ["parse", "--no-spans", "a.ib"] (.parse "a.ib" true) :=
    ⟨⟨some (.parse "a.ib" true), none, .human, none⟩, by decide, rfl⟩
  have hcheck : Asks Invocation.ofArgs ["a.ib"] (.check "a.ib") :=
    ⟨⟨none, some "a.ib", .human, none⟩, by decide, rfl⟩
  have hlist : Asks Invocation.ofArgs ["tokens", "a.ib"] (.tokens "a.ib") :=
    ⟨⟨some (.tokens "a.ib"), none, .human, none⟩, by decide, rfl⟩
  have hproblem : lexicalProblems "'" 0 ≠ [] := by decide +kernel
  have hlisted : (answer ["tokens", "a.ib"]).exit = 1 := by
    rw [(htokens _ hlist).1, if_neg hproblem]
  have hchecked := (htokens _ hlist).2 hlisted _ hcheck
  refine ⟨?_, hchecked, htree _ _ (understands_ofArgs.asks line hline) read _ _ rfl hplain, hlisted⟩
  have hbare := hlines understands_ofArgs line hline rfl
  rw [if_neg (by decide), ← hexit _ (.inl hcheck)] at hbare
  exact hbare.trans hchecked

end Command

end SourceFront
