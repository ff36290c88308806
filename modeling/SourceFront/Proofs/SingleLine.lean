import SourceFront.Command.Run
import SourceFront.Proofs.Complaint
import SourceFront.Proofs.LineFeed
import SourceFront.Proofs.LineIndex
import SourceFront.Proofs.Munch
import SourceFront.Proofs.Recording

/-!
One token, one line. A token ends on the line that it begins on, and a message quotes no more
than tokens. So a listing of the tokens has one line for each of them, a message is one line,
and what is reported begins and ends on the same line.
-/

namespace SourceFront

open Text

/-- The text has no line feed in it. -/
def Text.IsLine (text : String) : Prop :=
  '\n' ∉ text.toList

instance (text : String) : Decidable (IsLine text) :=
  inferInstanceAs (Decidable ('\n' ∉ text.toList))

theorem Text.isLine_append {text more : String} :
    IsLine (text ++ more) ↔ IsLine text ∧ IsLine more := by
  simp [IsLine, String.toList_append, not_or]

theorem Text.IsLine.between {before text behind : String} (hbefore : IsLine before)
    (htext : IsLine text) (hbehind : IsLine behind) : IsLine (before ++ text ++ behind) :=
  isLine_append.mpr ⟨isLine_append.mpr ⟨hbefore, htext⟩, hbehind⟩

theorem Text.isLine_char {c : Char} (h : '\n' ≠ c) : IsLine c.toString := by
  simpa [IsLine] using h

theorem Text.isLine_toString (n : Nat) : IsLine (toString n) := by
  intro hmem
  have hdigits : (toString n).toList = Nat.toDigits 10 n := Nat.toList_repr
  rw [hdigits] at hmem
  have hdigit := Nat.isDigit_of_mem_toDigits (by decide) (by decide) hmem
  cases hdigit

theorem Lexeme.read_text_line {c : Char} {cs : List Char} (hc : c ≠ '\n') :
    '\n' ∉ (read c cs).text := by
  have hread (line : List Char) (hline : '\n' ∉ line) : '\n' ∉ (read c line).text := by
    intro hmem
    have hmem' : '\n' ∈ c :: line := by
      rw [← read_text_append_rest c line]
      exact List.mem_append_left _ hmem
    rcases List.mem_cons.mp hmem' with hfeed | hmem'
    · exact hc hfeed.symm
    · exact hline hmem'
  -- What is read up to a line feed is read in the same way if the line is the whole text.
  by_cases hfeed : '\n' ∈ cs
  · obtain ⟨line, more, rfl, hline⟩ := List.eq_append_cons_of_mem hfeed
    rw [read_feed]
    exact hread line hline
  · exact hread cs hfeed

theorem Lexeme.text_of_ident {c : Char} {cs : List Char} {name : String}
    (h : (read c cs).kind = .ident name) : name = String.ofList (read c cs).text := by
  have hmunches : (read c cs).Munches (c :: cs) := read_munches
  have hkind := (hmunches.word (hmunches.wordStart (by rw [h]; rfl))).2
  split at hkind
  · obtain ⟨k, hkind, -⟩ := hkind
    rw [h] at hkind
    cases hkind
  · rw [h] at hkind
    exact TokenKind.ident.inj hkind

theorem PlacedLexeme.ReadIn.text_line {cs : List Char} {placed : PlacedLexeme}
    (h : placed.ReadIn cs) : '\n' ∉ placed.lexeme.text := by
  obtain ⟨before, c, behind, -, rfl, habsent⟩ := h
  refine Lexeme.read_text_line ?_
  rintro rfl
  cases habsent.1

theorem Token.describe_line {token : Token} (htext : IsLine token.text)
    (hname : ∀ name, token.kind = .ident name → name = token.text) : IsLine token.describe := by
  have hquote {before : String} (hbefore : IsLine before) :
      IsLine (before ++ token.text ++ "`") :=
    .between hbefore htext (by decide)
  unfold describe
  split
  next name hkind =>
    rw [hname name hkind]
    exact hquote (by decide)
  · exact hquote (by decide)
  · decide
  · decide
  · exact hquote (by decide)
  · decide
  · exact hquote (by decide)
  · exact hquote (by decide)

theorem Cause.message_line {cause : Cause} (h : '\n' ∉ cause.quoted) : IsLine cause.message := by
  cases cause with
  | unexpectedChar c =>
      exact .between (by decide) (isLine_char (List.ne_of_not_mem_cons h)) (by decide)
  | unknownEscape c =>
      exact .between (by decide) (isLine_char (List.ne_of_not_mem_cons h)) (by decide)
  | malformedNumber text => exact .between (by decide) h (by decide)
  | unexpectedToken expected found =>
      obtain ⟨hexpected, hfound⟩ := not_or.mp fun hmem => h (List.mem_append.mpr hmem)
      exact isLine_append.mpr ⟨.between (by decide) hexpected (by decide), hfound⟩
  | expectedExpr found => exact isLine_append.mpr ⟨by decide, h⟩
  | expectedType found => exact isLine_append.mpr ⟨by decide, h⟩
  | expectedPattern found => exact isLine_append.mpr ⟨by decide, h⟩
  | nestingTooDeep limit => exact .between (by decide) (isLine_toString limit) (by decide)
  | _ => decide

theorem Rule.Complaint.quoted_line {cause : Token → Cause} (h : Complaint cause) {token : Token}
    (htoken : IsLine token.describe) : '\n' ∉ (cause token).quoted := by
  have hexpecting {expected : String} (hexpected : IsLine expected) :
      '\n' ∉ (Cause.unexpectedToken expected token.describe).quoted := by
    intro hmem
    rcases List.mem_append.mp hmem with hmem | hmem
    · exact hexpected hmem
    · exact htoken hmem
  cases h with
  | symbol symbol =>
      refine hexpecting (.between (by decide) (fun hmem => ?_) (by decide))
      have hblank := Lexeme.symbol_chars symbol _ hmem
      cases hblank
  | @phrase expected hexpected =>
      have hall : ∀ text ∈ expectations, IsLine text := by decide
      exact hexpecting (hall expected hexpected)
  | expr | type | pattern => exact htoken
  | nesting => exact isLine_toString _

section Source

variable {source : String} {fileId : Nat}

theorem PlacedLexeme.ReadIn.joins {placed : PlacedLexeme} (h : placed.ReadIn source.toList) :
    (LineIndex.ofSource source).Joins placed.start placed.stop :=
  h.slice.joins h.text_line

/-- A token is a line of its own, and so is what a message shows of it. -/
theorem line_of_mem_tokens {token : Token} (h : token ∈ tokens source fileId) :
    IsLine token.text ∧ IsLine token.describe := by
  rcases exists_lexeme_of_mem_tokens h with rfl | ⟨placed, hread, rfl, -⟩
  · have htext : IsLine "" := by decide
    refine ⟨htext, Token.describe_line htext ?_⟩
    intro name hkind
    cases hkind
  · have htext : IsLine (placed.token fileId).text := by
      rw [IsLine, PlacedLexeme.token, String.toList_ofList]
      exact hread.text_line
    obtain ⟨before, c, behind, -, rfl, -⟩ := hread
    exact ⟨htext, Token.describe_line htext fun name hkind => Lexeme.text_of_ident hkind⟩

theorem joins_of_mem_tokens {token : Token} (h : token ∈ tokens source fileId) :
    (LineIndex.ofSource source).Joins token.span.start token.span.stop := by
  rcases exists_lexeme_of_mem_tokens h with rfl | ⟨placed, hread, rfl, -⟩
  · exact fun next _ hlt => hlt
  · exact hread.joins

/-- A problem that is told in one line, of a range that is on one line of the source. -/
structure Problem.OnLine (source : String) (problem : Problem) : Prop where
  message : IsLine problem.cause.message
  ordered : problem.span.start ≤ problem.span.stop
  within : problem.span.stop ≤ source.utf8ByteSize
  joins : (LineIndex.ofSource source).Joins problem.span.start problem.span.stop

theorem onLine_of_mem_lexicalProblems {problem : Problem}
    (h : problem ∈ lexicalProblems source fileId) : problem.OnLine source := by
  obtain ⟨-, -, hordered, hwithin, -⟩ := (lexicalProblems_noted source fileId).within problem h
  rcases exists_lexeme_of_mem_lexicalProblems h with
    ⟨placed, hread, -, hproblem⟩ | ⟨opened, hslice, rfl⟩
  · obtain ⟨fault, hfault, rfl⟩ := List.mem_map.mp hproblem
    have hquoted := hread.verdict.quoted_subset fault hfault
    have hstop := (hread.faulted.within fault hfault).2.2
    exact ⟨Cause.message_line fun hmem => hread.text_line (hquoted hmem), hordered, hwithin,
      hread.joins.mono (Nat.le_add_right _ _) (Nat.add_le_add_left hstop _)⟩
  · exact ⟨Cause.message_line List.not_mem_nil, hordered, hwithin, hslice.joins (by decide)⟩

theorem Problem.IsComplaint.onLine {problem : Problem}
    (h : problem.IsComplaint (tokens source fileId)) : problem.OnLine source := by
  obtain ⟨token, hmem, cause, hcause, rfl⟩ := h
  obtain ⟨hordered, hwithin, -⟩ := span_of_mem_tokens hmem
  have hquoted := hcause.quoted_line (line_of_mem_tokens hmem).2
  exact ⟨Cause.message_line hquoted, hordered, hwithin, joins_of_mem_tokens hmem⟩

theorem exists_onLine_of_mem_diagnostics {diagnostic : Diagnostic}
    (h : diagnostic ∈ (analyse source fileId).diagnostics.toList) :
    ∃ problem : Problem, problem.OnLine source ∧ .ofProblem problem = diagnostic := by
  obtain ⟨items, after, hitems⟩ := Rule.exists_items (Reading.ofSource source fileId).state
  rw [(analyse_of_items hitems).2, List.mem_map] at h
  obtain ⟨problem, hproblem, rfl⟩ := h
  refine ⟨problem, ?_, rfl⟩
  obtain ⟨hahead, hstop, hproblems⟩ := ofSource_state source fileId
  have hamong : (Reading.ofSource source fileId).state.Among (tokens source fileId) := by
    refine ⟨fun token hmem => ?_, ?_, by simp [hproblems]⟩
    · rw [tokens_eq_append, ← hahead]
      exact List.mem_append_left _ hmem
    · rw [tokens_eq_append, hstop]
      simp
  -- A problem is one of the tokens, or it was reported while the items were read.
  rcases List.mem_append.mp ((SourceOrder.sort_perm _ _).mem_iff.mp hproblem) with hmem | hmem
  · exact onLine_of_mem_lexicalProblems hmem
  · exact ((hamong.items hitems).problems problem hmem).onLine

end Source

namespace Command

theorem count_lines {texts : List String} (h : ∀ text ∈ texts, IsLine text) :
    (lines texts).toList.count '\n' = texts.length := by
  induction texts with
  | nil => rfl
  | cons text texts ih =>
      obtain ⟨htext, htexts⟩ := List.forall_mem_cons.mp h
      have hsplit : lines (text :: texts) = text ++ "\n" ++ lines texts := by
        rw [lines, List.map_cons, String.join_cons, ← lines]
      rw [hsplit, String.toList_append, String.toList_append, List.count_append,
        List.count_append, ih htexts, List.count_eq_zero_of_not_mem htext, List.length_cons]
      exact Nat.add_comm _ _

theorem tokenLine_line (index : LineIndex) {token : Token} (h : IsLine token.text) :
    IsLine (tokenLine index token) := by
  have hclass : IsLine (tokenClass token.kind) := by
    unfold tokenClass
    split <;> decide
  simp only [tokenLine, isLine_append, isLine_toString, hclass, h, and_true, true_and]
  decide

end Command

/-- No token has a line feed in its text. So the listing of the tokens is made up of one line
for each of them, no message has a line feed in it, and in a source whose bytes can be counted
all that is reported ends on the line on which it begins, no column before its first, and this
line is one of the source. -/
theorem tokens_single_line (source : String) (fileId : Nat) :
    (∀ token ∈ tokens source fileId, IsLine token.text) ∧
      (∀ (invocation : Command.Invocation) (file : String),
        let listing := (Command.listTokens invocation file source).stdout
        let line := Command.tokenLine (.ofSource source)
        listing = Command.lines ((tokens source 0).map line) ∧
          (∀ token ∈ tokens source 0, IsLine (line token)) ∧
          listing.toList.count '\n' = (tokens source 0).length) ∧
      (∀ diagnostic ∈ (analyse source fileId).diagnostics.toList, IsLine diagnostic.message) ∧
      (source.utf8ByteSize < UInt32.size - 1 → ∀ (file : String) (cap : Option Nat),
        ∀ report ∈ (analyse source fileId).diagnostics.reports file source cap,
          report.location.start.line = report.location.stop.line ∧
            report.location.start.column ≤ report.location.stop.column ∧
            report.location.start.line ≤ (LineIndex.ofSource source).lineCount) := by
  refine ⟨fun token hmem => (line_of_mem_tokens hmem).1, fun invocation file => ?_,
    fun diagnostic hmem => ?_, fun hsize file cap report hmem => ?_⟩
  · have hlines : ∀ token ∈ tokens source 0, IsLine (Command.tokenLine (.ofSource source) token) :=
      fun token hmem => Command.tokenLine_line _ (line_of_mem_tokens hmem).1
    refine ⟨rfl, hlines, ?_⟩
    exact (Command.count_lines (List.forall_mem_map.mpr hlines)).trans (List.length_map _)
  · obtain ⟨problem, honLine, rfl⟩ := exists_onLine_of_mem_diagnostics hmem
    exact honLine.message
  · obtain ⟨diagnostic, hdiagnostic, rfl⟩ := List.mem_map.mp hmem
    obtain ⟨problem, honLine, rfl⟩ :=
      exists_onLine_of_mem_diagnostics (Diagnostics.mem_of_mem_upTo hdiagnostic)
    have hlt : problem.span.stop < UInt32.size - 1 := by
      have hwithin := honLine.within
      omega
    exact ⟨honLine.joins.line_eq honLine.ordered, honLine.joins.column_le honLine.ordered hlt,
      LineIndex.position_line_le source _⟩

/-- A string and a character literal, each broken off at a line feed behind a backslash. -/
theorem tokens_single_line_broken :
    (analyse "let a = \"b\\\n'\\\n;" 0).diagnostics.size = 2 ∧
      ∀ report ∈ (analyse "let a = \"b\\\n'\\\n;" 0).diagnostics.reports "a.ib"
          "let a = \"b\\\n'\\\n;" none,
        report.location.start.line = report.location.stop.line ∧
          report.location.start.column ≤ report.location.stop.column ∧
          report.location.start.line ≤ (LineIndex.ofSource "let a = \"b\\\n'\\\n;").lineCount :=
  ⟨by decide +kernel, (tokens_single_line _ 0).2.2.2 (by decide) "a.ib" none⟩

end SourceFront
