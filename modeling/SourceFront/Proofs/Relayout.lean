import Mathlib.Order.MinMax
import Mathlib.Order.Monotone.Basic
import SourceFront.Proofs.Derivation.Source
import SourceFront.Proofs.Diagnosis
import SourceFront.Proofs.Layout
import SourceFront.Proofs.Relocation.Rules

/-!
Layout independence: how the tokens of a source are laid out changes neither the shape
of its module nor what is wrong with it. The tokens of every layout are those of one
list, in which a token stands at its index, moved to where they stand in the source.
-/

namespace SourceFront

namespace Token

variable {fileId stop start : Nat} {tokens : List Token}

/-- Where the token with an index starts. Behind the tokens, each index is one byte
further than the one before it. -/
def startAt (stop : Nat) : List Token → (index : Nat) → Nat
  | [], index => stop + index
  | token :: _, 0 => token.span.start
  | _ :: tokens, index + 1 => startAt stop tokens index

/-- Where the token with an index stops. -/
def stopAt (stop : Nat) : List Token → (index : Nat) → Nat
  | [], _ => stop
  | token :: _, 0 => token.span.stop
  | _ :: tokens, index + 1 => stopAt stop tokens index

theorem startAt_getElem (index : Nat) (h : index < tokens.length) :
    startAt stop tokens index = tokens[index].span.start := by
  induction tokens generalizing index with
  | nil => cases h
  | cons token tokens ih =>
      cases index with
      | zero => rfl
      | succ index => exact ih index (Nat.lt_of_succ_lt_succ h)

theorem stopAt_getElem (index : Nat) (h : index < tokens.length) :
    stopAt stop tokens index = tokens[index].span.stop := by
  induction tokens generalizing index with
  | nil => cases h
  | cons token tokens ih =>
      cases index with
      | zero => rfl
      | succ index => exact ih index (Nat.lt_of_succ_lt_succ h)

theorem startAt_length (stop : Nat) (tokens : List Token) :
    startAt stop tokens tokens.length = stop := by
  induction tokens with
  | nil => rfl
  | cons token tokens ih => exact ih

theorem stopAt_length (stop : Nat) (tokens : List Token) :
    stopAt stop tokens tokens.length = stop := by
  induction tokens with
  | nil => rfl
  | cons token tokens ih => exact ih

theorem Follow.le_startAt (h : Follow fileId stop start tokens) :
    start ≤ startAt stop tokens 0 := by
  cases tokens with
  | nil => exact h
  | cons token tokens => exact h.1

theorem Follow.le_stopAt (h : Follow fileId stop start tokens) :
    start ≤ stopAt stop tokens 0 := by
  cases tokens with
  | nil => exact h
  | cons token tokens =>
      obtain ⟨hstart, hlt, -⟩ := h
      exact hstart.trans hlt.le

theorem Follow.startAt_strictMono (h : Follow fileId stop start tokens) :
    StrictMono (startAt stop tokens) := by
  refine strictMono_nat_of_lt_succ fun index => ?_
  induction tokens generalizing start index with
  | nil => exact Nat.lt_succ_self _
  | cons token tokens ih =>
      obtain ⟨-, hlt, -, -, hrest⟩ := h
      cases index with
      | zero => exact hlt.trans_le hrest.le_startAt
      | succ index => exact ih hrest index

theorem Follow.stopAt_monotone (h : Follow fileId stop start tokens) :
    Monotone (stopAt stop tokens) := by
  refine monotone_nat_of_le_succ fun index => ?_
  induction tokens generalizing start index with
  | nil => exact Nat.le_refl _
  | cons token tokens ih =>
      obtain ⟨-, -, -, -, hrest⟩ := h
      cases index with
      | zero => exact hrest.le_stopAt
      | succ index => exact ih hrest index

end Token

/-- Moves the indices of tokens to where the tokens stand. -/
def Token.Follow.relocation {fileId stop start : Nat} {tokens : List Token}
    (h : Token.Follow fileId stop start tokens) : Relocation where
  move span :=
    ⟨Token.startAt stop tokens span.start, Token.stopAt stop tokens span.stop, fileId⟩
  move_merge a b := by
    rw [Span.merge, Span.merge, Monotone.map_min h.startAt_strictMono.monotone,
      Monotone.map_max h.stopAt_monotone]
  start_le_iff _ _ := h.startAt_strictMono.le_iff_le

/-- The state before tokens that stand at their indices. -/
def State.indexed (forms : List (TokenKind × String)) : State where
  last := ⟨0, 0, 0⟩
  ahead := forms.mapIdx fun index form => ⟨form.1, form.2, ⟨index, index, 0⟩⟩
  stop := ⟨forms.length, forms.length, 0⟩
  problems := []

theorem State.ofTokens_concat (tokens : List Token) (span : Span) :
    State.ofTokens (tokens ++ [.eof span]) =
      ⟨(tokens.head?.map Token.span).getD span, tokens, span, []⟩ := by
  rw [ofTokens, List.getLast?_concat, List.dropLast_concat]
  cases tokens <;> simp [Token.isEof, Token.eof]

namespace Token.Follow

variable {fileId stop start : Nat} {tokens : List Token}
  (h : Token.Follow fileId stop start tokens)
include h

theorem move_getElem (index : Nat) (hlt : index < tokens.length) :
    h.relocation.move ⟨index, index, 0⟩ = tokens[index].span := by
  have hfile := (h.of_mem (List.getElem_mem hlt)).2.2.2.1
  simp only [relocation, startAt_getElem index hlt, stopAt_getElem index hlt, ← hfile]

theorem move_length :
    h.relocation.move ⟨tokens.length, tokens.length, 0⟩ = ⟨stop, stop, fileId⟩ := by
  simp only [relocation, startAt_length, stopAt_length]

theorem ofTokens_eq_move :
    State.ofTokens (tokens ++ [.eof ⟨stop, stop, fileId⟩]) =
      (State.indexed (tokens.map Token.form)).move h.relocation := by
  rw [State.ofTokens_concat, State.indexed, State.move, List.length_map]
  congr 1
  · cases tokens with
    | nil => exact h.move_length.symm
    | cons token tokens => exact (h.move_getElem 0 (by simp)).symm
  · refine List.ext_getElem (by simp) fun index hlt _ => ?_
    simp [Token.form, Token.move, h.move_getElem index hlt]
  · exact h.move_length.symm

end Token.Follow

variable (source : String) (fileId : Nat)

/-- What the analysis of a source comes from: the tokens at their indices are read, and
then all is moved to where it stands in the source. -/
theorem analyse_eq_move (h : lexicalProblems source fileId = []) {items : List (Item Span)}
    {after : State}
    (hitems : Rule.items .outermost (State.indexed ((bodyTokens source fileId).map Token.form)) =
      .ok items after) :
    ∃ f : Relocation,
      (analyse source fileId).module.items = items.map (Item.map f.move) ∧
        (analyse source fileId).diagnostics =
          .ofProblems (SourceOrder.sort Problem.start (after.problems.map (Problem.move f))) := by
  have hfollow := bodyTokens_follow source fileId
  have hstate : (Reading.ofSource source fileId).state =
      (State.indexed ((bodyTokens source fileId).map Token.form)).move hfollow.relocation := by
    rw [Reading.ofSource, tokens_eq_append, hfollow.ofTokens_eq_move]
  have hmoved := Rule.items_moves (Level.allowing_moves Level.limit) (Level.allowing_framed _)
    (f := hfollow.relocation) (State.indexed ((bodyTokens source fileId).map Token.form))
  have hlexical : (Reading.ofSource source fileId).lexical = [] := h
  refine ⟨hfollow.relocation, ?_⟩
  rw [Level.outermost] at hitems
  rw [hitems, ← hstate] at hmoved
  simp only [analyse, Reading.readModule, Level.outermost, hmoved, Rule.moveResult,
    Reading.problems, hlexical, List.nil_append]
  exact ⟨trivial, rfl⟩

theorem Item.bareJson_map {α β : Type} (g : α → β) (items : List (Item α)) :
    (items.map (Item.map g)).map (Item.toJson fun _ => []) =
      items.map (Item.toJson fun _ => []) := by
  rw [List.map_map]
  exact List.map_congr_left fun item _ => item.toJson_map _ g

theorem Diagnostics.ofProblems_move (f : Relocation) (problems : List Problem) :
    (ofProblems (SourceOrder.sort Problem.start (problems.map (Problem.move f)))).toList =
      (SourceOrder.sort Problem.start (SourceOrder.sort Problem.start problems)).map
        fun problem => .ofProblem (problem.move f) := by
  have horder (a b : Problem) : (a.move f).start ≤ (b.move f).start ↔ a.start ≤ b.start :=
    f.start_le_iff a.span b.span
  have horder' (a b : Problem) : (Diagnostic.ofProblem (a.move f)).start ≤
      (Diagnostic.ofProblem (b.move f)).start ↔ a.start ≤ b.start := horder a b
  rw [SourceOrder.sort_map horder, ofProblems_toList, List.map_map]
  exact SourceOrder.sort_map horder' _

variable {source fileId}

/-- Sources with the same sound tokens have modules of one shape and the same problems. -/
theorem analyse_of_forms {source' : String} {fileId' : Nat}
    (h : lexicalProblems source fileId = []) (h' : lexicalProblems source' fileId' = [])
    (hforms : (bodyTokens source' fileId').map Token.form =
      (bodyTokens source fileId).map Token.form) :
    (analyse source' fileId').module.bareJson = (analyse source fileId).module.bareJson ∧
      (analyse source' fileId').diagnostics.toList.map (fun d => (d.code, d.message)) =
        (analyse source fileId).diagnostics.toList.map (fun d => (d.code, d.message)) := by
  obtain ⟨items, after, hitems⟩ :=
    Rule.exists_items (State.indexed ((bodyTokens source fileId).map Token.form))
  obtain ⟨f, hmodule, hdiagnostics⟩ := analyse_eq_move source fileId h hitems
  obtain ⟨f', hmodule', hdiagnostics'⟩ :=
    analyse_eq_move source' fileId' h' (hforms ▸ hitems)
  constructor
  · rw [Module.bareJson, Module.bareJson, Module.toJson, Module.toJson, hmodule, hmodule',
      Item.bareJson_map, Item.bareJson_map]
  · rw [hdiagnostics, hdiagnostics', Diagnostics.ofProblems_move,
      Diagnostics.ofProblems_move, List.map_map, List.map_map]
    rfl

/-- A source whose tokens have a text each, laid out in another way, has the same tokens
but for their places, a module of the same shape, and the same problems. -/
theorem analyse_laidOut {source' : String} {fileId' : Nat}
    (h : lexicalProblems source fileId = [])
    (hlaid : LaidOut ((bodyTokens source fileId).map Token.text) source') :
    (tokens source' fileId').map Token.form = (tokens source fileId).map Token.form ∧
      lexicalProblems source' fileId' = [] ∧
      (analyse source' fileId').module.bareJson = (analyse source fileId).module.bareJson ∧
      (analyse source' fileId').diagnostics.toList.map (fun d => (d.code, d.message)) =
        (analyse source fileId).diagnostics.toList.map (fun d => (d.code, d.message)) := by
  have hwritten : ∀ form ∈ (bodyTokens source fileId).map Token.form,
      form.1.Written form.2.toList := by
    intro form hmem
    obtain ⟨token, htoken, rfl⟩ := List.mem_map.mp hmem
    exact bodyTokens_written h token htoken
  have htexts : ((bodyTokens source fileId).map Token.form).map Prod.snd =
      (bodyTokens source fileId).map Token.text := by
    rw [List.map_map]
    rfl
  obtain ⟨hforms, hlexical⟩ := tokens_of_laidOut hwritten (htexts ▸ hlaid) fileId'
  refine ⟨?_, hlexical, analyse_of_forms h hlexical hforms⟩
  rw [tokens_eq_append, tokens_eq_append, List.map_append, List.map_append, hforms]
  rfl

theorem laidOut_comment : LaidOut ["x", ";"] "x /*;*/ ;\n" := by
  have hcomment : Gap.Filler [' ', '/', '*', ';', '*', '/', ' '] :=
    .blank rfl (@Gap.Filler.block [';'] [' '] (by decide) (.blank rfl .nil))
  have hfeed : Laid [";"] (";".toList ++ (['\n'] ++ [])) :=
    .cons (.blank rfl .nil) (by simp [Text.Ends, Text.isBlank, Text.blankRanges]) (by simp) .nil
  refine ⟨[], _, .nil, .cons hcomment ?_ (by simp) hfeed, by decide +kernel⟩
  simp [Text.Ends, Text.isBlank, Text.blankRanges]

theorem analyse_laidOut_comment :
    lexicalProblems "x;" 0 = [] ∧
      LaidOut ((bodyTokens "x;" 0).map Token.text) "x /*;*/ ;\n" ∧
      (tokens "x /*;*/ ;\n" 0).map Token.form = (tokens "x;" 0).map Token.form ∧
      lexicalProblems "x /*;*/ ;\n" 0 = [] ∧
      (analyse "x /*;*/ ;\n" 0).module.bareJson = (analyse "x;" 0).module.bareJson ∧
      (analyse "x /*;*/ ;\n" 0).diagnostics.toList.map (fun d => (d.code, d.message)) =
        (analyse "x;" 0).diagnostics.toList.map (fun d => (d.code, d.message)) :=
  have h : lexicalProblems "x;" 0 = [] := by decide +kernel
  have htexts : (bodyTokens "x;" 0).map Token.text = ["x", ";"] := by decide +kernel
  have hlaid : LaidOut ((bodyTokens "x;" 0).map Token.text) "x /*;*/ ;\n" :=
    htexts ▸ laidOut_comment
  ⟨h, hlaid, analyse_laidOut h hlaid⟩

end SourceFront
