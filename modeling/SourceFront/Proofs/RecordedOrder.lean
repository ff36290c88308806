import SourceFront.Proofs.Recording
import SourceFront.Proofs.Streaming

/-!
The order in which problems are recorded. Each stops before the next one starts, but for one
case: the unknown escapes of a literal are recorded while it is read, and if it turns out to be
invalid, the problem of the whole literal comes behind them, although it starts before them. So
the problems are in the order in which they stop. They are in the order in which they start
exactly if no invalid token has an unknown escape in it.
-/

namespace SourceFront

open Text

namespace Problem

/-- Whether the problem is an unknown escape in the token that `other` concerns as a whole. -/
def isEscapeIn (problem other : Problem) : Bool :=
  problem.cause.isUnknownEscape && other.cause.concernsToken && other.span.contains problem.span

/-- How two problems stand to one another if the first of them is recorded first. -/
def RecordedBefore (a b : Problem) : Prop :=
  if a.isEscapeIn b then b.start < a.start else a.span.stop ≤ b.start

variable {a b : Problem}

theorem isEscapeIn_iff : a.isEscapeIn b = true ↔
    a.cause.isUnknownEscape = true ∧ b.cause.concernsToken = true ∧
      b.start ≤ a.start ∧ a.span.stop ≤ b.span.stop := by
  simp [isEscapeIn, start, and_assoc]

theorem isEscapeIn_of_isUnknownEscape (h : b.cause.isUnknownEscape = true) :
    a.isEscapeIn b = false := by
  simp [isEscapeIn, Cause.concernsToken, h]

theorem isEscapeIn_self (a : Problem) : a.isEscapeIn a = false := by
  refine Bool.eq_false_iff.mpr fun hinside => ?_
  rw [isEscapeIn_of_isUnknownEscape (isEscapeIn_iff.mp hinside).1] at hinside
  cases hinside

theorem RecordedBefore.of_stop_le (ha : a.start < a.span.stop) (h : a.span.stop ≤ b.start) :
    a.RecordedBefore b := by
  rw [RecordedBefore, if_neg fun hinside => ?_]
  · exact h
  · obtain ⟨-, -, hstart, -⟩ := isEscapeIn_iff.mp hinside
    omega

namespace RecordedBefore

variable (h : a.RecordedBefore b)
include h

theorem stop_le (hb : b.start < b.span.stop) : a.span.stop ≤ b.span.stop := by
  rw [RecordedBefore] at h
  split at h
  next hinside => exact (isEscapeIn_iff.mp hinside).2.2.2
  next => exact h.trans (Nat.le_of_lt hb)

theorem start_lt (ha : a.start < a.span.stop) :
    if a.isEscapeIn b then b.start < a.start else a.start < b.start := by
  rw [RecordedBefore] at h
  split at h
  next hinside => rwa [if_pos hinside]
  next hinside =>
    rw [if_neg hinside]
    exact Nat.lt_of_lt_of_le ha h

theorem isEscapeIn_of_le (hb : b.start < b.span.stop) (hle : a.start ≤ b.start) :
    a.isEscapeIn b = false ∧ b.isEscapeIn a = false := by
  rw [RecordedBefore] at h
  split at h
  next => omega
  next hinside =>
    refine ⟨Bool.eq_false_iff.mpr hinside, Bool.eq_false_iff.mpr fun hother => ?_⟩
    obtain ⟨-, -, -, hstop⟩ := isEscapeIn_iff.mp hother
    omega

end RecordedBefore

end Problem

namespace Lexeme

theorem escapeFaults_follow (quote : Char) (pieces : List Literal.Piece) :
    (escapeFaults quote pieces).Pairwise fun a b => a.stop ≤ b.start := by
  obtain ⟨-, hfollow⟩ := Literal.unknownEscapes_placed quote pieces 1
  exact List.pairwise_map.mpr hfollow

theorem Verdict.start_lt {lexeme : Lexeme} (h : lexeme.Verdict) (htext : lexeme.text ≠ []) :
    ∀ fault ∈ lexeme.faults, fault.start < fault.stop := by
  intro fault hmem
  rcases h.fault_cases hmem with
    ⟨-, -, -, hstart, hstop⟩ | ⟨quote, pieces, tail, -, -, -, hescape⟩
  · rw [hstart, hstop]
    exact byteLength_pos htext
  · obtain ⟨found, -, rfl⟩ := List.mem_map.mp hescape
    dsimp only
    omega

end Lexeme

/-- The unknown escapes of a literal are recorded in their order, and before the problem of the
whole literal if there is one. -/
theorem PlacedLexeme.problems_pairwise {placed : PlacedLexeme} (h : placed.lexeme.Verdict)
    (fileId : Nat) : (placed.problems fileId).Pairwise Problem.RecordedBefore := by
  obtain ⟨start, lexeme⟩ := placed
  have hescapes (quote : Char) (pieces : List Literal.Piece) :
      (Lexeme.escapeFaults quote pieces).Pairwise fun a b =>
        Problem.RecordedBefore ⟨a.cause, ⟨start + a.start, start + a.stop, fileId⟩⟩
          ⟨b.cause, ⟨start + b.start, start + b.stop, fileId⟩⟩ := by
    refine (Lexeme.escapeFaults_follow quote pieces).imp_of_mem fun {a b} ha hb hle => ?_
    have hescape := Lexeme.escapeFaults_isUnknownEscape b hb
    rw [Problem.RecordedBefore, Problem.isEscapeIn_of_isUnknownEscape hescape]
    exact Nat.add_le_add_left hle start
  refine List.pairwise_map.mpr ?_
  cases h with
  | sound => exact .nil
  | spoiled => exact List.pairwise_singleton _ _
  | literal => exact hescapes _ _
  | @spoiledLiteral quote cause pieces tail rest hquote hcause =>
      refine List.pairwise_append.mpr ⟨hescapes _ _, List.pairwise_singleton _ _, ?_⟩
      intro fault hmem whole hwhole
      obtain rfl := List.mem_singleton.mp hwhole
      -- The whole literal starts with its quote, in front of every escape.
      obtain ⟨hpos, -, -, hstop, -⟩ := Lexeme.escapeFaults_within quote pieces tail fault hmem
      rw [Problem.RecordedBefore, if_pos (Problem.isEscapeIn_iff.mpr ⟨?_, hcause, ?_, ?_⟩)]
      · exact Nat.add_lt_add_left hpos start
      · exact Lexeme.escapeFaults_isUnknownEscape fault hmem
      · exact Nat.add_le_add_left (Nat.zero_le _) start
      · exact Nat.add_le_add_left hstop start

/-- What is recorded from the byte `start` to the byte `stop`, with the tokens that are read
there. -/
structure Chronicle (start stop : Nat) (tokens : List Token) (found : List Problem) :
    Prop where
  start_le : start ≤ stop
  within : ∀ problem ∈ found, start ≤ problem.start ∧ problem.start < problem.span.stop ∧
    problem.span.stop ≤ stop
  ordered : found.Pairwise Problem.RecordedBefore
  /-- The problems of whole tokens are those of the invalid ones. -/
  marked : (found.filter (·.cause.concernsToken)).map Problem.span =
    (tokens.filter (·.kind = .invalid)).map Token.span

namespace Chronicle

variable {start middle stop : Nat} {tokens more : List Token} {found later : List Problem}

theorem gap (h : start ≤ stop) : Chronicle start stop [] [] :=
  ⟨h, by simp, .nil, rfl⟩

theorem append (h : Chronicle start middle tokens found)
    (hmore : Chronicle middle stop more later) :
    Chronicle start stop (tokens ++ more) (found ++ later) where
  start_le := h.start_le.trans hmore.start_le
  within problem hmem := by
    rcases List.mem_append.mp hmem with hmem | hmem
    · obtain ⟨hfrom, hlt, hto⟩ := h.within problem hmem
      exact ⟨hfrom, hlt, hto.trans hmore.start_le⟩
    · obtain ⟨hfrom, hlt, hto⟩ := hmore.within problem hmem
      exact ⟨h.start_le.trans hfrom, hlt, hto⟩
  ordered := by
    refine List.pairwise_append.mpr ⟨h.ordered, hmore.ordered, fun a ha b hb => ?_⟩
    obtain ⟨-, hlt, hto⟩ := h.within a ha
    exact .of_stop_le hlt (hto.trans (hmore.within b hb).1)
  marked := by
    rw [List.filter_append, List.filter_append, List.map_append, List.map_append, h.marked,
      hmore.marked]

theorem ofLexeme {placed : PlacedLexeme} (h : placed.lexeme.Verdict)
    (hfaulted : placed.lexeme.Faulted) (htext : placed.lexeme.text ≠ []) (fileId : Nat) :
    Chronicle placed.start placed.stop [placed.token fileId] (placed.problems fileId) where
  start_le := Nat.le_add_right _ _
  within problem hmem := by
    obtain ⟨fault, hfault, rfl⟩ := List.mem_map.mp hmem
    exact ⟨Nat.le_add_right _ _, Nat.add_lt_add_left (h.start_lt htext fault hfault) _,
      Nat.add_le_add_left (hfaulted.within fault hfault).2.2 _⟩
  ordered := placed.problems_pairwise h fileId
  marked := placed.filter_problems h fileId

section Sorted

variable (h : Chronicle start stop tokens found)
include h

theorem pairwise_stop : found.Pairwise fun a b => a.span.stop ≤ b.span.stop :=
  h.ordered.imp_of_mem fun _ hb hbefore => hbefore.stop_le (h.within _ hb).2.1

theorem pairwise_start : found.Pairwise fun a b =>
    if a.isEscapeIn b then b.start < a.start else a.start < b.start :=
  h.ordered.imp_of_mem fun ha _ hbefore => hbefore.start_lt (h.within _ ha).2.1

theorem exists_span_eq_iff {span : Span} :
    (∃ problem ∈ found, problem.cause.concernsToken = true ∧ problem.span = span) ↔
      ∃ token ∈ tokens, token.kind = .invalid ∧ token.span = span := by
  have hmem := congrArg (span ∈ ·) h.marked
  simpa [and_assoc] using hmem

theorem isEscapeIn_of_sorted (hsorted : found.Pairwise fun a b => a.start ≤ b.start) :
    ∀ a ∈ found, ∀ b ∈ found, a.isEscapeIn b = false := by
  have hapart : found.Pairwise fun a b => a.isEscapeIn b = false ∧ b.isEscapeIn a = false :=
    (h.ordered.and hsorted).imp_of_mem fun _ hb ⟨hbefore, hle⟩ =>
      hbefore.isEscapeIn_of_le (h.within _ hb).2.1 hle
  have : Std.Symm fun a b : Problem => a.isEscapeIn b = false ∧ b.isEscapeIn a = false :=
    ⟨fun _ _ => And.symm⟩
  intro a ha b hb
  exact (hapart.forall_of_forall (fun c _ => ⟨c.isEscapeIn_self, c.isEscapeIn_self⟩) ha hb).1

/-- The problems are in the order in which they start if no unknown escape is in an invalid
token, and only then. -/
theorem sorted_iff : (found.Pairwise fun a b => a.start ≤ b.start) ↔
    ∀ token ∈ tokens, token.kind = .invalid → ∀ problem ∈ found,
      problem.cause.isUnknownEscape = true → token.span.contains problem.span = false := by
  constructor
  · intro hsorted token htoken hkind escape hescape hcause
    obtain ⟨whole, hwhole, hconcerns, hspan⟩ :=
      h.exists_span_eq_iff.mpr ⟨token, htoken, hkind, rfl⟩
    have houtside := h.isEscapeIn_of_sorted hsorted escape hescape whole hwhole
    simpa [Problem.isEscapeIn, hcause, hconcerns, hspan] using houtside
  · intro hclear
    refine h.pairwise_start.imp_of_mem fun {a b} ha hb hlt => ?_
    split at hlt
    next hinside =>
      simp only [Problem.isEscapeIn, Bool.and_eq_true] at hinside
      obtain ⟨⟨hcause, hconcerns⟩, hcontains⟩ := hinside
      obtain ⟨token, htoken, hkind, hspan⟩ := h.exists_span_eq_iff.mp ⟨b, hb, hconcerns, rfl⟩
      rw [← hspan, hclear token htoken hkind a ha hcause] at hcontains
      cases hcontains
    next => exact Nat.le_of_lt hlt

end Sorted

end Chronicle

namespace TokenStream

variable {stream : TokenStream}

theorem end_chronicle (h : (Gap.read stream.rest).rest = []) :
    Chronicle stream.offset (stream.offset + byteLength stream.rest)
      [.eof (stream.range (stream.offset + byteLength stream.rest) 0)]
      (stream.gapProblems (Gap.read stream.rest)) := by
  have hsplit := Gap.read_text_append_rest stream.rest
  rw [h, List.append_nil] at hsplit
  rw [gapProblems]
  cases hunclosed : (Gap.read stream.rest).unclosed with
  | none => exact ⟨Nat.le_add_right _ _, by simp, .nil, rfl⟩
  | some opened =>
      obtain ⟨-, hle⟩ := Gap.read_unclosed _ opened hunclosed
      rw [hsplit] at hle
      refine ⟨Nat.le_add_right _ _, fun problem hmem => ?_, List.pairwise_singleton _ _, rfl⟩
      obtain rfl := List.mem_singleton.mp hmem
      simp only [Problem.start, range]
      omega

theorem next_chronicle (stream : TokenStream) :
    ∃ found, stream.next.2.problems = stream.problems ++ found ∧
      Chronicle stream.offset stream.next.2.offset [stream.next.1] found := by
  cases hrest : (Gap.read stream.rest).rest with
  | nil =>
      rw [next_of_end hrest]
      exact ⟨_, rfl, end_chronicle hrest⟩
  | cons c cs =>
      let placed : PlacedLexeme :=
        ⟨stream.offset + byteLength (Gap.read stream.rest).text, Lexeme.read c cs⟩
      have hlexeme : Chronicle placed.start placed.stop _ _ := .ofLexeme Lexeme.read_verdict
        (Lexeme.read_faulted c cs) (Lexeme.read_text_ne_nil c cs) stream.fileId
      have hgap : Chronicle stream.offset placed.start [] [] := .gap (Nat.le_add_right _ _)
      rw [next_of_lexeme hrest]
      refine ⟨placed.problems stream.fileId, ?_, hgap.append hlexeme⟩
      rw [behindLexeme, gapProblems_of_lexeme hrest, List.append_nil]
      rfl

/-- What is recorded when all tokens are read. -/
theorem tokenize_chronicle (stream : TokenStream) :
    ∃ found, stream.tokenize.2.problems = stream.problems ++ found ∧
      Chronicle stream.offset stream.tokenize.2.offset stream.tokenize.1 found := by
  fun_induction tokenize stream with
  | case1 stream hend => exact stream.next_chronicle
  | case2 stream hend tokens last hmore ih =>
      rw [hmore] at ih
      obtain ⟨found, hfound, hnext⟩ := stream.next_chronicle
      obtain ⟨later, hlater, htokens⟩ := ih
      refine ⟨found ++ later, ?_, hnext.append htokens⟩
      rw [hlater, hfound, List.append_assoc]

theorem ask_chronicle (stream : TokenStream) (request : Request) :
    ∃ found, (stream.ask request).1.removed ++ (stream.ask request).2.problems =
        stream.problems ++ found ∧
      Chronicle stream.offset (stream.ask request).2.offset (stream.ask request).1.given
        found := by
  cases request with
  | next => exact stream.next_chronicle
  | tokenize => exact stream.tokenize_chronicle
  | problems => exact ⟨[], (List.append_nil _).symm, .gap (Nat.le_refl _)⟩
  | takeProblems => exact ⟨[], rfl, .gap (Nat.le_refl _)⟩

theorem askAll_chronicle (stream : TokenStream) (requests : List Request) :
    ∃ found, (stream.askAll requests).1.flatMap Answer.removed ++
        (stream.askAll requests).2.problems = stream.problems ++ found ∧
      Chronicle stream.offset (stream.askAll requests).2.offset
        ((stream.askAll requests).1.flatMap Answer.given) found := by
  induction requests generalizing stream with
  | nil => exact ⟨[], (List.append_nil _).symm, .gap (Nat.le_refl _)⟩
  | cons request requests ih =>
      obtain ⟨found, hfound, hasked⟩ := stream.ask_chronicle request
      obtain ⟨later, hlater, hmore⟩ := ih (stream.ask request).2
      refine ⟨found ++ later, ?_, hasked.append hmore⟩
      rw [← List.append_assoc, ← hfound, List.append_assoc, ← hlater, ← List.append_assoc]
      rfl

/-- Whatever is asked of the stream of a source, tokens one by one among it, its problems are
recorded in the order in which they stop. They are also recorded in the order in which they
start, but for the unknown escapes of a literal, which come before the problem of the whole
literal if it is invalid. So they are in the order in which they start exactly if no invalid
token that has been read has an unknown escape in it. -/
theorem recorded_in_order (source : String) (fileId : Nat) (requests : List Request) :
    let answers := ((ofSource source fileId).askAll requests).1
    let behind := ((ofSource source fileId).askAll requests).2
    let recorded := answers.flatMap Answer.removed ++ behind.problems
    recorded.Pairwise (fun a b => a.span.stop ≤ b.span.stop) ∧
      recorded.Pairwise (fun a b =>
        if a.isEscapeIn b then b.start < a.start else a.start < b.start) ∧
      (recorded.Pairwise (fun a b => a.start ≤ b.start) ↔
        ∀ token ∈ answers.flatMap Answer.given, token.kind = .invalid →
          ∀ problem ∈ recorded, problem.cause.isUnknownEscape = true →
            token.span.contains problem.span = false) := by
  intro answers behind recorded
  obtain ⟨found, hfound, hchronicle⟩ := (ofSource source fileId).askAll_chronicle requests
  have hsame : recorded = found := hfound.trans (List.nil_append found)
  rw [hsame]
  exact ⟨hchronicle.pairwise_stop, hchronicle.pairwise_start, hchronicle.sorted_iff⟩

/-- A string that is not terminated, with an unknown escape in it. -/
theorem recorded_in_order_openString :
    let answers := ((ofSource "\"\\q" 0).askAll [.next]).1
    let behind := ((ofSource "\"\\q" 0).askAll [.next]).2
    let recorded := answers.flatMap Answer.removed ++ behind.problems
    (∃ token ∈ answers.flatMap Answer.given, token.kind = .invalid ∧
      ∃ problem ∈ recorded, problem.cause.isUnknownEscape = true ∧
        token.span.contains problem.span = true) ∧
      ¬recorded.Pairwise fun a b => a.start ≤ b.start := by
  intro answers behind recorded
  have hescape : ∃ token ∈ answers.flatMap Answer.given, token.kind = .invalid ∧
      ∃ problem ∈ recorded, problem.cause.isUnknownEscape = true ∧
        token.span.contains problem.span = true := by decide +kernel
  refine ⟨hescape, fun hsorted => ?_⟩
  obtain ⟨token, htoken, hkind, problem, hproblem, hcause, hcontains⟩ := hescape
  obtain ⟨-, -, hiff⟩ := recorded_in_order "\"\\q" 0 [.next]
  rw [hiff.mp hsorted token htoken hkind problem hproblem hcause] at hcontains
  cases hcontains

end TokenStream

end SourceFront
