import Mathlib.Data.Stream.Init
import SourceFront.Proofs.Layout

/-!
Reading tokens piece by piece. Whatever is asked of a stream, and in whatever order, it gives
away the tokens that there are if all are read at once, and notes the problems that are noted
then. Behind the last token it gives the end again and again, and notes nothing.
-/

namespace SourceFront

namespace TokenStream

open Text

/-- What can be asked of a stream. -/
inductive Request where
  | next
  | tokenize
  | problems
  | takeProblems

/-- What a stream answers: tokens, or problems it has noted. Those that it shows it keeps, those
that are taken it does not. -/
inductive Answer where
  | tokens (given : List Token)
  | shown (noted : List Problem)
  | taken (noted : List Problem)

/-- The answer to a request, and the stream behind it. -/
def ask (stream : TokenStream) : Request → Answer × TokenStream
  | .next => (.tokens [stream.next.1], stream.next.2)
  | .tokenize => (.tokens stream.tokenize.1, stream.tokenize.2)
  | .problems => (.shown stream.problems, stream)
  | .takeProblems => (.taken stream.problems, stream.clearProblems)

/-- The answers to requests that are made one after the other, and the stream behind them. -/
def askAll (stream : TokenStream) : List Request → List Answer × TokenStream
  | [] => ([], stream)
  | request :: requests =>
      let (answer, behind) := stream.ask request
      let (answers, last) := behind.askAll requests
      (answer :: answers, last)

/-- The tokens in an answer. -/
def Answer.given : Answer → List Token
  | .tokens given => given
  | .shown _ => []
  | .taken _ => []

/-- The problems that are kept no longer. -/
def Answer.removed : Answer → List Problem
  | .tokens _ => []
  | .shown _ => []
  | .taken noted => noted

/-- The token of the end. -/
def endToken (stream : TokenStream) : Token :=
  .eof (stream.range (stream.offset + byteLength stream.rest) 0)

/-- All tokens from here on, with the end again and again behind them. -/
def endless (stream : TokenStream) : Stream' Token :=
  stream.tokenize.1 ++ₛ Stream'.const stream.endToken

/-- Nothing is left to be read. -/
def Ended (stream : TokenStream) : Prop :=
  stream.rest = []

variable {stream : TokenStream}

section Noted

/-- The same place with more problems noted, in front of the others. -/
def noteBefore (noted : List Problem) (stream : TokenStream) : TokenStream :=
  { stream with problems := noted ++ stream.problems }

theorem noteBefore_clearProblems (stream : TokenStream) :
    stream.clearProblems.noteBefore stream.problems = stream := by
  rw [noteBefore, clearProblems, List.append_nil]

theorem next_noteBefore (noted : List Problem) (stream : TokenStream) :
    (stream.noteBefore noted).next = (stream.next.1, stream.next.2.noteBefore noted) := by
  have hrest : (stream.noteBefore noted).rest = stream.rest := rfl
  cases hgap : (Gap.read stream.rest).rest with
  | nil =>
      rw [next_of_end hgap, next_of_end (hrest ▸ hgap), hrest]
      simp only [noteBefore, range, gapProblems, List.append_assoc]
  | cons c cs =>
      rw [next_of_lexeme hgap, next_of_lexeme (hrest ▸ hgap)]
      simp only [noteBefore, lexemeToken, behindLexeme, range, gapProblems, lexemeProblems,
        List.append_assoc]

theorem tokenize_noteBefore (noted : List Problem) (stream : TokenStream) :
    (stream.noteBefore noted).tokenize =
      (stream.tokenize.1, stream.tokenize.2.noteBefore noted) := by
  fun_induction tokenize stream with
  | case1 stream hend => rw [tokenize, next_noteBefore, dif_pos hend]
  | case2 stream hend tokens last hmore ih =>
      rw [hmore] at ih
      rw [tokenize, next_noteBefore, dif_neg hend, ih]

theorem tokenize_clearProblems (stream : TokenStream) :
    stream.tokenize.1 = stream.clearProblems.tokenize.1 ∧
      stream.tokenize.2.problems =
        stream.problems ++ stream.clearProblems.tokenize.2.problems := by
  have hnoted := tokenize_noteBefore stream.problems stream.clearProblems
  rw [noteBefore_clearProblems] at hnoted
  rw [hnoted]
  exact ⟨rfl, rfl⟩

end Noted

section End

theorem tokenize_of_isEof (h : stream.next.1.isEof = true) :
    stream.tokenize = ([stream.endToken], stream.next.2) ∧ stream.next.1 = stream.endToken ∧
      stream.next.2.Ended ∧ stream.next.2.endToken = stream.endToken := by
  have hnext := next_of_end (rest_of_isEof h)
  rw [tokenize, dif_pos h, hnext]
  exact ⟨rfl, rfl, rfl, rfl⟩

theorem tokenize_of_not_isEof (h : ¬stream.next.1.isEof = true) :
    stream.tokenize = (stream.next.1 :: stream.next.2.tokenize.1, stream.next.2.tokenize.2) ∧
      stream.next.2.endToken = stream.endToken := by
  refine ⟨by rw [tokenize, dif_neg h], ?_⟩
  obtain ⟨c, cs, hrest⟩ := exists_rest_of_not_isEof h
  rw [next_of_lexeme hrest, endToken, behindLexeme_end hrest]
  rfl

theorem tokenize_ended (stream : TokenStream) :
    stream.tokenize.2.Ended ∧ stream.tokenize.2.endToken = stream.endToken := by
  fun_induction tokenize stream with
  | case1 stream hend => exact (tokenize_of_isEof hend).2.2
  | case2 stream hend tokens last hmore ih =>
      rw [hmore] at ih
      exact ⟨ih.1, ih.2.trans (tokenize_of_not_isEof hend).2⟩

namespace Ended

theorem next (h : stream.Ended) : stream.next = (stream.endToken, stream) := by
  obtain ⟨fileId, offset, rest, problems⟩ := stream
  obtain rfl : rest = [] := h
  have hgap : Gap.read [] = ⟨[], [], none⟩ := Gap.read_of_absent Gap.absent_nil
  rw [next_of_end (congrArg Gap.rest hgap)]
  simp [endToken, range, gapProblems, hgap]

theorem tokenize (h : stream.Ended) : stream.tokenize = ([stream.endToken], stream) := by
  have hend : stream.next.1.isEof = true := by rw [h.next]; rfl
  rw [(tokenize_of_isEof hend).1, h.next]

theorem endless (h : stream.Ended) : stream.endless = Stream'.const stream.endToken := by
  rw [TokenStream.endless, h.tokenize, Stream'.append_eq_cons, ← Stream'.const_eq]

end Ended

end End

section Requests

/-- No token and no problem is lost in an answer, and none comes twice. -/
theorem ask_kept (stream : TokenStream) (request : Request) :
    stream.endless = (stream.ask request).1.given ++ₛ (stream.ask request).2.endless ∧
      stream.tokenize.2.problems =
        (stream.ask request).1.removed ++ (stream.ask request).2.tokenize.2.problems := by
  cases request with
  | next =>
      by_cases hend : stream.next.1.isEof = true
      · obtain ⟨htokenize, hnext, hended, hsame⟩ := tokenize_of_isEof hend
        refine ⟨?_, ?_⟩
        · rw [endless, htokenize, ask, hended.endless, hsame, hnext]
          rfl
        · rw [htokenize, ask, hended.tokenize]
          rfl
      · obtain ⟨htokenize, hsame⟩ := tokenize_of_not_isEof hend
        rw [endless, htokenize, ask, endless, hsame]
        exact ⟨rfl, rfl⟩
  | tokenize =>
      obtain ⟨hended, hsame⟩ := stream.tokenize_ended
      refine ⟨?_, ?_⟩
      · rw [ask, hended.endless, hsame]
        rfl
      · rw [ask, hended.tokenize]
        rfl
  | problems => exact ⟨rfl, rfl⟩
  | takeProblems =>
      obtain ⟨htokens, hproblems⟩ := stream.tokenize_clearProblems
      refine ⟨?_, hproblems⟩
      rw [endless, htokens]
      rfl

theorem ask_endToken (stream : TokenStream) (request : Request) :
    (stream.ask request).2.endToken = stream.endToken := by
  cases request with
  | next =>
      by_cases hend : stream.next.1.isEof = true
      · exact (tokenize_of_isEof hend).2.2.2
      · exact (tokenize_of_not_isEof hend).2
  | tokenize => exact stream.tokenize_ended.2
  | problems => rfl
  | takeProblems => rfl

theorem ask_ended {request : Request}
    (h : stream.Ended ∨ ∃ token ∈ (stream.ask request).1.given, token.isEof = true) :
    (stream.ask request).2.Ended := by
  cases request with
  | next =>
      refine (tokenize_of_isEof ?_).2.2.1
      rcases h with hended | ⟨token, hmem, heof⟩
      · rw [hended.next]
        rfl
      · obtain rfl := List.mem_singleton.mp hmem
        exact heof
  | tokenize => exact stream.tokenize_ended.1
  | problems => exact h.resolve_right fun ⟨_, hmem, _⟩ => List.not_mem_nil hmem
  | takeProblems => exact h.resolve_right fun ⟨_, hmem, _⟩ => List.not_mem_nil hmem

theorem askAll_kept (stream : TokenStream) (requests : List Request) :
    stream.endless = (stream.askAll requests).1.flatMap Answer.given ++ₛ
        (stream.askAll requests).2.endless ∧
      stream.tokenize.2.problems = (stream.askAll requests).1.flatMap Answer.removed ++
        (stream.askAll requests).2.tokenize.2.problems := by
  induction requests generalizing stream with
  | nil => exact ⟨rfl, rfl⟩
  | cons request requests ih =>
      obtain ⟨hendless, hproblems⟩ := stream.ask_kept request
      obtain ⟨hendless', hproblems'⟩ := ih (stream.ask request).2
      rw [hendless, hproblems, hendless', hproblems', ← Stream'.append_append_stream,
        ← List.append_assoc]
      exact ⟨rfl, rfl⟩

theorem askAll_endToken (stream : TokenStream) (requests : List Request) :
    (stream.askAll requests).2.endToken = stream.endToken := by
  induction requests generalizing stream with
  | nil => rfl
  | cons request requests ih => exact (ih _).trans (stream.ask_endToken request)

theorem askAll_ended {requests : List Request}
    (h : stream.Ended ∨
      ∃ token ∈ (stream.askAll requests).1.flatMap Answer.given, token.isEof = true) :
    (stream.askAll requests).2.Ended := by
  induction requests generalizing stream with
  | nil => exact h.resolve_right fun ⟨_, hmem, _⟩ => List.not_mem_nil hmem
  | cons request requests ih =>
      refine ih ?_
      rcases h with hended | ⟨token, hmem, heof⟩
      · exact .inl (ask_ended (.inl hended))
      · rcases List.mem_append.mp hmem with hmem | hmem
        · exact .inl (ask_ended (.inr ⟨token, hmem, heof⟩))
        · exact .inr ⟨token, hmem, heof⟩

theorem Ended.askAll (h : stream.Ended) (requests : List Request) :
    (∀ token ∈ (stream.askAll requests).1.flatMap Answer.given, token = stream.endToken) ∧
      (stream.askAll requests).1.flatMap Answer.removed ++ (stream.askAll requests).2.problems =
        stream.problems := by
  obtain ⟨hendless, hproblems⟩ := stream.askAll_kept requests
  rw [h.tokenize, (askAll_ended (.inl h)).tokenize] at hproblems
  refine ⟨fun token hmem => ?_, hproblems.symm⟩
  have hthere : token ∈ stream.endless := hendless ▸ Stream'.mem_append_stream_left _ hmem
  rw [h.endless] at hthere
  obtain ⟨n, hn⟩ := hthere
  exact hn

end Requests

theorem ofSource_endToken (source : String) (fileId : Nat) :
    (ofSource source fileId).endToken =
      .eof ⟨source.utf8ByteSize, source.utf8ByteSize, fileId⟩ := by
  simp [endToken, range, ofSource, utf8ByteSize_eq]

/-- Whatever is asked of the stream of a source, the tokens that it gives are those of the
source, in order and none twice, and then the end again and again; what it gives later are the
others. The problems that are taken and those still noted are the first ones of the source. Once
the end has been given they are all of them, and to whatever is asked then the stream gives the
end and notes nothing more. -/
theorem streaming_exact (source : String) (fileId : Nat) (requests : List Request) :
    let last : Token := .eof ⟨source.utf8ByteSize, source.utf8ByteSize, fileId⟩
    let answers := ((ofSource source fileId).askAll requests).1
    let behind := ((ofSource source fileId).askAll requests).2
    tokens source fileId ++ₛ Stream'.const last =
        answers.flatMap Answer.given ++ₛ (behind.tokenize.1 ++ₛ Stream'.const last) ∧
      answers.flatMap Answer.removed ++ behind.problems <+: lexicalProblems source fileId ∧
      ((∃ token ∈ answers.flatMap Answer.given, token.isEof = true) →
        answers.flatMap Answer.removed ++ behind.problems = lexicalProblems source fileId ∧
          behind.next = (last, behind) ∧ behind.tokenize = ([last], behind) ∧
          ∀ more, (∀ token ∈ (behind.askAll more).1.flatMap Answer.given, token = last) ∧
            (behind.askAll more).1.flatMap Answer.removed ++ (behind.askAll more).2.problems =
              behind.problems) := by
  intro last answers behind
  have hlast : (ofSource source fileId).endToken = last := ofSource_endToken source fileId
  have hbehind : behind.endToken = last := (askAll_endToken _ requests).trans hlast
  obtain ⟨hendless, hproblems⟩ := (ofSource source fileId).askAll_kept requests
  refine ⟨?_, ?_, fun hend => ?_⟩
  · rwa [endless, endless, askAll_endToken, hlast] at hendless
  · rw [lexicalProblems, hproblems]
    exact (List.prefix_append_right_inj _).mpr behind.tokenize_problems
  · have hended : ((ofSource source fileId).askAll requests).2.Ended := askAll_ended (.inr hend)
    rw [hended.tokenize] at hproblems
    refine ⟨hproblems.symm, ?_, ?_, fun more => hbehind ▸ hended.askAll more⟩
    · rw [← hbehind]
      exact hended.next
    · rw [← hbehind]
      exact hended.tokenize

theorem streaming_exact_unclosed :
    let requests : List Request := [.next, .takeProblems, .next, .problems, .tokenize]
    let answers := ((ofSource "x /*" 0).askAll requests).1
    let behind := ((ofSource "x /*" 0).askAll requests).2
    (∃ token ∈ answers.flatMap Answer.given, token.isEof = true) ∧
      lexicalProblems "x /*" 0 ≠ [] ∧
      answers.flatMap Answer.removed ++ behind.problems = lexicalProblems "x /*" 0 ∧
      behind.tokenize = ([.eof ⟨4, 4, 0⟩], behind) := by
  intro requests answers behind
  have hend : ∃ token ∈ answers.flatMap Answer.given, token.isEof = true := by decide +kernel
  obtain ⟨-, -, hall⟩ := streaming_exact "x /*" 0 requests
  obtain ⟨hproblems, -, htokenize, -⟩ := hall hend
  exact ⟨hend, by decide +kernel, hproblems, htokenize⟩

end TokenStream

end SourceFront
