import SourceFront.Proofs.Layer
import SourceFront.Proofs.Nesting
import SourceFront.Proofs.Reporting
import SourceFront.Proofs.Stop

/-!
Excerpts from a source. The text from the first of some valid tokens through the last of them
is read as these tokens wherever it stands, if a stop follows it. So the text of an expression
is the same expression by itself.
-/

namespace SourceFront

open Text Phrase

/-- Wherever the text comes next, before a stop, the next tokens are of these forms. -/
def Text.ReadsAs (cs : List Char) (forms : List (TokenKind × String)) : Prop :=
  ∀ (stream : TokenStream) (more : List Char), stream.rest = cs ++ more → Stops more →
    ∃ behind : TokenStream, behind.rest = more ∧
      stream.tokenize.1.map Token.form = forms ++ behind.tokenize.1.map Token.form

theorem Text.append_inj_of_byteLength {as as' bs bs' : List Char} (h : as ++ bs = as' ++ bs')
    (hlength : byteLength as = byteLength as') : as = as' ∧ bs = bs' := by
  induction as generalizing as' with
  | nil =>
      cases as' with
      | nil => exact ⟨rfl, h⟩
      | cons c as' =>
          have hpos := byteLength_pos (List.cons_ne_nil c as')
          simp only [byteLength_nil] at hlength
          omega
  | cons a as ih =>
      cases as' with
      | nil =>
          have hpos := byteLength_pos (List.cons_ne_nil a as)
          simp only [byteLength_nil] at hlength
          omega
      | cons c as' =>
          obtain ⟨rfl, htail⟩ := List.cons.inj h
          rw [byteLength_cons, byteLength_cons, Nat.add_left_cancel_iff] at hlength
          obtain ⟨rfl, hrest⟩ := ih htail hlength
          exact ⟨rfl, hrest⟩

theorem Text.Slice.unique {source : List Char} {start stop : Nat} {text other : List Char}
    (h : Slice source start stop text) (hother : Slice source start stop other) :
    text = other := by
  obtain ⟨before, behind, rfl, rfl, rfl⟩ := h
  obtain ⟨before', behind', hsame, hstart, hstop⟩ := hother
  obtain ⟨rfl, hrest⟩ := append_inj_of_byteLength hsame hstart
  exact (append_inj_of_byteLength hrest (by omega)).1

namespace TokenStream

/-- The forms of the tokens are settled by what stands behind the first gap. -/
theorem tokenize_forms_congr {stream other : TokenStream}
    (h : (Gap.read stream.rest).rest = (Gap.read other.rest).rest) :
    stream.tokenize.1.map Token.form = other.tokenize.1.map Token.form := by
  fun_induction tokenize stream generalizing other with
  | case1 stream hend =>
      have hrest := rest_of_isEof hend
      rw [hrest] at h
      rw [tokenize_of_end (by rw [next_of_end h.symm]; rfl), next_of_end hrest,
        next_of_end h.symm]
      rfl
  | case2 stream hend tokens last hmore ih =>
      obtain ⟨c, cs, hrest⟩ := exists_rest_of_not_isEof hend
      rw [hrest] at h
      have hbehind : stream.next.2.rest = other.next.2.rest := by
        rw [next_of_lexeme hrest, next_of_lexeme h.symm]
        rfl
      have htail := ih (congrArg (fun cs => (Gap.read cs).rest) hbehind)
      have hhead : stream.next.1.form = other.next.1.form := by
        rw [next_of_lexeme hrest, next_of_lexeme h.symm]
        rfl
      rw [hmore] at htail
      rw [tokenize_of_more (next_isEof_of_lexeme h.symm), List.map_cons, List.map_cons, htail,
        hhead]

theorem exists_lexeme {stream : TokenStream} {first : Token} {later : List Token}
    (h : stream.tokenize.1 = first :: later) (hkind : first.kind ≠ .eof) :
    ∃ c cs, (Gap.read stream.rest).rest = c :: cs ∧
      first = stream.lexemeToken (Lexeme.read c cs) ∧
      (stream.behindLexeme (Lexeme.read c cs)).tokenize.1 = later := by
  cases hrest : (Gap.read stream.rest).rest with
  | nil =>
      rw [tokenize_of_end (by rw [next_of_end hrest]; rfl), next_of_end hrest] at h
      obtain ⟨rfl, -⟩ := List.cons.inj h
      exact absurd rfl hkind
  | cons c cs =>
      rw [tokenize_of_more (next_isEof_of_lexeme hrest), next_of_lexeme hrest] at h
      obtain ⟨rfl, rfl⟩ := List.cons.inj h
      exact ⟨c, cs, rfl, rfl, rfl⟩

theorem rest_eq_append {stream : TokenStream} {c : Char} {cs : List Char}
    (h : (Gap.read stream.rest).rest = c :: cs) :
    stream.rest = (Gap.read stream.rest).text ++
      ((Lexeme.read c cs).text ++ (stream.behindLexeme (Lexeme.read c cs)).rest) := by
  have hgap := Gap.read_text_append_rest stream.rest
  rw [h, ← Lexeme.read_text_append_rest c cs] at hgap
  exact hgap.symm

theorem exists_behind {stream : TokenStream} {front later : List Token}
    (h : stream.tokenize.1 = front ++ later) (hfront : ∀ token ∈ front, token.kind ≠ .eof) :
    ∃ (behind : TokenStream) (before : List Char), behind.tokenize.1 = later ∧
      stream.rest = before ++ behind.rest ∧ behind.offset = stream.offset + byteLength before := by
  induction front generalizing stream with
  | nil => exact ⟨stream, [], h, rfl, rfl⟩
  | cons token front ih =>
      obtain ⟨c, cs, hrest, rfl, htail⟩ := exists_lexeme h (hfront _ List.mem_cons_self)
      obtain ⟨behind, before, htokens, hbefore, hoffset⟩ :=
        ih htail fun token hmem => hfront token (List.mem_cons_of_mem _ hmem)
      refine ⟨behind, (Gap.read stream.rest).text ++ ((Lexeme.read c cs).text ++ before),
        htokens, ?_, ?_⟩
      · rw [List.append_assoc, List.append_assoc, ← hbefore, ← rest_eq_append hrest]
      · rw [hoffset, behindLexeme]
        simp [Nat.add_assoc]

end TokenStream

namespace Text.ReadsAs

variable {cs ds : List Char} {forms forms' : List (TokenKind × String)}

theorem nil : ReadsAs [] [] :=
  fun stream _ hrest _ => ⟨stream, hrest, rfl⟩

theorem append (h : ReadsAs cs forms) (h' : ReadsAs ds forms')
    (hstops : ∀ more, Stops more → Stops (ds ++ more)) : ReadsAs (cs ++ ds) (forms ++ forms') := by
  intro stream more hrest hmore
  rw [List.append_assoc] at hrest
  obtain ⟨middle, hmiddle, hforms⟩ := h stream (ds ++ more) hrest (hstops more hmore)
  obtain ⟨behind, hbehind, hforms'⟩ := h' middle more hmiddle hmore
  exact ⟨behind, hbehind, by rw [hforms, hforms', List.append_assoc]⟩

theorem filler {gap : List Char} (hgap : Gap.Filler gap) (h : ReadsAs cs forms) :
    ReadsAs (gap ++ cs) forms := by
  intro stream more hrest hmore
  rw [List.append_assoc] at hrest
  obtain ⟨behind, hbehind, hforms⟩ := h { stream with rest := cs ++ more } more rfl hmore
  refine ⟨behind, hbehind, ?_⟩
  rw [← hforms]
  exact TokenStream.tokenize_forms_congr (by rw [hrest, Gap.read_filler_append hgap])

theorem lexeme {c : Char} {behind post : List Char} (habsent : Gap.Absent (c :: behind))
    (hvalid : (Lexeme.read c behind).kind ≠ .invalid)
    (hrest : (Lexeme.read c behind).rest = cs ++ post) (h : ReadsAs cs forms) :
    ReadsAs ((Lexeme.read c behind).text ++ cs)
      (((Lexeme.read c behind).kind, String.ofList (Lexeme.read c behind).text) :: forms) := by
  intro stream more hstream hmore
  obtain ⟨front, hfront, habsent', hread⟩ := Lexeme.exists_stops habsent hvalid hrest hmore
  rw [List.append_assoc, hfront] at hstream
  have hgap : (Gap.read stream.rest).rest = c :: front := by
    rw [hstream, Gap.read_of_absent habsent']
  have hnext := TokenStream.next_of_lexeme hgap
  rw [hread] at hnext
  obtain ⟨last, hlast, hforms⟩ := h stream.next.2 more (by rw [hnext]; rfl) hmore
  refine ⟨last, hlast, ?_⟩
  rw [TokenStream.tokenize_of_more (TokenStream.next_isEof_of_lexeme hgap), List.map_cons, hforms,
    hnext]
  rfl

theorem single {c : Char} {behind : List Char} {kind : TokenKind}
    (habsent : Gap.Absent (c :: behind))
    (hread : Lexeme.read c behind = ⟨kind, c :: behind, [], []⟩) (hkind : kind ≠ .invalid) :
    ReadsAs (c :: behind) [(kind, String.ofList (c :: behind))] := by
  have hrest : (Lexeme.read c behind).rest = [] ++ [] := by rw [hread]; rfl
  have hreads := lexeme habsent (by rwa [hread]) hrest nil
  rwa [hread, List.append_nil] at hreads

theorem blank (h : ReadsAs cs forms) (h' : ReadsAs ds forms') :
    ReadsAs (cs ++ ' ' :: ds) (forms ++ forms') :=
  h.append (h'.filler (.blank (c := ' ') rfl .nil)) fun _ _ _ hc => Option.some.inj hc ▸ rfl

end Text.ReadsAs

/-- The text of the next tokens, if all of them are valid. -/
theorem TokenStream.exists_excerpt {stream : TokenStream} {first : Token} {part later : List Token}
    (h : stream.tokenize.1 = first :: (part ++ later))
    (hvalid : ∀ token ∈ first :: part, token.kind ≠ .invalid ∧ token.kind ≠ .eof) :
    ∃ gap text post, Gap.Filler gap ∧ stream.rest = gap ++ (text ++ post) ∧
      first.span.start = stream.offset + byteLength gap ∧
      (∀ last ∈ (first :: part).getLast?,
        last.span.stop = first.span.start + byteLength text) ∧
      ReadsAs text ((first :: part).map Token.form) := by
  induction part generalizing stream first with
  | nil =>
      obtain ⟨hkind, hnotEof⟩ := hvalid first List.mem_cons_self
      obtain ⟨c, cs, hrest, rfl, -⟩ := exists_lexeme h hnotEof
      have hfiller := (Gap.read_text stream.rest).1 (by simp [hrest])
      have habsent := Gap.absent_of_read hrest
      refine ⟨_, (Lexeme.read c cs).text, _, hfiller, rest_eq_append hrest, rfl, ?_, ?_⟩
      · rintro last hlast
        obtain rfl := Option.some.inj hlast
        rfl
      · have hreads := ReadsAs.lexeme habsent hkind (List.nil_append _).symm .nil
        rwa [List.append_nil] at hreads
  | cons second part ih =>
      obtain ⟨hkind, hnotEof⟩ := hvalid first List.mem_cons_self
      obtain ⟨c, cs, hrest, rfl, htail⟩ := exists_lexeme h hnotEof
      have hfiller := (Gap.read_text stream.rest).1 (by simp [hrest])
      obtain ⟨gap, text, post, hgap, hbehind, hstart, hstop, hreads⟩ :=
        ih htail fun token hmem => hvalid token (List.mem_cons_of_mem _ hmem)
      have habsent := Gap.absent_of_read hrest
      have hbehind' : (Lexeme.read c cs).rest = gap ++ text ++ post := by
        rw [List.append_assoc]
        exact hbehind
      refine ⟨_, (Lexeme.read c cs).text ++ (gap ++ text), post, hfiller, ?_, rfl, ?_,
        .lexeme habsent hkind hbehind' (.filler hgap hreads)⟩
      · rw [List.append_assoc, List.append_assoc, ← hbehind]
        exact rest_eq_append hrest
      · intro last hlast
        rw [hstop last hlast, hstart, behindLexeme, lexemeToken, range]
        simp only [byteLength_append]
        omega

theorem exists_excerpt {source : String} {fileId : Nat} {part : List Token} {span : Span}
    (hpart : part <:+: bodyTokens source fileId) (hcovers : span.Covers part)
    (hvalid : ∀ token ∈ part, token.kind ≠ .invalid) :
    ∃ text, Slice source.toList span.start span.stop text ∧
      ReadsAs text (part.map Token.form) := by
  obtain ⟨front, back, hbody⟩ := hpart
  obtain ⟨first, last, hfirst, hlast, rfl⟩ := hcovers
  obtain ⟨part, rfl⟩ : ∃ rest, part = first :: rest := List.head?_eq_some_iff.mp hfirst
  have hkinds : ∀ token ∈ front ++ (first :: part) ++ back, token.kind ≠ .eof :=
    fun token hmem => ((bodyTokens_follow source fileId).of_mem (hbody ▸ hmem)).2.2.2.2
  have htokens : (TokenStream.ofSource source fileId).tokenize.1 = front ++
      (first :: (part ++ (back ++ [.eof ⟨source.utf8ByteSize, source.utf8ByteSize, fileId⟩]))) := by
    have hsplit := tokens_eq_append source fileId
    rw [← hbody] at hsplit
    simpa [tokens] using hsplit
  obtain ⟨stream, before, hlater, hbefore, hoffset⟩ :=
    TokenStream.exists_behind htokens fun token hmem => hkinds token (by simp [hmem])
  obtain ⟨gap, text, post, -, hrest, hstart, hstop, hreads⟩ :=
    TokenStream.exists_excerpt hlater fun token hmem =>
      ⟨hvalid token hmem, hkinds token (List.mem_append_left _ (List.mem_append_right _ hmem))⟩
  have hfirstStart : first.span.start = byteLength (before ++ gap) := by
    rw [hstart, hoffset, byteLength_append, TokenStream.ofSource, Nat.zero_add]
  refine ⟨text, ⟨before ++ gap, post, ?_, hfirstStart, ?_⟩, hreads⟩
  · rw [List.append_assoc, ← hrest]
    exact hbefore
  · rw [← hfirstStart]
    exact hstop last hlast

/-- A source that is read as tokens of some forms has just these tokens. -/
theorem bodyTokens_of_readsAs {source : String} {forms : List (TokenKind × String)}
    (h : ReadsAs source.toList forms) (fileId : Nat) :
    (bodyTokens source fileId).map Token.form = forms := by
  obtain ⟨behind, hbehind, hforms⟩ :=
    h (TokenStream.ofSource source fileId) [] (List.append_nil _).symm (fun _ hc => nomatch hc)
  have hend : (Gap.read behind.rest).rest = [] := by
    rw [hbehind, Gap.read_of_absent Gap.absent_nil]
  have hlast : behind.tokenize.1 = [behind.next.1] := by
    rw [TokenStream.tokenize_of_end (by rw [TokenStream.next_of_end hend]; rfl)]
  rw [bodyTokens, tokens, List.map_dropLast, hforms, hlast, List.map_singleton,
    List.dropLast_concat]

theorem Token.terminal?_congr {token other : Token} (h : other.form = token.form) :
    other.terminal? = token.terminal? := by
  obtain ⟨hkind, htext⟩ := Prod.mk.inj h
  rw [terminal?, terminal?, hkind, htext]

theorem Phrase.Spelled.of_forms {α : Type} {p : Phrase α} {tokens other : List Token}
    (h : p.Spelled .plain tokens) (hforms : other.map Token.form = tokens.map Token.form) :
    p.Spelled .plain other := by
  have hforall {terminals : List Terminal} {tokens other : List Token}
      (h : List.Forall₂ (Orthography.plain (α := α)).token terminals tokens)
      (hforms : other.map Token.form = tokens.map Token.form) :
      List.Forall₂ (Orthography.plain (α := α)).token terminals other := by
    induction h generalizing other with
    | nil =>
        obtain rfl := List.map_eq_nil_iff.mp hforms
        exact .nil
    | cons hhead _ ih =>
        obtain ⟨token, rest, rfl, hform, hrest⟩ := List.map_eq_cons_iff.mp hforms
        exact .cons ((Token.terminal?_congr hform).trans hhead) (ih hrest)
  induction p generalizing tokens other with
  | empty | gap =>
      obtain rfl : tokens = [] := h
      exact List.map_eq_nil_iff.mp hforms
  | terminal a =>
      obtain ⟨token, rfl, hterminal⟩ := h
      obtain ⟨token', rfl, hform⟩ := List.map_eq_singleton_iff.mp hforms
      exact spelled_terminal ((Token.terminal?_congr hform).trans hterminal)
  | either usual other =>
      exact Or.imp (fun h => hforall h hforms) (fun h => hforall h hforms) h
  | provided holds =>
      obtain ⟨rfl, hholds⟩ := h
      exact ⟨List.map_eq_nil_iff.mp hforms, hholds⟩
  | seq first second ih ih' =>
      obtain ⟨front, back, rfl, hfirst, hsecond⟩ := h
      rw [List.map_append] at hforms
      obtain ⟨front', back', rfl, hfront, hback⟩ := List.map_eq_append_iff.mp hforms
      exact spelled_seq (ih hfirst hfront) (ih' hsecond hback)
  | deeper inner ih => exact ih h hforms
  | node note inner ih => exact spelled_node (ih h.1 hforms) trivial

/-- A source with the text as the value of a variable. -/
def declaring (text : List Char) : String :=
  "let v = " ++ String.ofList text ++ ";"

theorem bodyTokens_declaring {text : List Char} {forms : List (TokenKind × String)}
    (h : ReadsAs text forms) (fileId : Nat) :
    (bodyTokens (declaring text) fileId).map Token.form =
      [(.keyword .let_, "let"), (.ident "v", "v"), (.symbol .assign, "=")] ++ forms ++
        [(.symbol .semicolon, ";")] := by
  have hlet : ReadsAs ['l', 'e', 't'] [(.keyword .let_, "let")] :=
    .single ⟨rfl, rfl⟩ rfl (by decide)
  have hname : ReadsAs ['v'] [(.ident "v", "v")] := .single ⟨rfl, rfl⟩ rfl (by decide)
  have hassign : ReadsAs ['='] [(.symbol .assign, "=")] := .single ⟨rfl, rfl⟩ rfl (by decide)
  have hend : ReadsAs [';'] [(.symbol .semicolon, ";")] := .single ⟨rfl, rfl⟩ rfl (by decide)
  have hreads := (((hlet.blank hname).blank hassign).blank h).append hend
    fun _ _ _ hc => Option.some.inj hc ▸ rfl
  refine bodyTokens_of_readsAs ?_ fileId
  simpa [declaring] using hreads

/-- A module that declares the variable with this value. -/
def Module.declaring (value : Expr Span) : Module Span :=
  ⟨[.declaration ⟨false, .variable_ ⟨⟨"v", default⟩, none, value, default⟩, default⟩], default⟩

theorem Module.nesting_declaring (value : Expr Span) :
    (declaring value).phrase.nesting = (value.whole .free).nesting := by
  simp [declaring, Module.phrase, Item.phrase, Declaration.phrase, Definition.phrase,
    Binding.phrase, Binding.tail, TypeExpr.annotation, Name.phrase, gapped, symbol, keyword]

theorem Module.spelled_declaring {value : Expr Span} {part tokens : List Token}
    (h : (value.phrase .free).Spelled .plain part)
    (hforms : tokens.map Token.form =
      [(.keyword .let_, "let"), (.ident "v", "v"), (.symbol .assign, "=")] ++
        part.map Token.form ++ [(.symbol .semicolon, ";")]) :
    (declaring value).phrase.Spelled .plain tokens := by
  obtain ⟨first, tokens, rfl, hfirst, hforms⟩ := List.map_eq_cons_iff.mp hforms
  obtain ⟨name, tokens, rfl, hname, hforms⟩ := List.map_eq_cons_iff.mp hforms
  obtain ⟨assign, tokens, rfl, hassign, hforms⟩ := List.map_eq_cons_iff.mp hforms
  obtain ⟨front, back, rfl, hfront, hback⟩ := List.map_eq_append_iff.mp hforms
  obtain ⟨last, rfl, hlast⟩ := List.map_eq_singleton_iff.mp hback
  have hempty : (Phrase.empty : Phrase Span).Spelled .plain [] := rfl
  refine spelled_gapped rfl (spelled_node (spelled_seq hempty (spelled_node ?_ trivial)) trivial)
  refine spelled_seq (spelled_keyword (congrArg Prod.fst hfirst)) ?_
  refine spelled_seq (spelled_name (congrArg Prod.fst hname)) (spelled_seq hempty ?_)
  refine spelled_seq (spelled_symbol (congrArg Prod.fst hassign)) ?_
  exact spelled_seq (h.of_forms hfront) (spelled_symbol (congrArg Prod.fst hlast))

theorem analyse_declaring {value : Expr Span} {part : List Token} {text : List Char}
    (hspelled : (value.phrase .free).Spelled .plain part)
    (hfits : (value.whole .free).nesting ≤ Level.limit)
    (hreads : ReadsAs text (part.map Token.form)) (fileId : Nat) :
    (analyse (declaring text) fileId).module.shape.items = (Module.declaring value).shape.items ∧
      (analyse (declaring text) fileId).diagnostics.toList =
        (SourceOrder.sort Problem.start (lexicalProblems (declaring text) fileId)).map
          .ofProblem := by
  have hphrase := Module.spelled_declaring hspelled (bodyTokens_declaring hreads fileId)
  obtain ⟨hahead, -, hproblems⟩ := ofSource_state (declaring text) fileId
  have hclean : (Reading.ofSource (declaring text) fileId).state.Clean :=
    ⟨hproblems, hahead ▸ hphrase.kind_ne_invalid⟩
  have hbetween := between_of_spelled hphrase (hahead.trans (List.append_nil _).symm) hclean
  have hend : ((Reading.ofSource (declaring text) fileId).state.skip
      (bodyTokens (declaring text) fileId).length).current.kind = .eof := by
    rw [State.current, State.skip_ahead, hahead, List.drop_length]
    rfl
  obtain ⟨items, hitems, hshape⟩ := (Rule.module_gives (Level.allowing_recognises Level.limit)
    (Level.allowing_framed _) hbetween hend).ok ((Module.nesting_declaring value).trans_le hfits)
  obtain ⟨hmodule, hdiagnostics⟩ := analyse_of_items hitems
  constructor
  · simp only [Module.shape, Module.map, hmodule]
    exact hshape
  · rw [hdiagnostics, hbetween.clean_end.1, List.append_nil]

/-- Ranges of expressions are exact. In the tree of any source, the text in the range of an
expression is the same expression by itself: a source that declares a variable with this text
as its value has one item, that declaration, and nothing is wrong with it but what is malformed
inside of its tokens. -/
theorem analyse_exprs_alone (source : String) (fileId : Nat) :
    ∀ expr ∈ (analyse source fileId).module.exprs,
      (∃ text, Slice source.toList expr.note.start expr.note.stop text) ∧
      ∀ text, Slice source.toList expr.note.start expr.note.stop text → ∀ fileId',
        (analyse (declaring text) fileId').module.shape.items =
          [.declaration ⟨false, .variable_ ⟨⟨"v", ()⟩, none, expr.map forget, ()⟩, ()⟩] ∧
        ∀ diagnostic ∈ (analyse (declaring text) fileId').diagnostics.toList,
          ∃ problem ∈ lexicalProblems (declaring text) fileId',
            problem.cause.isLexical = true ∧ diagnostic = .ofProblem problem := by
  intro expr hmem
  obtain ⟨place, part, hpart, hcovers, hspelled⟩ := expr_spelled hmem
  obtain ⟨text, hslice, hreads⟩ := exists_excerpt hpart hcovers hspelled.kind_ne_invalid
  refine ⟨⟨text, hslice⟩, fun other hother fileId' => ?_⟩
  obtain rfl := hslice.unique hother
  have hfree : (expr.phrase .free).Spelled .plain part :=
    ((expr.layered hspelled).loosen expr.layer.assignment_le).written.1
  obtain ⟨hitems, hdiagnostics⟩ :=
    analyse_declaring hfree (nesting_whole_le hmem) hreads fileId'
  refine ⟨hitems, fun diagnostic hdiagnostic => ?_⟩
  rw [hdiagnostics] at hdiagnostic
  obtain ⟨problem, hproblem, rfl⟩ := List.mem_map.mp hdiagnostic
  have hmem := (SourceOrder.sort_perm _ _).mem_iff.mp hproblem
  exact ⟨problem, hmem, (lexicalProblems_noted (declaring text) fileId').lexical problem hmem, rfl⟩

theorem analyse_exprs_alone_unary :
    ∃ source expr, expr ∈ (analyse source 0).module.exprs ∧
      (analyse source 0).diagnostics.isEmpty = false ∧
      Slice source.toList expr.note.start expr.note.stop "-a.b".toList ∧
      (analyse "let v = -a.b;" 1).module.shape.items =
        [.declaration ⟨false, .variable_ ⟨⟨"v", ()⟩, none, expr.map forget, ()⟩, ()⟩] := by
  let source := "fn f() \x7b x = -a.b * 2; y = ; \x7d"
  have hlength : 3 < (analyse source 0).module.exprs.length := by decide +kernel
  have hspan (h : 3 < (analyse source 0).module.exprs.length) :
      ((analyse source 0).module.exprs.get ⟨3, h⟩).note = ⟨13, 17, 0⟩ := by
    revert h
    decide +kernel
  have hslice : Slice source.toList 13 17 "-a.b".toList :=
    ⟨"fn f() \x7b x = ".toList, " * 2; y = ; \x7d".toList, by decide, by decide, by decide⟩
  have hmem := List.get_mem _ ⟨3, hlength⟩
  have halone := (analyse_exprs_alone source 0 _ hmem).2
  rw [hspan hlength] at halone
  exact ⟨source, _, hmem, by decide +kernel, (hspan hlength).symm ▸ hslice, (halone _ hslice 1).1⟩

end SourceFront
