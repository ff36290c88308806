import SourceFront.Proofs.Layout

/-!
Lossless tokenization: a source is made up of its tokens and of the gaps in front of them,
and only its last gap may hold a comment that the end of the source breaks off. The places
of the tokens, and that their texts are those of the source, follow from this.
-/

namespace SourceFront

open Text

namespace Gap

/-- What may stand behind the last token: the last comment may run to the end. -/
inductive Closing : List Char → Prop where
  | filler {gap : List Char} (hgap : Filler gap) : Closing gap
  | line {gap body : List Char} (hgap : Filler gap) (hbody : '\n' ∉ body) :
      Closing (gap ++ '/' :: '/' :: body)
  | block {gap body : List Char} (hgap : Filler gap) (hbody : ¬ ['*', '/'] <:+: body) :
      Closing (gap ++ '/' :: '*' :: body)

theorem Filler.append {gap more : List Char} (h : Filler gap) (hmore : Filler more) :
    Filler (gap ++ more) := by
  induction h with
  | nil => exact hmore
  | blank hblank _ ih => exact .blank hblank ih
  | @line body cs hbody _ ih =>
      rw [List.append_assoc]
      exact .line hbody ih
  | @block body cs hbody _ ih =>
      rw [List.append_assoc]
      exact .block hbody ih

theorem Closing.append {gap more : List Char} (h : Filler gap) (hmore : Closing more) :
    Closing (gap ++ more) := by
  cases hmore with
  | filler hmore => exact .filler (h.append hmore)
  | line hmore hbody => exact List.append_assoc gap _ _ ▸ .line (h.append hmore) hbody
  | block hmore hbody => exact List.append_assoc gap _ _ ▸ .block (h.append hmore) hbody

theorem splitCommentEnd?_eq_some {cs text rest : List Char}
    (h : splitCommentEnd? cs = some (text, rest)) :
    ∃ body, text = body ++ ['*', '/'] ∧ ¬ ['*', '/'] <:+: body := by
  fun_induction splitCommentEnd? cs generalizing text with
  | case1 cs =>
      obtain ⟨rfl, rfl⟩ := Prod.mk.inj (Option.some.inj h)
      exact ⟨[], rfl, by simp⟩
  | case2 c cs hmark ih =>
      obtain ⟨⟨tail, last⟩, hsplit, hsame⟩ := Option.map_eq_some_iff.mp h
      obtain ⟨rfl, rfl⟩ := Prod.mk.inj hsame
      obtain ⟨body, rfl, hbody⟩ := ih hsplit
      refine ⟨c :: body, rfl, fun hpart => ?_⟩
      rcases List.infix_cons_iff.mp hpart with hbegin | hpart
      · obtain ⟨rfl, more, rfl⟩ := List.cons_prefix_cons.mp hbegin
        exact hmark _ rfl (splitCommentEnd?_eq_append hsplit)
      · exact hbody hpart
  | case3 => cases h

theorem splitCommentEnd?_eq_none {cs : List Char} (h : splitCommentEnd? cs = none) :
    ¬ ['*', '/'] <:+: cs := by
  fun_induction splitCommentEnd? cs with
  | case1 => cases h
  | case2 c cs hmark ih =>
      intro hpart
      rcases List.infix_cons_iff.mp hpart with hbegin | hpart
      · obtain ⟨rfl, more, rfl⟩ := List.cons_prefix_cons.mp hbegin
        exact hmark more rfl rfl
      · exact ih (Option.map_eq_none_iff.mp h) hpart
  | case3 => simp

theorem piece?_filler {cs text rest : List Char} (h : piece? cs = some (text, rest)) :
    Filler text ∨ ∃ body, text = '/' :: '/' :: body ∧ '\n' ∉ body ∧
      rest.head?.all (· = '\n') = true := by
  unfold piece? at h
  split at h
  next cs =>
    obtain ⟨rfl, rfl⟩ := Prod.mk.inj (Option.some.inj h)
    refine .inr ⟨_, rfl, fun hmem => ?_, ?_⟩
    · simpa using List.mem_takeWhile_imp hmem
    · cases hrest : cs.dropWhile (· != '\n') with
      | nil => rfl
      | cons c rest =>
          have hhead := List.head?_dropWhile_not (· != '\n') cs
          simpa [hrest] using hhead
  next cs =>
    obtain ⟨⟨body, last⟩, hsplit, hsame⟩ := Option.map_eq_some_iff.mp h
    obtain ⟨rfl, rfl⟩ := Prod.mk.inj hsame
    obtain ⟨body, rfl, hbody⟩ := splitCommentEnd?_eq_some hsplit
    exact .inl (.block hbody .nil)
  next c cs _ _ =>
    split at h
    next hblank =>
      obtain ⟨rfl, rfl⟩ := Prod.mk.inj (Option.some.inj h)
      exact .inl (.blank hblank .nil)
    next => cases h
  next => cases h

theorem Filler.of_feed {gap : List Char} (h : Filler ('\n' :: gap)) : Filler gap := by
  cases h with
  | blank _ hrest => exact hrest

theorem Closing.of_feed {gap : List Char} (h : Closing ('\n' :: gap)) : Closing gap := by
  generalize hwhole : '\n' :: gap = whole at h
  cases h with
  | filler hgap => exact .filler (hwhole ▸ hgap).of_feed
  | @line front body hfront hbody =>
      cases front with
      | nil => cases hwhole
      | cons c front =>
          obtain ⟨rfl, rfl⟩ := List.cons.inj hwhole
          exact .line hfront.of_feed hbody
  | @block front body hfront hbody =>
      cases front with
      | nil => cases hwhole
      | cons c front =>
          obtain ⟨rfl, rfl⟩ := List.cons.inj hwhole
          exact .block hfront.of_feed hbody

theorem read_text (cs : List Char) :
    ((read cs).rest ≠ [] → Filler (read cs).text) ∧ Closing (read cs).text := by
  fun_induction read cs with
  | case1 cs text rest hpiece gap ih =>
      obtain ⟨hfiller, hclosing⟩ := ih
      rcases piece?_filler hpiece with htext | ⟨body, rfl, hbody, hrest⟩
      · exact ⟨fun hne => htext.append (hfiller hne), hclosing.append htext⟩
      cases rest with
      | nil =>
          have hgap : gap = ⟨[], [], none⟩ := read_of_absent absent_nil
          rw [hgap]
          exact ⟨fun hne => absurd rfl hne, by simpa using Closing.line .nil hbody⟩
      | cons c rest =>
          -- The line feed behind a line comment is a piece of its own.
          obtain rfl : c = '\n' := by simpa using hrest
          have hfeed : gap.text = '\n' :: (read rest).text := by
            rw [show gap = read ('\n' :: rest) from rfl, read_of_piece (show
              piece? ('\n' :: rest) = some (['\n'], rest) from rfl)]
            rfl
          rw [hfeed] at hfiller hclosing ⊢
          exact ⟨fun hne => .line hbody (hfiller hne).of_feed,
            by simpa using hclosing.of_feed.append (.line hbody .nil)⟩
  | case2 cs hpiece hopens =>
      refine ⟨fun hne => absurd rfl hne, ?_⟩
      unfold opensComment at hopens
      split at hopens
      next body =>
        have hsplit : splitCommentEnd? body = none := by simpa [piece?] using hpiece
        exact Closing.block .nil (splitCommentEnd?_eq_none hsplit)
      next => cases hopens
  | case3 cs hpiece hopens => exact ⟨fun _ => .nil, .filler .nil⟩

end Gap

/-- What stands in a text from one byte to another. Both are boundaries between
characters. -/
def Text.Slice (source : List Char) (start stop : Nat) (text : List Char) : Prop :=
  ∃ before behind, source = before ++ (text ++ behind) ∧ start = byteLength before ∧
    stop = byteLength before + byteLength text

/-- From the byte `offset` on, the text is made up of tokens, each with a gap in front of
it. The last one is the end. -/
inductive Tokenized (fileId : Nat) : (offset : Nat) → List Char → List Token → Prop where
  | last {offset : Nat} {gap : List Char} (hgap : Gap.Closing gap) :
      Tokenized fileId offset gap
        [.eof ⟨offset + byteLength gap, offset + byteLength gap, fileId⟩]
  | more {offset : Nat} {gap rest : List Char} {token : Token} {tokens : List Token}
      (hgap : Gap.Filler gap) (hkind : token.kind ≠ .eof) (htext : token.text ≠ "")
      (hspan : token.span = ⟨offset + byteLength gap,
        offset + byteLength gap + byteLength token.text.toList, fileId⟩)
      (hrest : Tokenized fileId token.span.stop rest tokens) :
      Tokenized fileId offset (gap ++ (token.text.toList ++ rest)) (token :: tokens)

theorem TokenStream.tokenize_tokenized (stream : TokenStream) :
    Tokenized stream.fileId stream.offset stream.rest stream.tokenize.1 := by
  fun_induction tokenize stream with
  | case1 stream hend =>
      have hrest := rest_of_isEof hend
      have hsplit := Gap.read_text_append_rest stream.rest
      rw [hrest, List.append_nil] at hsplit
      have hclosing := (Gap.read_text stream.rest).2
      rw [next_of_end hrest]
      exact .last (hsplit ▸ hclosing)
  | case2 stream hend tokens last hmore ih =>
      obtain ⟨c, cs, hrest⟩ := exists_rest_of_not_isEof hend
      have hgap := (Gap.read_text stream.rest).1 (by simp [hrest])
      have hsplit := Gap.read_text_append_rest stream.rest
      rw [hrest, ← Lexeme.read_text_append_rest c cs] at hsplit
      rw [next_of_lexeme hrest] at hmore ih ⊢
      rw [hmore] at ih
      have htext : (stream.lexemeToken (Lexeme.read c cs)).text.toList =
          (Lexeme.read c cs).text := by simp [lexemeToken]
      rw [← htext] at hsplit
      rw [← hsplit]
      refine .more hgap (Lexeme.read_kind_ne_eof c cs) ?_ ?_ ih
      · simp [lexemeToken, Lexeme.read_text_ne_nil]
      · simp [lexemeToken, range]

namespace Tokenized

variable {fileId offset : Nat} {cs : List Char} {tokens : List Token}

/-- The text of each token is what stands in its place. -/
theorem slice (h : Tokenized fileId offset cs tokens) :
    ∀ token ∈ tokens, ∃ start stop, Slice cs start stop token.text.toList ∧
      token.span = ⟨offset + start, offset + stop, fileId⟩ := by
  induction h with
  | @last offset gap hgap =>
      rintro token hmem
      obtain rfl := List.mem_singleton.mp hmem
      exact ⟨byteLength gap, byteLength gap, ⟨gap, [], by simp [Token.eof], rfl, rfl⟩, rfl⟩
  | @more offset gap rest first tokens hgap _ _ hspan _ ih =>
      intro token hmem
      rcases List.mem_cons.mp hmem with rfl | hmem
      · exact ⟨_, _, ⟨gap, rest, rfl, rfl, rfl⟩, by rw [hspan, Nat.add_assoc]⟩
      · obtain ⟨_, _, ⟨before, behind, rfl, rfl, rfl⟩, hplace⟩ := ih token hmem
        refine ⟨_, _, ⟨gap ++ (first.text.toList ++ before), behind, by simp, rfl, rfl⟩, ?_⟩
        rw [hplace, hspan]
        simp [Nat.add_assoc]

/-- The gaps and the texts, one behind the other, are the text. -/
theorem exists_gaps (h : Tokenized fileId offset cs tokens) :
    ∃ gaps : List (List Char), gaps.length = tokens.length ∧
      cs = (gaps.zipWith (fun gap token => gap ++ token.text.toList) tokens).flatten := by
  induction h with
  | @last offset gap hgap => exact ⟨[gap], rfl, by simp [Token.eof]⟩
  | @more offset gap rest first tokens _ _ _ _ _ ih =>
      obtain ⟨gaps, hlength, rfl⟩ := ih
      exact ⟨gap :: gaps, by simp [hlength], by simp⟩

end Tokenized

/-- Nothing of a source is lost in its tokens. They stand in order at boundaries between
characters, each with its text, and between them are blanks and comments. The end of the
source is the last token, and no other. -/
theorem tokens_lossless (source : String) (fileId : Nat) :
    Tokenized fileId 0 source.toList (tokens source fileId) ∧
      (∀ token ∈ tokens source fileId,
        Slice source.toList token.span.start token.span.stop token.text.toList ∧
          token.span.fileId = fileId) ∧
      (tokens source fileId).Pairwise (fun a b => a.span.stop ≤ b.span.start) ∧
      (∃ body, tokens source fileId =
          body ++ [.eof ⟨source.utf8ByteSize, source.utf8ByteSize, fileId⟩] ∧
        ∀ token ∈ body, token.kind ≠ .eof ∧ token.span.start < token.span.stop) ∧
      ∃ gaps : List (List Char), gaps.length = (tokens source fileId).length ∧
        source.toList = (gaps.zipWith (fun gap token => gap ++ token.text.toList)
          (tokens source fileId)).flatten := by
  have hmade : Tokenized fileId 0 source.toList (tokens source fileId) :=
    (TokenStream.ofSource source fileId).tokenize_tokenized
  have hfollow := bodyTokens_follow source fileId
  refine ⟨hmade, ?_, ?_, ⟨bodyTokens source fileId, tokens_eq_append source fileId, ?_⟩,
    hmade.exists_gaps⟩
  · intro token hmem
    obtain ⟨start, stop, hslice, hspan⟩ := hmade.slice token hmem
    rw [hspan, Nat.zero_add, Nat.zero_add]
    exact ⟨hslice, rfl⟩
  · rw [tokens_eq_append]
    refine List.pairwise_append.mpr ⟨hfollow.pairwise, List.pairwise_singleton _ _, ?_⟩
    rintro token hmem last hlast
    obtain rfl := List.mem_singleton.mp hlast
    exact (hfollow.of_mem hmem).2.2.1
  · intro token hmem
    obtain ⟨-, hlt, -, -, hkind⟩ := hfollow.of_mem hmem
    exact ⟨hkind, hlt⟩

end SourceFront
