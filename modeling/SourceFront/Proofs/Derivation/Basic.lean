import SourceFront.Proofs.Run
import SourceFront.Proofs.Spelling

/-!
The ranges of nodes. If tokens stand in the order of the source, the range of a
node goes from the start of its first token to the stop of its last one. What a
rule reads derives the phrase of what it returns, in an orthography that asks for
these ranges.
-/

namespace SourceFront

/-- Neither starts nor stops decrease along the tokens. -/
def Token.Ordered (tokens : List Token) : Prop :=
  tokens.Pairwise fun a b => a.span.start ≤ b.span.start ∧ a.span.stop ≤ b.span.stop

/-- Whether a range goes from the first to the last of `tokens`. -/
def Span.Covers (span : Span) (tokens : List Token) : Prop :=
  ∃ first last, tokens.head? = some first ∧ tokens.getLast? = some last ∧
    span = ⟨first.span.start, last.span.stop, first.span.fileId⟩

theorem Token.Ordered.sublist {tokens part : List Token} (h : Ordered tokens)
    (hpart : part.Sublist tokens) : Ordered part :=
  List.Pairwise.sublist hpart h

theorem Token.Ordered.head_start_le {tokens : List Token} {first token : Token}
    (h : Ordered tokens) (hhead : tokens.head? = some first) (hmem : token ∈ tokens) :
    first.span.start ≤ token.span.start := by
  cases tokens with
  | nil => simp at hhead
  | cons head rest =>
      obtain rfl : head = first := by simpa using hhead
      rcases List.mem_cons.mp hmem with rfl | hmem
      · exact Nat.le_refl _
      · exact ((List.pairwise_cons.mp h).1 token hmem).1

theorem Token.Ordered.stop_le_last {tokens : List Token} {last token : Token}
    (h : Ordered tokens) (hlast : tokens.getLast? = some last) (hmem : token ∈ tokens) :
    token.span.stop ≤ last.span.stop := by
  obtain ⟨before, rfl⟩ := List.getLast?_eq_some_iff.mp hlast
  rcases List.mem_append.mp hmem with hmem | hmem
  · exact ((List.pairwise_append.mp h).2.2 token hmem last (by simp)).2
  · obtain rfl := List.mem_singleton.mp hmem
    exact Nat.le_refl _

namespace Span.Covers

variable {a b : Span} {front back tokens : List Token} {s t : State}

theorem singleton (token : Token) : token.span.Covers [token] :=
  ⟨token, token, rfl, rfl, rfl⟩

theorem ne_nil (h : a.Covers tokens) : tokens ≠ [] := by
  obtain ⟨first, _, hhead, _⟩ := h
  rintro rfl
  simp at hhead

theorem merge (ha : a.Covers front) (hb : b.Covers back) (hfront : front <+: tokens)
    (hback : back <:+ tokens) (ordered : Token.Ordered tokens) :
    (a.merge b).Covers tokens := by
  obtain ⟨first, last, hfirst, hlast, rfl⟩ := ha
  obtain ⟨first', last', hfirst', hlast', rfl⟩ := hb
  have hhead : tokens.head? = some first := by
    obtain ⟨rest, rfl⟩ := hfront
    simp [List.head?_append, hfirst]
  have hend : tokens.getLast? = some last' := by
    obtain ⟨before, rfl⟩ := hback
    simp [List.getLast?_append, hlast']
  have hstart := ordered.head_start_le hhead
    (hback.subset (List.mem_of_mem_head? hfirst'))
  have hstop := ordered.stop_le_last hend
    (hfront.subset (List.mem_of_mem_getLast? hlast))
  refine ⟨first, last', hhead, hend, ?_⟩
  simp only [Span.merge, Span.mk.injEq, and_true]
  omega

theorem around (middle : List Token) (ha : Token.Ordered front → a.Covers front)
    (hb : Token.Ordered back → b.Covers back)
    (ordered : Token.Ordered (front ++ (middle ++ back))) :
    (a.merge b).Covers (front ++ (middle ++ back)) := by
  have hsuffix : back <:+ front ++ (middle ++ back) := ⟨front ++ middle, by simp⟩
  exact (ha (ordered.sublist (List.sublist_append_left _ _))).merge
    (hb (ordered.sublist hsuffix.sublist)) (List.prefix_append _ _) hsuffix ordered

theorem merge_last (ha : a.Covers front) (hfront : front <+: tokens)
    (h : s.Passes tokens t) (ordered : Token.Ordered tokens) :
    (a.merge t.last).Covers tokens := by
  have hne : tokens ≠ [] := by
    rintro rfl
    exact ha.ne_nil (List.prefix_nil.mp hfront)
  have hlast := h.last
  rw [List.getLast?_eq_some_getLast hne] at hlast
  rw [show t.last = (tokens.getLast hne).span from hlast]
  exact ha.merge (singleton _) hfront
    ⟨tokens.dropLast, List.dropLast_append_getLast hne⟩ ordered

end Span.Covers

/-- The range of what a rule has read begins with its first token. -/
theorem State.Passes.covers {s t : State} {tokens : List Token} (h : s.Passes tokens t)
    (hne : tokens ≠ []) (ordered : Token.Ordered tokens) :
    (s.current.span.merge t.last).Covers tokens := by
  obtain ⟨first, rest, rfl⟩ := List.exists_cons_of_ne_nil hne
  rw [State.current_of_ahead h.ahead]
  exact (Span.Covers.singleton first).merge_last ⟨rest, rfl⟩ h ordered

/-- The orthography of what is read: tokens contribute what they should, ranges
are those of the tokens, and tokens are passed over only if there is an invalid
token among them or if `noisy`, which stands for a problem having been reported. -/
def Orthography.located (noisy : Prop) : Orthography Span where
  token t token := token.terminal? = some t
  note span tokens := Token.Ordered tokens → span.Covers tokens
  gap tokens := tokens = [] ∨ noisy ∨ ∃ token ∈ tokens, token.kind = .invalid

/-- Whether what is read as the phrase may be `tokens`. -/
abbrev Phrase.Derives (noisy : Prop) (phrase : Phrase Span) (tokens : List Token) :
    Prop :=
  phrase.Spelled (.located noisy) tokens

namespace Phrase

variable {noisy : Prop} {token : Token}

theorem derives_keyword {k : Keyword} (h : token.kind = .keyword k) :
    (keyword k).Derives noisy [token] :=
  spelled_terminal (by simp [Orthography.located, Token.terminal?, h])

theorem derives_symbol {s : Symbol} (h : token.kind = .symbol s) :
    (symbol s).Derives noisy [token] :=
  spelled_terminal (by simp [Orthography.located, Token.terminal?, h])

theorem derives_ident {text : String} (h : token.kind = .ident text) :
    (terminal (.ident text)).Derives noisy [token] :=
  spelled_terminal (by simp [Orthography.located, Token.terminal?, h])

theorem spelled_stars_append {o : Orthography Span} {count : Nat} {tokens : List Token}
    (hstars : (stars count).Spelled o tokens) (hstar : o.token (.symbol .star) token) :
    (stars (count + 1)).Spelled o (tokens ++ [token]) := by
  induction count generalizing tokens with
  | zero =>
      obtain rfl : tokens = [] := hstars
      exact ⟨[token], [], rfl, spelled_terminal hstar, rfl⟩
  | succ count ih =>
      obtain ⟨first, rest, rfl, hfirst, hrest⟩ := hstars
      rw [List.append_assoc]
      exact spelled_seq hfirst (ih hrest)

theorem spelled_stars_succ {o : Orthography Span} {count : Nat} {tokens : List Token}
    (hstars : (stars (count + 1)).Spelled o tokens) :
    ∃ before star, tokens = before ++ [star] ∧ (stars count).Spelled o before ∧
      o.token (.symbol .star) star := by
  induction count generalizing tokens with
  | zero =>
      obtain ⟨_, _, rfl, ⟨star, rfl, hstar⟩, rfl⟩ := hstars
      exact ⟨[], star, rfl, rfl, hstar⟩
  | succ count ih =>
      obtain ⟨first, rest, rfl, hfirst, hrest⟩ := hstars
      obtain ⟨before, star, rfl, hbefore, hstar⟩ := ih hrest
      exact ⟨first ++ before, star, by simp, spelled_seq hfirst hbefore, hstar⟩

theorem derives_token {t : Terminal} (h : token.terminal? = some t) :
    (node token.span (terminal t)).Derives noisy [token] :=
  spelled_node (spelled_terminal h) fun _ => .singleton token

theorem Derives.covers {note : Span} {inner : Phrase Span} {tokens : List Token}
    (h : (node note inner).Derives noisy tokens) (ordered : Token.Ordered tokens) :
    note.Covers tokens :=
  h.2 ordered

end Phrase

end SourceFront
