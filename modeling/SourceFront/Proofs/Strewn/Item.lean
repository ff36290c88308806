import SourceFront.Proofs.Sequence
import SourceFront.Proofs.Strewn.Rules

/-!
The rules for items weather what is strewn into the bodies of functions. No other item has gaps
that anything could be strewn into.
-/

namespace SourceFront.Rule

variable {α : Type} {straying : Straying} {stop span : Span} {n : Nat} {bits : List Bit}
  {token? : Option Token} {allowed : Nat → List Token → Prop}

theorem declared_gives {level : Level} (hlevel : level.Recognises α n) {proto : Prototype α}
    {s t : State} (hspells : proto.phrase.Between s t) (hend : t.current.kind.endsType = true) :
    Gives False (proto.phrase.nesting ≤ n) (fun value => value.map forget = proto.map forget)
      (name >>= prototype level) s t := by
  obtain ⟨_, ⟨hname, rfl, -⟩, _, hopen, _, hparams, _, hclose, hresult⟩ := hspells
  have hsame : (⟨proto.name.text, s.current.span⟩ : Name Span).map forget =
      proto.name.map forget := rfl
  exact .name (Token.kind_of_terminal? hname)
    (prototype_gives hlevel hsame hopen hparams hclose hresult hend)

theorem function_weathers {function : FunctionDef α} {before : Option Span}
    {next : Option Token → Prop} (hstrewn : function.phrase.Strewn straying.allowed n bits) :
    Weathers straying stop before next bits (Rule.function (Level.allowing n)) := by
  obtain ⟨first, _, rfl, -, front, back, rfl, hproto, hbody⟩ := Phrase.Strewn.terminal_seq hstrewn
  obtain ⟨left, rest, rfl, hleft⟩ := block_head hbody
  have hframed : (name >>= prototype (Level.allowing n)).Framed :=
    .bind name_framed fun name => prototype_framed (Level.allowing_framed n) name
  have hproto' : Weathers straying stop (some first.span) (· = some left) front
      (name >>= prototype (Level.allowing n)) :=
    .of_gives hproto function.proto.braced hframed (by simp [hleft]) fun hspells hcurrent =>
      declared_gives (Level.allowing_recognises n) hspells (by simp [hcurrent, hleft]; rfl)
  have hblock (proto : Prototype Span) (span : Span) : Weathers straying stop (some span) next
      (.token left :: rest) ((Level.allowing n).block >>= fun body =>
        pure (⟨proto, body, first.span.merge body.note⟩ : FunctionDef Span)) :=
    .map (body_weathers (Level.weathers straying α stop n) hbody)
  refine .advance ((Weathers.bind hproto' (fun _ _ _ => rfl) hblock).congr
    fun _ s _ _ _ => ?_)
  rw [bind_assoc]

theorem pub_function {isPublic : Bool} {function : FunctionDef α}
    (hstrewn : (Phrase.seq (if isPublic then .keyword .pub else .empty)
      function.phrase).Strewn allowed n bits) :
    ∃ fn rest, fn.kind = .keyword .fn ∧ function.phrase.Strewn allowed n (.token fn :: rest) ∧
      ((isPublic = false ∧ bits = .token fn :: rest) ∨
        ∃ pub, pub.kind = .keyword .pub ∧ isPublic = true ∧
          bits = .token pub :: .token fn :: rest) := by
  obtain ⟨front, back, rfl, hpub, hfunction⟩ := hstrewn
  obtain ⟨fn, rest, rfl, hterminal, -⟩ := Phrase.Strewn.terminal_seq hfunction
  refine ⟨fn, rest, Token.kind_of_terminal? hterminal, hfunction, ?_⟩
  cases isPublic with
  | false =>
      obtain ⟨_, rfl, rfl⟩ := hpub
      exact .inl ⟨rfl, rfl⟩
  | true =>
      obtain ⟨pub, rfl, hterminal⟩ := Phrase.Strewn.terminal hpub
      exact .inr ⟨pub, Token.kind_of_terminal? hterminal, rfl, rfl⟩

theorem item_cases (item : Item α) :
    (∃ isPublic function note, item = .declaration ⟨isPublic, .function function, note⟩) ∨
      item.phrase.Braced False := by
  cases item with
  | import_ source =>
      exact .inr (.node (.cons (.terminal rfl) (.cons (.terminal rfl)
        (.cons (.terminal rfl) .nil))))
  | declaration decl =>
      obtain ⟨isPublic, definition, note⟩ := decl
      by_cases hfunction : ∃ function, definition = .function function
      · obtain ⟨function, rfl⟩ := hfunction
        exact .inl ⟨isPublic, function, note, rfl⟩
      · exact .inr (.node (.seq (Declaration.pub_braced isPublic)
          (Definition.braced fun function h => hfunction ⟨function, h⟩)))

theorem item_head {item : Item α} (hstrewn : item.phrase.Strewn allowed n bits) :
    ∃ first rest k, bits = .token first :: rest ∧ first.kind = .keyword k := by
  rcases item_cases item with ⟨isPublic, function, note, rfl⟩ | hbraced
  · obtain ⟨fn, rest, hfn, -, ⟨-, hbits⟩ | ⟨pub, hpub, -, hbits⟩⟩ := pub_function hstrewn
    · exact ⟨fn, rest, _, hbits, hfn⟩
    · exact ⟨pub, _, _, hbits, hpub⟩
  · have hkeyword {s t : State} (hbetween : item.phrase.Between s t) :
        ∃ a : Terminal, s.current.kind = a.kind ∧ ∃ k, a = .keyword k := by
      obtain ⟨k, hkind⟩ := Item.between_kind hbetween
      exact ⟨.keyword k, hkind, k, rfl⟩
    obtain ⟨first, rest, hbits, _, hkind, k, rfl⟩ := plain_head hstrewn hbraced hkeyword
    exact ⟨first, rest, k, hbits, hkind⟩

theorem item_weathers {item : Item α} (hstrewn : item.phrase.Strewn straying.allowed n bits)
    (hnext : ∀ token ∈ token?, token.kind.followsItem = true) :
    Weathers straying stop (some span) (· = token?) bits (Rule.item (Level.allowing n)) := by
  have hframed := Level.allowing_framed n
  rcases item_cases item with ⟨isPublic, function, note, rfl⟩ | hbraced
  · obtain ⟨fn, rest, hfn, hfunction, hbits⟩ := pub_function hstrewn
    -- What is left of the declaration when its keyword `fn` comes next.
    have hrest (start span : Span) : Weathers straying stop (some span) (· = token?)
        (.token fn :: rest)
        (definition (Level.allowing n) >>= fun definition => spanFrom start >>= fun span =>
          pure (⟨isPublic, definition, span⟩ : Declaration Span)) := by
      have hdefinition : Weathers straying stop (some span) (· = token?) (.token fn :: rest)
          (definition (Level.allowing n)) := by
        refine .current ?_
        simp only [hfn]
        exact .map (function_weathers hfunction)
      rw [← List.append_nil (.token fn :: rest)]
      exact .bind hdefinition (fun _ _ hnext => hnext) fun _ _ => .spanFrom (.pure _)
    rcases hbits with ⟨hpublic, rfl⟩ | ⟨pub, hpub, hpublic, rfl⟩
    · refine .isAt ?_
      rw [decide_eq_false (by simp [hfn]), if_neg Bool.false_ne_true]
      have hnone (strewn : Bool) (tokens : List Token) (_ : tokens.head? = token?) :
          ∀ token ∈ (Bit.tokens strewn (.token fn :: rest) ++ tokens).head?,
            token.kind ≠ .keyword .pub := by
        simp [hfn]
      exact .map (.current (.untaken hnone nofun (hpublic ▸ hrest _ _)))
    · refine .isAt ?_
      rw [decide_eq_false (by simp [hpub]), if_neg Bool.false_ne_true]
      exact .map (.current (.taken hpub (hpublic ▸ hrest _ _)))
  · have hvalid : ∀ token ∈ token?, token.kind ≠ .invalid := by
      intro token hmem hkind
      have hfollows := hnext token hmem
      rw [hkind] at hfollows
      cases hfollows
    refine .of_gives hstrewn hbraced (item_framed hframed) hvalid fun hspells hcurrent =>
      item_gives (Level.allowing_recognises n) hspells ?_
    rw [hcurrent]
    cases token? with
    | none => rfl
    | some token => exact hnext token rfl

/-- The items up to the end. -/
theorem items_weather {items : List (Item α)}
    (hstrewn : (Phrase.concat (items.map Item.phrase)).Strewn straying.allowed n bits)
    (read : List (Item Span)) :
    Weathers straying stop (some span) (· = none) bits
      (iterate (moduleRound (Level.allowing n)) read) := by
  induction items generalizing bits span read with
  | nil =>
      obtain ⟨_, rfl, rfl⟩ := hstrewn
      have hlast (s : State) (_ : s.stop = stop) (hnext : s.ahead.head? = none) :
          moduleRound (Level.allowing n) read s = .ok (.last read) s := by
        refine moduleRound_of_end ?_
        rw [State.current, List.head?_eq_none_iff.mp hnext]
        rfl
      exact .iterate_last hlast
  | cons item items ih =>
      obtain ⟨front, back, rfl, hitem, hrest⟩ := hstrewn.concat_cons
      obtain ⟨first, more, k, rfl, hfirst⟩ := item_head hitem
      obtain ⟨follow, hfollows, hfollow⟩ : ∃ follow : Option Token,
          (∀ token ∈ follow, token.kind.followsItem = true) ∧
            ∀ strewn tokens, tokens.head? = none →
              (Bit.tokens strewn back ++ tokens).head? = follow := by
        cases items with
        | nil =>
            obtain ⟨_, rfl, rfl⟩ := hrest
            exact ⟨none, by simp, fun _ _ hnext => hnext⟩
        | cons item items =>
            obtain ⟨_, _, rfl, hitem, -⟩ := hrest.concat_cons
            obtain ⟨follow, rest, k, rfl, hfollow⟩ := item_head hitem
            exact ⟨some follow, by simp [hfollow, TokenKind.followsItem], fun _ _ _ => rfl⟩
      have hround (s t : State) (item : Item Span) (hcurrent : s.current = first)
          (hitem : Rule.item (Level.allowing n) s = .ok item t) :
          moduleRound (Level.allowing n) read s = .ok (.more (read ++ [item])) t :=
        moduleRound_of_item (by simp [hcurrent, Token.isEof, hfirst]) hitem
      exact .iterate_more (item_weathers hitem hfollows) hround hfollow fun item after => ih hrest _

end SourceFront.Rule
