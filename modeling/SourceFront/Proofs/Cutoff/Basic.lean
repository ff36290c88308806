import SourceFront.Proofs.Brace
import SourceFront.Proofs.Recognition.Basic

/-!
Phrases that break off between two statements, with the keyword of an item behind them.
A rule that reads such a phrase fails for want of a closing brace. A statement around it is
given up, and then what follows is lost: the brace that is open in it is looked for among
the tokens behind, where every brace that is closed was opened there.
-/

namespace SourceFront

/-- The problem of a token at which a closing brace should stand. -/
def Token.missingBrace (token : Token) : Problem :=
  ⟨.unexpectedToken ("`" ++ Symbol.rightBrace.spelling ++ "`") token.describe, token.span⟩

theorem State.Spells.exists_reads {s t : State} {ts : List Terminal} (h : s.Spells ts t) :
    ∃ tokens, s.Reads tokens t ∧
      List.Forall₂ (fun (a : Terminal) (token : Token) => token.terminal? = some a) ts tokens := by
  induction ts generalizing s with
  | nil =>
      obtain ⟨rfl, -⟩ := h
      exact ⟨[], .refl s, .nil⟩
  | cons a ts ih =>
      obtain ⟨hterminal, hrest⟩ := h
      obtain ⟨tokens, hreads, htokens⟩ := ih hrest
      exact ⟨s.current :: tokens, (reads_advance (kind_ne_eof hterminal)).trans hreads,
        .cons hterminal htokens⟩

namespace Phrase

variable {α β : Type} {p : Phrase α} {ps : List (Phrase α)} {s t : State}

theorem Between.exists_reads (h : p.Between s t) :
    ∃ tokens, s.Reads tokens t ∧ p.Spelled .plain tokens := by
  induction p generalizing s t with
  | empty | gap =>
      obtain ⟨rfl, -⟩ := h
      exact ⟨[], .refl s, rfl⟩
  | terminal a =>
      obtain ⟨_, hreads, _ | ⟨hterminal, _ | _⟩⟩ := State.Spells.exists_reads h
      exact ⟨_, hreads, spelled_terminal hterminal⟩
  | either usual other =>
      rcases h with h | h
      · obtain ⟨tokens, hreads, htokens⟩ := h.exists_reads
        exact ⟨tokens, hreads, .inl htokens⟩
      · obtain ⟨tokens, hreads, htokens⟩ := h.exists_reads
        exact ⟨tokens, hreads, .inr htokens⟩
  | provided holds =>
      obtain ⟨hholds, rfl, -⟩ := h
      exact ⟨[], .refl s, rfl, hholds⟩
  | seq first second ih ih' =>
      obtain ⟨u, hfirst, hsecond⟩ := h
      obtain ⟨front, hfront, hspelled⟩ := ih hfirst
      obtain ⟨back, hback, hspelled'⟩ := ih' hsecond
      exact ⟨_, hfront.trans hback, spelled_seq hspelled hspelled'⟩
  | deeper inner ih => exact ih h
  | node note inner ih =>
      obtain ⟨tokens, hreads, hspelled⟩ := ih h
      exact ⟨tokens, hreads, spelled_node hspelled trivial⟩

/-- From `s` on the phrase is written up to `t`, where it breaks off at a gap. -/
def Breaks : Phrase α → State → State → Prop
  | .gap, s, t => s.Spells [] t
  | .seq first second, s, t => first.Breaks s t ∨ ∃ u, first.Between s u ∧ second.Breaks u t
  | .deeper inner, s, t | .node _ inner, s, t => inner.Breaks s t
  | .empty, _, _ | .terminal _, _, _ | .either _ _, _, _ | .provided _, _, _ => False

theorem breaks_of_begins {tokens rest : List Token} (h : p.Begins tokens)
    (hahead : s.ahead = tokens ++ rest) (hclean : s.Clean) :
    p.Breaks s (s.skip tokens.length) := by
  induction p generalizing s tokens rest with
  | empty | terminal | either | provided => exact h.elim
  | gap =>
      obtain rfl : tokens = [] := h
      exact ⟨rfl, hclean⟩
  | seq first second ih ih' =>
      rcases h with h | ⟨front, back, rfl, hfront, hback⟩
      · exact .inl (ih h hahead hclean)
      · rw [List.append_assoc] at hahead
        have hbetween := between_of_spelled hfront hahead hclean
        have hrest : (s.skip front.length).ahead = back ++ rest := by
          rw [State.skip_ahead, hahead, List.drop_left]
        refine .inr ⟨_, hbetween, ?_⟩
        rw [List.length_append, State.skip_add]
        exact ih' hback hrest hbetween.clean_end
  | deeper inner ih | node note inner ih => exact ih h hahead hclean

theorem Breaks.exists_reads (h : p.Breaks s t) :
    ∃ tokens, s.Reads tokens t ∧ p.Begins tokens := by
  induction p generalizing s t with
  | empty | terminal | either | provided => exact h.elim
  | gap =>
      obtain ⟨rfl, -⟩ := h
      exact ⟨[], .refl s, rfl⟩
  | seq first second ih ih' =>
      rcases h with h | ⟨u, hfirst, hsecond⟩
      · obtain ⟨tokens, hreads, hbegins⟩ := ih h
        exact ⟨tokens, hreads, .inl hbegins⟩
      · obtain ⟨front, hfront, hspelled⟩ := hfirst.exists_reads
        obtain ⟨back, hback, hbegins⟩ := ih' hsecond
        exact ⟨_, hfront.trans hback, .inr ⟨front, back, rfl, hspelled, hbegins⟩⟩
  | deeper inner ih | node note inner ih => exact ih h

theorem Breaks.clean (h : p.Breaks s t) : s.Clean := by
  induction p generalizing s t with
  | empty | terminal | either | provided => exact h.elim
  | gap => exact State.Spells.clean h
  | seq first second ih _ =>
      rcases h with h | ⟨u, hfirst, -⟩
      · exact ih h
      · exact hfirst.clean
  | deeper inner ih | node note inner ih => exact ih h

theorem Braced.not_breaks (h : p.Braced False) : ¬ p.Breaks s t := by
  intro hbreaks
  obtain ⟨tokens, -, hbegins⟩ := hbreaks.exists_reads
  exact (h.opened hbegins).1

theorem breaks_concat_cons (h : (concat (p :: ps)).Breaks s t) :
    p.Breaks s t ∨ ∃ u, p.Between s u ∧ (concat ps).Breaks u t := by
  cases ps with
  | nil => exact .inl h
  | cons next ps => exact h

theorem breaks_concat_map {f : β → Phrase α} {xs : List β}
    (h : (concat (xs.map f)).Breaks s t) :
    ∃ front x back u, xs = front ++ x :: back ∧ (concat (front.map f)).Between s u ∧
      (f x).Breaks u t := by
  induction xs generalizing s with
  | nil => exact h.elim
  | cons x xs ih =>
      rcases breaks_concat_cons h with h | ⟨v, hfirst, hrest⟩
      · exact ⟨[], x, xs, s, rfl, ⟨rfl, h.clean⟩, h⟩
      · obtain ⟨front, y, back, u, rfl, hfront, hbreaks⟩ := ih hrest
        exact ⟨x :: front, y, back, u, rfl, between_concat_cons.mpr ⟨v, hfirst, hfront⟩, hbreaks⟩

theorem breaks_gapped_map {f : β → Phrase α} {xs : List β}
    (h : (gapped (xs.map f)).Breaks s t) :
    ∃ front back u, xs = front ++ back ∧ (concat (front.map f)).Between s u ∧
      (u = t ∨ ∃ x ∈ back.head?, (f x).Breaks u t) := by
  induction xs generalizing s with
  | nil =>
      obtain ⟨rfl, hclean⟩ := h
      exact ⟨[], [], s, rfl, ⟨rfl, hclean⟩, .inl rfl⟩
  | cons x xs ih =>
      rcases h with ⟨rfl, hclean⟩ | ⟨_, ⟨rfl, hclean⟩, h | ⟨v, hfirst, hrest⟩⟩
      · exact ⟨[], x :: xs, s, rfl, ⟨rfl, hclean⟩, .inl rfl⟩
      · exact ⟨[], x :: xs, s, rfl, ⟨rfl, hclean⟩, .inr ⟨x, rfl, h⟩⟩
      · obtain ⟨front, back, u, rfl, hfront, hbreaks⟩ := ih hrest
        exact ⟨x :: front, back, u, rfl, between_concat_cons.mpr ⟨v, hfirst, hfront⟩, hbreaks⟩

end Phrase

namespace State

variable {s t u : State} {tokens : List Token}

/-- At a keyword that can begin only an item, with no problem reported. No brace is open
among the tokens ahead but those that are closed there. -/
structure AtItem (t : State) : Prop where
  clean : t.Clean
  begins : t.current.kind.beginsItemOnly = true
  balanced : Balanced t.ahead
  apart : t.current.span.start ≠ t.stop.start

/-- At the end, behind tokens that were passed over from `t` on. A closing brace was found
missing at `t`, and perhaps at the end. -/
structure Lost (t u : State) : Prop where
  ahead : u.ahead = []
  stop : u.stop = t.stop
  problems : u.problems = [t.current.missingBrace] ∨
    u.problems = [t.current.missingBrace, (Token.eof t.stop).missingBrace]

theorem AtItem.beginsItem (h : t.AtItem) : t.current.kind.beginsItem = true := by
  have hbegins := h.begins
  cases hkind : t.current.kind with
  | keyword k => simp_all [TokenKind.beginsItemOnly, TokenKind.beginsItem, Keyword.beginsItem]
  | _ => simp [hkind, TokenKind.beginsItemOnly] at hbegins

theorem AtItem.report (h : t.AtItem) {problem : Problem} :
    t.report problem = t.noting [problem] := by
  have hinvalid := h.clean.current_ne_invalid
  rw [State.report, if_neg fun hat => hinvalid hat.1, h.clean.1, if_neg (by simp), noting,
    List.nil_append]

theorem AtItem.lost_skipStatement (h : t.AtItem) (hpasses : s.Passes tokens t)
    (hopened : Opened tokens) :
    t.Lost (skipStatement s (t.noting [t.current.missingBrace])) := by
  have hread : readSince s (t.noting [t.current.missingBrace]) = tokens := by
    rw [← readSince_of_passes hpasses]
    rfl
  obtain ⟨depth, hdepth⟩ : ∃ depth, openBraces tokens = depth + 1 :=
    Nat.exists_eq_add_one.mpr (hopened 0)
  have hrest (inFor fresh : Bool) :
      statementRest inFor (depth + 1) fresh t.ahead = t.ahead.length := by
    have hwhole := h.balanced.statementRest inFor depth []
    rw [List.append_nil] at hwhole
    rw [statementRest_fresh, hwhole]
    rfl
  have hahead : (t.noting [t.current.missingBrace]).ahead = t.ahead := rfl
  rw [skipStatement, hread, hdepth, hahead, hrest, skip_noting]
  refine ⟨?_, skip_stop _ t, .inl rfl⟩
  rw [noting, skip_ahead, List.drop_length]

theorem Lost.current (h : t.Lost u) : u.current = .eof t.stop := by
  rw [State.current, h.ahead, h.stop]
  rfl

theorem Lost.report (h : t.Lost u) (hitem : t.AtItem) :
    u.report (Token.eof t.stop).missingBrace =
      u.noting [t.current.missingBrace, (Token.eof t.stop).missingBrace] := by
  rw [State.report, if_neg (by simp [h.current, Token.eof])]
  rcases h.problems with hproblems | hproblems
  · rw [hproblems, if_neg (by
      simpa [Token.missingBrace, Problem.start, Token.eof] using hitem.apart)]
    rfl
  · rw [hproblems, if_pos (by simp), noting, ← hproblems]

theorem Lost.noting (h : t.Lost u) :
    t.Lost (u.noting [t.current.missingBrace, (Token.eof t.stop).missingBrace]) :=
  ⟨h.ahead, h.stop, .inr rfl⟩

end State

namespace Rule

variable {β γ : Type} {s t u v : State} {rule : Rule β} {next : β → Rule γ}

/-- The rule fails at `u` for want of a closing brace. -/
def Lacks (rule : Rule β) (s u : State) : Prop :=
  rule s = .error u.current.missingBrace u

theorem Lacks.bind (h : rule.Lacks s u) (next : β → Rule γ) : (rule >>= next).Lacks s u :=
  bind_of_error h next

theorem Lacks.behind {value : β} (hrule : rule s = .ok value v) (h : (next value).Lacks v u) :
    (rule >>= next).Lacks s u := by
  rw [Lacks, bind_of_ok hrule]
  exact h

/-- The rule fails for want of a closing brace, at `t` or when the tokens there are lost. -/
def BreaksOff (rule : Rule β) (s t : State) : Prop :=
  ∃ u, rule.Lacks s u ∧ (u = t ∨ t.Lost u)

namespace BreaksOff

theorem bind (h : rule.BreaksOff s t) (next : β → Rule γ) : (rule >>= next).BreaksOff s t := by
  obtain ⟨u, hlacks, hu⟩ := h
  exact ⟨u, hlacks.bind next, hu⟩

theorem behind {value : β} (hrule : rule s = .ok value v) (h : (next value).BreaksOff v t) :
    (rule >>= next).BreaksOff s t := by
  obtain ⟨u, hlacks, hu⟩ := h
  exact ⟨u, .behind hrule hlacks, hu⟩

theorem given {loose fits : Prop} {good : β → Prop} (hrule : Gives loose fits good rule s v)
    (hfits : fits) (h : ∀ value, (next value).BreaksOff v t) : (rule >>= next).BreaksOff s t := by
  obtain ⟨value, hvalue, -⟩ := hrule.ok hfits
  exact behind hvalue (h value)

theorem whenTaken {kind : TokenKind} {yes no : Rule β} (hkind : s.current.kind = kind)
    (h : yes.BreaksOff s.advance t) :
    (take? kind >>= fun taken => if taken then yes else no).BreaksOff s t := by
  refine behind (take?_eq_ok.mpr (.inl ⟨hkind, rfl, rfl⟩)) ?_
  rwa [if_pos rfl]

theorem whenAt {kind : TokenKind} {yes no : Rule β} (hkind : s.current.kind = kind)
    (h : yes.BreaksOff s t) :
    (isAt kind >>= fun found => if found then yes else no).BreaksOff s t := by
  have hrun : isAt kind s = .ok true s := by simp [isAt, current_bind, pure_apply, hkind]
  exact behind hrun (by rwa [if_pos rfl])

theorem unlessAt {kind : TokenKind} {yes no : Rule β} (hkind : s.current.kind ≠ kind)
    (h : no.BreaksOff s t) :
    (isAt kind >>= fun found => if found then yes else no).BreaksOff s t := by
  have hrun : isAt kind s = .ok false s := by simp [isAt, current_bind, pure_apply, hkind]
  exact behind hrun (by rwa [if_neg Bool.false_ne_true])

theorem unlessAtClose {close : Symbol} {yes no : Rule β}
    (hkind : s.current.kind ≠ .symbol close) (hmore : s.current.kind ≠ .eof)
    (h : no.BreaksOff s t) :
    (isAtClose close >>= fun found => if found then yes else no).BreaksOff s t := by
  have hrun : isAtClose close s = .ok false s := by
    simp [isAtClose, current_bind, pure_apply, hkind, Token.isEof, hmore]
  exact behind hrun (by rwa [if_neg Bool.false_ne_true])

theorem expect {symbol : Symbol} {next : Token → Rule β}
    (hkind : s.current.kind = .symbol symbol) (h : (next s.current).BreaksOff s.advance t) :
    (Rule.expect symbol >>= next).BreaksOff s t :=
  behind (expect_eq_ok.mpr ⟨hkind, rfl, rfl⟩) h

theorem advance {next : Token → Rule β} (h : (next s.current).BreaksOff s.advance t) :
    (Rule.advance >>= next).BreaksOff s t :=
  behind (advance_apply s) h

theorem current {next : Token → Rule β} (h : (next s.current).BreaksOff s t) :
    (Rule.current >>= next).BreaksOff s t :=
  behind (current_apply s) h

theorem iterate {σ : Type} {step : σ → Rule (Round σ)} {value : σ}
    (h : (step value).BreaksOff s t) : Rule.BreaksOff (iterate step value) s t := by
  obtain ⟨u, hlacks, hu⟩ := h
  exact ⟨u, iterate_of_error hlacks, hu⟩

theorem recover (h : rule.BreaksOff s t) (hitem : t.AtItem) {tokens : List Token}
    (hpasses : s.Passes tokens t) (hopened : Opened tokens) :
    ∃ u, Rule.recover rule State.skipStatement s = .ok none u ∧ t.Lost u := by
  obtain ⟨u, hlacks, rfl | hlost⟩ := h
  · refine ⟨_, ?_, hitem.lost_skipStatement hpasses hopened⟩
    rw [Rule.recover, hlacks]
    dsimp only
    rw [hitem.report]
  · refine ⟨_, ?_, hlost.noting⟩
    rw [Rule.recover, hlacks, hlost.current]
    dsimp only
    rw [hlost.report hitem, State.skipStatement, hlost.noting.ahead]
    rfl

end BreaksOff

end Rule

end SourceFront
