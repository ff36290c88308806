import Mathlib.Data.List.Forall2
import Mathlib.Order.MinMax
import SourceFront.Token.Basic

/-!
Phrases: how the nodes of a tree are written. A phrase lists the tokens of a node
in order, with what the tree leaves open, with the conditions under which the
node can be written so, and with the levels of nesting that reading it takes. An
orthography says which tokens a phrase may be spelled with.
-/

namespace SourceFront

/-- A token as far as a tree determines it. -/
inductive Terminal where
  | keyword (k : Keyword)
  | symbol (s : Symbol)
  | ident (name : String)
  | number (digits : String)
  | string (value : String)
  | char (value : Char)
  deriving DecidableEq, Repr

/-- What a token contributes to a tree. Invalid tokens and the end stand in no
tree. -/
def Token.terminal? (token : Token) : Option Terminal :=
  match token.kind with
  | .keyword k => some (.keyword k)
  | .symbol s => some (.symbol s)
  | .ident name => some (.ident name)
  | .number => some (.number token.text)
  | .string value => some (.string value)
  | .char value => some (.char value)
  | .invalid | .eof => none

/-- The kind of the tokens that contribute the terminal. -/
def Terminal.kind : Terminal → TokenKind
  | keyword k => .keyword k
  | symbol s => .symbol s
  | ident name => .ident name
  | number _ => .number
  | string value => .string value
  | char value => .char value

theorem Token.kind_of_terminal? {token : Token} {a : Terminal}
    (h : token.terminal? = some a) : token.kind = a.kind := by
  unfold terminal? at h
  split at h <;> cases h <;> assumption

/-- How a node with notes of type `α` is written. -/
inductive Phrase (α : Type) where
  | empty
  | terminal (t : Terminal)
  /-- One of two ways that the tree does not tell apart, the usual one first. -/
  | either (usual other : List Terminal)
  /-- A place at which recovery may have passed over tokens. -/
  | gap
  /-- Nothing is written, and only if the condition holds. -/
  | provided (holds : Bool)
  | seq (first second : Phrase α)
  /-- The inner phrase is nested one level deeper. -/
  | deeper (inner : Phrase α)
  | node (note : α) (inner : Phrase α)

/-- What is asked of the tokens that spell a phrase. -/
structure Orthography (α : Type) where
  /-- Whether a token may be written for a terminal. -/
  token : Terminal → Token → Prop
  /-- Whether a node whose tokens are given may have the note. -/
  note : α → List Token → Prop
  /-- Whether tokens may have been passed over. -/
  gap : List Token → Prop

namespace Orthography

variable {α : Type}

/-- Tokens that contribute what they should; none is passed over. -/
def plain : Orthography α where
  token t token := token.terminal? = some t
  note _ _ := True
  gap tokens := tokens = []

end Orthography

namespace Phrase

variable {α β : Type}

/-- A keyword by itself. -/
def keyword (k : Keyword) : Phrase α := .terminal (.keyword k)

/-- A symbol by itself. -/
def symbol (s : Symbol) : Phrase α := .terminal (.symbol s)

/-- One phrase behind the other. -/
def concat : List (Phrase α) → Phrase α
  | [] => .empty
  | [phrase] => phrase
  | phrase :: next :: phrases => .seq phrase (concat (next :: phrases))

/-- Phrases with a comma behind each. -/
def commaEnded : List (Phrase α) → Phrase α
  | [] => .empty
  | phrase :: phrases => concat [phrase, symbol .comma, commaEnded phrases]

/-- Phrases with commas between them. A comma may follow the last of them. -/
def commas : List (Phrase α) → Phrase α
  | [] => .empty
  | [phrase] => .seq phrase (.either [] [.symbol .comma])
  | phrase :: next :: phrases =>
      concat [phrase, symbol .comma, commas (next :: phrases)]

/-- Phrases behind one another, each with a separator in front of it. -/
def led (separator : Phrase α) : List (Phrase α) → Phrase α
  | [] => .empty
  | phrase :: phrases => concat [separator, phrase, led separator phrases]

/-- At least one phrase, with separators between them. -/
def separated (separator : Phrase α) : List (Phrase α) → Phrase α
  | [] => .provided false
  | phrase :: phrases => .seq phrase (led separator phrases)

/-- Phrases with gaps between and around them. -/
def gapped : List (Phrase α) → Phrase α
  | [] => .gap
  | phrase :: phrases => concat [.gap, phrase, gapped phrases]

/-- Whether `tokens` spell the phrase. -/
def Spelled (o : Orthography α) : Phrase α → List Token → Prop
  | .empty, tokens => tokens = []
  | .terminal t, tokens => ∃ token, tokens = [token] ∧ o.token t token
  | .either usual other, tokens =>
      List.Forall₂ o.token usual tokens ∨ List.Forall₂ o.token other tokens
  | .gap, tokens => o.gap tokens
  | .provided holds, tokens => tokens = [] ∧ holds = true
  | .seq first second, tokens =>
      ∃ front back, tokens = front ++ back ∧ first.Spelled o front ∧
        second.Spelled o back
  | .deeper inner, tokens => inner.Spelled o tokens
  | .node note inner, tokens => inner.Spelled o tokens ∧ o.note note tokens

section Spelled

variable {o : Orthography α} {p q : Phrase α} {ps : List (Phrase α)}
  {front back : List Token}

theorem spelled_terminal {t : Terminal} {token : Token} (h : o.token t token) :
    (terminal t).Spelled o [token] :=
  ⟨token, rfl, h⟩

theorem spelled_seq (hp : p.Spelled o front) (hq : q.Spelled o back) :
    (seq p q).Spelled o (front ++ back) :=
  ⟨front, back, rfl, hp, hq⟩

theorem spelled_seq_assoc {r : Phrase α} (h : (seq (seq p q) r).Spelled o front) :
    (seq p (seq q r)).Spelled o front := by
  obtain ⟨_, back, rfl, ⟨front, middle, rfl, hp, hq⟩, hr⟩ := h
  rw [List.append_assoc]
  exact spelled_seq hp (spelled_seq hq hr)

theorem spelled_provided_seq {holds : Bool} (h : holds = true)
    (hq : q.Spelled o back) : (seq (provided holds) q).Spelled o back :=
  ⟨[], back, rfl, ⟨rfl, h⟩, hq⟩

theorem spelled_node {note : α} (hp : p.Spelled o front) (hnote : o.note note front) :
    (node note p).Spelled o front :=
  ⟨hp, hnote⟩

theorem spelled_concat_append (hps : (concat ps).Spelled o front)
    (hp : p.Spelled o back) : (concat (ps ++ [p])).Spelled o (front ++ back) := by
  induction ps generalizing front with
  | nil =>
      obtain rfl : front = [] := hps
      exact hp
  | cons first ps ih =>
      cases ps with
      | nil => exact spelled_seq hps hp
      | cons next ps =>
          obtain ⟨first', rest, rfl, hfirst, hrest⟩ := hps
          rw [List.append_assoc]
          exact spelled_seq hfirst (ih hrest)

theorem spelled_commaEnded_append {comma : Token}
    (hps : (commaEnded ps).Spelled o front) (hp : p.Spelled o back)
    (hcomma : o.token (.symbol .comma) comma) :
    (commaEnded (ps ++ [p])).Spelled o (front ++ (back ++ [comma])) := by
  induction ps generalizing front with
  | nil =>
      obtain rfl : front = [] := hps
      refine ⟨back, [comma], rfl, hp, [comma], [], rfl, ?_, rfl⟩
      exact spelled_terminal hcomma
  | cons first ps ih =>
      obtain ⟨first', _, rfl, hfirst, comma', rest, rfl, hcomma', hrest⟩ := hps
      rw [List.append_assoc, List.append_assoc]
      exact ⟨first', _, rfl, hfirst, comma', _, rfl, hcomma', ih hrest⟩

theorem spelled_commas_append (hps : (commaEnded ps).Spelled o front)
    (hp : p.Spelled o back) : (commas (ps ++ [p])).Spelled o (front ++ back) := by
  induction ps generalizing front with
  | nil =>
      obtain rfl : front = [] := hps
      exact ⟨back, [], by simp, hp, .inl .nil⟩
  | cons first ps ih =>
      obtain ⟨first', _, rfl, hfirst, comma', rest, rfl, hcomma', hrest⟩ := hps
      rw [List.append_assoc, List.append_assoc]
      have hcommas := ih hrest
      cases ps with
      | nil | cons => exact ⟨first', _, rfl, hfirst, comma', _, rfl, hcomma', hcommas⟩

theorem spelled_commas_of_commaEnded (hps : (commaEnded ps).Spelled o front) :
    (commas ps).Spelled o front := by
  induction ps generalizing front with
  | nil => exact hps
  | cons first ps ih =>
      obtain ⟨first', _, rfl, hfirst, _, rest, rfl, ⟨comma, rfl, hcomma⟩, hrest⟩ := hps
      cases ps with
      | nil =>
          obtain rfl : rest = [] := hrest
          exact ⟨first', _, rfl, hfirst, .inr (.cons hcomma .nil)⟩
      | cons next ps =>
          exact ⟨first', _, rfl, hfirst, [comma], rest, rfl,
            spelled_terminal hcomma, ih hrest⟩

theorem spelled_led_append {separator : Phrase α} {middle : List Token}
    (hps : (led separator ps).Spelled o front)
    (hseparator : separator.Spelled o middle) (hp : p.Spelled o back) :
    (led separator (ps ++ [p])).Spelled o (front ++ (middle ++ back)) := by
  induction ps generalizing front with
  | nil =>
      obtain rfl : front = [] := hps
      exact ⟨middle, back, rfl, hseparator, back, [], by simp, hp, rfl⟩
  | cons first ps ih =>
      obtain ⟨middle', _, rfl, hmiddle', first', rest, rfl, hfirst, hrest⟩ := hps
      rw [List.append_assoc, List.append_assoc]
      exact ⟨middle', _, rfl, hmiddle', first', _, rfl, hfirst, ih hrest⟩

theorem spelled_separated_append {separator : Phrase α} {middle : List Token}
    (hps : (separated separator ps).Spelled o front)
    (hseparator : separator.Spelled o middle) (hp : p.Spelled o back) :
    (separated separator (ps ++ [p])).Spelled o (front ++ (middle ++ back)) := by
  cases ps with
  | nil => exact absurd hps.2 Bool.false_ne_true
  | cons first ps =>
      obtain ⟨first', rest, rfl, hfirst, hrest⟩ := hps
      rw [List.append_assoc]
      exact spelled_seq hfirst (spelled_led_append hrest hseparator hp)

theorem spelled_gapped_append {skipped : List Token}
    (hps : (gapped ps).Spelled o front) (hp : p.Spelled o back)
    (hgap : o.gap skipped) :
    (gapped (ps ++ [p])).Spelled o (front ++ (back ++ skipped)) := by
  induction ps generalizing front with
  | nil => exact ⟨front, _, rfl, hps, back, skipped, rfl, hp, hgap⟩
  | cons first ps ih =>
      obtain ⟨gap, _, rfl, hfront, first', rest, rfl, hfirst, hrest⟩ := hps
      rw [List.append_assoc, List.append_assoc]
      exact ⟨gap, _, rfl, hfront, first', _, rfl, hfirst, ih hrest⟩

theorem spelled_gapped_skip {skipped : List Token}
    (hgap : ∀ before, o.gap before → o.gap (before ++ skipped))
    (hps : (gapped ps).Spelled o front) : (gapped ps).Spelled o (front ++ skipped) := by
  induction ps generalizing front with
  | nil => exact hgap front hps
  | cons first ps ih =>
      obtain ⟨gap, _, rfl, hfront, first', rest, rfl, hfirst, hrest⟩ := hps
      rw [List.append_assoc, List.append_assoc]
      exact ⟨gap, _, rfl, hfront, first', _, rfl, hfirst, ih hrest⟩

theorem spelled_gapped {tokens : List Token} (hgap : o.gap [])
    (h : (concat ps).Spelled o tokens) : (gapped ps).Spelled o tokens := by
  induction ps generalizing tokens with
  | nil =>
      obtain rfl : tokens = [] := h
      exact hgap
  | cons p ps ih =>
      cases ps with
      | nil => exact ⟨[], tokens, rfl, hgap, tokens, [], (List.append_nil tokens).symm, h, hgap⟩
      | cons next ps =>
          obtain ⟨front, back, rfl, hp, hrest⟩ := h
          exact ⟨[], _, rfl, hgap, front, back, rfl, hp, ih hrest⟩

theorem spelled_concat_of_gapped {tokens : List Token}
    (hgap : ∀ skipped, o.gap skipped → skipped = [])
    (h : (gapped ps).Spelled o tokens) : (concat ps).Spelled o tokens := by
  induction ps generalizing tokens with
  | nil => exact hgap tokens h
  | cons p ps ih =>
      obtain ⟨gap, _, rfl, hfront, front, back, rfl, hp, hrest⟩ := h
      obtain rfl := hgap gap hfront
      rw [List.nil_append]
      cases ps with
      | nil =>
          obtain rfl : back = [] := ih hrest
          rwa [List.append_nil]
      | cons next ps => exact spelled_seq hp (ih hrest)

/-- If one orthography is wider than another on all parts of a list of tokens,
what the list spells in the narrower one it spells in the wider. -/
theorem Spelled.imp {o o' : Orthography α} {p : Phrase α} {tokens : List Token}
    (h : p.Spelled o tokens)
    (htoken : ∀ t, ∀ token ∈ tokens, o.token t token → o'.token t token)
    (hnote : ∀ note part, part <:+: tokens → o.note note part → o'.note note part)
    (hgap : ∀ part, part <:+: tokens → o.gap part → o'.gap part) :
    p.Spelled o' tokens := by
  induction p generalizing tokens with
  | empty => exact h
  | terminal t =>
      obtain ⟨token, rfl, hspelled⟩ := h
      exact spelled_terminal (htoken t token (by simp) hspelled)
  | either usual other =>
      have himp {ts : List Terminal} {tokens' : List Token} (hsub : ∀ token ∈ tokens',
          token ∈ tokens) (hts : List.Forall₂ o.token ts tokens') :
          List.Forall₂ o'.token ts tokens' := by
        induction hts with
        | nil => exact .nil
        | cons hhead _ ih =>
            exact .cons (htoken _ _ (hsub _ (by simp)) hhead)
              (ih fun token hmem => hsub token (by simp [hmem]))
      exact Or.imp (himp fun _ hmem => hmem) (himp fun _ hmem => hmem) h
  | gap => exact hgap tokens List.infix_rfl h
  | provided holds => exact h
  | seq first second ihFirst ihSecond =>
      obtain ⟨front, back, rfl, hfirst, hsecond⟩ := h
      have hfront : front <:+: front ++ back := (List.prefix_append front back).isInfix
      have hback : back <:+: front ++ back := (List.suffix_append front back).isInfix
      refine ⟨front, back, rfl, ihFirst hfirst ?_ ?_ ?_, ihSecond hsecond ?_ ?_ ?_⟩
      · exact fun t token hmem => htoken t token (by simp [hmem])
      · exact fun note part hpart => hnote note part (hpart.trans hfront)
      · exact fun part hpart => hgap part (hpart.trans hfront)
      · exact fun t token hmem => htoken t token (by simp [hmem])
      · exact fun note part hpart => hnote note part (hpart.trans hback)
      · exact fun part hpart => hgap part (hpart.trans hback)
  | deeper inner ih => exact ih h htoken hnote hgap
  | node note inner ih =>
      exact ⟨ih h.1 htoken hnote hgap, hnote note tokens List.infix_rfl h.2⟩

theorem Spelled.exists_terminal {tokens : List Token}
    (hgap : ∀ skipped, o.gap skipped → skipped = []) (h : p.Spelled o tokens) :
    ∀ token ∈ tokens, ∃ t, o.token t token := by
  have hforall {ts : List Terminal} {tokens : List Token}
      (h : List.Forall₂ o.token ts tokens) : ∀ token ∈ tokens, ∃ t, o.token t token := by
    induction h with
    | nil => simp
    | cons hhead _ ih =>
        intro token hmem
        rcases List.mem_cons.mp hmem with rfl | hmem
        · exact ⟨_, hhead⟩
        · exact ih token hmem
  induction p generalizing tokens with
  | empty =>
      obtain rfl : tokens = [] := h
      simp
  | terminal t =>
      obtain ⟨token, rfl, ht⟩ := h
      simpa using ⟨t, ht⟩
  | either usual other =>
      rcases h with h | h
      · exact hforall h
      · exact hforall h
  | gap => simp [hgap tokens h]
  | provided =>
      obtain ⟨rfl, -⟩ := h
      simp
  | seq first second ihFirst ihSecond =>
      obtain ⟨front, back, rfl, hfirst, hsecond⟩ := h
      intro token hmem
      rcases List.mem_append.mp hmem with hmem | hmem
      · exact ihFirst hfirst token hmem
      · exact ihSecond hsecond token hmem
  | deeper inner ih => exact ih h
  | node note inner ih => exact ih h.1

end Spelled

theorem Spelled.kind_ne_invalid {p : Phrase α} {tokens : List Token}
    (h : p.Spelled .plain tokens) : ∀ token ∈ tokens, token.kind ≠ .invalid := by
  intro token hmem hkind
  obtain ⟨a, hterminal⟩ := h.exists_terminal (fun _ hgap => hgap) token hmem
  simp [Orthography.plain, Token.terminal?, hkind] at hterminal

/-- The terminals of the phrase, written the usual way. -/
def terminals : Phrase α → List Terminal
  | .empty | .gap | .provided _ => []
  | .terminal t => [t]
  | .either usual _ => usual
  | .seq first second => first.terminals ++ second.terminals
  | .deeper inner | .node _ inner => inner.terminals

/-- Whether all conditions of the phrase hold. -/
def holds : Phrase α → Bool
  | .empty | .terminal _ | .either _ _ | .gap => true
  | .provided holds => holds
  | .seq first second => first.holds && second.holds
  | .deeper inner | .node _ inner => inner.holds

/-- If its conditions hold, a phrase may be written the usual way. -/
theorem spelled_of_terminals {p : Phrase α} {tokens : List Token} (hholds : p.holds = true)
    (h : tokens.map Token.terminal? = p.terminals.map some) : p.Spelled .plain tokens := by
  induction p generalizing tokens with
  | empty | gap => exact List.map_eq_nil_iff.mp h
  | terminal a =>
      obtain ⟨token, rfl, hterminal⟩ := List.map_eq_singleton_iff.mp h
      exact spelled_terminal hterminal
  | either usual other =>
      left
      have hsame : usual.map some = tokens.map Token.terminal? := h.symm
      rw [← List.forall₂_eq_eq_eq, List.forall₂_map_left_iff, List.forall₂_map_right_iff] at hsame
      exact hsame.imp fun _ _ hterminal => hterminal.symm
  | provided holds => exact ⟨List.map_eq_nil_iff.mp h, hholds⟩
  | seq first second ih ih' =>
      obtain ⟨hfirst, hsecond⟩ := Bool.and_eq_true_iff.mp hholds
      rw [terminals, List.map_append] at h
      obtain ⟨front, back, rfl, hfront, hback⟩ := List.map_eq_append_iff.mp h
      exact spelled_seq (ih hfirst hfront) (ih' hsecond hback)
  | deeper inner ih => exact ih hholds h
  | node note inner ih => exact spelled_node (ih hholds h) trivial

/-- How many levels the phrase is nested on its deepest path. -/
def nesting : Phrase α → Nat
  | .empty | .terminal _ | .either _ _ | .gap | .provided _ => 0
  | .seq first second => max first.nesting second.nesting
  | .deeper inner => inner.nesting + 1
  | .node _ inner => inner.nesting

section Parts

variable {phrase : Phrase α} {phrases : List (Phrase α)}

@[simp] theorem concat_nil : concat ([] : List (Phrase α)) = .empty := rfl

@[simp] theorem terminals_concat_cons :
    (concat (phrase :: phrases)).terminals = phrase.terminals ++ (concat phrases).terminals := by
  cases phrases with
  | nil => exact (List.append_nil _).symm
  | cons next phrases => rfl

@[simp] theorem holds_concat_cons :
    (concat (phrase :: phrases)).holds = (phrase.holds && (concat phrases).holds) := by
  cases phrases with
  | nil => exact (Bool.and_true _).symm
  | cons next phrases => rfl

@[simp] theorem nesting_concat_cons :
    (concat (phrase :: phrases)).nesting = max phrase.nesting (concat phrases).nesting := by
  cases phrases with
  | nil => exact (Nat.max_zero _).symm
  | cons next phrases => rfl

theorem nesting_concat_le {n : Nat} :
    (concat phrases).nesting ≤ n ↔ ∀ phrase ∈ phrases, phrase.nesting ≤ n := by
  induction phrases with
  | nil => simp [nesting]
  | cons phrase phrases ih => simp [ih]

theorem nesting_led_le {separator : Phrase α} {n : Nat} (h : separator.nesting = 0) :
    (led separator phrases).nesting ≤ n ↔ ∀ phrase ∈ phrases, phrase.nesting ≤ n := by
  induction phrases with
  | nil => simp [led, nesting]
  | cons phrase phrases ih => simp [led, ih, h, nesting]

theorem nesting_gapped_le {n : Nat} :
    (gapped phrases).nesting ≤ n ↔ ∀ phrase ∈ phrases, phrase.nesting ≤ n := by
  induction phrases with
  | nil => simp [gapped, nesting]
  | cons phrase phrases ih => simp [gapped, ih, nesting]

end Parts

end Phrase

end SourceFront
