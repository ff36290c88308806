import SourceFront.Proofs.Malformed

/-!
Tokens strewn into what is written. A phrase is written with runs of tokens in its gaps that do
not belong to it, and a rule weathers them if it gives the same value with them and without, and
reports one problem for each run. How the runs come to be there, and where their problems are, is
a parameter.
-/

namespace SourceFront

/-- A part of what is written: a token that belongs to it, or a run of tokens that do not. -/
inductive Bit where
  | token (token : Token)
  | stray (run : List Token)
  deriving DecidableEq

namespace Bit

/-- The tokens of the parts, the runs that do not belong to them included if they are `strewn`. -/
def tokens (strewn : Bool) (bits : List Bit) : List Token :=
  bits.flatMap fun
    | .token kept => [kept]
    | .stray run => if strewn then run else []

/-- The runs that do not belong to the parts, if they are `strewn`. -/
def runs (strewn : Bool) (bits : List Bit) : List (List Token) :=
  bits.flatMap fun
    | .token _ => []
    | .stray run => if strewn then [run] else []

variable {strewn : Bool} {bits front back : List Bit}

@[simp] theorem tokens_nil : tokens strewn [] = [] := rfl

@[simp] theorem tokens_token (kept : Token) :
    tokens strewn (.token kept :: bits) = kept :: tokens strewn bits := rfl

@[simp] theorem tokens_append :
    tokens strewn (front ++ back) = tokens strewn front ++ tokens strewn back :=
  List.flatMap_append

@[simp] theorem tokens_map (list : List Token) : tokens strewn (list.map .token) = list := by
  induction list with
  | nil => rfl
  | cons kept list ih => rw [List.map_cons, tokens_token, ih]

theorem tokens_stray (run : List Token) :
    tokens strewn (.stray run :: bits) = (if strewn then run else []) ++ tokens strewn bits := rfl

/-- The tokens of which the runs have problems, if they are `strewn` and `rest` stands behind the
parts. -/
def sites (site : List Token → List Token → List Token) (strewn : Bool) :
    List Bit → (rest : List Token) → List (List Token)
  | [], _ => []
  | .token _ :: bits, rest => sites site strewn bits rest
  | .stray run :: bits, rest =>
      (if strewn then [site run (tokens strewn bits ++ rest)] else []) ++
        sites site strewn bits rest

/-- What stands behind each run, if all of them are strewn, is as `follows` asks. -/
def Followed (follows : List Token → Prop) : List Bit → (rest : List Token) → Prop
  | [], _ => True
  | .token _ :: bits, rest => Followed follows bits rest
  | .stray _ :: bits, rest => follows (tokens true bits ++ rest) ∧ Followed follows bits rest

variable {site : List Token → List Token → List Token} {follows : List Token → Prop}
  {rest : List Token}

theorem sites_append : sites site strewn (front ++ back) rest =
    sites site strewn front (tokens strewn back ++ rest) ++ sites site strewn back rest := by
  induction front with
  | nil => rfl
  | cons bit front ih =>
      cases bit with
      | token kept => exact ih
      | stray run =>
          simp only [List.cons_append, sites, ih, tokens_append, List.append_assoc]

@[simp] theorem sites_map (list : List Token) :
    sites site strewn (list.map .token) rest = [] := by
  induction list with
  | nil => rfl
  | cons kept list ih => exact ih

theorem sites_eq_runs : sites (fun run _ => run) strewn bits rest = runs strewn bits := by
  induction bits with
  | nil => rfl
  | cons bit bits ih =>
      cases bit with
      | token kept => exact ih
      | stray run => rw [sites, ih]; rfl

theorem followed_append : Followed follows (front ++ back) rest ↔
    Followed follows front (tokens true back ++ rest) ∧ Followed follows back rest := by
  induction front with
  | nil => exact ⟨fun h => ⟨trivial, h⟩, fun h => h.2⟩
  | cons bit front ih =>
      cases bit with
      | token kept => exact ih
      | stray run =>
          simp only [List.cons_append, Followed, ih, tokens_append, List.append_assoc, and_assoc]

theorem followed_of_forall (h : ∀ tokens, follows tokens) : Followed follows bits rest := by
  induction bits with
  | nil => trivial
  | cons bit bits ih =>
      cases bit with
      | token kept => exact ih
      | stray run => exact ⟨h _, ih⟩

end Bit

/-- One problem of each run, of a token in it. -/
def Located (runs : List (List Token)) (problems : List Problem) : Prop :=
  List.Forall₂ (fun run problem => ∃ token ∈ run, problem.span = token.span) runs problems

namespace Located

variable {runs more : List (List Token)} {problems later : List Problem}

theorem append (h : Located runs problems) (hlater : Located more later) :
    Located (runs ++ more) (problems ++ later) :=
  List.rel_append h hlater

end Located

namespace Phrase

variable {α : Type} {allowed allowed' : Nat → List Token → Prop} {p q : Phrase α} {n : Nat}
  {bits : List Bit}

/-- The parts are the phrase, written with no more than `n` levels of nesting, and in its gaps
runs of tokens that are `allowed` where the level is `n`. -/
def Strewn (allowed : Nat → List Token → Prop) : Phrase α → (n : Nat) → List Bit → Prop
  | .gap, n, bits => ∀ bit ∈ bits, ∃ run, bit = .stray run ∧ allowed n run
  | .seq first second, n, bits =>
      ∃ front back, bits = front ++ back ∧ first.Strewn allowed n front ∧
        second.Strewn allowed n back
  | .deeper inner, n, bits => ∃ m, n = m + 1 ∧ inner.Strewn allowed m bits
  | .node _ inner, n, bits => inner.Strewn allowed n bits
  | leaf, _, bits => ∃ tokens : List Token, bits = tokens.map .token ∧ leaf.Spelled .plain tokens

namespace Strewn

theorem imp (h : p.Strewn allowed n bits) (himp : ∀ m run, allowed m run → allowed' m run) :
    p.Strewn allowed' n bits := by
  induction p generalizing n bits with
  | empty | terminal | either | provided => exact h
  | gap =>
      intro bit hmem
      obtain ⟨run, hbit, hrun⟩ := h bit hmem
      exact ⟨run, hbit, himp n run hrun⟩
  | seq first second ih ih' =>
      obtain ⟨front, back, hbits, hfirst, hsecond⟩ := h
      exact ⟨front, back, hbits, ih hfirst, ih' hsecond⟩
  | deeper inner ih =>
      obtain ⟨m, hm, hinner⟩ := h
      exact ⟨m, hm, ih hinner⟩
  | node note inner ih => exact ih h

theorem fits (h : p.Strewn allowed n bits) : p.nesting ≤ n := by
  induction p generalizing n bits with
  | empty | terminal | either | provided | gap => exact Nat.zero_le n
  | seq first second ih ih' =>
      obtain ⟨front, back, -, hfirst, hsecond⟩ := h
      exact Nat.max_le.mpr ⟨ih hfirst, ih' hsecond⟩
  | deeper inner ih =>
      obtain ⟨m, rfl, hinner⟩ := h
      exact Nat.succ_le_succ (ih hinner)
  | node note inner ih => exact ih h

theorem spelled (h : p.Strewn allowed n bits) : p.Spelled .plain (Bit.tokens false bits) := by
  induction p generalizing n bits with
  | empty | terminal | either | provided =>
      obtain ⟨tokens, rfl, hspelled⟩ := h
      rwa [Bit.tokens_map]
  | gap =>
      refine List.flatMap_eq_nil_iff.mpr fun bit hmem => ?_
      obtain ⟨run, rfl, -⟩ := h bit hmem
      rfl
  | seq first second ih ih' =>
      obtain ⟨front, back, rfl, hfirst, hsecond⟩ := h
      rw [Bit.tokens_append]
      exact spelled_seq (ih hfirst) (ih' hsecond)
  | deeper inner ih =>
      obtain ⟨m, -, hinner⟩ := h
      exact ih hinner
  | node note inner ih => exact spelled_node (ih h) trivial

theorem plain (h : p.Strewn allowed n bits) (hbegins : ∀ front, ¬ p.Begins front) :
    ∃ tokens : List Token, bits = tokens.map .token ∧ p.Spelled .plain tokens := by
  induction p generalizing n bits with
  | empty | terminal | either | provided => exact h
  | gap => exact absurd rfl (hbegins [])
  | seq first second ih ih' =>
      obtain ⟨front, back, rfl, hfirst, hsecond⟩ := h
      obtain ⟨tokens, rfl, hspelled⟩ := ih hfirst fun front hfront => hbegins front (.inl hfront)
      obtain ⟨more, rfl, hspelled'⟩ := ih' hsecond fun front hfront =>
        hbegins _ (.inr ⟨tokens, front, rfl, hspelled, hfront⟩)
      exact ⟨tokens ++ more, List.map_append.symm, spelled_seq hspelled hspelled'⟩
  | deeper inner ih =>
      obtain ⟨m, -, hinner⟩ := h
      exact ih hinner hbegins
  | node note inner ih =>
      obtain ⟨tokens, htokens, hspelled⟩ := ih h hbegins
      exact ⟨tokens, htokens, spelled_node hspelled trivial⟩

theorem terminal_seq {a : Terminal} (h : (seq (.terminal a) q).Strewn allowed n bits) :
    ∃ token rest, bits = .token token :: rest ∧ token.terminal? = some a ∧
      q.Strewn allowed n rest := by
  obtain ⟨_, back, rfl, ⟨_, rfl, token, rfl, hterminal⟩, hback⟩ := h
  exact ⟨token, back, rfl, hterminal, hback⟩

theorem terminal {a : Terminal} (h : (.terminal a : Phrase α).Strewn allowed n bits) :
    ∃ token, bits = [.token token] ∧ token.terminal? = some a := by
  obtain ⟨_, rfl, token, rfl, hterminal⟩ := h
  exact ⟨token, rfl, hterminal⟩

theorem concat_cons {ps : List (Phrase α)} (h : (concat (p :: ps)).Strewn allowed n bits) :
    ∃ front back, bits = front ++ back ∧ p.Strewn allowed n front ∧
      (concat ps).Strewn allowed n back := by
  cases ps with
  | nil => exact ⟨bits, [], (List.append_nil bits).symm, h, [], rfl, rfl⟩
  | cons next ps => exact h

end Strewn

/-- What is left of the parts behind the terminals. -/
def behind : List Terminal → List Bit → Option (List Bit)
  | [], bits => some bits
  | a :: rest, .token token :: bits =>
      if token.terminal? = some a then behind rest bits else none
  | _ :: _, _ => none

theorem of_behind (α : Type) {terminals : List Terminal} {rest : List Bit}
    (h : behind terminals bits = some rest) : ∃ tokens : List Token,
      bits = tokens.map .token ++ rest ∧
        List.Forall₂ (Orthography.plain : Orthography α).token terminals tokens := by
  induction terminals generalizing bits with
  | nil => exact ⟨[], Option.some.inj h, .nil⟩
  | cons a terminals ih =>
      match bits with
      | [] | .stray _ :: _ => cases h
      | .token token :: bits =>
          rw [behind] at h
          split at h
          next hterminal =>
            obtain ⟨tokens, rfl, htokens⟩ := ih h
            exact ⟨token :: tokens, rfl, .cons hterminal htokens⟩
          next => cases h

/-- What is left of the parts behind the phrase, if it is written in the usual way and the runs
in its gaps are `known`. -/
def unwritten (known : Nat → List Token → Bool) : Phrase α → Nat → List Bit → Option (List Bit)
  | .empty, _, bits => some bits
  | .terminal a, _, bits => behind [a] bits
  | .either usual _, _, bits => behind usual bits
  | .gap, n, bits => bits.dropWhile fun
      | .token _ => false
      | .stray run => known n run
  | .provided holds, _, bits => if holds then some bits else none
  | .seq first second, n, bits =>
      (first.unwritten known n bits).bind (second.unwritten known n)
  | .deeper _, 0, _ => none
  | .deeper inner, n + 1, bits => inner.unwritten known n bits
  | .node _ inner, n, bits => inner.unwritten known n bits

theorem strewn_of_unwritten {known : Nat → List Token → Bool}
    (hknown : ∀ m run, known m run = true → allowed m run) {rest : List Bit}
    (h : p.unwritten known n bits = some rest) :
    ∃ front, bits = front ++ rest ∧ p.Strewn allowed n front := by
  induction p generalizing n bits rest with
  | empty => exact ⟨[], Option.some.inj h, [], rfl, rfl⟩
  | terminal a =>
      obtain ⟨tokens, rfl, htokens⟩ := of_behind α h
      cases htokens with
      | cons hterminal hnil =>
        cases hnil
        exact ⟨_, rfl, _, rfl, _, rfl, hterminal⟩
  | either usual other =>
      obtain ⟨tokens, rfl, htokens⟩ := of_behind α h
      exact ⟨_, rfl, tokens, rfl, .inl htokens⟩
  | gap =>
      obtain rfl := Option.some.inj h
      refine ⟨_, List.takeWhile_append_dropWhile.symm, fun bit hmem => ?_⟩
      have hbit := List.mem_takeWhile_imp hmem
      cases bit with
      | token token => cases hbit
      | stray run => exact ⟨run, rfl, hknown n run hbit⟩
  | provided holds =>
      rw [unwritten] at h
      split at h
      next hholds => exact ⟨[], Option.some.inj h, [], rfl, rfl, hholds⟩
      next => cases h
  | seq first second ih ih' =>
      obtain ⟨middle, hfirst, hsecond⟩ := Option.bind_eq_some_iff.mp h
      obtain ⟨front, rfl, hfront⟩ := ih hfirst
      obtain ⟨back, rfl, hback⟩ := ih' hsecond
      exact ⟨_, (List.append_assoc front back rest).symm, front, back, rfl, hfront, hback⟩
  | deeper inner ih =>
      cases n with
      | zero => cases h
      | succ n =>
          obtain ⟨front, hbits, hinner⟩ := ih h
          exact ⟨front, hbits, n, rfl, hinner⟩
  | node note inner ih => exact ih h

theorem Strewn.of_unwritten {known : Nat → List Token → Bool}
    (h : p.unwritten known n bits = some [])
    (hknown : ∀ m run, known m run = true → allowed m run) : p.Strewn allowed n bits := by
  obtain ⟨front, rfl, hfront⟩ := strewn_of_unwritten hknown h
  rwa [List.append_nil]

theorem Strewn.of_unwritten_run {m : Nat} {run : List Token}
    (h : p.unwritten (fun m' run' => m' = m ∧ run' = run) n bits = some [])
    (hrun : allowed m run) : p.Strewn allowed n bits := by
  refine .of_unwritten h fun m' run' hknown => ?_
  obtain ⟨rfl, rfl⟩ := of_decide_eq_true hknown
  exact hrun

end Phrase

/-- How runs of tokens come to stand in the gaps of blocks. -/
structure Straying where
  /-- Whether a run may stand where the level allows `n` phrases nested in one another. -/
  allowed : (n : Nat) → (run : List Token) → Prop
  /-- Whether tokens may stand behind a run. -/
  follows : List Token → Prop
  /-- The tokens of which a run may have its problem, if `rest` stands behind it. -/
  site : (run rest : List Token) → List Token
  /-- Whether the problem of a run can be told from those reported before. -/
  steady : State → Prop
  steady_of_sublist : ∀ {s t : State}, steady s → t.ahead.Sublist s.ahead →
    t.problems = s.problems → steady t
  head : ∀ {n : Nat} {run : List Token}, allowed n run →
    ∃ token ∈ run.head?, token.kind ≠ .keyword .else_
  /-- A round of the block leaves one problem of the run and reads nothing else. -/
  round : ∀ {n : Nat} {run rest : List Token} {s : State}, allowed n run → follows rest →
    s.ahead = run ++ rest → steady s →
      ∃ problem last, (∃ token ∈ site run rest, problem.span = token.span) ∧
        steady ⟨last, rest, s.stop, s.problems ++ [problem]⟩ ∧
        ∀ read, Rule.blockRound (Level.allowing n) read s =
          .ok (.more read) ⟨last, rest, s.stop, s.problems ++ [problem]⟩

namespace State

/-- The parts come next, then the rest. If `before` is a range, it is that of the token read
last. -/
structure Faces (straying : Straying) (stop : Span) (before : Option Span) (strewn : Bool)
    (bits : List Bit) (rest : List Token) (s : State) : Prop where
  stop : s.stop = stop
  last : ∀ span ∈ before, s.last = span
  ahead : s.ahead = Bit.tokens strewn bits ++ rest
  followed : strewn = true → Bit.Followed straying.follows bits rest
  steady : straying.steady s

variable {straying : Straying} {stop : Span} {before : Option Span} {strewn : Bool}
  {bits read left : List Bit} {rest : List Token} {s : State}

theorem Faces.front (h : s.Faces straying stop before strewn (read ++ left) rest) :
    s.Faces straying stop before strewn read (Bit.tokens strewn left ++ rest) where
  stop := h.stop
  last := h.last
  ahead := by rw [h.ahead, Bit.tokens_append, List.append_assoc]
  followed := by
    rintro rfl
    exact (Bit.followed_append.mp (h.followed rfl)).1
  steady := h.steady

theorem Faces.behind (h : s.Faces straying stop before strewn (read ++ left) rest) {last : Span}
    {after : Option Span} (hlast : ∀ span ∈ after, last = span) {problems : List Problem}
    (hsteady : straying.steady ⟨last, Bit.tokens strewn left ++ rest, s.stop, problems⟩) :
    Faces straying stop after strewn left rest
      ⟨last, Bit.tokens strewn left ++ rest, s.stop, problems⟩ where
  stop := h.stop
  last := hlast
  ahead := rfl
  followed := fun hstrewn => (Bit.followed_append.mp (h.followed hstrewn)).2
  steady := hsteady

theorem Faces.current {token : Token}
    (h : s.Faces straying stop before strewn (.token token :: bits) rest) : s.current = token :=
  current_of_ahead h.ahead

theorem Faces.advance {token : Token}
    (h : s.Faces straying stop before strewn (.token token :: bits) rest) :
    s.advance.Faces straying stop (some token.span) strewn bits rest := by
  have hreads := reads_advance_of_ahead h.ahead
  refine ⟨h.stop, ?_, ?_, h.followed, straying.steady_of_sublist h.steady ?_ rfl⟩
  · simp [hreads.last]
  · simp [State.advance, h.ahead]
  · exact List.tail_sublist s.ahead

theorem Faces.forget (h : s.Faces straying stop before strewn bits rest) :
    s.Faces straying stop none strewn bits rest :=
  ⟨h.stop, by simp, h.ahead, h.followed, h.steady⟩

theorem Faces.steady_behind (h : s.Faces straying stop before strewn bits rest) (last : Span) :
    straying.steady ⟨last, rest, s.stop, s.problems ++ []⟩ :=
  straying.steady_of_sublist h.steady (h.ahead ▸ List.sublist_append_right _ _)
    (List.append_nil _)

end State

namespace Rule

variable {α β : Type} {straying : Straying} {stop : Span} {before : Option Span}
  {next next' : Option Token → Prop} {bits front back : List Bit}

/-- With runs of tokens strewn among its own and without, the rule leads to the value and reports
one problem for each run, if what follows is as `next` asks. If `after` is a range, it is that of
the token read last. -/
def WeathersTo (straying : Straying) (stop : Span) (before : Option Span)
    (next : Option Token → Prop) (bits : List Bit) (rule : Rule β) (value : β)
    (after : Option Span) : Prop :=
  ∀ (strewn : Bool) (s : State) (rest : List Token),
    s.Faces straying stop before strewn bits rest → next rest.head? →
      ∃ last found, (∀ span ∈ after, last = span) ∧
        Located (Bit.sites straying.site strewn bits rest) found ∧
        straying.steady ⟨last, rest, s.stop, s.problems ++ found⟩ ∧
        rule s = .ok value ⟨last, rest, s.stop, s.problems ++ found⟩

/-- What two rules do one after the other. -/
theorem WeathersTo.inFront {rule : Rule α} {rest : Rule β} {value : α} {value' : β}
    {middle after : Option Span}
    (hrule : WeathersTo straying stop before next front rule value middle)
    (hmeets : ∀ strewn tokens, next' tokens.head? →
      next (Bit.tokens strewn back ++ tokens).head?)
    (hrest : WeathersTo straying stop middle next' back rest value' after) {strewn : Bool}
    {s : State} {tokens : List Token}
    (hfaces : s.Faces straying stop before strewn (front ++ back) tokens)
    (hnext : next' tokens.head?) :
    ∃ t last found, rule s = .ok value t ∧ t.ahead = Bit.tokens strewn back ++ tokens ∧
      rest t = .ok value' ⟨last, tokens, s.stop, s.problems ++ found⟩ ∧
      (∀ span ∈ after, last = span) ∧
      Located (Bit.sites straying.site strewn (front ++ back) tokens) found ∧
      straying.steady ⟨last, tokens, s.stop, s.problems ++ found⟩ := by
  obtain ⟨last, found, hlast, hfound, hsteady, hrun⟩ :=
    hrule strewn s _ hfaces.front (hmeets strewn tokens hnext)
  obtain ⟨last', found', hlast', hfound', hsteady', hrun'⟩ :=
    hrest strewn _ tokens (hfaces.behind hlast hsteady) hnext
  rw [List.append_assoc] at hsteady' hrun'
  refine ⟨_, last', found ++ found', hrun, rfl, hrun', hlast', ?_, hsteady'⟩
  rw [Bit.sites_append]
  exact hfound.append hfound'

theorem WeathersTo.bind {rule : Rule α} {rest : α → Rule β} {value : α} {value' : β}
    {middle after : Option Span}
    (hrule : WeathersTo straying stop before next front rule value middle)
    (hmeets : ∀ strewn tokens, next' tokens.head? →
      next (Bit.tokens strewn back ++ tokens).head?)
    (hrest : WeathersTo straying stop middle next' back (rest value) value' after) :
    WeathersTo straying stop before next' (front ++ back) (rule >>= rest) value' after := by
  intro strewn s tokens hfaces hnext
  obtain ⟨t, last, found, hrun, -, hrun', hlast, hfound, hsteady⟩ :=
    hrule.inFront hmeets hrest hfaces hnext
  exact ⟨last, found, hlast, hfound, hsteady, (bind_of_ok hrun rest).trans hrun'⟩

theorem WeathersTo.forget {rule : Rule β} {value : β} {after : Option Span}
    (h : WeathersTo straying stop none next bits rule value after) :
    WeathersTo straying stop before next bits rule value after :=
  fun strewn s rest hfaces hnext => h strewn s rest hfaces.forget hnext

theorem WeathersTo.iterate_more {σ : Type} {step : σ → Rule (Round σ)} {value value' result : σ}
    {element : Rule α} {found : α} {first : Token} {middle after : Option Span}
    (helement : WeathersTo straying stop before next (.token first :: front) element found middle)
    (hround : ∀ s t : State, s.current = first → element s = .ok found t →
      step value s = .ok (.more value') t)
    (hmeets : ∀ strewn tokens, next' tokens.head? →
      next (Bit.tokens strewn back ++ tokens).head?)
    (hrest : WeathersTo straying stop middle next' back (iterate step value') result after) :
    WeathersTo straying stop before next' (.token first :: front ++ back) (iterate step value)
      result after := by
  intro strewn s tokens hfaces hnext
  obtain ⟨t, last, found, hread, hahead, hrun, hlast, hfound, hsteady⟩ :=
    helement.inFront hmeets hrest hfaces hnext
  refine ⟨last, found, hlast, hfound, hsteady, ?_⟩
  have hlt : t.ahead.length < s.ahead.length := by
    rw [hahead, hfaces.ahead, Bit.tokens_append, Bit.tokens_token]
    simp only [List.cons_append, List.length_cons, List.length_append]
    omega
  rw [iterate_of_more (hround s t hfaces.current hread) hlt, hrun]

/-- Whatever is strewn among the tokens, the rule gives the same value. -/
def Weathers (straying : Straying) (stop : Span) (before : Option Span)
    (next : Option Token → Prop) (bits : List Bit) (rule : Rule β) : Prop :=
  ∃ value after, WeathersTo straying stop before next bits rule value (some after)

namespace Weathers

theorem congr {rule rule' : Rule β} (h : Weathers straying stop before next bits rule')
    (hrule : ∀ strewn s tokens, State.Faces straying stop before strewn bits tokens s →
      next tokens.head? → rule s = rule' s) : Weathers straying stop before next bits rule := by
  obtain ⟨value, after, hleads⟩ := h
  refine ⟨value, after, fun strewn s tokens hfaces hnext => ?_⟩
  rw [hrule strewn s tokens hfaces hnext]
  exact hleads strewn s tokens hfaces hnext

theorem pure {span : Span} (value : β) :
    Weathers straying stop (some span) next [] (pure value : Rule β) := by
  refine ⟨value, span, fun strewn s rest hfaces _ => ⟨s.last, [], ?_, .nil,
    hfaces.steady_behind s.last, ?_⟩⟩
  · exact fun other hother => hfaces.last other hother
  · rw [pure_apply, List.append_nil, show rest = s.ahead from hfaces.ahead.symm]

theorem given {value : α} {rest : α → Rule β}
    (h : Weathers straying stop before next bits (rest value)) :
    Weathers straying stop before next bits (Pure.pure value >>= rest) :=
  h.congr fun _ _ _ _ _ => rfl

theorem weaken {rule : Rule β} (h : Weathers straying stop before next bits rule)
    (hnext : ∀ token?, next' token? → next token?) :
    Weathers straying stop before next' bits rule := by
  obtain ⟨value, after, hrule⟩ := h
  exact ⟨value, after, fun strewn s rest hfaces hmeets =>
    hrule strewn s rest hfaces (hnext _ hmeets)⟩

theorem forget {rule : Rule β} {span : Span} (h : Weathers straying stop none next bits rule) :
    Weathers straying stop (some span) next bits rule := by
  obtain ⟨value, after, hrule⟩ := h
  exact ⟨value, after, hrule.forget⟩

theorem bind {rule : Rule α} {rest : α → Rule β}
    (hrule : Weathers straying stop before next front rule)
    (hmeets : ∀ strewn tokens, next' tokens.head? →
      next (Bit.tokens strewn back ++ tokens).head?)
    (hrest : ∀ value after, Weathers straying stop (some after) next' back (rest value)) :
    Weathers straying stop before next' (front ++ back) (rule >>= rest) := by
  obtain ⟨value, after, hrule⟩ := hrule
  obtain ⟨value', after', hrest⟩ := hrest value after
  exact ⟨value', after', hrule.bind hmeets hrest⟩

theorem map {rule : Rule α} {make : α → β} (h : Weathers straying stop before next bits rule) :
    Weathers straying stop before next bits (rule >>= fun value => Pure.pure (make value)) := by
  rw [← List.append_nil bits]
  exact h.bind (fun _ _ hnext => hnext) fun _ _ => .pure _

theorem current {token : Token} {rest : Token → Rule β}
    (h : Weathers straying stop before next (.token token :: bits) (rest token)) :
    Weathers straying stop before next (.token token :: bits) (Rule.current >>= rest) :=
  h.congr fun _ s _ hfaces _ => by rw [current_bind, hfaces.current]

theorem isAt {token : Token} {kind : TokenKind} {rest : Bool → Rule β}
    (h : Weathers straying stop before next (.token token :: bits)
      (rest (decide (token.kind = kind)))) :
    Weathers straying stop before next (.token token :: bits) (isAt kind >>= rest) :=
  h.congr fun _ s _ hfaces _ => by rw [isAt_bind, hfaces.current]

theorem advance {token : Token} {rest : Token → Rule β}
    (h : Weathers straying stop (some token.span) next bits (rest token)) :
    Weathers straying stop before next (.token token :: bits) (Rule.advance >>= rest) := by
  obtain ⟨value, after, hrest⟩ := h
  refine ⟨value, after, fun strewn s tokens hfaces hnext => ?_⟩
  rw [advance_bind, hfaces.current]
  exact hrest strewn s.advance tokens hfaces.advance hnext

theorem expect {token : Token} {symbol : Symbol} {rest : Token → Rule β}
    (hkind : token.kind = .symbol symbol)
    (h : Weathers straying stop (some token.span) next bits (rest token)) :
    Weathers straying stop before next (.token token :: bits) (expect symbol >>= rest) := by
  refine h.advance.congr fun strewn s tokens hfaces _ => ?_
  have hexpect : Rule.expect symbol s = .ok s.current s.advance :=
    expect_eq_ok.mpr ⟨by rw [hfaces.current, hkind], rfl, rfl⟩
  rw [bind_of_ok hexpect, advance_bind]

theorem taken {token : Token} {kind : TokenKind} {rest : Bool → Rule β} (hkind : token.kind = kind)
    (h : Weathers straying stop (some token.span) next bits (rest true)) :
    Weathers straying stop before next (.token token :: bits) (take? kind >>= rest) := by
  have hadvance : Weathers straying stop before next (.token token :: bits)
      (Rule.advance >>= fun _ => rest true) := advance h
  refine hadvance.congr fun strewn s tokens hfaces _ => ?_
  rw [take?_bind, if_pos (by rw [hfaces.current, hkind]), advance_bind]

theorem untaken {kind : TokenKind} {rest : Bool → Rule β}
    (hkind : ∀ strewn tokens, next tokens.head? →
      ∀ token ∈ (Bit.tokens strewn bits ++ tokens).head?, token.kind ≠ kind) (heof : kind ≠ .eof)
    (h : Weathers straying stop before next bits (rest false)) :
    Weathers straying stop before next bits (take? kind >>= rest) := by
  refine h.congr fun strewn s tokens hfaces hnext => ?_
  have hcurrent : s.current.kind ≠ kind := by
    have hhead := hkind strewn tokens hnext
    rw [← hfaces.ahead] at hhead
    cases hahead : s.ahead with
    | nil => simpa [State.current, hahead, Token.eof] using heof.symm
    | cons token rest =>
        rw [State.current_of_ahead hahead]
        exact hhead token (by rw [hahead]; rfl)
  rw [take?_bind, if_neg hcurrent]

theorem spanFrom {start span : Span} {rest : Span → Rule β}
    (h : Weathers straying stop (some span) next bits (rest (start.merge span))) :
    Weathers straying stop (some span) next bits (spanFrom start >>= rest) :=
  h.congr fun _ s _ hfaces _ => by
    rw [bind_of_ok (spanFrom_apply start s), hfaces.last span rfl]

theorem iterate_last {σ : Type} {step : σ → Rule (Round σ)} {value value' : σ} {span : Span}
    (hstep : ∀ s : State, s.stop = stop → next s.ahead.head? →
      step value s = .ok (.last value') s) :
    Weathers straying stop (some span) next [] (iterate step value) := by
  refine ⟨value', span, fun strewn s rest hfaces hnext => ⟨s.last, [], ?_, .nil,
    hfaces.steady_behind s.last, ?_⟩⟩
  · exact fun other hother => hfaces.last other hother
  · have hahead : s.ahead = rest := hfaces.ahead
    rw [iterate_of_last (hstep s hfaces.stop (hahead ▸ hnext)), List.append_nil, ← hahead]

theorem iterate_more {σ : Type} {step : σ → Rule (Round σ)} {value : σ} {element : Rule α}
    {make : α → σ} {first : Token}
    (helement : Weathers straying stop before next (.token first :: front) element)
    (hround : ∀ (s t : State) (found : α), s.current = first → element s = .ok found t →
      step value s = .ok (.more (make found)) t)
    (hmeets : ∀ strewn tokens, next' tokens.head? →
      next (Bit.tokens strewn back ++ tokens).head?)
    (hrest : ∀ found after,
      Weathers straying stop (some after) next' back (iterate step (make found))) :
    Weathers straying stop before next' (.token first :: front ++ back) (iterate step value) := by
  obtain ⟨found, after, helement⟩ := helement
  obtain ⟨value', after', hrest⟩ := hrest found after
  exact ⟨value', after', helement.iterate_more (hround · · found) hmeets hrest⟩

/-- Into a phrase without gaps nothing is strewn. The rule reads it alike wherever it stands, if
the token behind it is the same. -/
theorem of_gives {p : Phrase α} {allowed : Nat → List Token → Prop} {n : Nat} {rule : Rule β}
    {token? : Option Token} {span : Span} {loose : Prop} {good : β → Prop}
    (hstrewn : p.Strewn allowed n bits) (hbraced : p.Braced False) (hframed : rule.Framed)
    (hvalid : ∀ token ∈ token?, token.kind ≠ .invalid)
    (hgives : ∀ {s t : State}, p.Between s t → t.current = token?.getD (.eof stop) →
      Gives loose (p.nesting ≤ n) good rule s t) :
    Weathers straying stop (some span) (· = token?) bits rule := by
  obtain ⟨tokens, rfl, hspelled⟩ := hstrewn.plain fun front hbegins => (hbraced.opened hbegins).1
  obtain ⟨alone, halone⟩ : ∃ alone : State, alone = ⟨span, tokens ++ token?.toList, stop, []⟩ :=
    ⟨_, rfl⟩
  have hahead : alone.ahead = tokens ++ token?.toList := by rw [halone]
  have hclean : alone.Clean := by
    refine ⟨by rw [halone], fun token hmem => ?_⟩
    rw [hahead] at hmem
    rcases List.mem_append.mp hmem with hmem | hmem
    · exact hspelled.kind_ne_invalid token hmem
    · exact hvalid token (Option.mem_toList.mp hmem)
  have hskip : alone.skip tokens.length =
      ⟨(alone.skip tokens.length).last, token?.toList, stop, []⟩ := by
    rw [State.skip_eq, hahead, List.drop_left, halone]
  have hbetween := Phrase.between_of_spelled hspelled hahead hclean
  generalize alone.skip tokens.length = t at hskip hbetween
  have hcurrent : t.current = token?.getD (.eof stop) := by
    rw [hskip]
    cases token? <;> rfl
  obtain ⟨value, hrun, -⟩ := (hgives hbetween hcurrent).ok hstrewn.fits
  refine ⟨value, t.last, fun strewn s rest hfaces hnext => ⟨t.last, [], by simp, ?_,
    hfaces.steady_behind t.last, ?_⟩⟩
  · rw [Bit.sites_map]
    exact .nil
  have hnoting := hframed.quiet hrun hclean (by rw [hskip]) s.problems
  have hfaces' := hfaces.ahead
  rw [Bit.tokens_map] at hfaces'
  cases token? with
  | none =>
      obtain rfl : rest = [] := List.head?_eq_none_iff.mp hnext
      have hs : alone.noting s.problems = s := by
        rw [halone, State.noting, ← hfaces.stop, ← hfaces.last span rfl]
        simp [← hfaces']
      rw [hs] at hnoting
      rw [hnoting, hskip]
      simp [State.noting, hfaces.stop]
  | some token =>
      obtain ⟨rest, rfl⟩ : ∃ more, rest = token :: more := List.head?_eq_some_iff.mp hnext
      have hextend := hframed.extend_ok hnoting (by rw [hskip]; simp [State.noting]) rest s.stop
      have hs : (alone.noting s.problems).extend rest s.stop = s := by
        rw [halone, State.noting, State.extend, ← hfaces.last span rfl]
        simp [← hfaces']
      rw [hs] at hextend
      rw [hextend, hskip]
      simp [State.noting, State.extend]

end Weathers

end Rule

end SourceFront
