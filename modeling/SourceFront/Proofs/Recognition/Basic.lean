import SourceFront.Proofs.Frame
import SourceFront.Proofs.Notes
import SourceFront.Proofs.Spelling

/-!
Recognition: what a rule does where a phrase is written. If the phrase is nested no
deeper than the level allows, the rule reads just its tokens, and the value has the
shape of the node that was written. If it is nested deeper, that is the first problem
the rule meets.
-/

namespace SourceFront

attribute [simp] Phrase.keyword Phrase.symbol Phrase.terminals Phrase.holds Phrase.nesting

theorem Token.text_of_terminal? {token : Token} {digits : String}
    (h : token.terminal? = some (.number digits)) : token.text = digits := by
  unfold terminal? at h
  split at h <;> cases h
  rfl

namespace State

/-- From `s` to `t`, the tokens contribute these terminals. -/
def Spells : State → List Terminal → State → Prop
  | s, [], t => s = t ∧ s.Clean
  | s, a :: ts, t => s.current.terminal? = some a ∧ s.advance.Spells ts t

/-- The first problem reported is that of nesting. -/
def Spoiled (t : State) : Prop :=
  ∃ problem later, t.problems = problem :: later ∧
    problem.cause = .nestingTooDeep Level.limit

variable {s t u : State} {a : Terminal} {ts ts' : List Terminal}

theorem Spells.kind (h : s.Spells (a :: ts) t) : s.current.kind = a.kind :=
  Token.kind_of_terminal? h.1

theorem Spells.clean_end (h : s.Spells ts t) : t.Clean := by
  induction ts generalizing s with
  | nil => exact h.1 ▸ h.2
  | cons a ts ih => exact ih h.2

theorem kind_ne_eof (h : s.current.terminal? = some a) : s.current.kind ≠ .eof := by
  rw [Token.kind_of_terminal? h]
  cases a <;> simp [Terminal.kind]

theorem Spells.clean (h : s.Spells ts t) : s.Clean := by
  induction ts generalizing s with
  | nil => exact h.2
  | cons a ts ih =>
      obtain ⟨hproblems, hahead⟩ := ih h.2
      obtain ⟨rest, hcons⟩ := ahead_of_current (kind_ne_eof h.1)
      refine ⟨hproblems, fun token hmem => ?_⟩
      rw [hcons] at hmem
      rcases List.mem_cons.mp hmem with rfl | hmem
      · rw [Token.kind_of_terminal? h.1]
        cases a <;> simp [Terminal.kind]
      · exact hahead token (by simpa [advance, hcons] using hmem)

theorem Spells.append (h : s.Spells (ts ++ ts') u) : ∃ t, s.Spells ts t ∧ t.Spells ts' u := by
  induction ts generalizing s with
  | nil => exact ⟨s, ⟨rfl, h.clean⟩, h⟩
  | cons a ts ih =>
      obtain ⟨t, hfirst, hsecond⟩ := ih h.2
      exact ⟨t, ⟨h.1, hfirst⟩, hsecond⟩

theorem Spells.length_le (h : s.Spells ts t) : t.ahead.length ≤ s.ahead.length := by
  induction ts generalizing s with
  | nil => exact h.1 ▸ Nat.le_refl _
  | cons a ts ih => exact Nat.le_trans (ih h.2) (by simp [advance])

theorem Spells.advance_length_lt (h : s.Spells (a :: ts) t) :
    s.advance.ahead.length < s.ahead.length := by
  obtain ⟨rest, hcons⟩ := ahead_of_current (kind_ne_eof h.1)
  simp [advance, hcons]

theorem Spells.length_lt (h : s.Spells (a :: ts) t) : t.ahead.length < s.ahead.length := by
  exact Nat.lt_of_le_of_lt h.2.length_le h.advance_length_lt

theorem Spoiled.trans {tokens : List Token} (h : s.Spoiled) (hpasses : s.Passes tokens t) :
    t.Spoiled := by
  obtain ⟨problem, later, hproblems, hcause⟩ := h
  obtain ⟨more, hmore⟩ := hpasses.problems
  exact ⟨problem, later ++ more, by rw [← hmore, hproblems, List.cons_append], hcause⟩

theorem Spells.trans (h : s.Spells ts t) (h' : t.Spells ts' u) : s.Spells (ts ++ ts') u := by
  induction ts generalizing s with
  | nil => exact h.1 ▸ h'
  | cons a ts ih => exact ⟨h.1, ih h.2⟩

theorem spells_of_forall₂ {tokens rest : List Token}
    (htokens : List.Forall₂ (fun a (token : Token) => token.terminal? = some a) ts tokens)
    (hahead : s.ahead = tokens ++ rest) (hclean : s.Clean) :
    s.Spells ts (s.skip tokens.length) := by
  induction htokens generalizing s with
  | nil => exact ⟨rfl, hclean⟩
  | @cons a token ts tokens hterminal _ ih =>
      have hadvance : s.advance.ahead = tokens ++ rest := by simp [advance, hahead]
      refine ⟨?_, ih hadvance ⟨hclean.1, fun other hmem => hclean.2 other ?_⟩⟩
      · rwa [current_of_ahead hahead]
      · rw [hahead]
        rw [hadvance] at hmem
        exact List.mem_cons_of_mem _ hmem

end State

namespace Phrase

variable {α β : Type} {s t u : State} {p q : Phrase α} {ps : List (Phrase α)}

/-- The phrase is written from `s` to `t`, in one of the ways that its tree does not tell
apart. -/
def Between : Phrase α → State → State → Prop
  | .empty, s, t | .gap, s, t => s.Spells [] t
  | .terminal a, s, t => s.Spells [a] t
  | .either usual other, s, t => s.Spells usual t ∨ s.Spells other t
  | .provided holds, s, t => holds = true ∧ s.Spells [] t
  | .seq first second, s, t => ∃ u, first.Between s u ∧ second.Between u t
  | .deeper inner, s, t | .node _ inner, s, t => inner.Between s t

/-- Whether every way of writing the phrase has a token. -/
def isSolid : Phrase α → Bool
  | .empty | .gap | .provided _ => false
  | .terminal _ => true
  | .either usual other => !usual.isEmpty && !other.isEmpty
  | .seq first second => first.isSolid || second.isSolid
  | .deeper inner | .node _ inner => inner.isSolid

attribute [simp] isSolid

@[simp] theorem isSolid_concat_cons :
    (concat (p :: ps)).isSolid = (p.isSolid || (concat ps).isSolid) := by
  cases ps with
  | nil => exact (Bool.or_false _).symm
  | cons next ps => rfl

theorem Between.clean (h : p.Between s t) : s.Clean := by
  induction p generalizing s t with
  | empty | gap | terminal a => exact h.clean
  | either usual other => exact h.elim State.Spells.clean State.Spells.clean
  | provided holds => exact h.2.clean
  | seq first second ih _ =>
      obtain ⟨u, hfirst, -⟩ := h
      exact ih hfirst
  | deeper inner ih | node note inner ih => exact ih h

theorem Between.clean_end (h : p.Between s t) : t.Clean := by
  induction p generalizing s t with
  | empty | gap | terminal a => exact h.clean_end
  | either usual other => exact h.elim State.Spells.clean_end State.Spells.clean_end
  | provided holds => exact h.2.clean_end
  | seq first second _ ih =>
      obtain ⟨u, -, hsecond⟩ := h
      exact ih hsecond
  | deeper inner ih | node note inner ih => exact ih h

theorem Between.length_le (h : p.Between s t) : t.ahead.length ≤ s.ahead.length := by
  induction p generalizing s t with
  | empty | gap | terminal a => exact h.length_le
  | either usual other => exact h.elim State.Spells.length_le State.Spells.length_le
  | provided holds => exact h.2.length_le
  | seq first second ih ih' =>
      obtain ⟨u, hfirst, hsecond⟩ := h
      exact Nat.le_trans (ih' hsecond) (ih hfirst)
  | deeper inner ih | node note inner ih => exact ih h

theorem Between.length_lt (h : p.Between s t) (hsolid : p.isSolid = true) :
    t.ahead.length < s.ahead.length := by
  induction p generalizing s t with
  | empty | gap | provided holds => cases hsolid
  | terminal a => exact State.Spells.length_lt h
  | either usual other =>
      cases usual <;> cases other <;> try cases hsolid
      exact h.elim State.Spells.length_lt State.Spells.length_lt
  | seq first second ih ih' =>
      obtain ⟨u, hfirst, hsecond⟩ := h
      rcases Bool.or_eq_true_iff.mp hsolid with hsolid | hsolid
      · exact Nat.lt_of_le_of_lt hsecond.length_le (ih hfirst hsolid)
      · exact Nat.lt_of_lt_of_le (ih' hsecond hsolid) hfirst.length_le
  | deeper inner ih | node note inner ih => exact ih h hsolid

theorem between_of_spells (hholds : p.holds = true) (h : s.Spells p.terminals t) :
    p.Between s t := by
  induction p generalizing s t with
  | empty | gap | terminal a => exact h
  | either usual other => exact .inl h
  | provided holds => exact ⟨hholds, h⟩
  | seq first second ih ih' =>
      obtain ⟨hfirst, hsecond⟩ := Bool.and_eq_true_iff.mp hholds
      obtain ⟨u, hfront, hback⟩ := State.Spells.append h
      exact ⟨u, ih hfirst hfront, ih' hsecond hback⟩
  | deeper inner ih | node note inner ih => exact ih hholds h

theorem between_of_spelled {tokens rest : List Token} (h : p.Spelled .plain tokens)
    (hahead : s.ahead = tokens ++ rest) (hclean : s.Clean) :
    p.Between s (s.skip tokens.length) := by
  induction p generalizing s tokens rest with
  | empty | gap =>
      obtain rfl : tokens = [] := h
      exact ⟨rfl, hclean⟩
  | terminal a =>
      obtain ⟨token, rfl, htoken⟩ := h
      exact State.spells_of_forall₂ (.cons htoken .nil) hahead hclean
  | either usual other =>
      exact Or.imp (State.spells_of_forall₂ · hahead hclean)
        (State.spells_of_forall₂ · hahead hclean) h
  | provided holds =>
      obtain ⟨rfl, hholds⟩ := h
      exact ⟨hholds, rfl, hclean⟩
  | seq first second ih ih' =>
      obtain ⟨front, back, rfl, hfirst, hsecond⟩ := h
      rw [List.append_assoc] at hahead
      have hfront := ih hfirst hahead hclean
      have hrest : (s.skip front.length).ahead = back ++ rest := by
        rw [State.skip_ahead, hahead, List.drop_left]
      refine ⟨_, hfront, ?_⟩
      rw [List.length_append, State.skip_add]
      exact ih' hsecond hrest hfront.clean_end
  | deeper inner ih => exact ih h hahead hclean
  | node note inner ih => exact ih h.1 hahead hclean

theorem between_concat_cons :
    (concat (p :: ps)).Between s t ↔ ∃ u, p.Between s u ∧ (concat ps).Between u t := by
  cases ps with
  | nil =>
      refine ⟨fun h => ⟨t, h, rfl, h.clean_end⟩, ?_⟩
      rintro ⟨u, h, rfl, -⟩
      exact h
  | cons next ps => rfl

theorem between_gapped : (gapped ps).Between s t ↔ (concat ps).Between s t := by
  induction ps generalizing s with
  | nil => rfl
  | cons p ps ih =>
      rw [between_concat_cons]
      constructor
      · rintro ⟨_, ⟨rfl, -⟩, u, hfirst, hrest⟩
        exact ⟨u, hfirst, ih.mp hrest⟩
      · rintro ⟨u, hfirst, hrest⟩
        exact ⟨s, ⟨rfl, hfirst.clean⟩, u, hfirst, ih.mpr hrest⟩

theorem between_led : (led q ps).Between s t ↔ (concat (ps.map (seq q))).Between s t := by
  induction ps generalizing s with
  | nil => rfl
  | cons p ps ih =>
      rw [List.map_cons, between_concat_cons]
      constructor
      · rintro ⟨u, hseparator, v, hfirst, hrest⟩
        exact ⟨v, ⟨u, hseparator, hfirst⟩, ih.mp hrest⟩
      · rintro ⟨v, ⟨u, hseparator, hfirst⟩, hrest⟩
        exact ⟨u, hseparator, v, hfirst, ih.mpr hrest⟩

end Phrase

namespace Rule

variable {α β γ : Type} {loose fits fits' : Prop} {s t u v : State}

/-- Whether an outcome is that a phrase was nested too deep. If it is `loose`, the
problem may have been reported, and the rule may have gone on from there. -/
def Refuses (loose : Prop) : EStateM.Result Problem State β → Prop
  | .error problem t =>
      (problem.cause = .nestingTooDeep Level.limit ∧ t.Clean) ∨ loose ∧ t.Spoiled
  | .ok _ t => loose ∧ t.Spoiled

/-- The rule leads from `s` to `t` with a value that is good, if the phrase fits into the
level; and if not, it is refused. -/
structure Gives (loose fits : Prop) (good : β → Prop) (rule : Rule β) (s t : State) :
    Prop where
  ok : fits → ∃ value, rule s = .ok value t ∧ good value
  refused : ¬ fits → Refuses loose (rule s)

namespace Gives

variable {good : β → Prop} {good' : γ → Prop} {rule : Rule β} {next : β → Rule γ}

theorem of_ok {value : β} (hrule : rule s = .ok value t) (h : good value) :
    Gives loose True good rule s t where
  ok _ := ⟨value, hrule, h⟩
  refused hnot := absurd trivial hnot

theorem pure {value : β} (h : good value) :
    Gives loose True good (pure value) t t :=
  of_ok rfl h

theorem imp {good₁ : β → Prop} (h : Gives loose fits good rule s t) (hfits : fits' ↔ fits)
    (hgood : ∀ value, good value → good₁ value) : Gives loose fits' good₁ rule s t where
  ok hyes := by
    obtain ⟨value, hrule, hvalue⟩ := h.ok (hfits.mp hyes)
    exact ⟨value, hrule, hgood value hvalue⟩
  refused hno := h.refused fun hyes => hno (hfits.mpr hyes)

theorem loosen (h : Gives False fits good rule s t) : Gives loose fits good rule s t where
  ok := h.ok
  refused hno := by
    have hrefused := h.refused hno
    cases hrule : rule s with
    | ok value u => simp [hrule, Refuses] at hrefused
    | error problem u =>
        rw [hrule] at hrefused
        exact .inl (hrefused.resolve_right fun hfalse => hfalse.1)

theorem congr {rule' : Rule β} (hrun : rule s = rule' s)
    (h : Gives loose fits good rule' s t) : Gives loose fits good rule s t where
  ok hyes := by
    rw [hrun]
    exact h.ok hyes
  refused hno := by
    rw [hrun]
    exact h.refused hno

theorem step {value : β} (hrule : rule s = .ok value u)
    (h : Gives loose fits good' (next value) u t) :
    Gives loose fits good' (rule >>= next) s t where
  ok hyes := by
    rw [bind_of_ok hrule]
    exact h.ok hyes
  refused hno := by
    rw [bind_of_ok hrule]
    exact h.refused hno

theorem bind (h : Gives False fits good rule s u)
    (hnext : ∀ value, good value → Gives loose fits' good' (next value) u t) :
    Gives loose (fits ∧ fits') good' (rule >>= next) s t where
  ok hyes := by
    obtain ⟨value, hrule, hvalue⟩ := h.ok hyes.1
    rw [bind_of_ok hrule]
    exact (hnext value hvalue).ok hyes.2
  refused hno := by
    by_cases hfits : fits
    · obtain ⟨value, hrule, hvalue⟩ := h.ok hfits
      rw [bind_of_ok hrule]
      exact (hnext value hvalue).refused fun hfits' => hno ⟨hfits, hfits'⟩
    · have hrefused : Refuses loose (rule s) := h.loosen.refused hfits
      have hstrict := h.refused hfits
      cases hrule : rule s with
      | ok value v => simp [hrule, Refuses] at hstrict
      | error problem v =>
          rw [bind_of_error hrule]
          rw [hrule] at hrefused
          exact hrefused

theorem finish (h : Gives False fits good rule s u)
    (hnext : ∀ value, good value → Gives loose True good' (next value) u t) :
    Gives loose fits good' (rule >>= next) s t :=
  (bind h hnext).imp (by rw [and_true]) fun _ hgood => hgood

theorem bindLoose (h : Gives True fits good rule s u) (hframed : ∀ value, (next value).Framed)
    (hnext : ∀ value, good value → Gives True fits' good' (next value) u t) :
    Gives True (fits ∧ fits') good' (rule >>= next) s t where
  ok hyes := by
    obtain ⟨value, hrule, hvalue⟩ := h.ok hyes.1
    rw [bind_of_ok hrule]
    exact (hnext value hvalue).ok hyes.2
  refused hno := by
    by_cases hfits : fits
    · obtain ⟨value, hrule, hvalue⟩ := h.ok hfits
      rw [bind_of_ok hrule]
      exact (hnext value hvalue).refused fun hfits' => hno ⟨hfits, hfits'⟩
    · have hrefused := h.refused hfits
      cases hrule : rule s with
      | error problem v =>
          rw [bind_of_error hrule]
          rw [hrule] at hrefused
          exact hrefused
      | ok value v =>
          rw [hrule] at hrefused
          rw [bind_of_ok hrule]
          cases hrun : next value v with
          | ok value' w =>
              obtain ⟨tokens, hpasses⟩ := (hframed value).ok hrun
              exact ⟨trivial, hrefused.2.trans hpasses⟩
          | error problem w =>
              obtain ⟨-, tokens, hpasses⟩ := (hframed value).error hrun
              exact .inr ⟨trivial, hrefused.2.trans hpasses⟩

section Tokens

variable {good : γ → Prop} {kind : TokenKind} {yes no : Rule γ}

theorem ifPos {c : Prop} [Decidable c] (hc : c) (h : Gives loose fits good yes s t) :
    Gives loose fits good (if c then yes else no) s t := by
  rwa [if_pos hc]

theorem ifNeg {c : Prop} [Decidable c] (hc : ¬ c) (h : Gives loose fits good no s t) :
    Gives loose fits good (if c then yes else no) s t := by
  rwa [if_neg hc]

theorem whenAt (hkind : s.current.kind = kind) (h : Gives loose fits good yes s t) :
    Gives loose fits good (isAt kind >>= fun found => if found then yes else no) s t := by
  have hrun : isAt kind s = .ok true s := by simp [isAt, current_bind, pure_apply, hkind]
  exact .step hrun (by rwa [if_pos rfl])

theorem unlessAt (hkind : s.current.kind ≠ kind) (h : Gives loose fits good no s t) :
    Gives loose fits good (isAt kind >>= fun found => if found then yes else no) s t := by
  have hrun : isAt kind s = .ok false s := by simp [isAt, current_bind, pure_apply, hkind]
  exact .step hrun (by rwa [if_neg Bool.false_ne_true])

theorem whenTaken (hkind : s.current.kind = kind)
    (h : Gives loose fits good yes s.advance t) :
    Gives loose fits good (take? kind >>= fun taken => if taken then yes else no) s t := by
  refine .step (take?_eq_ok.mpr (.inl ⟨hkind, rfl, rfl⟩)) ?_
  rwa [if_pos rfl]

theorem unlessTaken (hkind : s.current.kind ≠ kind) (h : Gives loose fits good no s t) :
    Gives loose fits good (take? kind >>= fun taken => if taken then yes else no) s t := by
  refine .step (take?_eq_ok.mpr (.inr ⟨hkind, rfl, rfl⟩)) ?_
  rwa [if_neg Bool.false_ne_true]

theorem whenAtClose {close : Symbol} (hkind : s.current.kind = .symbol close)
    (h : Gives loose fits good yes s t) :
    Gives loose fits good (isAtClose close >>= fun found => if found then yes else no) s t := by
  have hrun : isAtClose close s = .ok true s := by
    simp [isAtClose, current_bind, pure_apply, hkind]
  exact .step hrun (by rwa [if_pos rfl])

theorem unlessAtClose {close : Symbol} (hkind : s.current.kind ≠ .symbol close)
    (hmore : s.current.kind ≠ .eof) (h : Gives loose fits good no s t) :
    Gives loose fits good (isAtClose close >>= fun found => if found then yes else no) s t := by
  have hrun : isAtClose close s = .ok false s := by
    simp [isAtClose, current_bind, pure_apply, hkind, Token.isEof, hmore]
  exact .step hrun (by rwa [if_neg Bool.false_ne_true])

theorem expect {symbol : Symbol} {next : Token → Rule γ}
    (hkind : s.current.kind = .symbol symbol)
    (h : Gives loose fits good (next s.current) s.advance t) :
    Gives loose fits good (expect symbol >>= next) s t :=
  .step (expect_eq_ok.mpr ⟨hkind, rfl, rfl⟩) h

theorem advance {next : Token → Rule γ}
    (h : Gives loose fits good (next s.current) s.advance t) :
    Gives loose fits good (Rule.advance >>= next) s t :=
  .step (advance_apply s) h

theorem current {next : Token → Rule γ} (h : Gives loose fits good (next s.current) s t) :
    Gives loose fits good (Rule.current >>= next) s t :=
  .step (current_apply s) h

theorem spanFrom {start : Span} {next : Span → Rule γ}
    (h : Gives loose fits good (next (start.merge s.last)) s t) :
    Gives loose fits good (spanFrom start >>= next) s t :=
  .step (spanFrom_apply start s) h

theorem name {text : String} {next : Name Span → Rule γ}
    (hkind : s.current.kind = .ident text)
    (h : Gives loose fits good (next ⟨text, s.current.span⟩) s.advance t) :
    Gives loose fits good (name >>= next) s t :=
  .step (name_eq_ok.mpr ⟨text, hkind, rfl, rfl⟩) h

end Tokens

theorem iterate_more {σ : Type} {step : σ → Rule (Round σ)} {value : σ} {good good' : σ → Prop}
    (hframed : loose → ∀ value, (step value).Framed)
    (hround : Gives loose fits (fun round => ∃ next, round = .more next ∧ good next)
      (step value) s u) (hlt : u.ahead.length < s.ahead.length)
    (hrest : ∀ next, good next → Gives loose fits' good' (iterate step next) u t) :
    Gives loose (fits ∧ fits') good' (iterate step value) s t where
  ok hyes := by
    obtain ⟨_, hstep, next, rfl, hnext⟩ := hround.ok hyes.1
    rw [iterate_of_more hstep hlt]
    exact (hrest next hnext).ok hyes.2
  refused hno := by
    by_cases hfits : fits
    · obtain ⟨_, hstep, next, rfl, hnext⟩ := hround.ok hfits
      rw [iterate_of_more hstep hlt]
      exact (hrest next hnext).refused fun hfits' => hno ⟨hfits, hfits'⟩
    · have hrefused := hround.refused hfits
      cases hstep : step value s with
      | error problem v =>
          rw [iterate_of_error hstep]
          rwa [hstep] at hrefused
      | ok round v =>
          rw [hstep] at hrefused
          obtain ⟨hloose, hspoiled⟩ := hrefused
          cases round with
          | last last =>
              rw [iterate_of_last hstep]
              exact ⟨hloose, hspoiled⟩
          | more next =>
              rw [Rule.iterate, hstep]
              dsimp only
              split
              · have hframed' := Framed.iterate (hframed hloose) next
                cases hrun : iterate step next v with
                | ok last w =>
                    obtain ⟨tokens, hpasses⟩ := hframed'.ok hrun
                    exact ⟨hloose, hspoiled.trans hpasses⟩
                | error problem w =>
                    obtain ⟨-, tokens, hpasses⟩ := hframed'.error hrun
                    exact .inr ⟨hloose, hspoiled.trans hpasses⟩
              · exact ⟨hloose, hspoiled⟩

theorem iterate_last {σ : Type} {step : σ → Rule (Round σ)} {value : σ} {good : σ → Prop}
    (hround : Gives False fits (fun round => ∃ last, round = .last last ∧ good last)
      (step value) s t) : Gives loose fits good (iterate step value) s t where
  ok hyes := by
    obtain ⟨_, hstep, last, rfl, hlast⟩ := hround.ok hyes
    exact ⟨last, iterate_of_last hstep, hlast⟩
  refused hno := by
    have hrefused : Refuses loose (step value s) := hround.loosen.refused hno
    have hstrict := hround.refused hno
    cases hstep : step value s with
    | ok value v => simp [hstep, Refuses] at hstrict
    | error problem v =>
        rw [iterate_of_error hstep]
        rwa [hstep] at hrefused

theorem finishLoose (h : Gives True fits good rule s u)
    (hframed : ∀ value, (next value).Framed)
    (hnext : ∀ value, good value → Gives True True good' (next value) u t) :
    Gives True fits good' (rule >>= next) s t :=
  (bindLoose h hframed hnext).imp (by rw [and_true]) fun _ hgood => hgood

theorem refuse (hclean : s.Clean) (hfits : ¬ fits) :
    Gives loose fits good (failWith fun _ => .nestingTooDeep Level.limit) s t where
  ok hyes := absurd hyes hfits
  refused _ := .inl ⟨rfl, hclean⟩

end Gives

/-- A phrase with others joined to it: once it has been read, the repetition goes on from
its value. -/
structure Continues {σ : Type} (fits : Prop) (good : σ → Prop) (start : Rule σ)
    (step : σ → Rule (Round σ)) (s t : State) : Prop where
  ok : fits → ∃ value, good value ∧ (start >>= iterate step) s = iterate step value t
  refused : ¬ fits → Refuses False ((start >>= iterate step) s)

namespace Continues

variable {σ : Type} {good good' : σ → Prop} {start : Rule σ} {step : σ → Rule (Round σ)}

theorem of_gives (h : Gives False fits good start s t) : Continues fits good start step s t where
  ok hyes := by
    obtain ⟨value, hstart, hvalue⟩ := h.ok hyes
    exact ⟨value, hvalue, bind_of_ok hstart _⟩
  refused hno := by
    have hrefused := h.refused hno
    cases hstart : start s with
    | ok value u => simp [hstart, Refuses] at hrefused
    | error problem u =>
        have hrun : (start >>= iterate step) s = .error problem u := bind_of_error hstart _
        rw [hrun]
        rwa [hstart] at hrefused

theorem imp (h : Continues fits good start step s t) (hfits : fits' ↔ fits) :
    Continues fits' good start step s t where
  ok hyes := h.ok (hfits.mp hyes)
  refused hno := h.refused fun hyes => hno (hfits.mpr hyes)

theorem more (h : Continues fits good start step s u)
    (hround : ∀ value, good value →
      Gives False fits' (fun round => ∃ next, round = .more next ∧ good' next) (step value) u t)
    (hlt : t.ahead.length < u.ahead.length) :
    Continues (fits ∧ fits') good' start step s t where
  ok hyes := by
    obtain ⟨value, hvalue, hrun⟩ := h.ok hyes.1
    obtain ⟨_, hstep, next, rfl, hnext⟩ := (hround value hvalue).ok hyes.2
    exact ⟨next, hnext, hrun.trans (iterate_of_more hstep hlt)⟩
  refused hno := by
    by_cases hfits : fits
    · obtain ⟨value, hvalue, hrun⟩ := h.ok hfits
      have hrefused := (hround value hvalue).refused fun hfits' => hno ⟨hfits, hfits'⟩
      rw [hrun]
      cases hstep : step value u with
      | ok round v => simp [hstep, Refuses] at hrefused
      | error problem v =>
          rw [iterate_of_error hstep]
          rwa [hstep] at hrefused
    · exact h.refused hfits

theorem last (h : Continues fits good start step s t)
    (hround : ∀ value, step value t = .ok (.last value) t) :
    Gives False fits good (start >>= iterate step) s t where
  ok hyes := by
    obtain ⟨value, hvalue, hrun⟩ := h.ok hyes
    exact ⟨value, hrun.trans (iterate_of_last (hround value)), hvalue⟩
  refused := h.refused

end Continues

variable {α σ ρ : Type} {n : Nat} {close : Symbol}

/-- Whether the rule reads the phrase as an element of a list up to `close`. -/
structure ReadsElement (n : Nat) (close : Symbol) (element : Rule γ) (phrase : Phrase α)
    (good : γ → Prop) : Prop where
  gives : ∀ {s t : State}, phrase.Between s t →
    t.current.kind = .symbol .comma ∨ t.current.kind = .symbol close →
    Gives False (phrase.nesting ≤ n) good element s t
  head : ∀ {s t : State}, phrase.Between s t →
    ∃ a : Terminal, s.current.kind = a.kind ∧ a ≠ .symbol close ∧ a ≠ .symbol .ellipsis

theorem ReadsElement.kind {element : Rule γ} {phrase : Phrase α} {good : γ → Prop}
    (h : ReadsElement n close element phrase good) (hspells : phrase.Between s t) :
    s.current.kind ≠ .symbol close ∧ s.current.kind ≠ .symbol .ellipsis ∧
      s.current.kind ≠ .eof := by
  obtain ⟨a, hkind, hclose, hellipsis⟩ := h.head hspells
  rw [hkind]
  refine ⟨?_, ?_, ?_⟩
  · cases a <;> simp_all [Terminal.kind]
  · cases a <;> simp_all [Terminal.kind]
  · cases a <;> simp [Terminal.kind]

/-- How the rounds of a repetition read a list with commas between its elements. What has
been read holds the shapes of the elements behind it. -/
structure ReadsCommas (n : Nat) (close : Symbol) (step : ρ → Rule (Round ρ))
    (holds : ρ → List σ → Prop) (phrase : β → Phrase α) (shape : β → σ) (xs : List β) :
    Prop where
  empty : ∀ {s : State} {read : ρ} {shapes : List σ}, holds read shapes →
    s.current.kind = .symbol close →
    Gives False True (fun round => ∃ last, round = Round.last last ∧ holds last shapes)
      (step read) s s
  last : ∀ x ∈ xs, ∀ {s t : State} {read : ρ} {shapes : List σ}, holds read shapes →
    (phrase x).Between s t → t.current.kind = .symbol close →
    Gives False ((phrase x).nesting ≤ n)
      (fun round => ∃ last, round = Round.last last ∧ holds last (shapes ++ [shape x]))
      (step read) s t
  more : ∀ x ∈ xs, ∀ {s t : State} {read : ρ} {shapes : List σ}, holds read shapes →
    (phrase x).Between s t → t.current.kind = .symbol .comma →
    Gives False ((phrase x).nesting ≤ n)
      (fun round => ∃ next, round = Round.more next ∧ holds next (shapes ++ [shape x]))
      (step read) s t.advance

namespace ReadsCommas

variable {step : ρ → Rule (Round ρ)} {holds : ρ → List σ → Prop} {phrase : β → Phrase α}
  {shape : β → σ} {x : β} {xs : List β} {read : ρ} {shapes : List σ}

theorem tail (h : ReadsCommas n close step holds phrase shape (x :: xs)) :
    ReadsCommas n close step holds phrase shape xs where
  empty := h.empty
  last y hy := h.last y (List.mem_cons_of_mem x hy)
  more y hy := h.more y (List.mem_cons_of_mem x hy)

theorem cons (h : ReadsCommas n close step holds phrase shape (x :: xs))
    (hread : holds read shapes) {good : ρ → Prop} (hspells : (phrase x).Between s u)
    (hcomma : u.Spells [.symbol .comma] v)
    (hrest : ∀ {next : ρ}, holds next (shapes ++ [shape x]) →
      Gives False fits good (iterate step next) v t) :
    Gives False ((phrase x).nesting ≤ n ∧ fits) good (iterate step read) s t := by
  have hkind := hcomma.kind
  have hlt : v.ahead.length < s.ahead.length :=
    Nat.lt_of_lt_of_le hcomma.length_lt hspells.length_le
  obtain ⟨-, rfl, -⟩ := hcomma
  exact .iterate_more False.elim (h.more x (by simp) hread hspells hkind) hlt
    fun next hnext => hrest hnext

theorem gives (h : ReadsCommas n close step holds phrase shape xs) (hread : holds read shapes)
    (hspells : (Phrase.commas (xs.map phrase)).Between s t)
    (hend : t.current.kind = .symbol close) :
    Gives False ((Phrase.commas (xs.map phrase)).nesting ≤ n)
      (fun last => holds last (shapes ++ xs.map shape)) (iterate step read) s t := by
  induction xs generalizing s read shapes with
  | nil =>
      obtain ⟨rfl, -⟩ := hspells
      refine (Gives.iterate_last (h.empty hread hend)).imp ?_ ?_
      · simp [Phrase.commas, Phrase.nesting]
      · simp
  | cons x xs ih =>
      cases xs with
      | nil =>
          obtain ⟨u, hspells, ⟨rfl, -⟩ | hcomma⟩ := hspells
          · refine (Gives.iterate_last (h.last x (by simp) hread hspells hend)).imp ?_ ?_
            · simp [Phrase.commas, Phrase.nesting]
            · simp
          · refine (h.cons hread hspells hcomma fun hnext =>
              Gives.iterate_last (h.empty hnext hend)).imp ?_ ?_
            · simp [Phrase.commas, Phrase.nesting]
            · simp
      | cons y xs =>
          obtain ⟨u, hspells, v, hcomma, hrest⟩ := hspells
          refine (h.cons hread hspells hcomma fun hnext => ih h.tail hnext hrest).imp ?_ ?_
          · simp [Phrase.commas, Phrase.concat, Phrase.nesting, Phrase.symbol]
          · simp

end ReadsCommas

/-- How the rounds of a repetition read phrases behind one another, up to a token at which
it `ends`. What has been read holds the shapes of the phrases behind it. A phrase may be
followed by a token of each kind in `follow`. -/
structure ReadsRun (loose : Prop) (n : Nat) (ends follow : TokenKind → Prop)
    (step : ρ → Rule (Round ρ)) (holds : ρ → List σ → Prop) (phrase : β → Phrase α)
    (shape : β → σ) (xs : List β) : Prop where
  framed : loose → ∀ read, (step read).Framed
  solid : ∀ x ∈ xs, (phrase x).isSolid = true
  ended : ∀ kind, ends kind → follow kind
  head : ∀ x ∈ xs, ∀ {s t : State}, (phrase x).Between s t → follow s.current.kind
  last : ∀ {s : State} {read : ρ} {shapes : List σ}, holds read shapes →
    ends s.current.kind →
    Gives False True (fun round => ∃ last, round = Round.last last ∧ holds last shapes)
      (step read) s s
  more : ∀ x ∈ xs, ∀ {s t : State} {read : ρ} {shapes : List σ}, holds read shapes →
    (phrase x).Between s t → follow t.current.kind →
    Gives loose ((phrase x).nesting ≤ n)
      (fun round => ∃ next, round = Round.more next ∧ holds next (shapes ++ [shape x]))
      (step read) s t

namespace ReadsRun

variable {ends follow : TokenKind → Prop} {step : ρ → Rule (Round ρ)}
  {holds : ρ → List σ → Prop} {phrase : β → Phrase α} {shape : β → σ} {x : β} {xs : List β}
  {read : ρ} {shapes : List σ}

theorem tail (h : ReadsRun loose n ends follow step holds phrase shape (x :: xs)) :
    ReadsRun loose n ends follow step holds phrase shape xs where
  framed := h.framed
  solid y hy := h.solid y (List.mem_cons_of_mem x hy)
  ended := h.ended
  head y hy := h.head y (List.mem_cons_of_mem x hy)
  last := h.last
  more y hy := h.more y (List.mem_cons_of_mem x hy)

theorem follows (h : ReadsRun loose n ends follow step holds phrase shape xs)
    (hspells : (Phrase.concat (xs.map phrase)).Between s t) (hnext : follow t.current.kind) :
    follow s.current.kind := by
  cases xs with
  | nil =>
      obtain ⟨rfl, -⟩ := hspells
      exact hnext
  | cons x xs =>
      obtain ⟨u, hfirst, -⟩ := Phrase.between_concat_cons.mp hspells
      exact h.head x (by simp) hfirst

theorem gives (h : ReadsRun loose n ends follow step holds phrase shape xs)
    (hread : holds read shapes) (hspells : (Phrase.concat (xs.map phrase)).Between s t)
    (hend : ends t.current.kind) :
    Gives loose ((Phrase.concat (xs.map phrase)).nesting ≤ n)
      (fun last => holds last (shapes ++ xs.map shape)) (iterate step read) s t := by
  induction xs generalizing s read shapes with
  | nil =>
      obtain ⟨rfl, -⟩ := hspells
      refine (Gives.iterate_last (h.last hread hend)).imp ?_ ?_
      · simp
      · simp
  | cons x xs ih =>
      obtain ⟨u, hfirst, hrest⟩ := Phrase.between_concat_cons.mp hspells
      have hlt := hfirst.length_lt (h.solid x (by simp))
      have hround := h.more x (by simp) hread hfirst (h.tail.follows hrest (h.ended _ hend))
      refine (Gives.iterate_more h.framed hround hlt
        fun next hnext => ih h.tail hnext hrest).imp ?_ ?_
      · simp
      · simp

/-- Behind phrases that fit into the level, the repetition goes on. -/
theorem iterate_eq (h : ReadsRun loose n ends follow step holds phrase shape xs)
    (hread : holds read shapes) (hspells : (Phrase.concat (xs.map phrase)).Between s t)
    (hnext : follow t.current.kind) (hfits : ∀ x ∈ xs, (phrase x).nesting ≤ n) :
    ∃ read', iterate step read s = iterate step read' t := by
  induction xs generalizing s read shapes with
  | nil =>
      obtain ⟨rfl, -⟩ := hspells
      exact ⟨read, rfl⟩
  | cons x xs ih =>
      obtain ⟨u, hfirst, hrest⟩ := Phrase.between_concat_cons.mp hspells
      have hlt := hfirst.length_lt (h.solid x (by simp))
      obtain ⟨_, hstep, next, rfl, hnext'⟩ := (h.more x (by simp) hread hfirst
        (h.tail.follows hrest hnext)).ok (hfits x (by simp))
      rw [iterate_of_more hstep hlt]
      exact ih h.tail hnext' hrest fun y hmem => hfits y (by simp [hmem])

end ReadsRun

/-- A round of a list with commas. -/
def commaRound (close : Symbol) (element : Rule γ) (read : List γ) :
    Rule (Round (List γ)) := do
  if ← isAtClose close then return .last read
  let value ← element
  if ← take? (.symbol .comma) then return .more (read ++ [value])
  else return .last (read ++ [value])

/-- A round of a list of parameters. -/
def paramRound (param : Rule γ) (read : List γ × Bool) : Rule (Round (List γ × Bool)) := do
  if ← isAtClose .rightParen then return .last (read.1, false)
  if ← take? (.symbol .ellipsis) then return .last (read.1, true)
  let value ← param
  if ← take? (.symbol .comma) then return .more (read.1 ++ [value], false)
  else return .last (read.1 ++ [value], false)

section Elements

variable {element : Rule γ} {phrase : β → Phrase α} {shape : γ → σ} {shape' : β → σ}
  {xs : List β}

theorem commaRound_readsCommas (hclose : close ≠ .comma)
    (helement : ∀ x ∈ xs,
      ReadsElement n close element (phrase x) fun value => shape value = shape' x) :
    ReadsCommas n close (commaRound close element)
      (fun read shapes => read.map shape = shapes) phrase shape' xs where
  empty hread hend := .whenAtClose hend (.pure ⟨_, rfl, hread⟩)
  last := by
    intro x hmem s t read shapes hread hspells hend
    obtain ⟨hnotClose, -, hmore⟩ := (helement x hmem).kind hspells
    have hcomma : t.current.kind ≠ .symbol .comma := by simp [hend, hclose]
    refine .unlessAtClose hnotClose hmore
      (.finish ((helement x hmem).gives hspells (.inr hend)) fun value hvalue => ?_)
    exact .unlessTaken hcomma (.pure ⟨_, rfl, by simp [hread, hvalue]⟩)
  more := by
    intro x hmem s t read shapes hread hspells hcomma
    obtain ⟨hnotClose, -, hmore⟩ := (helement x hmem).kind hspells
    refine .unlessAtClose hnotClose hmore
      (.finish ((helement x hmem).gives hspells (.inl hcomma)) fun value hvalue => ?_)
    exact .whenTaken hcomma (.pure ⟨_, rfl, by simp [hread, hvalue]⟩)

theorem commaList_gives (hclose : close ≠ .comma)
    (helement : ∀ x ∈ xs,
      ReadsElement n close element (phrase x) fun value => shape value = shape' x)
    (hspells : (Phrase.commas (xs.map phrase)).Between s t)
    (hend : t.current.kind = .symbol close) :
    Gives False ((Phrase.commas (xs.map phrase)).nesting ≤ n)
      (fun values => values.map shape = xs.map shape') (commaList close element) s t := by
  have hnone : ([] : List γ).map shape = [] := rfl
  exact (commaRound_readsCommas hclose helement).gives hnone hspells hend

theorem paramRound_readsCommas
    (helement : ∀ x ∈ xs,
      ReadsElement n .rightParen element (phrase x) fun value => shape value = shape' x) :
    ReadsCommas n .rightParen (paramRound element)
      (fun read shapes => read.1.map shape = shapes ∧ read.2 = false) phrase shape' xs where
  empty hread hend := .whenAtClose hend (.pure ⟨_, rfl, hread.1, rfl⟩)
  last := by
    intro x hmem s t read shapes hread hspells hend
    obtain ⟨hnotClose, hellipsis, hmore⟩ := (helement x hmem).kind hspells
    have hcomma : t.current.kind ≠ .symbol .comma := by simp [hend]
    refine .unlessAtClose hnotClose hmore (.unlessTaken hellipsis
      (.finish ((helement x hmem).gives hspells (.inr hend)) fun value hvalue => ?_))
    exact .unlessTaken hcomma (.pure ⟨_, rfl, by simp [hread.1, hvalue]⟩)
  more := by
    intro x hmem s t read shapes hread hspells hcomma
    obtain ⟨hnotClose, hellipsis, hmore⟩ := (helement x hmem).kind hspells
    refine .unlessAtClose hnotClose hmore (.unlessTaken hellipsis
      (.finish ((helement x hmem).gives hspells (.inl hcomma)) fun value hvalue => ?_))
    exact .whenTaken hcomma (.pure ⟨_, rfl, by simp [hread.1, hvalue]⟩)

theorem paramRounds_ellipsis {read : List γ × Bool} {shapes : List σ}
    (helement : ∀ x ∈ xs,
      ReadsElement n .rightParen element (phrase x) fun value => shape value = shape' x)
    (hread : read.1.map shape = shapes ∧ read.2 = false)
    (hspells : (Phrase.commaEnded (xs.map phrase)).Between s u)
    (hellipsis : u.Spells [.symbol .ellipsis] t) :
    Gives False ((Phrase.commaEnded (xs.map phrase)).nesting ≤ n)
      (fun last => last.1.map shape = shapes ++ xs.map shape' ∧ last.2 = true)
      (iterate (paramRound element) read) s t := by
  induction xs generalizing s read shapes with
  | nil =>
      obtain ⟨rfl, -⟩ := hspells
      have hkind := hellipsis.kind
      obtain ⟨-, rfl, -⟩ := hellipsis
      have hnotClose : s.current.kind ≠ .symbol .rightParen := by simp [hkind, Terminal.kind]
      have hmore : s.current.kind ≠ .eof := by simp [hkind, Terminal.kind]
      have hround : Gives False True
          (fun round => ∃ last, round = Round.last last ∧
            last.1.map shape = shapes ++ [].map shape' ∧ last.2 = true)
          (paramRound element read) s s.advance := by
        refine .unlessAtClose hnotClose hmore (.whenTaken hkind ?_)
        exact .pure ⟨_, rfl, by simp [hread.1], rfl⟩
      refine (Gives.iterate_last hround).imp ?_ fun _ hgood => hgood
      simp [Phrase.commaEnded, Phrase.nesting]
  | cons x xs ih =>
      obtain ⟨v, hfirst, w, hcomma, hrest⟩ := hspells
      refine ((paramRound_readsCommas helement).cons hread hfirst hcomma fun hnext =>
        ih (fun y hy => helement y (by simp [hy])) hnext hrest).imp ?_ ?_
      · simp [Phrase.commaEnded, Phrase.concat, Phrase.nesting, Phrase.symbol]
      · simp

theorem paramList_gives {variadic : Bool}
    (helement : ∀ x ∈ xs,
      ReadsElement n .rightParen element (phrase x) fun value => shape value = shape' x)
    (hspells : (Phrase.params (xs.map phrase) variadic).Between s t)
    (hend : t.current.kind = .symbol .rightParen) :
    Gives False ((Phrase.params (xs.map phrase) variadic).nesting ≤ n)
      (fun read => read.1.map shape = xs.map shape' ∧ read.2 = variadic)
      (paramList element) s t := by
  have hnone : (([], false) : List γ × Bool).1.map shape = [] ∧
      (([], false) : List γ × Bool).2 = false := ⟨rfl, rfl⟩
  cases variadic with
  | false => exact (paramRound_readsCommas helement).gives hnone hspells hend
  | true =>
      obtain ⟨u, hparams, hellipsis⟩ := hspells
      refine (paramRounds_ellipsis helement hnone hparams hellipsis).imp ?_ ?_
      · simp [Phrase.params, Phrase.nesting, Phrase.symbol]
      · exact fun _ hgood => hgood

end Elements

end Rule

end SourceFront
