import SourceFront.Proofs.Derivation.Item
import SourceFront.Proofs.Ending
import SourceFront.Proofs.Relocation.Basic

/-!
Items behind one another. What has been read of a module counts for nothing when the
next item is read, and items that are read without problems are read in the same way
whatever follows the last of them.
-/

namespace SourceFront

namespace Rule

variable {level : Level} {s t : State} {read value : List (Item Span)}

theorem moduleRound_of_end (hend : s.current.isEof = true) :
    moduleRound level read s = .ok (.last read) s := by
  simp only [moduleRound, current_bind, hend, if_true, pure_apply]

theorem moduleRound_of_item {value : Item Span} (hgoes : s.current.isEof = false)
    (hitem : item level s = .ok value t) :
    moduleRound level read s = .ok (.more (read ++ [value])) t := by
  have hrecover : recover (item level) State.skipItem s = .ok (some value) t := by
    rw [recover, hitem]
  simp only [moduleRound, current_bind, hgoes, Bool.false_eq_true, if_false,
    bind_of_ok hrecover, pure_apply, Option.toList_some]

theorem moduleRound_append (level : Level) (front read : List (Item Span)) (s : State) :
    moduleRound level (front ++ read) s =
      match moduleRound level read s with
      | .ok round t => .ok (round.map (front ++ ·)) t
      | .error problem t => .error problem t := by
  simp only [moduleRound, current_bind]
  split
  · rfl
  · rw [bind_apply, bind_apply]
    cases recover (item level) State.skipItem s with
    | ok item? t => simp [pure_apply, Round.map]
    | error problem t => rfl

theorem iterate_moduleRound_append (front : List (Item Span))
    (h : iterate (moduleRound level) read s = .ok value t) :
    iterate (moduleRound level) (front ++ read) s = .ok (front ++ value) t := by
  fun_induction iterate (moduleRound level) read s with
  | case1 => cases h
  | case2 read s read' u hround =>
      cases h
      have hround' := moduleRound_append level front read s
      rw [hround] at hround'
      exact iterate_of_last hround'
  | case3 read s read' u hround hlt ih =>
      have hround' := moduleRound_append level front read s
      rw [hround] at hround'
      rw [iterate_of_more hround' hlt, ih h]
  | case4 read s read' u hround hlt =>
      cases h
      have hround' := moduleRound_append level front read s
      rw [hround] at hround'
      rw [iterate, hround']
      exact if_neg hlt

theorem advance_last (hne : s.ahead ≠ []) (last : Span) :
    { s with last }.advance = s.advance := by
  obtain ⟨token, rest, hahead⟩ := List.exists_cons_of_ne_nil hne
  simp [State.advance, State.current, hahead]

/-- What the rule does not depend on the token read before, unless it fails at its first
token. -/
def Forgets {α : Type} (rule : Rule α) : Prop :=
  ∀ (s : State) (last : Span), s.ahead ≠ [] →
    rule { s with last } = rule s ∨
      ∃ problem, rule s = .error problem s ∧
        rule { s with last } = .error problem { s with last }

namespace Forgets

variable {α β : Type}

theorem refuse (cause : Token → Cause) : (failWith cause : Rule α).Forgets :=
  fun _ _ _ => .inr ⟨_, rfl, rfl⟩

theorem advance (next : Token → Rule α) : (Rule.advance >>= next).Forgets := by
  intro s last hne
  left
  rw [advance_bind, advance_bind, advance_last hne]
  rfl

theorem current {next : Token → Rule α} (hnext : ∀ token, (next token).Forgets) :
    (Rule.current >>= next).Forgets :=
  fun s last hne => hnext s.current s last hne

theorem isAt {kind : TokenKind} {next : Bool → Rule α} (hnext : ∀ there, (next there).Forgets) :
    (isAt kind >>= next).Forgets :=
  fun s last hne => hnext (decide (s.current.kind = kind)) s last hne

theorem take? {kind : TokenKind} {next : Bool → Rule α} (hnext : (next false).Forgets) :
    (take? kind >>= next).Forgets := by
  intro s last hne
  have hcurrent : { s with last }.current = s.current := rfl
  rw [take?_bind, take?_bind, hcurrent, advance_last hne]
  split
  · exact .inl rfl
  · exact hnext s last hne

theorem bind {rule : Rule α} (hrule : rule.Forgets) (next : α → Rule β) :
    (rule >>= next).Forgets := by
  intro s last hne
  rcases hrule s last hne with hsame | ⟨problem, hfails, hfails'⟩
  · left
    rw [bind_apply, bind_apply, hsame]
  · exact .inr ⟨problem, bind_of_error hfails _, bind_of_error hfails' _⟩

theorem ite {c : Prop} [Decidable c] {yes no : Rule α} (hyes : yes.Forgets)
    (hno : no.Forgets) : (if c then yes else no).Forgets := by
  split
  · exact hyes
  · exact hno

end Forgets

theorem definition_forgets : (definition level).Forgets := by
  refine .current fun token => ?_
  split
  · exact .bind (.advance _) _
  · exact .bind (.advance _) _
  · exact .bind (.advance _) _
  · exact .bind (.advance _) _
  · exact .advance _
  · exact .bind (.advance _) _
  · exact .bind (.advance _) _
  · exact .refuse _

theorem item_forgets : (item level).Forgets :=
  .isAt fun _ => .ite (.bind (.advance _) _) <|
    .bind (.current fun _ => .take? (.bind definition_forgets _)) _

theorem recover_item_last (hne : s.ahead ≠ []) (last : Span) :
    recover (item level) State.skipItem { s with last } =
      recover (item level) State.skipItem s := by
  rcases @item_forgets level s last hne with hsame | ⟨problem, hfails, hfails'⟩
  · rw [recover, recover, hsame]
    rfl
  · have hahead : (s.report problem).ahead = s.ahead := by
      unfold State.report
      split
      · rfl
      · split <;> rfl
    have hreport : { s with last }.report problem = { s.report problem with last } := by
      have hcurrent : { s with last }.current = s.current := rfl
      unfold State.report
      rw [hcurrent]
      split
      · rfl
      · dsimp only
        split <;> rfl
    have hread : State.readSince s (s.report problem) = [] := by
      rw [State.readSince, hahead, Nat.sub_self, List.take_zero]
    have hread' : State.readSince { s with last } { s.report problem with last } = [] := hread
    rw [recover, recover, hfails, hfails']
    dsimp only
    rw [hreport, State.skipItem, State.skipItem, hread, hread', advance_last (hahead ▸ hne)]
    rfl

theorem moduleRound_last (hgoes : s.current.isEof = false) (last : Span) :
    moduleRound level read { s with last } = moduleRound level read s := by
  have hne : s.ahead ≠ [] := by
    obtain ⟨rest, hahead⟩ := State.ahead_of_current (s := s) (by simpa [Token.isEof] using hgoes)
    simp [hahead]
  have hcurrent : { s with last }.current = s.current := rfl
  simp only [moduleRound, current_bind, hcurrent, hgoes, Bool.false_eq_true, if_false]
  rw [bind_apply, bind_apply, recover_item_last hne]

theorem iterate_moduleRound_last (h : iterate (moduleRound level) read s = .ok value t)
    (last : Span) :
    ∃ u, iterate (moduleRound level) read { s with last } = .ok value u ∧
      u.problems = t.problems := by
  cases hend : s.current.isEof with
  | true =>
      rw [iterate_of_last (moduleRound_of_end hend)] at h
      cases h
      exact ⟨{ s with last }, iterate_of_last (moduleRound_of_end hend), rfl⟩
  | false =>
      refine ⟨t, ?_, rfl⟩
      rw [iterate, moduleRound_last hend, ← h]
      exact (iterate.eq_def _ _ _).symm

/-- What is read without problems is read in the same way if more follows, and what
follows is read behind it. -/
theorem iterate_moduleRound_extend (hconsuming : level.Consuming)
    (hclosed : (item level).Closed)
    (h : iterate (moduleRound level) read s = .ok value t) (hquiet : t.problems = [])
    (hends : s.EndsItem) (hvalid : ∀ token ∈ s.ahead, token.kind ≠ .invalid)
    (more : List Token) (stop : Span) :
    iterate (moduleRound level) read (s.extend more stop) =
      iterate (moduleRound level) value (t.extend more stop) := by
  fun_induction iterate (moduleRound level) read s with
  | case1 => cases h
  | case2 read s read' u hround =>
      cases h
      rcases moduleRound_cases hround with ⟨hlast, rfl⟩ | ⟨item?, -, hmore⟩
      · cases hlast
        rfl
      · cases hmore
  | case3 read s read' u hround hlt ih =>
      obtain ⟨tokens, hpasses⟩ := (moduleRound_framed hconsuming.framed read).ok hround
      obtain ⟨passed, hrest⟩ :=
        Framed.passes_iterate (moduleRound_framed hconsuming.framed) h
      have hquiet' := hrest.quiet hquiet
      rcases moduleRound_cases hround with ⟨hlast, -⟩ | ⟨item?, hrecover, hmore⟩
      · cases hlast
      obtain ⟨value', hitem, rfl⟩ := Framed.recover_quiet
        (item_framed hconsuming.framed) State.skipItem_resumption hrecover hquiet' hvalid
      obtain rfl : read' = read ++ [value'] := by
        cases hmore
        rfl
      obtain ⟨hne, hextend⟩ := hclosed s u value' hends hitem
      have hgoes : (s.extend more stop).current.isEof = false := by
        rw [State.extend_current more stop hne]
        cases hend : s.current.isEof with
        | false => rfl
        | true =>
            rw [moduleRound_of_end hend] at hround
            cases hround
      rw [iterate_of_more (moduleRound_of_item hgoes (hextend more stop))
        (by simpa [State.extend] using hlt)]
      refine ih h (hends.of_passes hpasses) fun token hmem => hvalid token ?_
      rw [hpasses.ahead]
      exact List.mem_append_right _ hmem
  | case4 read s read' u hround hlt =>
      exact absurd (moduleRound_advances hconsuming read s u read' hround) hlt

/-- Behind items without problems other tokens are read as if they stood alone. -/
theorem items_extend (hconsuming : level.Consuming) (hclosed : (item level).Closed)
    (h : items level s = .ok read t) (hquiet : t.problems = []) (hend : t.ahead = [])
    (hends : s.EndsItem) (hvalid : ∀ token ∈ s.ahead, token.kind ≠ .invalid)
    {other u : State} (hother : items level other = .ok value u) (hfresh : other.problems = [])
    (last : Span) :
    ∃ v, items level { s.extend other.ahead other.stop with last } = .ok (read ++ value) v ∧
      v.problems = u.problems := by
  have hbehind : t.extend other.ahead other.stop = { other with last := t.last } := by
    rw [State.extend, hend, List.nil_append, hquiet, hfresh]
  obtain ⟨v, hv, hproblems⟩ := iterate_moduleRound_last hother t.last
  have hrun : iterate (moduleRound level) [] (s.extend other.ahead other.stop) =
      .ok (read ++ value) v := by
    rw [iterate_moduleRound_extend hconsuming hclosed h hquiet hends hvalid, hbehind]
    simpa using iterate_moduleRound_append read hv
  obtain ⟨w, hw, hproblems'⟩ := iterate_moduleRound_last hrun last
  exact ⟨w, hw, hproblems'.trans hproblems⟩

end Rule

end SourceFront
