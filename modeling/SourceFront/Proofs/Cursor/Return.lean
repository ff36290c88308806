import SourceFront.Proofs.Cursor.Agreement

/-!
How walks return: what a walk leaves as it was where it began, whether it ends with a value or with
a problem, and how many phrases have been open meanwhile.
-/

namespace SourceFront

variable {α β σ : Type} {b c d e : Cursor}

/-- There is a token at the cursor, and no more phrases are open, or have been, than may be. -/
structure Cursor.Standing (c : Cursor) : Prop where
  inside : c.pos < c.tokens.length
  depth_le : c.depth ≤ c.peak
  peak_le : c.peak ≤ Level.limit

/-- From `c` on to `d` no token is given back, no problem withdrawn and no phrase that was open
forgotten. -/
structure Cursor.Onward (c d : Cursor) : Prop extends d.Standing where
  tokens_eq : d.tokens = c.tokens
  pos_le : c.pos ≤ d.pos
  problems : c.problems <+: d.problems
  peak_mono : c.peak ≤ d.peak

/-- What is set for a phrase is the same for both cursors. -/
structure Cursor.Same (c d : Cursor) : Prop where
  place_eq : d.place = c.place
  depth_eq : d.depth = c.depth

/-- The problem is one of the token at the cursor. -/
def Cursor.Faces (c : Cursor) (problem : Problem) : Prop :=
  ∃ token, c.tokens[c.pos]? = some token ∧ problem.span = token.span

namespace Cursor

theorem Standing.refl (h : c.Standing) : c.Onward c :=
  { h with
    tokens_eq := rfl
    pos_le := Nat.le_refl _
    problems := List.prefix_refl _
    peak_mono := Nat.le_refl _ }

theorem Onward.trans (h : c.Onward d) (h' : d.Onward e) : c.Onward e :=
  { h'.toStanding with
    tokens_eq := h'.tokens_eq.trans h.tokens_eq
    pos_le := h.pos_le.trans h'.pos_le
    problems := h.problems.trans h'.problems
    peak_mono := h.peak_mono.trans h'.peak_mono }

theorem Same.refl (c : Cursor) : c.Same c :=
  ⟨rfl, rfl⟩

theorem Same.trans (h : c.Same d) (h' : d.Same e) : c.Same e :=
  ⟨h'.place_eq.trans h.place_eq, h'.depth_eq.trans h.depth_eq⟩

end Cursor

/-- How a walk ends that goes onward from `b` and keeps to what `b` is set to: with a value, or with
a problem of the token where it ends. -/
inductive Cursor.Returned (b : Cursor) {α : Type} : EStateM.Result Stop Cursor α → Prop where
  | ok {value : α} {d : Cursor} (h : b.Onward d) (hsame : b.Same d) : Returned b (.ok value d)
  | problem {problem : Problem} {d : Cursor} (h : b.Onward d) (hsame : b.Same d)
      (hfaces : d.Faces problem) : Returned b (.error (.problem problem) d)
  | breach {breach : Breach} {d : Cursor} (h : b.Onward d) :
      Returned b (.error (.breach breach) d)

namespace Cursor.Returned

variable {value : α} {stop : Stop}

theorem onward (h : b.Returned (.ok value d)) : b.Onward d := by
  cases h with
  | ok h => exact h

theorem same (h : b.Returned (.ok value d)) : b.Same d := by
  cases h with
  | ok _ hsame => exact hsame

theorem failing {problem : Problem}
    (h : b.Returned (.error (.problem problem) d : EStateM.Result Stop Cursor α)) :
    b.Onward d ∧ b.Same d ∧ d.Faces problem := by
  cases h with
  | problem honward hsame hfaces => exact ⟨honward, hsame, hfaces⟩

theorem broken {breach : Breach}
    (h : b.Returned (.error (.breach breach) d : EStateM.Result Stop Cursor α)) : b.Onward d := by
  cases h with
  | breach honward => exact honward

theorem failed (h : b.Returned (.error stop d : EStateM.Result Stop Cursor α)) :
    b.Returned (.error stop d : EStateM.Result Stop Cursor β) := by
  cases h with
  | problem h hsame hfaces => exact .problem h hsame hfaces
  | breach h => exact .breach h

theorem trans {outcome : EStateM.Result Stop Cursor α} (h : c.Returned outcome)
    (honward : b.Onward c) (hsame : b.Same c) : b.Returned outcome := by
  cases h with
  | ok h' hsame' => exact .ok (honward.trans h') (hsame.trans hsame')
  | problem h' hsame' hfaces => exact .problem (honward.trans h') (hsame.trans hsame') hfaces
  | breach h' => exact .breach (honward.trans h')

end Cursor.Returned

/-- The walk returns from wherever it can begin. -/
def Walk.Kept (walk : Walk α) : Prop :=
  ∀ c : Cursor, c.Standing → c.Returned (walk c)

theorem Cursor.Standing.current_apply (h : c.Standing) :
    ∃ token, c.tokens[c.pos]? = some token ∧ Walk.current c = .ok token c := by
  have htoken := List.getElem?_eq_getElem h.inside
  exact ⟨_, htoken, (Walk.bind_of_ok (Walk.get_apply c) _).trans (Walk.tokenAt_apply htoken)⟩

namespace Walk

theorem leave_apply (h : 0 < c.depth) :
    leave c = .ok () { c with depth := c.depth - 1, peak := max c.peak (c.depth - 1) } := by
  rw [leave, bind_of_ok (get_apply c), bind_of_ok (minus_apply h c)]
  rfl

theorem returned_bind {walk : Walk α} {next : α → Walk β} (h : b.Returned (walk c))
    (hnext : ∀ value d, walk c = .ok value d → b.Returned (next value d)) :
    b.Returned ((walk >>= next) c) := by
  rw [bind_apply]
  cases hrun : walk c with
  | ok value d => exact hnext value d hrun
  | error stop d =>
      rw [hrun] at h
      exact h.failed

theorem returned_andThen {walk : Walk α} {restore : Walk Unit} (h : c.Returned (walk c))
    (honward : b.Onward c)
    (hback : ∀ d, b.Onward d → c.Same d → ∃ e, restore d = .ok () e ∧ b.Onward e ∧ b.Same e ∧
      e.tokens = d.tokens ∧ e.pos = d.pos) :
    b.Returned (walk.andThen restore c) := by
  cases hrun : walk c with
  | ok value d =>
      rw [hrun] at h
      obtain ⟨e, hrestore, honward', hsame, -⟩ := hback d (honward.trans h.onward) h.same
      rw [andThen_of_ok hrun hrestore]
      exact .ok honward' hsame
  | error stop d =>
      rw [hrun] at h
      cases h with
      | problem h' hsame' hfaces =>
          obtain ⟨e, hrestore, honward', hsame, htokens, hpos⟩ :=
            hback d (honward.trans h') hsame'
          rw [andThen_of_problem hrun hrestore]
          refine .problem honward' hsame ?_
          rwa [Cursor.Faces, htokens, hpos]
      | breach h' =>
          rw [Walk.andThen, hrun]
          exact .breach (honward.trans h')

namespace Kept

variable {walk : Walk α} {next : α → Walk β}

theorem pure (value : α) : Kept (pure value) := fun c hc =>
  .ok hc.refl (.refl c)

theorem breach (breach : Breach) : Kept (throw (.breach breach) : Walk α) := fun _ hc =>
  .breach hc.refl

theorem get : Kept get := fun c hc =>
  .ok hc.refl (.refl c)

theorem update {f : Cursor → Cursor}
    (h : ∀ c : Cursor, c.Standing → c.Onward (f c) ∧ c.Same (f c)) : Kept (modify f) := fun c hc =>
  .ok (h c hc).1 (h c hc).2

theorem bind (hwalk : walk.Kept) (hnext : ∀ value, (next value).Kept) : Kept (walk >>= next) := by
  intro c hc
  have hreturned := hwalk c hc
  apply returned_bind hreturned
  intro value d hrun
  rw [hrun] at hreturned
  have hlast := hnext value d hreturned.onward.toStanding
  exact hlast.trans hreturned.onward hreturned.same

theorem ite {p : Prop} [Decidable p] {yes no : Walk α} (hyes : yes.Kept) (hno : no.Kept) :
    Kept (if p then yes else no) := by
  split
  · exact hyes
  · exact hno

theorem minus (a b : Nat) : Kept (Walk.minus a b) :=
  .ite (.pure _) (.breach _)

theorem tokenAt (index : Nat) : Kept (Walk.tokenAt index) := by
  refine .bind .get fun c => ?_
  cases c.tokens[index]? with
  | some token => exact .pure token
  | none => exact .breach _

theorem slice (start stop : Nat) : Kept (Walk.slice start stop) :=
  .bind .get fun _ => .ite (.pure _) (.breach _)

theorem current : Kept Walk.current :=
  .bind .get fun _ => .tokenAt _

theorem advance : Kept Walk.advance := fun c hc => by
  obtain ⟨token, -, hcurrent⟩ := hc.current_apply
  have hinside := hc.inside
  rw [Walk.advance, bind_of_ok hcurrent, bind_of_ok (get_apply c),
    bind_of_ok (minus_apply (by omega) c)]
  refine .ok { hc.refl with inside := ?_, tokens_eq := rfl, pos_le := ?_ } ⟨rfl, rfl⟩
  · dsimp only
    split <;> omega
  · dsimp only
    split <;> omega

theorem isAt (kind : TokenKind) : Kept (Walk.isAt kind) :=
  .bind .current fun _ => .pure _

theorem isAtClose (close : Symbol) : Kept (Walk.isAtClose close) :=
  .bind .current fun _ => .pure _

theorem take? (kind : TokenKind) : Kept (Walk.take? kind) :=
  .bind (.isAt kind) fun _ => .ite (.bind .advance fun _ => .pure _) (.pure _)

theorem failWith (cause : Token → Cause) : Kept (Walk.failWith cause : Walk α) := fun c hc => by
  obtain ⟨token, htoken, hcurrent⟩ := hc.current_apply
  rw [Walk.failWith, bind_of_ok hcurrent]
  exact .problem hc.refl (.refl c) ⟨token, htoken, rfl⟩

theorem failExpecting (expected : String) : Kept (Walk.failExpecting expected : Walk α) :=
  .failWith _

theorem expect (symbol : Symbol) : Kept (Walk.expect symbol) :=
  .bind (.isAt _) fun _ => .ite .advance (.failExpecting _)

theorem spanFrom (start : Span) : Kept (Walk.spanFrom start) :=
  .bind .get fun _ => .bind (.tokenAt _) fun _ => .pure _

theorem within (hwalk : walk.Kept) (place : Place) : Kept (Walk.within place walk) :=
    fun c hc => by
  rw [Walk.within, bind_of_ok (get_apply c)]
  have hset : c.Onward { c with place } := { hc.refl with }
  exact returned_andThen (hwalk _ hset.toStanding) hset fun d honward hsame =>
    ⟨_, rfl, { honward with }, ⟨rfl, hsame.depth_eq⟩, rfl, rfl⟩

theorem nested (hwalk : walk.Kept) : Kept (Walk.nested walk) := fun c hc => by
  rw [Walk.nested, bind_of_ok (get_apply c)]
  by_cases hfull : Level.limit ≤ c.depth
  · rw [if_pos hfull]
    exact failWith _ c hc
  rw [if_neg hfull, bind_of_ok (get_apply c), bind_of_ok (setDepth_apply _ c)]
  -- The limit is not reached yet, so one more phrase may be open.
  have hset : c.Onward { c with depth := c.depth + 1, peak := max c.peak (c.depth + 1) } :=
    { hc.refl with
      depth_le := Nat.le_max_right _ _
      peak_le := Nat.max_le.mpr ⟨hc.peak_le, Nat.lt_of_not_le hfull⟩
      peak_mono := Nat.le_max_left _ _ }
  refine returned_andThen (hwalk _ hset.toStanding) hset fun d honward hsame => ?_
  have hdepth : d.depth = c.depth + 1 := hsame.depth_eq
  have hpeak : max d.peak (d.depth - 1) = d.peak :=
    Nat.max_eq_left ((Nat.sub_le _ _).trans honward.depth_le)
  refine ⟨_, leave_apply (by omega), ?_, ⟨hsame.place_eq, ?_⟩, rfl, rfl⟩
  · rw [hpeak]
    exact { honward with depth_le := (Nat.sub_le _ _).trans honward.depth_le }
  · dsimp only
    omega

theorem iterate {step : σ → Walk (Round σ)} (hstep : ∀ value, (step value).Kept) (value : σ) :
    Kept (Walk.iterate step value) := fun c hc => by
  -- The loop goes on only from where fewer tokens are left.
  induction hleft : c.left using Nat.strongRecOn generalizing c value with
  | ind left ih =>
    have hround := hstep value c hc
    cases hrun : step value c with
    | error stop d =>
        rw [hrun] at hround
        rw [iterate_of_error hrun]
        exact hround.failed
    | ok round d =>
        rw [hrun] at hround
        have honward := hround.onward
        cases round with
        | last value' =>
            rw [iterate_of_last hrun]
            exact .ok honward hround.same
        | more value' =>
            by_cases hlt : d.left < c.left
            · rw [iterate_of_more hrun hlt]
              exact (ih _ (hleft ▸ hlt) value' d honward.toStanding rfl).trans honward hround.same
            · rw [Walk.iterate, hrun]
              simp only [if_neg hlt]
              exact .breach honward

theorem commaList {element : Walk α} (helement : element.Kept) (close : Symbol) :
    Kept (Walk.commaList close element) :=
  iterate (fun _ => .bind (.isAtClose close) fun _ => .ite (.pure _) <|
    .bind helement fun _ => .bind (.take? _) fun _ => .ite (.pure _) (.pure _)) _

theorem paramList {param : Walk α} (hparam : param.Kept) : Kept (Walk.paramList param) :=
  iterate (fun _ => .bind (.isAtClose _) fun _ => .ite (.pure _) <|
    .bind (.take? _) fun _ => .ite (.pure _) <|
      .bind hparam fun _ => .bind (.take? _) fun _ => .ite (.pure _) (.pure _)) _

theorem report (problem : Problem) : Kept (Walk.report problem) := by
  refine .bind .current fun token => .ite (.pure _) (.update fun c hc => ?_)
  split
  · exact ⟨hc.refl, .refl c⟩
  · exact ⟨{ hc.refl with problems := List.prefix_append _ _ }, ⟨rfl, rfl⟩⟩

theorem abandon : Kept Walk.abandon :=
  .bind .current fun _ => .update fun _ hc => ⟨{ hc.refl with }, ⟨rfl, rfl⟩⟩

theorem recover {resume : Nat → Walk Unit} (hwalk : walk.Kept)
    (hresume : ∀ start, (resume start).Kept) : Kept (Walk.recover walk resume) := fun c hc => by
  have hreturned := hwalk c hc
  rw [Walk.recover]
  cases hrun : walk c with
  | ok value d =>
      rw [hrun] at hreturned
      exact .ok hreturned.onward hreturned.same
  | error stop d =>
      rw [hrun] at hreturned
      cases stop with
      | problem problem =>
          obtain ⟨honward, hsame, -⟩ := hreturned.failing
          -- What is done about a problem begins where the walk has failed, with all put back.
          have hlast : Kept (do
              Walk.report problem
              Walk.abandon
              resume c.pos
              return none : Walk (Option α)) :=
            .bind (.report _) fun _ => .bind .abandon fun _ => .bind (hresume _) fun _ => .pure _
          exact (hlast d honward.toStanding).trans honward hsame
      | breach => exact .breach hreturned.broken

theorem resumeItem (start : Nat) : Kept (Walk.resumeItem start) := by
  have hround : Walk.itemRestRound.Kept :=
    .bind .current fun _ => .ite (.pure _) (.bind .advance fun _ => .pure _)
  have hrest : Kept (Walk.iterate (fun _ => Walk.itemRestRound) ()) := .iterate (fun _ => hround) _
  exact .bind .get fun _ => .ite (.bind .advance fun _ => hrest) hrest

theorem statementRestRound (inFor : Bool) (value : Nat × Bool) :
    Kept (Walk.statementRestRound inFor value) := by
  have hnext (next : Walk (Round (Nat × Bool))) (h : next.Kept) :
      Kept (Walk.advance >>= fun _ => next) :=
    .bind .advance fun _ => h
  refine .bind .current fun token => ?_
  split
  · exact .pure _
  · exact hnext _ (.ite (.pure _) (.pure _))
  · exact hnext _ (.pure _)
  · exact .ite (.pure _) (.bind (.minus _ _) fun _ => hnext _ (.ite (.pure _) (.pure _)))
  · exact .ite (.pure _) (hnext _ (.pure _))

theorem resumeStatement (start : Nat) : Kept (Walk.resumeStatement start) :=
  .bind (.tokenAt _) fun _ => .bind .get fun _ => .bind (.slice _ _) fun _ =>
    .bind (.iterate (.statementRestRound _) _) fun _ => .pure _

end Kept

end Walk

end SourceFront
