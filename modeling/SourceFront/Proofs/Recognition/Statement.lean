import SourceFront.Proofs.Recognition.Expression

/-!
The statements that are written are those that are read: bindings, jumps, loops and
branches.
-/

namespace SourceFront.Rule

variable {α : Type} {n : Nat} {inner : Level} {s t u : State}

theorem jump_gives {k : Keyword} {note : α} (hspells : (jumpPhrase k note).Between s t) :
    Gives False ((jumpPhrase k note).nesting ≤ n) (fun _ => True) jump s t := by
  obtain ⟨_, ⟨-, rfl, -⟩, hsemicolon, rfl, -⟩ := hspells
  refine .imp (.advance (.expect (Token.kind_of_terminal? hsemicolon)
    (.of_ok (spanFrom_apply _ _) trivial))) ?_ fun _ hgood => hgood
  simp [jumpPhrase]

section

variable (hinner : inner.Recognises α n)
include hinner

theorem freeExpr_gives {expr : Expr α} {a : Terminal}
    (hspells : (expr.phrase .free).Between s u) (hnext : u.Spells [a] t)
    (hend : a.kind.endsExpr .free 0 = true) :
    Gives False ((expr.whole .free).nesting ≤ n)
      (fun value => value.map forget = expr.map forget) inner.freeExpr s u :=
  hinner.expr (Nat.zero_le _) hspells (by rwa [hnext.kind])

theorem condition_gives {expr : Expr α} {a : Terminal}
    (hspells : (expr.phrase .beforeBlock).Between s u) (hnext : u.Spells [a] t)
    (hend : a.kind.endsExpr .beforeBlock 0 = true) :
    Gives False ((expr.whole .beforeBlock).nesting ≤ n)
      (fun value => value.map forget = expr.map forget) inner.condition s u :=
  hinner.expr (Nat.zero_le _) hspells (by rwa [hnext.kind])

theorem binding_gives {binding : Binding α} {k : Keyword}
    (hspells : (binding.phrase k).Between s t) :
    Gives False ((binding.phrase k).nesting ≤ n)
      (fun value => value.map forget = binding.map forget) (Rule.binding inner) s t := by
  obtain ⟨name, type, value, note⟩ := binding
  obtain ⟨_, ⟨-, rfl, -⟩, _, ⟨hname, rfl, -⟩, u, htype, _, hassign, v, hvalue, hsemicolon⟩ :=
    hspells
  have hassign' := State.Spells.kind hassign
  have hannotation := typeAnnotation?_gives hinner htype (by rw [hassign']; rfl)
  have hexpr := freeExpr_gives hinner hvalue hsemicolon rfl
  have hsemicolon' := State.Spells.kind hsemicolon
  obtain ⟨-, rfl, -⟩ := hassign
  obtain ⟨-, rfl, -⟩ := hsemicolon
  refine .imp (.advance (.name (Token.kind_of_terminal? hname) (.bind hannotation
    fun type' htype' => .expect hassign' (.finish hexpr fun value' hvalue' =>
      .expect hsemicolon' (.spanFrom (.pure ?_)))))) ?_ fun _ hgood => hgood
  · simp [Binding.map, Name.map, forget, htype', hvalue']
  · simp [Binding.phrase, Binding.tail, Name.phrase]

theorem return_gives {value : Option (Expr α)} {note : α}
    (hspells : (returnPhrase value note).Between s t) :
    Gives False ((returnPhrase value note).nesting ≤ n)
      (fun read : Option (Expr Span) × Span =>
        read.1.map (Expr.map forget) = value.map (Expr.map forget))
      (return_ inner) s t := by
  unfold return_
  refine .advance ?_
  extract_lets start rest
  have hrest {u : State} {value' : Option (Expr Span)}
      (hvalue : value'.map (Expr.map forget) = value.map (Expr.map forget))
      (hsemicolon : u.Spells [.symbol .semicolon] t) :
      Gives False True (fun read : Option (Expr Span) × Span =>
        read.1.map (Expr.map forget) = value.map (Expr.map forget)) (rest value') u t := by
    have hkind := hsemicolon.kind
    obtain ⟨-, rfl, -⟩ := hsemicolon
    exact .expect hkind (.spanFrom (.pure hvalue))
  obtain ⟨_, ⟨-, rfl, -⟩, u, hvalue, hsemicolon⟩ := hspells
  cases value with
  | none =>
      obtain ⟨rfl, -⟩ := hvalue
      refine .imp (.whenAt (State.Spells.kind hsemicolon) (.step rfl (hrest rfl hsemicolon))) ?_
        fun _ hgood => hgood
      simp [returnPhrase]
  | some expr =>
      replace hvalue : (expr.phrase .free).Between s.advance u := hvalue
      obtain ⟨a, hkind, hbegins, -⟩ := expr.between_kind hvalue
      have hmore : s.advance.current.kind ≠ .symbol .semicolon := by
        rw [hkind]
        rintro hsemicolon
        cases a <;> cases hsemicolon
        cases hbegins
      refine .imp (.unlessAt hmore (.finish (freeExpr_gives hinner hvalue hsemicolon rfl)
        fun value' hvalue' => .step rfl (hrest ?_ hsemicolon))) ?_ fun _ hgood => hgood
      · simp [hvalue']
      · simp [returnPhrase]

omit hinner in
theorem block_kind {body : Block α} (hspells : body.phrase.Between s t) :
    s.current.kind = .symbol .leftBrace := by
  cases body
  obtain ⟨_, hopen, -⟩ := hspells
  exact hopen.kind

theorem otherwise_gives {β : Type} {otherwise : Option (ElseBranch α)} {good : β → Prop}
    {rest : Option (ElseBranch Span) → Rule β}
    (hspells : (ElseBranch.optionPhrase otherwise).Between s t)
    (hend : t.current.kind ≠ .keyword .else_) (hframed' : ∀ value, (rest value).Framed)
    (hrest : ∀ value : Option (ElseBranch Span),
      value.map (ElseBranch.map forget) = otherwise.map (ElseBranch.map forget) →
      Gives True True good (rest value) t t) :
    Gives True ((ElseBranch.optionPhrase otherwise).nesting ≤ n) good
      (take? (.keyword .else_) >>= fun taken =>
        if taken then isAt (.keyword .if_) >>= fun found =>
          if found then inner.branch >>= fun branch => pure (some (.if_ branch)) >>= rest
          else inner.block >>= fun body => pure (some (.block body)) >>= rest
        else pure none >>= rest) s t := by
  rcases otherwise with _ | branch | body
  · obtain ⟨rfl, -⟩ := hspells
    refine .imp (.unlessTaken hend (.step rfl (hrest none rfl))) ?_ fun _ hgood => hgood
    simp [ElseBranch.optionPhrase]
  · obtain ⟨_, ⟨helse, rfl, -⟩, hbranch⟩ := hspells
    replace hbranch : branch.phrase.Between s.advance t := hbranch
    have hif : s.advance.current.kind = .keyword .if_ := by
      cases branch
      obtain ⟨_, hif, -⟩ := hbranch
      exact hif.kind
    have hgives := hinner.branch hbranch hend
    refine .imp (.whenTaken (Token.kind_of_terminal? helse) (.whenAt hif (.finishLoose hgives
      (fun _ => .bind (.pure _) hframed') fun value hvalue => .step rfl (hrest _ ?_)))) ?_
      fun _ hgood => hgood
    · simp [ElseBranch.map, hvalue]
    · simp [ElseBranch.optionPhrase]
  · obtain ⟨_, ⟨helse, rfl, -⟩, hbody⟩ := hspells
    replace hbody : body.phrase.Between s.advance t := hbody
    have hif : s.advance.current.kind ≠ .keyword .if_ := by simp [block_kind hbody]
    have hgives := hinner.block hbody
    refine .imp (.whenTaken (Token.kind_of_terminal? helse) (.unlessAt hif (.finishLoose hgives
      (fun _ => .bind (.pure _) hframed') fun value hvalue => .step rfl (hrest _ ?_)))) ?_
      fun _ hgood => hgood
    · simp [ElseBranch.map, hvalue]
    · simp [ElseBranch.optionPhrase]

theorem forInit_gives {init : ForInit α} (hspells : init.phrase.Between s t) :
    Gives False (init.phrase.nesting ≤ n) (fun value => value.map forget = init.map forget)
      (forInit inner) s t := by
  cases init with
  | let_ binding =>
      have hlet : s.current.kind = .keyword .let_ := by
        obtain ⟨_, hlet, -⟩ := hspells
        exact hlet.kind
      refine .whenAt hlet (.finish (binding_gives hinner hspells) fun value hvalue => .pure ?_)
      simp [ForInit.map, hvalue]
  | expr value =>
      obtain ⟨u, hvalue, hsemicolon⟩ := hspells
      obtain ⟨a, hkind, hbegins, -⟩ := value.between_kind hvalue
      have hlet : s.current.kind ≠ .keyword .let_ := by
        rw [hkind]
        rintro hlet
        cases a <;> cases hlet
        cases hbegins
      have hgives := freeExpr_gives hinner hvalue hsemicolon rfl
      have hsemicolon' := State.Spells.kind hsemicolon
      obtain ⟨-, rfl, -⟩ := hsemicolon
      refine .imp (.unlessAt hlet (.finish hgives fun read hread =>
        .expect hsemicolon' (.pure ?_))) ?_ fun _ hgood => hgood
      · simp [ForInit.map, hread]
      · simp [ForInit.phrase]

theorem for_gives {init : ForInit α} {cond step : Expr α} {body : Block α} {note : α}
    (hspells : (Stmt.for_ init cond step body note).phrase.Between s t) :
    Gives True ((Stmt.for_ init cond step body note).phrase.nesting ≤ n)
      (fun value => value.map forget = (Stmt.for_ init cond step body note).map forget)
      (for_ inner) s t := by
  obtain ⟨_, ⟨-, rfl, -⟩, u, hinit, v, hcond, _, hsemicolon, w, hstep, hbody⟩ := hspells
  replace hbody : body.phrase.Between w t := hbody
  have hbrace : w.current.kind.endsExpr .beforeBlock 0 = true := by
    rw [block_kind hbody]
    rfl
  have hsemicolon' := State.Spells.kind hsemicolon
  have hinit := forInit_gives hinner hinit
  have hcond := condition_gives hinner hcond hsemicolon rfl
  have hstep := hinner.expr (Nat.zero_le _) hstep hbrace
  have hbody := hinner.block hbody
  obtain ⟨-, rfl, -⟩ := hsemicolon
  refine .imp (.advance (.bind hinit fun init' hinit' => .bind hcond fun cond' hcond' =>
    .expect hsemicolon' (.bind hstep fun step' hstep' =>
      .finishLoose hbody (fun _ => .pure _) fun body' hbody' => .pure ?_)))
    ?_ fun _ hgood => hgood
  · simp [Stmt.map, hinit', hcond', hstep', hbody']
  · simp [Stmt.phrase]

variable (hframed : inner.Framed)
include hframed

theorem branch_gives {branch : IfStmt α} (hspells : branch.phrase.Between s t)
    (hend : t.current.kind ≠ .keyword .else_) :
    Gives True (branch.phrase.nesting ≤ n)
      (fun value => value.map forget = branch.map forget) (Rule.branch inner) s t := by
  obtain ⟨cond, thenBlock, otherwise, note⟩ := branch
  obtain ⟨_, ⟨-, rfl, -⟩, u, hcond, v, hthen, hotherwise⟩ := hspells
  replace hthen : thenBlock.phrase.Between u v := hthen
  replace hotherwise : (ElseBranch.optionPhrase otherwise).Between v t := hotherwise
  have hbrace : u.current.kind.endsExpr .beforeBlock 0 = true := by
    rw [block_kind hthen]
    rfl
  have hcond := hinner.expr (Nat.zero_le _) hcond hbrace
  have hthen := hinner.block hthen
  unfold Rule.branch
  refine .imp (.advance (.bind hcond fun cond' hcond' => .bindLoose hthen (fun thenBlock' => ?_)
    fun thenBlock' hthen' => otherwise_gives hinner hotherwise hend ?_ ?_))
    ?_ fun _ hgood => hgood
  · refine .bind (.take? _) fun _ => ?_
    extract_lets rest
    have hrest (otherwise : Option (ElseBranch Span)) : (rest otherwise).Framed :=
      .bind (.spanFrom _) fun _ => .pure _
    refine .ite (.bind (.isAt _) fun _ => .ite ?_ ?_) (.bind (.pure _) hrest)
    · exact .bind hframed.branch fun _ => .bind (.pure _) hrest
    · exact .bind hframed.block fun _ => .bind (.pure _) hrest
  · exact fun _ => .bind (.spanFrom _) fun _ => .pure _
  · intro otherwise' hotherwise
    refine .spanFrom (.pure ?_)
    simp [IfStmt.map, ElseBranch.mapOption_eq_map, hcond', hthen', hotherwise]
  · simp [IfStmt.phrase]

end

end SourceFront.Rule
