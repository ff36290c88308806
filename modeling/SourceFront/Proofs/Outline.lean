import SourceFront.Proofs.Notes
import SourceFront.Proofs.Region
import SourceFront.Tree.Outline

/-!
Outlines. The entries of an outline are nodes of the tree, each before those in it: in
the outline of an analysed source every range comes before the ranges in it and behind
it. What an outline lists is a matter of the shape alone.
-/

namespace SourceFront

variable {α β : Type}

/-- The notes of the nodes of a phrase, each before those in its node. -/
def Phrase.notes : Phrase α → List α
  | .empty | .terminal _ | .either _ _ | .gap | .provided _ => []
  | .seq first second => first.notes ++ second.notes
  | .deeper inner => inner.notes
  | .node note inner => note :: inner.notes

namespace Phrase

@[simp] theorem notes_terminal (t : Terminal) : (terminal t : Phrase α).notes = [] := rfl

@[simp] theorem notes_keyword (k : Keyword) : (keyword k : Phrase α).notes = [] := rfl

@[simp] theorem notes_symbol (s : Symbol) : (symbol s : Phrase α).notes = [] := rfl

@[simp] theorem notes_seq (first second : Phrase α) :
    (seq first second).notes = first.notes ++ second.notes := rfl

@[simp] theorem notes_deeper (inner : Phrase α) : (deeper inner).notes = inner.notes := rfl

@[simp] theorem notes_node (note : α) (inner : Phrase α) :
    (node note inner).notes = note :: inner.notes := rfl

@[simp] theorem notes_concat (phrases : List (Phrase α)) :
    (concat phrases).notes = phrases.flatMap notes := by
  induction phrases with
  | nil => rfl
  | cons phrase phrases ih =>
      cases phrases with
      | nil => simp [concat]
      | cons next phrases => rw [concat, notes_seq, ih, ← List.flatMap_cons]

@[simp] theorem notes_gapped (phrases : List (Phrase α)) :
    (gapped phrases).notes = phrases.flatMap notes := by
  induction phrases with
  | nil => rfl
  | cons phrase phrases ih => simp [gapped, ih, notes]

end Phrase

theorem Expr.note_mem_whole (expr : Expr α) (place : Place) :
    expr.note ∈ (expr.whole place).notes := by
  cases expr <;> simp [whole, Expr.phrase, Name.phrase, note]

mutual

theorem Block.outline_sublist : ∀ body : Block α,
    (body.note :: body.outline.map Prod.snd).Sublist body.phrase.notes
  | ⟨stmts, note⟩ => by
      simpa [Block.outline, Block.phrase] using Stmt.listOutline_sublist stmts

theorem Stmt.outline_sublist : ∀ stmt : Stmt α,
    (stmt.note :: stmt.outline.map Prod.snd).Sublist stmt.phrase.notes
  | .let_ binding | .const binding => by
      simp [Stmt.outline, Stmt.phrase, Stmt.note, Binding.phrase]
  | .return_ _ _ => by simp [Stmt.outline, Stmt.phrase, Stmt.note, returnPhrase]
  | .break_ _ | .continue_ _ => by simp [Stmt.outline, Stmt.phrase, Stmt.note, jumpPhrase]
  | .block body => body.outline_sublist
  | .if_ branch => branch.outline_sublist
  | .match_ choice => choice.outline_sublist
  | .loop body _ => by
      simpa [Stmt.outline, Stmt.phrase, Stmt.note] using (List.sublist_of_cons_sublist
        body.outline_sublist)
  | .while_ _ body _ => by
      simpa [Stmt.outline, Stmt.phrase, Stmt.note] using
        (List.sublist_of_cons_sublist body.outline_sublist).trans
          (List.sublist_append_right _ _)
  | .for_ init cond step body _ => by
      have hbody := (List.sublist_of_cons_sublist body.outline_sublist).trans
        (List.sublist_append_right
          (init.phrase.notes ++ (cond.whole .beforeBlock).notes ++
            (step.whole .beforeBlock).notes) _)
      simpa [Stmt.outline, Stmt.phrase, Stmt.note] using hbody
  | .expr value _ => by
      simpa [Stmt.outline, Stmt.phrase, Stmt.note] using value.note_mem_whole .free

theorem Stmt.listOutline_sublist : ∀ stmts : List (Stmt α),
    ((Stmt.listOutline stmts).map Prod.snd).Sublist ((Stmt.phrases stmts).flatMap Phrase.notes)
  | [] => .slnil
  | stmt :: stmts => by
      simpa [Stmt.listOutline, Stmt.phrases] using
        stmt.outline_sublist.append (Stmt.listOutline_sublist stmts)

theorem IfStmt.outline_sublist : ∀ branch : IfStmt α,
    (branch.note :: branch.outline.map Prod.snd).Sublist branch.phrase.notes
  | ⟨cond, thenBlock, otherwise, note⟩ => by
      have hcond := List.singleton_sublist.mpr (cond.note_mem_whole .beforeBlock)
      have hthen := List.sublist_of_cons_sublist thenBlock.outline_sublist
      simpa [IfStmt.outline, IfStmt.phrase] using
        hcond.append (hthen.append (ElseBranch.optionOutline_sublist otherwise))

theorem ElseBranch.optionOutline_sublist : ∀ branch : Option (ElseBranch α),
    ((ElseBranch.optionOutline branch).map Prod.snd).Sublist
      (ElseBranch.optionPhrase branch).notes
  | none => .slnil
  | some (.if_ branch) => List.sublist_of_cons_sublist branch.outline_sublist
  | some (.block body) => List.sublist_of_cons_sublist body.outline_sublist

theorem MatchStmt.outline_sublist : ∀ choice : MatchStmt α,
    (choice.note :: choice.outline.map Prod.snd).Sublist choice.phrase.notes
  | ⟨subject, arms, note⟩ => by
      simpa [MatchStmt.outline, MatchStmt.phrase] using
        (MatchArm.listOutline_sublist arms).trans (List.sublist_append_right _ _)

theorem MatchArm.listOutline_sublist : ∀ arms : List (MatchArm α),
    ((MatchArm.listOutline arms).map Prod.snd).Sublist
      ((MatchArm.phrases arms).flatMap Phrase.notes)
  | [] => .slnil
  | ⟨patterns, body, note⟩ :: arms => by
      have hbody := body.outline_sublist.trans (List.sublist_append_right
        (Phrase.separated (.symbol .pipe) (patterns.map Pattern.phrase)).notes _)
      simpa [MatchArm.listOutline, MatchArm.phrases, MatchArm.phrase] using
        hbody.append (MatchArm.listOutline_sublist arms)

theorem ArmBody.outline_sublist : ∀ body : ArmBody α,
    (body.outline.map Prod.snd).Sublist body.phrase.notes
  | .block body => List.sublist_of_cons_sublist body.outline_sublist
  | .match_ choice => List.sublist_of_cons_sublist choice.outline_sublist
  | .return_ _ _ | .break_ _ | .continue_ _ | .expr _ => List.nil_sublist _

end

theorem Definition.outline_sublist (definition : Definition α) :
    (definition.outline.map Prod.snd).Sublist definition.phrase.notes := by
  cases definition with
  | function def_ =>
      have hbody := (List.sublist_of_cons_sublist def_.body.outline_sublist).trans
        (List.sublist_append_right def_.proto.phrase.notes _)
      simpa [outline, phrase, FunctionDef.phrase] using hbody.cons def_.note
  | _ => exact List.nil_sublist _

theorem Item.outline_sublist (item : Item α) :
    (item.note :: item.outline.map Prod.snd).Sublist item.phrase.notes := by
  cases item with
  | import_ => simp [note, outline, phrase]
  | declaration decl =>
      have hdefinition := decl.definition.outline_sublist
      cases hpublic : decl.isPublic <;>
        simpa [note, outline, phrase, Declaration.phrase, hpublic, Phrase.notes] using hdefinition

/-- The entries of a module are nodes of its phrase, in the order of the phrase. -/
theorem Module.outline_sublist (module : Module α) :
    (module.outline.map Prod.snd).Sublist module.phrase.notes := by
  rw [outline, phrase, Phrase.notes_gapped]
  induction module.items with
  | nil => exact .slnil
  | cons item items ih =>
      rw [List.flatMap_cons, List.map_append, List.map_cons, List.map_cons,
        List.flatMap_cons]
      exact item.outline_sublist.append ih

namespace Phrase.Derives

variable {fileId length : Nat} {phrase : Phrase Span} {tokens : List Token}

theorem notes_cover (h : phrase.Derives True tokens) (ordered : Token.Ordered tokens) :
    ∀ span ∈ phrase.notes, ∃ part, part <:+: tokens ∧ span.Covers part := by
  induction phrase generalizing tokens with
  | empty | terminal | either | gap | provided => simp [notes]
  | seq first second ihFirst ihSecond =>
      obtain ⟨front, back, rfl, hfirst, hsecond⟩ := h
      intro span hmem
      rcases List.mem_append.mp hmem with hmem | hmem
      · obtain ⟨part, hpart, hcovers⟩ := ihFirst hfirst
          (ordered.sublist (List.sublist_append_left _ _)) span hmem
        exact ⟨part, hpart.trans (List.prefix_append _ _).isInfix, hcovers⟩
      · obtain ⟨part, hpart, hcovers⟩ := ihSecond hsecond
          (ordered.sublist (List.sublist_append_right _ _)) span hmem
        exact ⟨part, hpart.trans (List.suffix_append _ _).isInfix, hcovers⟩
  | deeper inner ih => exact ih h ordered
  | node span inner ih =>
      intro span' hmem
      rcases List.mem_cons.mp hmem with rfl | hmem
      · exact ⟨tokens, List.infix_rfl, h.2 ordered⟩
      · exact ih h.1 ordered span' hmem

/-- Of two nodes of a phrase, the later one is in the earlier one or behind it. -/
theorem notes_nested (h : phrase.Derives True tokens)
    (hplaced : Token.Placed fileId length tokens) :
    phrase.notes.Pairwise fun a b => a.contains b = true ∨ a.stop ≤ b.start := by
  induction phrase generalizing tokens with
  | empty | terminal | either | gap | provided => exact .nil
  | seq first second ihFirst ihSecond =>
      obtain ⟨front, back, rfl, hfirst, hsecond⟩ := h
      have hfront := hplaced.sublist (List.sublist_append_left front back)
      have hback := hplaced.sublist (List.sublist_append_right front back)
      refine List.pairwise_append.mpr ⟨ihFirst hfirst hfront, ihSecond hsecond hback, ?_⟩
      intro a ha b hb
      obtain ⟨left, hleft, hcovers⟩ := notes_cover hfirst hfront.ordered a ha
      obtain ⟨right, hright, hcovers'⟩ := notes_cover hsecond hback.ordered b hb
      exact .inr (hplaced.covers_apart hcovers hcovers' hleft hright)
  | deeper inner ih => exact ih h hplaced
  | node span inner ih =>
      obtain ⟨hinner, hcovers⟩ := h
      have hcovers := hcovers hplaced.ordered
      apply List.Pairwise.cons _ (ih hinner hplaced)
      intro span' hmem
      obtain ⟨part, hpart, hcovers'⟩ := notes_cover hinner hplaced.ordered span' hmem
      exact .inl (hcovers.contains hcovers' hpart hplaced.ordered)

end Phrase.Derives

/-- In the outline of any source, every range is one of the file and not empty, and every later
one is in it or behind it. -/
theorem analyse_outline_nested (source : String) (fileId : Nat) :
    let outline := (analyse source fileId).module.outline
    (∀ entry ∈ outline, entry.2.start < entry.2.stop ∧
        entry.2.stop ≤ source.utf8ByteSize ∧ entry.2.fileId = fileId) ∧
      outline.Pairwise fun a b => a.2.contains b.2 = true ∨ a.2.stop ≤ b.2.start := by
  intro outline
  obtain ⟨⟨module, after⟩, hread⟩ : ∃ result,
      (Reading.ofSource source fileId).readModule = result := ⟨_, rfl⟩
  obtain ⟨hderives, -⟩ := ofSource_readModule hread fun _ => trivial
  have hplaced := Token.Placed.of_follow (bodyTokens_follow source fileId)
  have hnotes : (outline.map Prod.snd).Sublist module.phrase.notes := by
    rw [show outline = module.outline from congrArg (·.module.outline) (analyse_eq hread)]
    exact module.outline_sublist
  constructor
  · intro entry hmem
    have hnote := hnotes.subset (List.mem_map_of_mem hmem)
    obtain ⟨part, hpart, hcovers⟩ := hderives.notes_cover hplaced.ordered entry.2 hnote
    exact (hplaced.sublist hpart.sublist).of_covers hcovers
  · exact List.pairwise_map.mp ((hderives.notes_nested hplaced).sublist hnotes)

section Map

variable (g : α → β)

/-- An outline with its notes changed. -/
def Outline.map (outline : Outline α) : Outline β :=
  List.map (fun entry => (entry.1, g entry.2)) outline

theorem Outline.map_cons (role : Role) (note : α) (outline : Outline α) :
    Outline.map g ((role, note) :: outline) = (role, g note) :: outline.map g := rfl

theorem Outline.map_append (front back : Outline α) :
    Outline.map g (front ++ back) = front.map g ++ back.map g :=
  List.map_append

theorem Stmt.note_map (stmt : Stmt α) : (stmt.map g).note = g stmt.note := by
  cases stmt with
  | block body => exact body.note_map g
  | if_ branch =>
      cases branch
      rfl
  | match_ choice =>
      cases choice
      rfl
  | _ => rfl

mutual

theorem Block.outline_map : ∀ body : Block α, (body.map g).outline = body.outline.map g
  | ⟨stmts, _⟩ => Stmt.listOutline_map stmts

theorem Stmt.outline_map : ∀ stmt : Stmt α, (stmt.map g).outline = stmt.outline.map g
  | .let_ _ | .const _ | .return_ _ _ | .break_ _ | .continue_ _ => rfl
  | .block body | .loop body _ | .while_ _ body _ | .for_ _ _ _ body _ => body.outline_map
  | .if_ branch => branch.outline_map
  | .match_ choice => choice.outline_map
  | .expr value _ => by
      rw [Stmt.map, Stmt.outline, Stmt.outline, value.note_map]
      rfl

theorem Stmt.listOutline_map : ∀ stmts : List (Stmt α),
    Stmt.listOutline (Stmt.mapList g stmts) = (Stmt.listOutline stmts).map g
  | [] => rfl
  | stmt :: stmts => by
      rw [Stmt.mapList, Stmt.listOutline, Stmt.listOutline, stmt.note_map, stmt.outline_map,
        Stmt.listOutline_map stmts, Outline.map_append, Outline.map_cons]

theorem IfStmt.outline_map : ∀ branch : IfStmt α,
    (branch.map g).outline = branch.outline.map g
  | ⟨cond, thenBlock, otherwise, _⟩ => by
      rw [IfStmt.map, IfStmt.outline, IfStmt.outline, cond.note_map, thenBlock.outline_map,
        ElseBranch.optionOutline_map otherwise, Outline.map_append, Outline.map_cons]

theorem ElseBranch.optionOutline_map : ∀ branch : Option (ElseBranch α),
    ElseBranch.optionOutline (ElseBranch.mapOption g branch) =
      (ElseBranch.optionOutline branch).map g
  | none => rfl
  | some (.if_ branch) => branch.outline_map
  | some (.block body) => body.outline_map

theorem MatchStmt.outline_map : ∀ choice : MatchStmt α,
    (choice.map g).outline = choice.outline.map g
  | ⟨_, arms, _⟩ => MatchArm.listOutline_map arms

theorem MatchArm.listOutline_map : ∀ arms : List (MatchArm α),
    MatchArm.listOutline (MatchArm.mapList g arms) = (MatchArm.listOutline arms).map g
  | [] => rfl
  | ⟨_, body, _⟩ :: arms => by
      rw [MatchArm.mapList, MatchArm.listOutline, MatchArm.listOutline, body.outline_map,
        MatchArm.listOutline_map arms, Outline.map_append, Outline.map_cons]

theorem ArmBody.outline_map : ∀ body : ArmBody α, (body.map g).outline = body.outline.map g
  | .block body => body.outline_map
  | .match_ choice => choice.outline_map
  | .return_ _ _ | .break_ _ | .continue_ _ | .expr _ => rfl

end

theorem Item.outline_map (item : Item α) : (item.map g).outline = item.outline.map g := by
  cases item with
  | import_ => rfl
  | declaration decl =>
      obtain ⟨_, definition, _⟩ := decl
      cases definition with
      | function def_ => exact def_.body.outline_map g
      | _ => rfl

theorem Item.note_map (item : Item α) : (item.map g).note = g item.note := by
  cases item <;> rfl

/-- To change the notes of a module is to change those of its outline: what is listed, and in
which order, is a matter of the shape. -/
theorem Module.outline_map (module : Module α) : (module.map g).outline = module.outline.map g := by
  rw [outline, outline, map]
  induction module.items with
  | nil => rfl
  | cons item items ih =>
      rw [List.map_cons, List.flatMap_cons, List.flatMap_cons, ih, item.outline_map,
        item.note_map, Outline.map_append, Outline.map_cons]

end Map

mutual

theorem Block.role_ne_item : ∀ body : Block α, ∀ entry ∈ body.outline, entry.1 ≠ .item
  | ⟨stmts, _⟩ => Stmt.role_ne_item_list stmts

theorem Stmt.role_ne_item : ∀ stmt : Stmt α, ∀ entry ∈ stmt.outline, entry.1 ≠ .item
  | .let_ _ | .const _ | .return_ _ _ | .break_ _ | .continue_ _ => by simp [Stmt.outline]
  | .block body | .loop body _ | .while_ _ body _ | .for_ _ _ _ body _ => body.role_ne_item
  | .if_ branch => branch.role_ne_item
  | .match_ choice => choice.role_ne_item
  | .expr _ _ => by simp [Stmt.outline]

theorem Stmt.role_ne_item_list : ∀ stmts : List (Stmt α),
    ∀ entry ∈ Stmt.listOutline stmts, entry.1 ≠ .item
  | [] => by simp [Stmt.listOutline]
  | stmt :: stmts => by
      rw [Stmt.listOutline, List.forall_mem_append, List.forall_mem_cons]
      exact ⟨⟨by simp, stmt.role_ne_item⟩, Stmt.role_ne_item_list stmts⟩

theorem IfStmt.role_ne_item : ∀ branch : IfStmt α, ∀ entry ∈ branch.outline, entry.1 ≠ .item
  | ⟨_, thenBlock, otherwise, _⟩ => by
      rw [IfStmt.outline, List.forall_mem_append, List.forall_mem_cons]
      exact ⟨⟨by simp, thenBlock.role_ne_item⟩, ElseBranch.role_ne_item otherwise⟩

theorem ElseBranch.role_ne_item : ∀ branch : Option (ElseBranch α),
    ∀ entry ∈ ElseBranch.optionOutline branch, entry.1 ≠ .item
  | none => by simp [ElseBranch.optionOutline]
  | some (.if_ branch) => branch.role_ne_item
  | some (.block body) => body.role_ne_item

theorem MatchStmt.role_ne_item : ∀ choice : MatchStmt α,
    ∀ entry ∈ choice.outline, entry.1 ≠ .item
  | ⟨_, arms, _⟩ => MatchArm.role_ne_item arms

theorem MatchArm.role_ne_item : ∀ arms : List (MatchArm α),
    ∀ entry ∈ MatchArm.listOutline arms, entry.1 ≠ .item
  | [] => by simp [MatchArm.listOutline]
  | ⟨_, body, _⟩ :: arms => by
      rw [MatchArm.listOutline, List.forall_mem_append, List.forall_mem_cons]
      exact ⟨⟨by simp, body.role_ne_item⟩, MatchArm.role_ne_item arms⟩

theorem ArmBody.role_ne_item : ∀ body : ArmBody α, ∀ entry ∈ body.outline, entry.1 ≠ .item
  | .block body => body.role_ne_item
  | .match_ choice => choice.role_ne_item
  | .return_ _ _ | .break_ _ | .continue_ _ | .expr _ => by simp [ArmBody.outline]

end

theorem Item.role_ne_item (item : Item α) : ∀ entry ∈ item.outline, entry.1 ≠ .item := by
  cases item with
  | import_ => simp [outline]
  | declaration decl =>
      obtain ⟨_, definition, _⟩ := decl
      cases definition with
      | function def_ => exact def_.body.role_ne_item
      | _ => simp [outline, Definition.outline]

/-- Each item has one entry, and there are no others for items. -/
theorem Module.outline_items (module : Module α) :
    module.outline.filter (·.1 = .item) = module.items.map fun item => (.item, item.note) := by
  rw [outline]
  induction module.items with
  | nil => rfl
  | cons item items ih =>
      have hnone : item.outline.filter (·.1 = .item) = [] :=
        List.filter_eq_nil_iff.mpr fun entry hmem => by simpa using item.role_ne_item entry hmem
      rw [List.flatMap_cons, List.filter_append, List.filter_cons_of_pos (by simp), hnone, ih,
        List.map_cons]
      rfl

end SourceFront
