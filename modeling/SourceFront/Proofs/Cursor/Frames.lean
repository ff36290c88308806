import SourceFront.Proofs.Cursor.Kept
import SourceFront.Proofs.Cursor.Safety

/-!
What every function of the grammar leaves as it was, on the way and at its end, whether it ends
with a value or with a problem.
-/

namespace SourceFront

/-- The functions of the grammar: walks that make calls of `calls`, and the rules that they follow
where expressions stand in `place`. -/
inductive Walk.Parses (calls : Calls) (level : Level) :
    {α : Type} → Place → Walk α → Rule α → Prop where
  | nestedExpr {place : Place} (least : Nat) :
      Parses calls level place (calls.expr least) (level.expr place least)
  | nestedOperand {place : Place} :
      Parses calls level place calls.operand (level.operand place)
  | nestedType {place : Place} : Parses calls level place calls.typeExpr level.typeExpr
  | nestedBlock {place : Place} : Parses calls level place calls.block level.block
  | nestedBranch {place : Place} : Parses calls level place calls.branch level.branch
  | nestedChoice : Parses calls level .free calls.choice level.choice
  | name {place : Place} : Parses calls level place Walk.name Rule.name
  | stars {place : Place} : Parses calls level place Walk.stars Rule.stars
  | resultType {place : Place} :
      Parses calls level place (Walk.resultType calls) (Rule.resultType level)
  | primitive {place : Place} (type : Primitive) :
      Parses calls level place (Walk.primitive type) (Rule.primitive type)
  | functionType {place : Place} :
      Parses calls level place (Walk.functionType calls) (Rule.functionType level)
  | typeBase {place : Place} (pointers : Nat) :
      Parses calls level place (Walk.typeBase calls pointers) (Rule.typeBase level pointers)
  | sizes {place : Place} : Parses calls level place (Walk.sizes calls) (Rule.sizes level)
  | typeExpr {place : Place} :
      Parses calls level place (Walk.typeExpr calls) (Rule.typeExpr level)
  | typeAnnotation? {place : Place} :
      Parses calls level place (Walk.typeAnnotation? calls) (Rule.typeAnnotation? level)
  | call {place : Place} (callee : Name Span) :
      Parses calls level place (Walk.call calls callee) (Rule.call level callee)
  | fieldInit : Parses calls level .free (Walk.fieldInit calls) (Rule.fieldInit level)
  | record {place : Place} (type : Name Span) :
      Parses calls level place (Walk.record calls type) (Rule.record level type)
  | named {place : Place} :
      Parses calls level place (Walk.named calls) (Rule.named level place)
  | primary {place : Place} :
      Parses calls level place (Walk.primary calls) (Rule.primary level place)
  | member {place : Place} : Parses calls level place (Walk.member calls) (Rule.member level)
  | suffix {place : Place} (base : Expr Span) :
      Parses calls level place (Walk.suffix calls base) (Rule.suffix level base)
  | operand {place : Place} :
      Parses calls level place (Walk.operand calls) (Rule.operand level place)
  | operation {place : Place} (least : Nat) (left : Expr Span) :
      Parses calls level place (Walk.operation calls least left)
        (Rule.operation level place least left)
  | expression {place : Place} (least : Nat) :
      Parses calls level place (Walk.expression calls least) (Rule.expression level place least)
  | condition {place : Place} :
      Parses calls level place (Walk.condition calls) level.condition
  | binding : Parses calls level .free (Walk.binding calls) (Rule.binding level)
  | return_ : Parses calls level .free (Walk.return_ calls) (Rule.return_ level)
  | jump {place : Place} : Parses calls level place Walk.jump Rule.jump
  | branch {place : Place} : Parses calls level place (Walk.branch calls) (Rule.branch level)
  | forInit : Parses calls level .free (Walk.forInit calls) (Rule.forInit level)
  | for_ : Parses calls level .free (Walk.for_ calls) (Rule.for_ level)
  | pathTail {place : Place} (first : Name Span) :
      Parses calls level place (Walk.pathTail first) (Rule.pathTail first)
  | pattern {place : Place} : Parses calls level place Walk.pattern Rule.pattern
  | patterns {place : Place} : Parses calls level place Walk.patterns Rule.patterns
  | armBody : Parses calls level .free (Walk.armBody calls) (Rule.armBody level)
  | arm : Parses calls level .free (Walk.arm calls) (Rule.arm level)
  | arms : Parses calls level .free (Walk.arms calls) (Rule.arms level)
  | choice : Parses calls level .free (Walk.choice calls) (Rule.choice level)
  | statement : Parses calls level .free (Walk.statement calls) (Rule.statement level)
  | blockRound (read : List (Stmt Span)) :
      Parses calls level .free (Walk.blockRound calls read) (Rule.blockRound level read)
  | block {place : Place} : Parses calls level place (Walk.block calls) (Rule.block level)
  | typedName {place : Place} :
      Parses calls level place (Walk.typedName calls) (Rule.typedName level)
  | prototype {place : Place} (name : Name Span) :
      Parses calls level place (Walk.prototype calls name) (Rule.prototype level name)
  | function {place : Place} :
      Parses calls level place (Walk.function calls) (Rule.function level)
  | recordDef {place : Place} :
      Parses calls level place (Walk.recordDef calls) (Rule.recordDef level)
  | variant : Parses calls level .free (Walk.variant calls) (Rule.variant level)
  | enumDef : Parses calls level .free (Walk.enumDef calls) (Rule.enumDef level)
  | external {place : Place} :
      Parses calls level place (Walk.external calls) (Rule.external level)
  | import_ {place : Place} : Parses calls level place Walk.import_ Rule.import_
  | constantDef : Parses calls level .free (Walk.constantDef calls) (Rule.constantDef level)
  | definition : Parses calls level .free (Walk.definition calls) (Rule.definition level)
  | declaration : Parses calls level .free (Walk.declaration calls) (Rule.declaration level)
  | item : Parses calls level .free (Walk.item calls) (Rule.item level)
  | moduleRound (read : List (Item Span)) :
      Parses calls level .free (Walk.moduleRound calls read) (Rule.moduleRound level read)
  | items : Parses calls level .free (Walk.items calls) (Rule.items level)

namespace Walk

variable {calls : Calls} {level : Level} {place : Place} {α : Type} {walk : Walk α} {rule : Rule α}

theorem Parses.kept_follows (hparses : Parses calls level place walk rule) (h : calls.Kept) :
    walk.Kept ∧ ∀ {tokens : List Token} {depth : Nat}, calls.Follow tokens depth level →
      walk.Follows tokens place depth rule := by
  cases hparses with
  | nestedExpr least => exact ⟨h.expr least, fun hfollow => hfollow.expr _ least⟩
  | nestedOperand => exact ⟨h.operand, fun hfollow => hfollow.operand _⟩
  | nestedType => exact ⟨h.typeExpr, fun hfollow => hfollow.typeExpr _⟩
  | nestedBlock => exact ⟨h.block, fun hfollow => hfollow.block _⟩
  | nestedBranch => exact ⟨h.branch, fun hfollow => hfollow.branch _⟩
  | nestedChoice => exact ⟨h.choice, Calls.Follow.choice⟩
  | name => exact ⟨name_kept, fun _ => name_follows⟩
  | stars => exact ⟨stars_kept, fun _ => stars_follows⟩
  | resultType => exact ⟨resultType_kept h, resultType_follows⟩
  | primitive type => exact ⟨primitive_kept _, fun _ => primitive_follows _⟩
  | functionType => exact ⟨functionType_kept h, functionType_follows⟩
  | typeBase pointers => exact ⟨typeBase_kept h _, fun hfollow => typeBase_follows hfollow _⟩
  | sizes => exact ⟨sizes_kept h, sizes_follows⟩
  | typeExpr => exact ⟨typeExpr_kept h, typeExpr_follows⟩
  | typeAnnotation? => exact ⟨typeAnnotation?_kept h, typeAnnotation?_follows⟩
  | call callee => exact ⟨call_kept h _, fun hfollow => call_follows hfollow _⟩
  | fieldInit => exact ⟨fieldInit_kept h, fieldInit_follows⟩
  | record type => exact ⟨record_kept h _, fun hfollow => record_follows hfollow _⟩
  | named => exact ⟨named_kept h, named_follows⟩
  | primary => exact ⟨primary_kept h, primary_follows⟩
  | member => exact ⟨member_kept h, member_follows⟩
  | suffix base => exact ⟨suffix_kept h _, fun hfollow => suffix_follows hfollow _⟩
  | operand => exact ⟨operand_kept h, operand_follows⟩
  | operation least left =>
      exact ⟨operation_kept h _ _, fun hfollow => operation_follows hfollow _ _⟩
  | expression least => exact ⟨expression_kept h _, fun hfollow => expression_follows hfollow _⟩
  | condition => exact ⟨condition_kept h, condition_follows⟩
  | binding => exact ⟨binding_kept h, binding_follows⟩
  | return_ => exact ⟨return_kept h, return_follows⟩
  | jump => exact ⟨jump_kept, fun _ => jump_follows⟩
  | branch => exact ⟨branch_kept h, branch_follows⟩
  | forInit => exact ⟨forInit_kept h, forInit_follows⟩
  | for_ => exact ⟨for_kept h, for_follows⟩
  | pathTail first => exact ⟨pathTail_kept _, fun _ => pathTail_follows _⟩
  | pattern => exact ⟨pattern_kept, fun _ => pattern_follows⟩
  | patterns => exact ⟨patterns_kept, fun _ => patterns_follows⟩
  | armBody => exact ⟨armBody_kept h, armBody_follows⟩
  | arm => exact ⟨arm_kept h, arm_follows⟩
  | arms => exact ⟨arms_kept h, arms_follows⟩
  | choice => exact ⟨choice_kept h, choice_follows⟩
  | statement => exact ⟨statement_kept h, statement_follows⟩
  | blockRound read => exact ⟨blockRound_kept h _, fun hfollow => blockRound_follows hfollow _⟩
  | block => exact ⟨block_kept h, block_follows⟩
  | typedName => exact ⟨typedName_kept h, typedName_follows⟩
  | prototype name => exact ⟨prototype_kept h _, fun hfollow => prototype_follows hfollow _⟩
  | function => exact ⟨function_kept h, function_follows⟩
  | recordDef => exact ⟨recordDef_kept h, recordDef_follows⟩
  | variant => exact ⟨variant_kept h, variant_follows⟩
  | enumDef => exact ⟨enumDef_kept h, enumDef_follows⟩
  | external => exact ⟨external_kept h, external_follows⟩
  | import_ => exact ⟨import_kept, fun _ => import_follows⟩
  | constantDef => exact ⟨constantDef_kept h, constantDef_follows⟩
  | definition => exact ⟨definition_kept h, definition_follows⟩
  | declaration => exact ⟨declaration_kept h, declaration_follows⟩
  | item => exact ⟨item_kept h, item_follows⟩
  | moduleRound read => exact ⟨moduleRound_kept h _, fun hfollow => moduleRound_follows hfollow _⟩
  | items => exact ⟨items_kept h, items_follows⟩

theorem Kept.ended {c : Cursor} (h : walk.Kept) (hc : c.Standing) :
    (∀ value d, walk c = .ok value d → c.Onward d ∧ c.Same d ∧ d.peak ≤ 64) ∧
      (∀ problem d, walk c = .error (.problem problem) d →
        c.Onward d ∧ c.Same d ∧ d.peak ≤ 64 ∧ d.Faces problem) ∧
      ∀ breach d, walk c = .error (.breach breach) d → c.Onward d ∧ d.peak ≤ 64 := by
  have hreturned := h c hc
  refine ⟨?_, ?_, ?_⟩
  · intro value d hrun
    rw [hrun] at hreturned
    exact ⟨hreturned.onward, hreturned.same, hreturned.onward.peak_le⟩
  · intro problem d hrun
    rw [hrun] at hreturned
    obtain ⟨honward, hsame, hfaces⟩ := hreturned.failing
    exact ⟨honward, hsame, honward.peak_le, hfaces⟩
  · intro breach d hrun
    rw [hrun] at hreturned
    exact ⟨hreturned.broken, hreturned.broken.peak_le⟩

theorem ofTokens_standing (tokens : List Token) : (Cursor.ofTokens tokens).Standing where
  inside := by simp [Cursor.ofTokens]
  depth_le := Nat.le_refl _
  peak_le := Nat.zero_le _

/-- Wherever a function of the grammar can begin, it gives no token back and withdraws no problem,
and no more than 64 phrases have ever been open. Where it ends, with a value or with a problem, as
many phrases are open as at its beginning and struct literals are recognised as they were, and a
problem is one of the token there. Where its rule stands at the same token, it ends as the rule
does. A whole module is read in the same way, and the problems of the tokens themselves stay the
same. -/
theorem grammar_frames :
    (∀ (n : Nat) {place : Place} {α : Type} {walk : Walk α} {rule : Rule α},
      Parses (.deep (n + 1)) (.allowing n) place walk rule →
        (∀ c : Cursor, c.Standing →
          (∀ value d, walk c = .ok value d → c.Onward d ∧ c.Same d ∧ d.peak ≤ 64) ∧
          (∀ problem d, walk c = .error (.problem problem) d →
            c.Onward d ∧ c.Same d ∧ d.peak ≤ 64 ∧ d.Faces problem) ∧
          ∀ breach d, walk c = .error (.breach breach) d → c.Onward d ∧ d.peak ≤ 64) ∧
        ∀ tokens depth, depth + n = 64 → ∀ c s, c.At tokens place depth s →
          Agrees tokens place depth (walk c) (rule s)) ∧
    (∀ tokens, (Cursor.ofTokens tokens).Standing ∧
      ∃ items after, Walk.items .outermost (.ofTokens tokens) = .ok items after ∧
        (Cursor.ofTokens tokens).Onward after ∧ (Cursor.ofTokens tokens).Same after ∧
        after.peak ≤ 64 ∧ (Reading.ofTokens tokens).readModule.1.items = items) ∧
    ∀ reading : Reading, reading.readModule.2.lexical = reading.lexical := by
  refine ⟨fun n place α walk rule hparses => ?_, fun tokens => ?_, fun _ => rfl⟩
  · obtain ⟨hkept, hfollows⟩ := hparses.kept_follows (Calls.deep_kept (n + 1))
    exact ⟨fun c => hkept.ended, fun tokens depth hdepth c s hat =>
      (hfollows (Calls.deep_follow n hdepth)).agrees hat⟩
  · have hstanding := ofTokens_standing tokens
    obtain ⟨items, after, state, hwalk, hrule, -⟩ := items_ofTokens tokens
    obtain ⟨honward, hsame, hpeak⟩ :=
      ((items_kept (Calls.deep_kept _)).ended hstanding).1 items after hwalk
    refine ⟨hstanding, items, after, hwalk, honward, hsame, hpeak, ?_⟩
    simp only [Reading.readModule, Reading.ofTokens, hrule]

/-- Before a block, with as many phrases open as may be: a statement that fails at its second
token, and a block that is refused at its first one. -/
theorem grammar_frames_full :
    let c : Cursor :=
      ⟨[⟨.keyword .break_, "break", ⟨0, 5, 0⟩⟩, .eof ⟨5, 5, 0⟩], 0, .beforeBlock, 64, 64, [], []⟩
    (∃ problem d, Walk.jump c = .error (.problem problem) d ∧
      c.Onward d ∧ c.Same d ∧ d.peak ≤ 64 ∧ d.Faces problem ∧ d.pos = 1) ∧
    ∃ problem d, (Calls.deep 1).block c = .error (.problem problem) d ∧
      c.Onward d ∧ c.Same d ∧ d.peak ≤ 64 ∧ d.Faces problem ∧ d.pos = 0 := by
  intro c
  have hc : c.Standing := ⟨by decide, by decide, by decide⟩
  have hjump := ((grammar_frames.1 0 (@Parses.jump _ _ .beforeBlock)).1 c hc).2.1
  have hblock := ((grammar_frames.1 0 (@Parses.nestedBlock _ _ .beforeBlock)).1 c hc).2.1
  obtain ⟨honward, hsame, hpeak, hfaces⟩ := hjump _ _ rfl
  obtain ⟨honward', hsame', hpeak', hfaces'⟩ := hblock _ _ rfl
  exact ⟨⟨_, _, rfl, honward, hsame, hpeak, hfaces, rfl⟩,
    ⟨_, _, rfl, honward', hsame', hpeak', hfaces', rfl⟩⟩

end Walk

end SourceFront
