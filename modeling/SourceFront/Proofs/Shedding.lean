import SourceFront.Proofs.Unterminated

/-!
What is written without some of its statements. Where the semicolons of these are cut out, the
tokens in front of them are strewn into what is written for the tree without the statements.
-/

namespace SourceFront

open Phrase

/-- A token that is kept, or a statement of which only the semicolon is cut out. -/
inductive Patch where
  | kept (token : Token)
  | cut (run : List Token) (semicolon : Token)

namespace Patch

/-- The tokens before any semicolon is cut out. -/
def tokens (patches : List Patch) : List Token :=
  patches.flatMap fun
    | .kept token => [token]
    | .cut run semicolon => run ++ [semicolon]

/-- What is left when the semicolons are cut out. -/
def bits (patches : List Patch) : List Bit :=
  patches.map fun
    | .kept token => .token token
    | .cut run _ => .stray run

/-- The semicolons that are cut out. -/
def semicolons (patches : List Patch) : List Token :=
  patches.flatMap fun
    | .kept _ => []
    | .cut _ semicolon => [semicolon]

variable {front back : List Patch}

theorem tokens_cut (run : List Token) (semicolon : Token) :
    tokens (.cut run semicolon :: back) = run ++ semicolon :: tokens back :=
  List.append_assoc run [semicolon] _

theorem bits_cut (run : List Token) (semicolon : Token) :
    bits (.cut run semicolon :: back) = .stray run :: bits back := rfl

@[simp] theorem tokens_append : tokens (front ++ back) = tokens front ++ tokens back :=
  List.flatMap_append

@[simp] theorem bits_append : bits (front ++ back) = bits front ++ bits back :=
  List.map_append

@[simp] theorem semicolons_append :
    semicolons (front ++ back) = semicolons front ++ semicolons back :=
  List.flatMap_append

@[simp] theorem tokens_kept (list : List Token) : tokens (list.map .kept) = list := by
  induction list with
  | nil => rfl
  | cons token list ih => exact congrArg (token :: ·) ih

@[simp] theorem bits_kept (list : List Token) : bits (list.map .kept) = list.map .token := by
  simp [bits]

@[simp] theorem semicolons_kept (list : List Token) : semicolons (list.map .kept) = [] := by
  induction list with
  | nil => rfl
  | cons token list ih => exact ih

theorem semicolons_sublist (patches : List Patch) :
    (semicolons patches).Sublist (tokens patches) := by
  induction patches with
  | nil => exact .slnil
  | cons patch patches ih =>
      cases patch with
      | kept token => exact ih.cons token
      | cut run semicolon =>
          exact (List.sublist_append_right run [semicolon]).append ih

end Patch

/-- Tokens that contribute what they should, where the range of a node stops with the last of its
tokens. Nothing is passed over. -/
def Orthography.stopping : Orthography Span where
  token t token := token.terminal? = some t
  note span tokens := ∃ last ∈ tokens.getLast?, span.stop = last.span.stop
  gap tokens := tokens = []

/-- Where the statements stop that stand in one of the parts directly and are dropped. -/
def Part.stops (drop : Stmt Span → Bool) (parts : List (Part Span)) : List Nat :=
  ((parts.flatMap Part.stmts).filter drop).map (·.note.stop)

@[simp] theorem Part.stops_append {drop : Stmt Span → Bool} (front back : List (Part Span)) :
    stops drop (front ++ back) = stops drop front ++ stops drop back := by
  simp [stops]

namespace Phrase

variable {p p' q q' : Phrase Span} {ps ps' : List (Phrase Span)} {stops stops' : List Nat}
  {n : Nat}

theorem Spelled.plain_of_stopping {tokens : List Token} (h : p.Spelled .stopping tokens) :
    p.Spelled .plain tokens :=
  h.imp (fun _ _ _ htoken => htoken) (fun _ _ _ _ => trivial) fun _ _ hgap => hgap

theorem Strewn.gapped_stray {allowed : Nat → List Token → Prop} {bits : List Bit}
    {run : List Token} (h : (gapped ps).Strewn allowed n bits) (hrun : allowed n run) :
    (gapped ps).Strewn allowed n (.stray run :: bits) := by
  have hgap {bits : List Bit} (h : (gap : Phrase Span).Strewn allowed n bits) :
      (gap : Phrase Span).Strewn allowed n (.stray run :: bits) := by
    intro bit hmem
    rcases List.mem_cons.mp hmem with rfl | hmem
    · exact ⟨run, rfl, hrun⟩
    · exact h bit hmem
  cases ps with
  | nil => exact hgap h
  | cons p ps =>
      obtain ⟨front, back, rfl, hfront, hback⟩ := h
      exact ⟨_, back, rfl, hgap hfront, hback⟩

/-- Where statements that stop at `stops` lose their semicolons, what is written for the one phrase
is what is written for the other, with statements strewn into it that are not terminated. -/
structure Sheds (p q : Phrase Span) (stops : List Nat) : Prop where
  cut : ∀ {n : Nat} {tokens : List Token}, p.Spelled .stopping tokens → p.nesting ≤ n →
    ∃ patches, Patch.tokens patches = tokens ∧ q.Strewn Unterminated n (Patch.bits patches) ∧
      ∀ stop, stop ∈ (Patch.semicolons patches).map (·.span.stop) ↔ stop ∈ stops

namespace Sheds

theorem same (p : Phrase Span) : p.Sheds p [] where
  cut {n tokens} hspelled hfits := by
    refine ⟨tokens.map .kept, by simp, ?_, by simp⟩
    rw [Patch.bits_kept]
    exact Strewn.of_spelled hspelled.plain_of_stopping hfits

theorem congr (h : p.Sheds q stops) (hstops : ∀ stop, stop ∈ stops ↔ stop ∈ stops') :
    p.Sheds q stops' where
  cut hspelled hfits := by
    obtain ⟨patches, htokens, hstrewn, hcut⟩ := h.cut hspelled hfits
    exact ⟨patches, htokens, hstrewn, fun stop => (hcut stop).trans (hstops stop)⟩

theorem seq (h : p.Sheds p' stops) (h' : q.Sheds q' stops') :
    (seq p q).Sheds (seq p' q') (stops ++ stops') where
  cut := by
    rintro n _ ⟨front, back, rfl, hfront, hback⟩ hfits
    obtain ⟨hfits, hfits'⟩ := Nat.max_le.mp hfits
    obtain ⟨patches, rfl, hstrewn, hcut⟩ := h.cut hfront hfits
    obtain ⟨patches', rfl, hstrewn', hcut'⟩ := h'.cut hback hfits'
    refine ⟨patches ++ patches', Patch.tokens_append, ?_, fun stop => ?_⟩
    · rw [Patch.bits_append]
      exact ⟨_, _, rfl, hstrewn, hstrewn'⟩
    · rw [Patch.semicolons_append, List.map_append, List.mem_append, hcut, hcut',
        List.mem_append]

theorem deeper (h : p.Sheds q stops) : (deeper p).Sheds (deeper q) stops where
  cut {n tokens} hspelled hfits := by
    cases n with
    | zero => cases hfits
    | succ n =>
        obtain ⟨patches, htokens, hstrewn, hcut⟩ := h.cut hspelled (Nat.le_of_succ_le_succ hfits)
        exact ⟨patches, htokens, ⟨n, rfl, hstrewn⟩, hcut⟩

theorem node {note note' : Span} (h : p.Sheds q stops) :
    (node note p).Sheds (node note' q) stops where
  cut hspelled hfits := h.cut hspelled.1 hfits

theorem concat_cons (h : p.Sheds p' stops) (hs : (concat ps).Sheds (concat ps') stops')
    (hnil : ps = [] ↔ ps' = []) :
    (concat (p :: ps)).Sheds (concat (p' :: ps')) (stops ++ stops') := by
  cases ps with
  | nil =>
      obtain rfl := hnil.mp rfl
      obtain ⟨patches, htokens, -, hcut⟩ := hs.cut rfl (Nat.zero_le 0)
      have hnone : Patch.semicolons patches = [] :=
        List.sublist_nil.mp (htokens ▸ Patch.semicolons_sublist patches)
      refine h.congr fun stop => ?_
      rw [List.mem_append, ← hcut, hnone]
      simp
  | cons next ps =>
      cases ps' with
      | nil => cases hnil.mpr rfl
      | cons next' ps' => exact h.seq hs

/-- A statement that is dropped is strewn into the gap. -/
theorem gapped_cons {stmt : Stmt Span} (hterminated : stmt.isTerminated = true)
    (h : (gapped ps).Sheds (gapped ps') stops) :
    (gapped (stmt.phrase :: ps)).Sheds (gapped ps') (stmt.note.stop :: stops) where
  cut := by
    rintro n _ ⟨_, _, rfl, rfl, front, back, rfl, hstmt, hback⟩ hfits
    obtain ⟨-, hfits, hfits'⟩ : 0 ≤ n ∧ stmt.phrase.nesting ≤ n ∧ (gapped ps).nesting ≤ n := by
      simpa [gapped, nesting] using hfits
    obtain ⟨p, hstem⟩ := Stmt.exists_stem hterminated
    obtain ⟨run, semicolon, rfl, -, -, last, hlast, hstop⟩ := hstem.spelled hstmt
    obtain rfl : semicolon = last := by simpa using hlast
    obtain ⟨patches, rfl, hstrewn, hcut⟩ := h.cut hback hfits'
    refine ⟨.cut run semicolon :: patches, rfl, ?_, fun stop => ?_⟩
    · exact hstrewn.gapped_stray ⟨stmt, semicolon, hterminated, hstmt.plain_of_stopping, hfits⟩
    · rw [hstop, List.mem_cons, ← hcut, ← List.mem_cons]
      rfl

end Sheds

end Phrase

theorem Part.stops_eq_nil (drop : Stmt Span → Bool) {parts : List (Part Span)}
    (h : ∀ part ∈ parts, part.stmts = []) : stops drop parts = [] := by
  rw [stops, List.flatMap_eq_nil_iff.mpr h]
  rfl

theorem Part.stops_types (drop : Stmt Span → Bool) (type : Option (TypeExpr Span)) :
    stops drop (types type) = [] := by
  cases type <;> rfl

theorem Part.stops_values (drop : Stmt Span → Bool) (value : Option (Expr Span)) :
    stops drop (values value) = [] := by
  cases value <;> rfl

theorem Binding.stops_parts (drop : Stmt Span → Bool) (binding : Binding Span) :
    Part.stops drop binding.parts = [] := by
  rw [parts, Part.stops_append, Part.stops_types]
  rfl

theorem ForInit.stops_parts (drop : Stmt Span → Bool) (init : ForInit Span) :
    Part.stops drop init.parts = [] := by
  cases init with
  | let_ binding => exact binding.stops_parts drop
  | expr value => rfl

theorem Stmt.stops_parts {drop : Stmt Span → Bool} {stmt : Stmt Span}
    (h : stmt.isTerminated = true) : Part.stops drop stmt.parts = [] := by
  cases stmt with
  | let_ binding | const binding => exact binding.stops_parts drop
  | return_ value note => exact Part.stops_values drop value
  | break_ note | continue_ note | expr value note => rfl
  | _ => cases h

theorem MatchArm.phrases_eq_nil (drop : Stmt Span → Bool) {arms : List (MatchArm Span)} :
    MatchArm.phrases arms = [] ↔ MatchArm.phrases (MatchArm.listWithout drop arms) = [] := by
  rcases arms with _ | ⟨⟨patterns, body, note⟩, arms⟩
  · exact Iff.rfl
  · exact iff_of_false (List.cons_ne_nil _ _) (List.cons_ne_nil _ _)

/-- Only statements that end with a semicolon are dropped. -/
def Stmt.DropsTerminated (drop : Stmt Span → Bool) : Prop :=
  ∀ stmt, drop stmt = true → stmt.isTerminated = true

section

variable {drop : Stmt Span → Bool}

mutual

theorem Block.sheds (hdrop : Stmt.DropsTerminated drop) : ∀ body : Block Span,
    body.phrase.Sheds (body.without drop).phrase (Part.stops drop body.parts)
  | ⟨stmts, note⟩ => by
      refine .congr (.node (.seq (.same _) (.seq (Stmt.list_sheds hdrop stmts) (.same _))))
        fun stop => ?_
      simp [Block.parts, Part.stops, Part.stmts]

theorem Stmt.sheds (hdrop : Stmt.DropsTerminated drop) : ∀ stmt : Stmt Span,
    stmt.phrase.Sheds (stmt.without drop).phrase (Part.stops drop stmt.parts)
  | .let_ binding | .const binding => by
      rw [Stmt.parts, binding.stops_parts]
      exact .same _
  | .block body => (body.sheds hdrop).deeper
  | .return_ value note => by
      rw [Stmt.parts, Part.stops_values]
      exact .same _
  | .if_ branch => branch.sheds hdrop
  | .loop body note => .node (.seq (.same _) (body.sheds hdrop).deeper)
  | .while_ cond body note => .node (.seq (.same _) (.seq (.same _) (body.sheds hdrop).deeper))
  | .for_ init cond step body note => by
      rw [Stmt.parts, Part.stops_append, init.stops_parts]
      exact .node (.seq (.same _) (.seq (.same _) (.seq (.same _) (.seq (.same _)
        (.seq (.same _) (body.sheds hdrop).deeper)))))
  | .match_ choice => choice.sheds hdrop
  | .break_ note | .continue_ note => .same _
  | .expr value note => .same _

theorem Stmt.list_sheds (hdrop : Stmt.DropsTerminated drop) : ∀ stmts : List (Stmt Span),
    (gapped (Stmt.phrases stmts)).Sheds (gapped (Stmt.phrases (Stmt.listWithout drop stmts)))
      ((stmts.filter drop).map (·.note.stop) ++ Part.stops drop (Stmt.listParts stmts))
  | [] => .same _
  | stmt :: stmts => by
      have hstmts := Stmt.list_sheds hdrop stmts
      rw [Stmt.listParts, Part.stops_append, Stmt.listWithout, List.filter_cons]
      by_cases hdropped : drop stmt = true
      · rw [if_pos hdropped, if_pos hdropped, Stmt.stops_parts (hdrop stmt hdropped)]
        exact hstmts.gapped_cons (hdrop stmt hdropped)
      · rw [if_neg hdropped, if_neg hdropped]
        refine .congr (.seq (.same _) (.seq (stmt.sheds hdrop) hstmts)) fun stop => ?_
        simp only [List.nil_append, List.mem_append]
        rw [or_left_comm]

theorem IfStmt.sheds (hdrop : Stmt.DropsTerminated drop) : ∀ branch : IfStmt Span,
    branch.phrase.Sheds (branch.without drop).phrase (Part.stops drop branch.parts)
  | ⟨cond, thenBlock, otherwise, note⟩ => by
      have hblocks := (thenBlock.sheds hdrop).deeper.seq (ElseBranch.option_sheds hdrop otherwise)
      rw [← Part.stops_append] at hblocks
      exact .node (.seq (.same _) (.seq (.same _) hblocks))

theorem ElseBranch.option_sheds (hdrop : Stmt.DropsTerminated drop) :
    ∀ otherwise : Option (ElseBranch Span), (ElseBranch.optionPhrase otherwise).Sheds
      (ElseBranch.optionPhrase (ElseBranch.optionWithout drop otherwise))
      (Part.stops drop (ElseBranch.optionParts otherwise))
  | none => .same _
  | some (.if_ branch) => .seq (.same _) (branch.sheds hdrop).deeper
  | some (.block body) => .seq (.same _) (body.sheds hdrop).deeper

theorem MatchStmt.sheds (hdrop : Stmt.DropsTerminated drop) : ∀ choice : MatchStmt Span,
    choice.phrase.Sheds (choice.without drop).phrase (Part.stops drop choice.parts)
  | ⟨subject, arms, note⟩ => by
      have harms := (MatchArm.list_sheds hdrop arms).seq (.same (symbol .rightBrace))
      rw [List.append_nil] at harms
      exact .node (.seq (.same _) (.seq (.same _) (.seq (.same _) harms)))

theorem MatchArm.list_sheds (hdrop : Stmt.DropsTerminated drop) : ∀ arms : List (MatchArm Span),
    (concat (MatchArm.phrases arms)).Sheds
      (concat (MatchArm.phrases (MatchArm.listWithout drop arms)))
      (Part.stops drop (MatchArm.listParts arms))
  | [] => .same _
  | ⟨patterns, body, note⟩ :: arms => by
      rw [MatchArm.listParts, Part.stops_append]
      refine .concat_cons (.node (.seq (.same _) (.seq (.same _) (body.sheds hdrop))))
        (MatchArm.list_sheds hdrop arms) (MatchArm.phrases_eq_nil drop)

theorem ArmBody.sheds (hdrop : Stmt.DropsTerminated drop) : ∀ body : ArmBody Span,
    body.phrase.Sheds (body.without drop).phrase (Part.stops drop body.parts)
  | .block body => (body.sheds hdrop).deeper
  | .return_ value note => by
      rw [ArmBody.parts, Part.stops_values]
      exact .same _
  | .match_ choice => (choice.sheds hdrop).deeper
  | .break_ note | .continue_ note => .same _
  | .expr value => .same _

end

theorem Prototype.stops_parts (drop : Stmt Span → Bool) (proto : Prototype Span) :
    Part.stops drop proto.parts = [] := by
  rw [parts, Part.stops_append, Part.stops_types, List.append_nil]
  exact Part.stops_eq_nil drop fun part hmem => by
    obtain ⟨param, -, rfl⟩ := List.mem_map.mp hmem
    rfl

theorem Definition.sheds (hdrop : Stmt.DropsTerminated drop) (definition : Definition Span) :
    definition.phrase.Sheds (definition.without drop).phrase
      (Part.stops drop definition.parts) := by
  have hsame (hnone : Part.stops drop definition.parts = []) :
      definition.phrase.Sheds definition.phrase (Part.stops drop definition.parts) :=
    hnone ▸ .same _
  cases definition with
  | function def_ =>
      rw [parts, Part.stops_append, def_.proto.stops_parts]
      exact .node (.seq (.same _) (.seq (.same _) (def_.body.sheds hdrop).deeper))
  | struct def_ | union def_ =>
      refine hsame (Part.stops_eq_nil drop fun part hmem => ?_)
      obtain ⟨field, -, rfl⟩ := List.mem_map.mp hmem
      rfl
  | enum def_ =>
      refine hsame (Part.stops_eq_nil drop fun part hmem => ?_)
      obtain ⟨⟨name, value, note⟩, -, hpart⟩ := List.mem_flatMap.mp hmem
      cases value with
      | none => cases hpart
      | some value =>
          obtain rfl := List.mem_singleton.mp hpart
          rfl
  | externalFunction proto => exact hsame (proto.stops_parts drop)
  | externalVariable typed => exact hsame rfl
  | constant def_ =>
      obtain ⟨name, value, note⟩ := def_
      cases value with
      | expr type value =>
          refine hsame ?_
          rw [parts, ConstantValue.parts, Part.stops_append, Part.stops_types]
          rfl
      | import_ source => exact hsame rfl
  | variable_ binding => exact hsame (binding.stops_parts drop)

theorem Item.sheds (hdrop : Stmt.DropsTerminated drop) (item : Item Span) :
    item.phrase.Sheds (item.without drop).phrase (Part.stops drop item.parts) := by
  cases item with
  | import_ source => exact .same _
  | declaration decl => exact .node (.seq (.same _) (decl.definition.sheds hdrop))

theorem Item.list_sheds (hdrop : Stmt.DropsTerminated drop) (items : List (Item Span)) :
    (concat (items.map Item.phrase)).Sheds
      (concat ((items.map (Item.without drop)).map Item.phrase))
      (Part.stops drop (items.flatMap Item.parts)) := by
  induction items with
  | nil => exact .same _
  | cons item items ih =>
      rw [List.flatMap_cons, Part.stops_append]
      exact .concat_cons (item.sheds hdrop) ih (by simp)

end

end SourceFront
