import SourceFront.Proofs.Brace

/-!
Cutting tokens that close the braces they open. What stands in front of the cut leaves a number
of braces open, and how far the rest of a statement goes from there depends on that number.
-/

namespace SourceFront

/-- None of the tokens is a brace. -/
def Token.Unbraced (tokens : List Token) : Prop :=
  ∀ token ∈ tokens, token.kind ≠ .symbol .leftBrace ∧ token.kind ≠ .symbol .rightBrace

instance : DecidablePred Token.Unbraced := fun tokens =>
  inferInstanceAs (Decidable (∀ token ∈ tokens, _))

/-- The tokens leave `depth` braces open and close the others that they open. -/
def Leaves : (depth : Nat) → List Token → Prop
  | 0, tokens => Balanced tokens
  | depth + 1, tokens => ∃ front left back, tokens = front ++ left :: back ∧
      Leaves depth front ∧ left.kind = .symbol .leftBrace ∧ Balanced back

/-- Whether the tokens close `depth` braces and those that they open, and none of them is the
end. -/
def closesBraces : (depth : Nat) → List Token → Bool
  | depth, [] => depth = 0
  | depth, token :: tokens =>
      match token.kind, depth with
      | .eof, _ => false
      | .symbol .leftBrace, depth => closesBraces (depth + 1) tokens
      | .symbol .rightBrace, 0 => false
      | .symbol .rightBrace, depth + 1 => closesBraces depth tokens
      | _, depth => closesBraces depth tokens

namespace Token

variable {token : Token} {tokens : List Token}

theorem braces_other (hleft : token.kind ≠ .symbol .leftBrace)
    (hright : token.kind ≠ .symbol .rightBrace) (depth : Nat) : token.braces depth = depth := by
  unfold braces
  split <;> first | contradiction | rfl

theorem Unbraced.foldl_braces (h : Unbraced tokens) (depth : Nat) :
    tokens.foldl braces depth = depth := by
  induction tokens generalizing depth with
  | nil => rfl
  | cons token tokens ih =>
      obtain ⟨hfirst, hrest⟩ := List.forall_mem_cons.mp h
      rw [List.foldl_cons, braces_other hfirst.1 hfirst.2, ih hrest]

theorem Unbraced.openBraces (h : Unbraced tokens) : openBraces tokens = 0 :=
  h.foldl_braces 0

end Token

namespace Leaves

variable {tokens front back : List Token} {depth : Nat}

theorem nil : Leaves 0 [] :=
  Balanced.nil

theorem leftBrace {left : Token} (h : Leaves depth front)
    (hleft : left.kind = .symbol .leftBrace) : Leaves (depth + 1) (front ++ [left]) :=
  ⟨front, left, [], rfl, h, hleft, .nil⟩

theorem append (h : Leaves depth front) (hback : Balanced back) : Leaves depth (front ++ back) := by
  cases depth with
  | zero => exact Balanced.append h hback
  | succ depth =>
      obtain ⟨before, left, inner, rfl, hbefore, hleft, hinner⟩ := h
      exact ⟨before, left, inner ++ back, by simp, hbefore, hleft, hinner.append hback⟩

theorem foldl_braces (h : Leaves depth tokens) (outer : Nat) :
    tokens.foldl Token.braces outer = outer + depth := by
  induction depth generalizing tokens with
  | zero => exact Balanced.foldl_braces h outer
  | succ depth ih =>
      obtain ⟨front, left, back, rfl, hfront, hleft, hback⟩ := h
      rw [List.foldl_append, ih hfront, List.foldl_cons, Token.braces_left hleft,
        hback.foldl_braces]
      rfl

theorem openBraces (h : Leaves depth tokens) : openBraces tokens = depth := by
  rw [openBraces_eq, h.foldl_braces, Nat.zero_add]

theorem of_closesBraces {before : List Token} (hbefore : Leaves depth before)
    (h : closesBraces depth (front ++ back) = true) :
    ∃ left, Leaves left (before ++ front) ∧ closesBraces left back = true := by
  induction front generalizing depth before with
  | nil => exact ⟨depth, by rwa [List.append_nil], h⟩
  | cons token front ih =>
      rw [List.append_cons]
      rw [List.cons_append] at h
      unfold closesBraces at h
      split at h
      next => cases h
      next hkind => exact ih (hbefore.leftBrace hkind) h
      next => cases h
      next hkind =>
          obtain ⟨outer, left, inner, rfl, houter, hleft, hinner⟩ := hbefore
          refine ih ?_ h
          rw [List.append_assoc]
          exact houter.append (.braces hleft hinner hkind .nil)
      next heof hleft hright hright' =>
          have hright : token.kind ≠ .symbol .rightBrace := fun hkind =>
            (Nat.eq_zero_or_eq_succ_pred _).elim (hright hkind) (hright' _ hkind)
          exact ih (hbefore.append (.token hleft hright heof .nil)) h

end Leaves

theorem closesBraces_append {front : List Token} (h : Balanced front) (depth : Nat)
    (back : List Token) : closesBraces depth (front ++ back) = closesBraces depth back := by
  induction h generalizing depth back with
  | nil => rfl
  | @token token tokens hleft hright hgoes _ ih =>
      have hstep : closesBraces depth (token :: (tokens ++ back)) =
          closesBraces depth (tokens ++ back) := by
        rw [closesBraces.eq_def]
        dsimp only
        split <;> first | contradiction | rfl
      rw [List.cons_append, hstep, ih]
  | @braces left right inner tokens hleft _ hright _ ih ih' =>
      rw [List.append_assoc, List.cons_append, List.cons_append]
      simp only [closesBraces, hleft]
      rw [ih]
      simp only [closesBraces, hright]
      exact ih' depth back

theorem closesBraces_of_unclosed {tokens : List Token} {depth : Nat}
    (hclosed : closesBraces depth tokens = true)
    (h : ∀ token ∈ tokens, token.kind ≠ .symbol .rightBrace) :
    depth = 0 ∧ Token.Unbraced tokens := by
  induction tokens generalizing depth with
  | nil => exact ⟨of_decide_eq_true hclosed, fun token hmem => nomatch hmem⟩
  | cons token tokens ih =>
      obtain ⟨hfirst, hrest⟩ := List.forall_mem_cons.mp h
      unfold closesBraces at hclosed
      split at hclosed
      next => cases hclosed
      next => cases (ih hclosed hrest).1
      next => cases hclosed
      next hkind => exact absurd hkind hfirst
      next heof hleft hright hright' =>
          obtain ⟨hzero, hunbraced⟩ := ih hclosed hrest
          exact ⟨hzero, List.forall_mem_cons.mpr ⟨⟨hleft, hfirst⟩, hunbraced⟩⟩

namespace Balanced

variable {tokens front back : List Token}

theorem iff_closesBraces : Balanced tokens ↔ closesBraces 0 tokens = true := by
  constructor
  · intro h
    simpa [closesBraces] using closesBraces_append h 0 []
  · intro h
    rw [← List.append_nil tokens] at h
    obtain ⟨depth, hleaves, hzero⟩ := Leaves.nil.of_closesBraces h
    obtain rfl : depth = 0 := of_decide_eq_true hzero
    exact hleaves

instance : DecidablePred Balanced := fun _ => decidable_of_iff _ iff_closesBraces.symm

theorem exists_leaves (h : Balanced (front ++ back)) :
    ∃ depth, Leaves depth front ∧ closesBraces depth back = true :=
  Leaves.nil.of_closesBraces (iff_closesBraces.mp h)

theorem le_foldl (h : Balanced (front ++ back)) (depth : Nat) :
    depth ≤ front.foldl Token.braces depth := by
  obtain ⟨left, hleaves, -⟩ := h.exists_leaves
  rw [hleaves.foldl_braces]
  exact Nat.le_add_right depth left

theorem head_kind (h : Balanced tokens) :
    ∀ token ∈ tokens.head?, token.kind ≠ .symbol .rightBrace := by
  cases h with
  | nil => simp
  | token _ hright => simpa using hright
  | braces hleft => simp [hleft]

/-- Where the tokens behind some place close no brace, though all braces are closed, there is
none open at that place and none behind it. -/
theorem unbraced_of_unclosed (h : Balanced (front ++ back))
    (hback : ∀ token ∈ back, token.kind ≠ .symbol .rightBrace) :
    openBraces front = 0 ∧ Token.Unbraced back := by
  obtain ⟨depth, hleaves, hcloses⟩ := h.exists_leaves
  rw [hleaves.openBraces]
  exact closesBraces_of_unclosed hcloses hback

end Balanced

theorem statementRest_cons {inFor fresh : Bool} {token : Token} {depth : Nat} (rest : List Token)
    (hgoes : token.kind ≠ .eof)
    (hsemicolon : token.kind = .symbol .semicolon → depth = 0 → inFor = true)
    (hright : token.kind = .symbol .rightBrace → 1 < depth)
    (hkeyword : fresh = false → depth = 0 →
      token.kind.beginsItemOnly = false ∧ token.kind.beginsStatement = false) :
    statementRest inFor depth fresh (token :: rest) =
      1 + statementRest inFor (token.braces depth) false rest := by
  rw [statementRest.eq_def]
  dsimp only
  split
  next hkind => exact absurd hkind hgoes
  next hkind =>
    have hsame : token.braces depth = depth :=
      Token.braces_other (by simp [hkind]) (by simp [hkind]) depth
    have hmore : ¬ (decide (depth = 0) && !inFor) = true := by simpa using hsemicolon hkind
    rw [if_neg hmore, hsame]
  next hkind => rw [Token.braces_left hkind]
  next hkind =>
    obtain ⟨inner, rfl⟩ := Nat.exists_eq_add_of_le' (hright hkind)
    rw [Token.braces_right hkind]
    rfl
  next hleft hright =>
    have hmore : ¬ (decide (depth = 0) && !fresh &&
        (token.kind.beginsItemOnly || token.kind.beginsStatement)) = true := by
      cases fresh with
      | true => simp
      | false => simpa [imp_iff_not_or] using hkeyword rfl
    rw [if_neg hmore, Token.braces_other hleft hright]

theorem statementRest_of_unbraced {inFor : Bool} {tokens : List Token} (rest : List Token)
    (hbraces : Token.Unbraced tokens) (hgoes : ∀ token ∈ tokens, token.kind ≠ .eof)
    (hsemicolon : ∀ token ∈ tokens, token.kind = .symbol .semicolon → inFor = true)
    (hkeyword : ∀ token ∈ tokens,
      token.kind.beginsItemOnly = false ∧ token.kind.beginsStatement = false) :
    statementRest inFor 0 false (tokens ++ rest) =
      tokens.length + statementRest inFor 0 false rest := by
  induction tokens with
  | nil => simp
  | cons token tokens ih =>
      obtain ⟨⟨hleft, hright⟩, hbraces⟩ := List.forall_mem_cons.mp hbraces
      simp only [List.forall_mem_cons] at hgoes hsemicolon hkeyword
      rw [List.cons_append, statementRest_cons _ hgoes.1 (fun hkind _ => hsemicolon.1 hkind)
        (absurd · hright) fun _ _ => hkeyword.1, Token.braces_other hleft hright,
        ih hbraces hgoes.2 hsemicolon.2 hkeyword.2, List.length_cons]
      omega

/-- While a brace is open, the statement goes on. -/
theorem statementRest_of_open {inFor : Bool} {tokens : List Token} {depth : Nat}
    (hgoes : ∀ token ∈ tokens, token.kind ≠ .eof)
    (hopen : ∀ front, front <+: tokens → 0 < front.foldl Token.braces depth)
    (rest : List Token) :
    statementRest inFor depth false (tokens ++ rest) = tokens.length +
      statementRest inFor (tokens.foldl Token.braces depth) false rest := by
  induction tokens generalizing depth with
  | nil => simp
  | cons token tokens ih =>
      simp only [List.forall_mem_cons] at hgoes
      have hne : depth ≠ 0 := Nat.ne_of_gt (hopen [] List.nil_prefix)
      have hnext : 0 < token.braces depth := hopen [token] ⟨tokens, rfl⟩
      have hopen' : ∀ front, front <+: tokens →
          0 < front.foldl Token.braces (token.braces depth) := fun front hfront =>
        hopen (token :: front) (List.cons_prefix_cons.mpr ⟨rfl, hfront⟩)
      have hright (hkind : token.kind = .symbol .rightBrace) : 1 < depth := by
        rw [Token.braces_right hkind] at hnext
        exact Nat.lt_of_sub_pos hnext
      rw [List.cons_append, statementRest_cons _ hgoes.1 (fun _ hzero => absurd hzero hne)
        hright fun _ hzero => absurd hzero hne, ih hgoes.2 hopen', List.foldl_cons,
        List.length_cons]
      omega

theorem statementRest_of_closed {read left : List Token} (h : Balanced (read ++ left))
    (hright : ∃ token ∈ left, token.kind = .symbol .rightBrace) {fresh : Bool}
    (hinline : ∀ token ∈ left.dropLast, token.kind ≠ .symbol .semicolon)
    (hgoes : ∀ token ∈ left, token.kind ≠ .eof)
    (hfirst : fresh = false → ∀ token ∈ left.head?,
      token.kind.beginsItemOnly = false ∧ token.kind.beginsStatement = false)
    (hkeyword : ∀ token ∈ left.tail,
      token.kind.beginsItemOnly = false ∧ token.kind.beginsStatement = false)
    (rest : List Token) :
    ∃ front close back, left = front ++ close :: back ∧ close.kind = .symbol .rightBrace ∧
      statementRest false (openBraces read) fresh (left ++ rest) = front.length + 1 := by
  induction left generalizing read fresh with
  | nil => simp at hright
  | cons token left ih =>
      simp only [List.forall_mem_cons] at hgoes
      obtain ⟨depth, hleaves, hcloses⟩ := h.exists_leaves
      by_cases hone : token.kind = .symbol .rightBrace ∧ depth = 1
      · refine ⟨[], token, left, rfl, hone.1, ?_⟩
        simp [statementRest, hone.1, hleaves.openBraces, hone.2]
      · -- The closing brace is found behind the token.
        have hread : Balanced ((read ++ [token]) ++ left) := by simpa using h
        have hbraces : openBraces (read ++ [token]) = token.braces depth := by
          simp [openBraces_eq, hleaves.foldl_braces]
        have hdeep (hclose : token.kind = .symbol .rightBrace) : 1 < depth := by
          have hpos : depth ≠ 0 := by
            rintro rfl
            simp [closesBraces, hclose] at hcloses
          have hmore : depth ≠ 1 := fun hdepth => hone ⟨hclose, hdepth⟩
          omega
        have hright' : ∃ other ∈ left, other.kind = .symbol .rightBrace := by
          by_contra hnone
          push Not at hnone
          obtain ⟨other, hmem, hclose⟩ := hright
          obtain rfl : other = token :=
            (List.mem_cons.mp hmem).resolve_right fun hmem => hnone other hmem hclose
          have hopen := (hread.unbraced_of_unclosed hnone).1
          rw [hbraces, Token.braces_right hclose] at hopen
          have := hdeep hclose
          omega
        have hne : left ≠ [] := List.ne_nil_of_mem hright'.choose_spec.1
        rw [List.dropLast_cons_of_ne_nil hne, List.forall_mem_cons] at hinline
        obtain ⟨front, close, back, rfl, hclose, hcount⟩ := ih hread hright' hinline.2 hgoes.2
          (fun _ other hmem => hkeyword other (List.mem_of_mem_head? hmem))
          fun other hmem => hkeyword other (List.mem_of_mem_tail hmem)
        refine ⟨token :: front, close, back, rfl, hclose, ?_⟩
        rw [hbraces] at hcount
        rw [List.cons_append, hleaves.openBraces, statementRest_cons _ hgoes.1
          (fun hkind => absurd hkind hinline.1) hdeep fun hfresh _ => hfirst hfresh token rfl,
          hcount, List.length_cons, Nat.add_comm]

end SourceFront
