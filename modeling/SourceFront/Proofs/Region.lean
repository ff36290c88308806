import SourceFront.Proofs.Derivation.Source

/-!
The ranges of a tree. The nodes of a tree that have a range make a tree themselves;
in the one of an analysed source, ranges nest, and siblings stand behind one
another, whether or not the source has problems.
-/

namespace SourceFront

/-- A range and the ranges of the nodes in its node, from left to right. -/
inductive Region where
  | mk (span : Span) (children : List Region)

namespace Region

def span : Region → Span
  | mk span _ => span

/-- Every range lies in the file and in the range around it, and begins where the
one before it stops, or later. -/
inductive WellPlaced (fileId length : Nat) : Region → Prop where
  | mk {span : Span} {children : List Region} (hstart : span.start ≤ span.stop)
      (hstop : span.stop ≤ length) (hfile : span.fileId = fileId)
      (hinside : ∀ child ∈ children, span.contains child.span = true)
      (hapart : children.Pairwise fun a b => a.span.stop ≤ b.span.start)
      (hchildren : ∀ child ∈ children, child.WellPlaced fileId length) :
      WellPlaced fileId length (mk span children)

end Region

/-- The outermost nodes of a phrase, from left to right. -/
def Phrase.regions : Phrase Span → List Region
  | .empty | .terminal _ | .either _ _ | .gap | .provided _ => []
  | .seq first second => first.regions ++ second.regions
  | .deeper inner => inner.regions
  | .node span inner => [.mk span inner.regions]

/-- The nodes of a module, within the module itself. -/
def Module.region (module : Module Span) : Region :=
  .mk module.note module.phrase.regions

/-- Each token of the file stops before the next one starts. -/
structure Token.Placed (fileId length : Nat) (tokens : List Token) : Prop where
  apart : tokens.Pairwise fun a b => a.span.stop ≤ b.span.start
  within : ∀ token ∈ tokens, token.span.start < token.span.stop ∧
    token.span.stop ≤ length ∧ token.span.fileId = fileId

namespace Token.Placed

variable {fileId length : Nat} {tokens part : List Token}

theorem of_follow {start : Nat} (h : Token.Follow fileId length start tokens) :
    Placed fileId length tokens where
  apart := h.pairwise
  within token hmem := by
    obtain ⟨-, hlt, hstop, hfile, -⟩ := h.of_mem hmem
    exact ⟨hlt, hstop, hfile⟩

theorem sublist (h : Placed fileId length tokens) (hpart : part.Sublist tokens) :
    Placed fileId length part :=
  ⟨List.Pairwise.sublist hpart h.apart, fun token hmem => h.within token (hpart.subset hmem)⟩

theorem ordered (h : Placed fileId length tokens) : Ordered tokens := by
  refine h.apart.imp_of_mem fun {a b} ha hb hle => ?_
  obtain ⟨hlt, -⟩ := h.within a ha
  obtain ⟨hlt', -⟩ := h.within b hb
  exact ⟨by omega, by omega⟩

theorem of_covers {span : Span} (h : Placed fileId length tokens) (hcovers : span.Covers tokens) :
    span.start < span.stop ∧ span.stop ≤ length ∧ span.fileId = fileId := by
  obtain ⟨first, last, hfirst, hlast, rfl⟩ := hcovers
  obtain ⟨hlt, -, hfile⟩ := h.within first (List.mem_of_mem_head? hfirst)
  obtain ⟨-, hstop, -⟩ := h.within last (List.mem_of_mem_getLast? hlast)
  have hle := h.ordered.stop_le_last hlast (List.mem_of_mem_head? hfirst)
  exact ⟨Nat.lt_of_lt_of_le hlt hle, hstop, hfile⟩

theorem covers_apart {a b : Span} {front back left right : List Token}
    (h : Placed fileId length (front ++ back)) (ha : a.Covers left) (hb : b.Covers right)
    (hleft : left <:+: front) (hright : right <:+: back) : a.stop ≤ b.start := by
  obtain ⟨_, last, -, hlast, rfl⟩ := ha
  obtain ⟨first, _, hfirst, -, rfl⟩ := hb
  exact (List.pairwise_append.mp h.apart).2.2 last
    (hleft.subset (List.mem_of_mem_getLast? hlast)) first
    (hright.subset (List.mem_of_mem_head? hfirst))

end Token.Placed

theorem Span.Covers.contains {a b : Span} {tokens part : List Token} (ha : a.Covers tokens)
    (hb : b.Covers part) (hpart : part <:+: tokens) (ordered : Token.Ordered tokens) :
    a.contains b = true := by
  obtain ⟨first, last, hfirst, hlast, rfl⟩ := ha
  obtain ⟨first', last', hfirst', hlast', rfl⟩ := hb
  have hmem := hpart.subset (List.mem_of_mem_head? hfirst')
  have hmem' := hpart.subset (List.mem_of_mem_getLast? hlast')
  exact Span.contains_iff.mpr
    ⟨ordered.head_start_le hfirst hmem, ordered.stop_le_last hlast hmem'⟩

namespace Phrase.Derives

variable {fileId length : Nat} {phrase : Phrase Span} {tokens : List Token}

/-- The nodes of a phrase cover tokens of it. -/
theorem regions_cover (h : phrase.Derives True tokens) (ordered : Token.Ordered tokens) :
    ∀ region ∈ phrase.regions, ∃ part, part <:+: tokens ∧ region.span.Covers part := by
  induction phrase generalizing tokens with
  | empty | terminal | either | gap | provided => simp [regions]
  | seq first second ihFirst ihSecond =>
      obtain ⟨front, back, rfl, hfirst, hsecond⟩ := h
      intro region hmem
      rcases List.mem_append.mp hmem with hmem | hmem
      · obtain ⟨part, hpart, hcovers⟩ := ihFirst hfirst
          (ordered.sublist (List.sublist_append_left _ _)) region hmem
        exact ⟨part, hpart.trans (List.prefix_append _ _).isInfix, hcovers⟩
      · obtain ⟨part, hpart, hcovers⟩ := ihSecond hsecond
          (ordered.sublist (List.sublist_append_right _ _)) region hmem
        exact ⟨part, hpart.trans (List.suffix_append _ _).isInfix, hcovers⟩
  | deeper inner ih => exact ih h ordered
  | node span inner ih =>
      intro region hmem
      obtain rfl := List.mem_singleton.mp hmem
      exact ⟨tokens, List.infix_rfl, h.2 ordered⟩

/-- The outermost nodes of a phrase stand behind one another. -/
theorem regions_apart (h : phrase.Derives True tokens)
    (hplaced : Token.Placed fileId length tokens) :
    phrase.regions.Pairwise fun a b => a.span.stop ≤ b.span.start := by
  induction phrase generalizing tokens with
  | empty | terminal | either | gap | provided => exact .nil
  | seq first second ihFirst ihSecond =>
      obtain ⟨front, back, rfl, hfirst, hsecond⟩ := h
      have hfront := hplaced.sublist (List.sublist_append_left front back)
      have hback := hplaced.sublist (List.sublist_append_right front back)
      refine List.pairwise_append.mpr ⟨ihFirst hfirst hfront, ihSecond hsecond hback, ?_⟩
      intro a ha b hb
      obtain ⟨left, hleft, hcovers⟩ := regions_cover hfirst hfront.ordered a ha
      obtain ⟨right, hright, hcovers'⟩ := regions_cover hsecond hback.ordered b hb
      exact hplaced.covers_apart hcovers hcovers' hleft hright
  | deeper inner ih => exact ih h hplaced
  | node span inner ih => exact List.pairwise_singleton _ _

theorem regions_wellPlaced (h : phrase.Derives True tokens)
    (hplaced : Token.Placed fileId length tokens) :
    ∀ region ∈ phrase.regions, region.WellPlaced fileId length := by
  induction phrase generalizing tokens with
  | empty | terminal | either | gap | provided => simp [regions]
  | seq first second ihFirst ihSecond =>
      obtain ⟨front, back, rfl, hfirst, hsecond⟩ := h
      intro region hmem
      rcases List.mem_append.mp hmem with hmem | hmem
      · exact ihFirst hfirst (hplaced.sublist (List.sublist_append_left _ _)) region hmem
      · exact ihSecond hsecond (hplaced.sublist (List.sublist_append_right _ _)) region hmem
  | deeper inner ih => exact ih h hplaced
  | node span inner ih =>
      intro region hmem
      obtain rfl := List.mem_singleton.mp hmem
      obtain ⟨hinner, hcovers⟩ := h
      have hcovers := hcovers hplaced.ordered
      obtain ⟨hlt, hstop, hfile⟩ := hplaced.of_covers hcovers
      refine .mk (Nat.le_of_lt hlt) hstop hfile ?_ (regions_apart hinner hplaced)
        (ih hinner hplaced)
      intro child hchild
      obtain ⟨part, hpart, hcovers'⟩ := regions_cover hinner hplaced.ordered child hchild
      exact hcovers.contains hcovers' hpart hplaced.ordered

end Phrase.Derives

/-- In the tree of any source, every range lies in the file and in the range around
it, and siblings stand behind one another. -/
theorem analyse_region_wellPlaced (source : String) (fileId : Nat) :
    (analyse source fileId).module.region.WellPlaced fileId source.utf8ByteSize := by
  obtain ⟨⟨module, after⟩, hread⟩ : ∃ result,
      (Reading.ofSource source fileId).readModule = result := ⟨_, rfl⟩
  obtain ⟨hderives, hnote⟩ := ofSource_readModule hread fun _ => trivial
  have hplaced := Token.Placed.of_follow (bodyTokens_follow source fileId)
  rw [analyse_eq hread, Module.region, hnote]
  refine .mk (Nat.zero_le _) (Nat.le_refl _) rfl ?_ (hderives.regions_apart hplaced)
    (hderives.regions_wellPlaced hplaced)
  intro child hchild
  cases hderives.regions_wellPlaced hplaced child hchild with
  | mk _ hstop => exact Span.contains_iff.mpr ⟨Nat.zero_le _, hstop⟩

end SourceFront
