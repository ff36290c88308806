/-!
Lists kept in the order of the source: every element has a start offset, offsets
never decrease along the list, and elements with one start keep the order in
which they came.
-/

namespace SourceFront.SourceOrder

variable {α : Type}

/-- Puts `a` behind every element that starts no later than it does. -/
def insert (start : α → Nat) (a : α) : List α → List α
  | [] => [a]
  | b :: bs =>
      if start b ≤ start a then b :: insert start a bs else a :: b :: bs

/-- The elements in the order of the source, each put behind the earlier ones of
its start. -/
def sort (start : α → Nat) (as : List α) : List α :=
  as.foldl (fun sorted a => insert start a sorted) []

theorem insert_perm (start : α → Nat) (a : α) (bs : List α) :
    (insert start a bs).Perm (a :: bs) := by
  induction bs with
  | nil => exact .refl _
  | cons b bs ih =>
      unfold insert
      split
      · exact (ih.cons b).trans (.swap a b bs)
      · exact .refl _

theorem insert_pairwise (start : α → Nat) (a : α) {bs : List α}
    (sorted : bs.Pairwise (start · ≤ start ·)) :
    (insert start a bs).Pairwise (start · ≤ start ·) := by
  induction bs with
  | nil => simp [insert]
  | cons b bs ih =>
      rw [List.pairwise_cons] at sorted
      unfold insert
      split
      next first =>
        refine .cons (fun c member => ?_) (ih sorted.2)
        rcases List.mem_cons.mp ((insert_perm start a bs).mem_iff.mp member) with rfl | old
        · exact first
        · exact sorted.1 c old
      next later =>
        refine .cons (fun c member => ?_) (List.pairwise_cons.mpr sorted)
        rcases List.mem_cons.mp member with rfl | old
        · omega
        · have := sorted.1 c old
          omega

end SourceFront.SourceOrder
