/-!
Halving a range to find where a property ends. Where the property holds up to some place and
nowhere from there on, it is this place that is found.
-/

namespace SourceFront

/-- A place at which `p` ends, from `low` on and before `high` or there. -/
def bisect (p : Nat → Bool) (low high : Nat) : Nat :=
  if low < high then
    let middle := low + (high - low) / 2
    if p middle then bisect p (middle + 1) high
    else bisect p low middle
  else low
termination_by high - low

/-- The property ends at one place only, so that is what is found. -/
theorem bisect_eq {p : Nat → Bool} {low stop high : Nat} (hlow : low ≤ stop) (hhigh : stop ≤ high)
    (hbefore : ∀ place, low ≤ place → place < stop → p place = true)
    (hbehind : ∀ place, stop ≤ place → place < high → p place = false) :
    bisect p low high = stop := by
  fun_induction bisect p low high with
  | case1 low high hlt middle hmiddle ih =>
      -- The middle is before the place looked for, so that lies in the second half.
      rcases Nat.lt_or_ge middle stop with hstop | hle
      · exact ih hstop hhigh (fun place hplace => hbefore place (by omega)) hbehind
      · rw [hbehind middle hle (by omega)] at hmiddle
        cases hmiddle
  | case2 low high hlt middle hmiddle ih =>
      rcases Nat.lt_or_ge middle stop with hlt | hstop
      · exact absurd (hbefore middle (by omega) hlt) hmiddle
      · exact ih hlow hstop hbefore fun place hplace hless => hbehind place hplace (by omega)
  | case3 low high hle => omega

variable {α : Type}

/-- How many elements stand in front of the place at which `p` ends. -/
def partitionPoint (p : α → Bool) (as : List α) : Nat :=
  bisect (fun place => as[place]?.any p) 0 as.length

theorem partitionPoint_append {p : α → Bool} {front behind : List α}
    (hfront : ∀ a ∈ front, p a = true) (hbehind : ∀ a ∈ behind, p a = false) :
    partitionPoint p (front ++ behind) = front.length := by
  refine bisect_eq (Nat.zero_le _) (by simp) (fun place _ hlt => ?_) fun place hle hlt => ?_
  · rw [List.getElem?_append_left hlt, List.getElem?_eq_getElem hlt]
    exact hfront _ (List.getElem_mem hlt)
  · rw [List.getElem?_append_right hle]
    rw [List.length_append] at hlt
    rw [List.getElem?_eq_getElem (by omega)]
    exact hbehind _ (List.getElem_mem _)

end SourceFront
