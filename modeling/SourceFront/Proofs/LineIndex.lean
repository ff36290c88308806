import SourceFront.LineIndex
import SourceFront.Proofs.Tokenization

/-!
Which places of a text are in one line. A line starts behind each line feed, so where no line
feed stands between two places, they are in one line, and the columns are in their order.
-/

namespace SourceFront

open Text

namespace LineIndex

variable {offset next : Nat} {cs : List Char}

theorem startsBehindFeeds_append (offset : Nat) (as bs : List Char) :
    startsBehindFeeds offset (as ++ bs) =
      startsBehindFeeds offset as ++ startsBehindFeeds (offset + byteLength as) bs := by
  induction as generalizing offset with
  | nil => rfl
  | cons a as ih =>
      simp only [List.cons_append, startsBehindFeeds, ih, byteLength_cons, Nat.add_assoc]
      split
      · rfl
      · rfl

theorem startsBehindFeeds_of_not_mem (offset : Nat) (h : '\n' ∉ cs) :
    startsBehindFeeds offset cs = [] := by
  induction cs generalizing offset with
  | nil => rfl
  | cons c cs ih =>
      rw [List.mem_cons, not_or] at h
      rw [startsBehindFeeds, if_neg fun hfeed => h.1 hfeed.symm, ih _ h.2]

theorem bounds_of_mem (h : next ∈ startsBehindFeeds offset cs) :
    offset < next ∧ next ≤ offset + byteLength cs := by
  induction cs generalizing offset with
  | nil => cases h
  | cons c cs ih =>
      have hpos := c.utf8Size_pos
      have hlater (h : next ∈ startsBehindFeeds (offset + c.utf8Size) cs) :
          offset < next ∧ next ≤ offset + byteLength (c :: cs) := by
        obtain ⟨hlt, hle⟩ := ih h
        rw [byteLength_cons]
        omega
      rw [startsBehindFeeds] at h
      split at h
      · rcases List.mem_cons.mp h with rfl | h
        · rw [byteLength_cons]
          omega
        · exact hlater h
      · exact hlater h

/-- Offsets that the same lines start before are found in the same one. -/
theorem locate_congr {a b : Nat} {starts : List Nat}
    (h : ∀ next ∈ starts, next ≤ a ↔ next ≤ b) (line start : Nat) :
    locate a line start starts = locate b line start starts := by
  induction starts generalizing line start with
  | nil => rfl
  | cons next starts ih =>
      have hnext := h next List.mem_cons_self
      have hlater := ih fun other hmem => h other (List.mem_cons_of_mem next hmem)
      rw [locate, locate]
      by_cases hle : next ≤ a
      · rw [if_pos hle, if_pos (hnext.mp hle), hlater]
      · rw [if_neg hle, if_neg fun hle' => hle (hnext.mpr hle')]

theorem locate_fst_le (offset line start : Nat) (starts : List Nat) :
    (locate offset line start starts).1 ≤ line + starts.length := by
  induction starts generalizing line start with
  | nil => exact Nat.le_refl _
  | cons next starts ih =>
      rw [locate, List.length_cons]
      split
      · have hle := ih (line + 1) next
        omega
      · exact Nat.le_add_right _ _

theorem ordinal_eq (count : Nat) : ordinal count = (count + 1) % UInt32.size := by
  rw [ordinal, UInt32.toNat_add, UInt32.toNat_ofNat', UInt32.toNat_one, Nat.mod_add_mod]

theorem position_line_le (source : String) (offset : Nat) :
    ((ofSource source).position offset).line ≤ (ofSource source).lineCount := by
  have hle := locate_fst_le offset 0 0 (ofSource source).starts.tail
  have hcount : (ofSource source).lineCount = (ofSource source).starts.tail.length + 1 := rfl
  have hmod := Nat.mod_le ((locate offset 0 0 (ofSource source).starts.tail).1 + 1) UInt32.size
  rw [hcount]
  simp only [position, ordinal_eq]
  omega

/-- No line starts behind the place `start` and before the place `stop` or there. -/
def Joins (index : LineIndex) (start stop : Nat) : Prop :=
  ∀ next ∈ index.starts, start < next → stop < next

namespace Joins

variable {index : LineIndex} {start stop start' stop' : Nat}

theorem mono (h : index.Joins start stop) (hstart : start ≤ start') (hstop : stop' ≤ stop) :
    index.Joins start' stop' := by
  intro next hmem hlt
  have hbehind := h next hmem (Nat.lt_of_le_of_lt hstart hlt)
  exact Nat.lt_of_le_of_lt hstop hbehind

theorem locate_eq (h : index.Joins start stop) (hle : start ≤ stop) :
    locate start 0 0 index.starts.tail = locate stop 0 0 index.starts.tail := by
  refine locate_congr (fun next hmem => ⟨fun hnext => Nat.le_trans hnext hle, fun hnext => ?_⟩) 0 0
  by_contra hlt
  have hbehind := h next (List.mem_of_mem_tail hmem) (Nat.lt_of_not_le hlt)
  omega

theorem line_eq (h : index.Joins start stop) (hle : start ≤ stop) :
    (index.position start).line = (index.position stop).line := by
  simp only [position, h.locate_eq hle]

theorem column_le (h : index.Joins start stop) (hle : start ≤ stop)
    (hlt : stop < UInt32.size - 1) :
    (index.position start).column ≤ (index.position stop).column := by
  simp only [position, h.locate_eq hle, ordinal_eq]
  rw [Nat.mod_eq_of_lt (by omega), Nat.mod_eq_of_lt (by omega)]
  omega

end Joins

end LineIndex

theorem Text.Slice.joins {source : String} {start stop : Nat} {text : List Char}
    (h : Slice source.toList start stop text) (hfeed : '\n' ∉ text) :
    (LineIndex.ofSource source).Joins start stop := by
  obtain ⟨before, behind, hsource, rfl, rfl⟩ := h
  intro next hmem hlt
  -- A line starts at zero, behind a line feed before the excerpt, or behind one after it.
  rw [LineIndex.ofSource, hsource, LineIndex.startsBehindFeeds_append,
    LineIndex.startsBehindFeeds_append, LineIndex.startsBehindFeeds_of_not_mem _ hfeed,
    List.nil_append, List.mem_cons, List.mem_append] at hmem
  rcases hmem with rfl | hmem | hmem
  · cases hlt
  · have hle := (LineIndex.bounds_of_mem hmem).2
    omega
  · have hbehind := (LineIndex.bounds_of_mem hmem).1
    omega

end SourceFront
