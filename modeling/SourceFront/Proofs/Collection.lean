import Mathlib.Data.List.InsertIdx
import SourceFront.Bisection
import SourceFront.Proofs.Diagnosis

/-!
Collecting diagnostics. Whatever is given to a collector, in whatever order, it holds in the
order of the source, and diagnostics of one place in the order in which they came. No other list
is in this order. So the problems of a source may be put in order twice, once as problems and once
as diagnostics: it is all one order.
-/

namespace SourceFront

namespace SourceOrder

variable {α : Type} {start : α → Nat}

/-- The elements of `as` in the order of the source, those of one place in the order of `as`. -/
structure Stable (start : α → Nat) (as sorted : List α) : Prop where
  perm : sorted.Perm as
  ordered : sorted.Pairwise (start · ≤ start ·)
  ties : ∀ place, sorted.filter (start · = place) = as.filter (start · = place)

theorem mem_of_ties {as bs : List α}
    (hties : ∀ place, as.filter (start · = place) = bs.filter (start · = place)) {a : α}
    (ha : a ∈ as) : a ∈ bs := by
  have hfilter : a ∈ as.filter (start · = start a) := List.mem_filter.mpr ⟨ha, by simp⟩
  rw [hties] at hfilter
  exact List.mem_of_mem_filter hfilter

theorem head_le {a b : α} {bs : List α} (h : (b :: bs).Pairwise (start · ≤ start ·))
    (ha : a ∈ b :: bs) : start b ≤ start a := by
  rcases List.mem_cons.mp ha with rfl | hlater
  · exact Nat.le_refl _
  · exact (List.pairwise_cons.mp h).1 a hlater

theorem eq_of_ties {as bs : List α} (has : as.Pairwise (start · ≤ start ·))
    (hbs : bs.Pairwise (start · ≤ start ·))
    (hties : ∀ place, as.filter (start · = place) = bs.filter (start · = place)) : as = bs := by
  induction as generalizing bs with
  | nil =>
      refine (List.eq_nil_iff_forall_not_mem.mpr fun b hb => ?_).symm
      exact List.not_mem_nil (mem_of_ties (fun place => (hties place).symm) hb)
  | cons a as ih =>
      cases bs with
      | nil => exact absurd (mem_of_ties hties List.mem_cons_self) List.not_mem_nil
      | cons b bs =>
          -- No element of either list starts before the first one, so the first ones start alike.
          have hstart : start a = start b := by
            refine Nat.le_antisymm (head_le has ?_) (head_le hbs ?_)
            · exact mem_of_ties (fun place => (hties place).symm) List.mem_cons_self
            · exact mem_of_ties hties List.mem_cons_self
          have hfirst := hties (start a)
          rw [List.filter_cons_of_pos (by simp),
            List.filter_cons_of_pos (by simp [hstart])] at hfirst
          obtain ⟨rfl, -⟩ := List.cons.inj hfirst
          refine congrArg (a :: ·) (ih has.of_cons hbs.of_cons fun place => ?_)
          have hplace := hties place
          by_cases hat : start a = place
          · rw [List.filter_cons_of_pos (by simpa using hat),
              List.filter_cons_of_pos (by simpa using hat)] at hplace
            exact (List.cons.inj hplace).2
          · rwa [List.filter_cons_of_neg (by simpa using hat),
              List.filter_cons_of_neg (by simpa using hat)] at hplace

theorem insert_ties (a : α) {bs : List α} (hbs : bs.Pairwise (start · ≤ start ·)) (place : Nat) :
    (insert start a bs).filter (start · = place) = (bs ++ [a]).filter (start · = place) := by
  induction bs with
  | nil => rfl
  | cons b bs ih =>
      rw [insert]
      split
      next hle => rw [List.cons_append, List.filter_cons, List.filter_cons, ih hbs.of_cons]
      next hlt =>
        by_cases hat : start a = place
        · -- The elements behind start later, so none of them is at the place.
          have hnone : (b :: bs).filter (start · = place) = [] := by
            refine List.filter_eq_nil_iff.mpr fun c hmem => ?_
            have hle := head_le hbs hmem
            simp only [decide_eq_true_eq]
            omega
          rw [List.filter_cons_of_pos (by simpa using hat), List.filter_append, hnone,
            List.filter_cons_of_pos (by simpa using hat)]
          rfl
        · have hlast : [a].filter (start · = place) = [] :=
            List.filter_eq_nil_iff.mpr (by simpa using hat)
          rw [List.filter_cons_of_neg (by simpa using hat), List.filter_append, hlast,
            List.append_nil]

theorem sort_ties (start : α → Nat) (as : List α) (place : Nat) :
    (sort start as).filter (start · = place) = as.filter (start · = place) := by
  induction as using List.reverseRecOn with
  | nil => rfl
  | append_singleton as a ih =>
      rw [sort_concat, insert_ties a (sort_pairwise start as), List.filter_append, ih,
        List.filter_append]

/-- There is one list of the elements in order, and that is what putting them in one by one
leads to. -/
theorem stable_iff {as sorted : List α} : Stable start as sorted ↔ sort start as = sorted := by
  constructor
  · intro h
    exact eq_of_ties (sort_pairwise start as) h.ordered fun place =>
      (sort_ties start as place).trans (h.ties place).symm
  · rintro rfl
    exact ⟨sort_perm start as, sort_pairwise start as, sort_ties start as⟩

theorem exists_insert (a : α) {bs : List α} (hbs : bs.Pairwise (start · ≤ start ·)) :
    ∃ front behind, bs = front ++ behind ∧ insert start a bs = front ++ a :: behind ∧
      (∀ b ∈ front, start b ≤ start a) ∧ ∀ b ∈ behind, ¬start b ≤ start a := by
  induction bs with
  | nil => exact ⟨[], [], rfl, rfl, by simp, by simp⟩
  | cons b bs ih =>
      rw [insert]
      split
      next hle =>
        obtain ⟨front, behind, rfl, hinsert, hfront, hbehind⟩ := ih hbs.of_cons
        exact ⟨b :: front, behind, rfl, by rw [hinsert, List.cons_append],
          List.forall_mem_cons.mpr ⟨hle, hfront⟩, hbehind⟩
      next hlt =>
        refine ⟨[], b :: bs, rfl, rfl, by simp, fun c hmem => ?_⟩
        have hle := head_le hbs hmem
        omega

/-- Halving finds where in a list in order an element is put in. -/
theorem insert_eq_insertIdx (a : α) {bs : List α} (hbs : bs.Pairwise (start · ≤ start ·)) :
    insert start a bs = bs.insertIdx (partitionPoint (start · ≤ start a) bs) a := by
  have hinsertIdx (front behind : List α) :
      (front ++ behind).insertIdx front.length a = front ++ a :: behind := by
    induction front with
    | nil => exact List.insertIdx_zero
    | cons b front ih =>
        rw [List.cons_append, List.length_cons, List.insertIdx_succ_cons, ih, List.cons_append]
  obtain ⟨front, behind, rfl, hinsert, hfront, hbehind⟩ := exists_insert a hbs
  rw [hinsert, partitionPoint_append (by simpa using hfront) (by simpa using hbehind), hinsertIdx]

end SourceOrder

/-- What is given to a collector. -/
inductive Insertion where
  | diagnostic (diagnostic : Diagnostic)
  | problem (problem : Problem)

namespace Insertion

/-- The diagnostic that is collected. -/
def entry : Insertion → Diagnostic
  | .diagnostic given => given
  | .problem given => .ofProblem given

/-- Puts in what is given. -/
def apply (diagnostics : Diagnostics) : Insertion → Diagnostics
  | .diagnostic given => diagnostics.push given
  | .problem given => diagnostics.pushProblem given

end Insertion

namespace Diagnostics

/-- Collects one after the other. -/
def collect (insertions : List Insertion) : Diagnostics :=
  insertions.foldl Insertion.apply empty

theorem collect_concat (insertions : List Insertion) (insertion : Insertion) :
    (collect (insertions ++ [insertion])).toList =
      SourceOrder.insert Diagnostic.start insertion.entry (collect insertions).toList := by
  rw [collect, List.foldl_append, ← collect]
  cases insertion <;> rfl

theorem collect_toList (insertions : List Insertion) :
    (collect insertions).toList =
      SourceOrder.sort Diagnostic.start (insertions.map Insertion.entry) := by
  induction insertions using List.reverseRecOn with
  | nil => rfl
  | append_singleton insertions insertion ih =>
      rw [collect_concat, ih, List.map_append, List.map_singleton, SourceOrder.sort_concat]

theorem ofProblems_eq_collect (problems : List Problem) :
    ofProblems problems = collect (problems.map .problem) := by
  rw [ofProblems, collect, List.foldl_map]
  rfl

/-- What is collected is in the one order in which it can be: that of the source, and for one
place that in which it came. Each diagnostic is put in where halving finds its place. The
diagnostics of a source are its problems in this order, those of the tokens in front of those of
the phrases. -/
theorem collect_stable :
    (∀ insertions sorted,
      SourceOrder.Stable Diagnostic.start (insertions.map Insertion.entry) sorted ↔
        (collect insertions).toList = sorted) ∧
    (∀ insertions insertion, (collect (insertions ++ [insertion])).toList =
      (collect insertions).toList.insertIdx
        (partitionPoint (·.start ≤ insertion.entry.start) (collect insertions).toList)
        insertion.entry) ∧
    (∀ problems, ofProblems problems = collect (problems.map .problem)) ∧
    ∀ source fileId sorted,
      SourceOrder.Stable Diagnostic.start
          ((lexicalProblems source fileId ++
            (Reading.ofSource source fileId).readModule.2.state.problems).map
              Diagnostic.ofProblem) sorted ↔
        (analyse source fileId).diagnostics.toList = sorted := by
  refine ⟨fun insertions sorted => ?_, fun insertions insertion => ?_, ofProblems_eq_collect,
    fun source fileId sorted => ?_⟩
  · rw [collect_toList, SourceOrder.stable_iff]
  · rw [collect_concat]
    refine SourceOrder.insert_eq_insertIdx insertion.entry ?_
    rw [collect_toList]
    exact SourceOrder.sort_pairwise _ _
  · obtain ⟨items, after, hitems⟩ := Rule.exists_items (Reading.ofSource source fileId).state
    have hproblems :
        (Reading.ofSource source fileId).readModule.2.state.problems = after.problems := by
      simp only [Reading.readModule, hitems]
    have horder (a b : Problem) : (Diagnostic.ofProblem a).start ≤ (Diagnostic.ofProblem b).start ↔
        a.start ≤ b.start := Iff.rfl
    rw [(analyse_of_items hitems).2, hproblems, SourceOrder.stable_iff, SourceOrder.sort_map horder]

end Diagnostics

end SourceFront
