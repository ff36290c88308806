import Mathlib.Data.List.Induction
import SourceFront.Analysis
import SourceFront.Proofs.Frame
import SourceFront.Proofs.Stream

/-!
From problems to diagnostics: nothing is lost, and the order is that of the source.
-/

namespace SourceFront

namespace SourceOrder

variable {α β : Type}

theorem sort_concat (start : α → Nat) (as : List α) (a : α) :
    sort start (as ++ [a]) = insert start a (sort start as) := by
  rw [sort, List.foldl_append]
  rfl

theorem sort_perm (start : α → Nat) (as : List α) : (sort start as).Perm as := by
  induction as using List.reverseRecOn with
  | nil => exact .refl _
  | append_singleton as a ih =>
      rw [sort_concat]
      refine (insert_perm start a _).trans ((ih.cons a).trans ?_)
      exact List.perm_append_singleton a as |>.symm

theorem sort_eq_nil {start : α → Nat} {as : List α} : sort start as = [] ↔ as = [] := by
  constructor
  · intro hnil
    have hperm := sort_perm start as
    rwa [hnil, List.nil_perm] at hperm
  · rintro rfl
    rfl

/-- Elements are ordered as what they are made from, if their starts are. -/
theorem sort_map {f : α → β} {start : α → Nat} {start' : β → Nat}
    (h : ∀ a b, start' (f a) ≤ start' (f b) ↔ start a ≤ start b) (as : List α) :
    sort start' (as.map f) = (sort start as).map f := by
  have hinsert (a : α) (bs : List α) :
      insert start' (f a) (bs.map f) = (insert start a bs).map f := by
    induction bs with
    | nil => rfl
    | cons b bs ih =>
        rw [List.map_cons, insert, insert]
        by_cases hle : start b ≤ start a
        · rw [if_pos hle, if_pos ((h b a).mpr hle), ih, List.map_cons]
        · rw [if_neg hle, if_neg fun hle' => hle ((h b a).mp hle'), List.map_cons,
            List.map_cons]
  induction as using List.reverseRecOn with
  | nil => rfl
  | append_singleton as a ih =>
      rw [List.map_append, List.map_singleton, sort_concat, sort_concat, ih, hinsert]

theorem insert_of_forall_le {start : α → Nat} {a : α} {bs : List α}
    (h : ∀ b ∈ bs, start b ≤ start a) : insert start a bs = bs ++ [a] := by
  induction bs with
  | nil => rfl
  | cons b bs ih =>
      rw [insert, if_pos (h b List.mem_cons_self), List.cons_append]
      exact congrArg (b :: ·) (ih fun c hmem => h c (List.mem_cons_of_mem b hmem))

theorem sort_of_pairwise {start : α → Nat} {as : List α}
    (h : as.Pairwise fun a b => start a ≤ start b) : sort start as = as := by
  induction as using List.reverseRecOn with
  | nil => rfl
  | append_singleton as a ih =>
      obtain ⟨has, -, hlast⟩ := List.pairwise_append.mp h
      rw [sort_concat, ih has]
      exact insert_of_forall_le fun b hmem => hlast b hmem a (List.mem_singleton_self a)

theorem sort_pairwise (start : α → Nat) (as : List α) :
    (sort start as).Pairwise fun a b => start a ≤ start b := by
  induction as using List.reverseRecOn with
  | nil => exact .nil
  | append_singleton as a ih =>
      rw [sort_concat]
      exact insert_pairwise start a ih

theorem sort_pairwise_lt {start : α → Nat} {as : List α}
    (h : as.Pairwise fun a b => start a ≠ start b) :
    (sort start as).Pairwise fun a b => start a < start b := by
  have hapart := (sort_perm start as).symm.pairwise h fun hne => hne.symm
  exact (sort_pairwise start as).imp₂ (fun a b hle hne => Nat.lt_of_le_of_ne hle hne) hapart

end SourceOrder

namespace Diagnostics

theorem ofProblems_toList (problems : List Problem) :
    (ofProblems problems).toList =
      SourceOrder.sort Diagnostic.start (problems.map Diagnostic.ofProblem) := by
  induction problems using List.reverseRecOn with
  | nil => rfl
  | append_singleton problems problem ih =>
      rw [List.map_append, List.map_singleton, SourceOrder.sort_concat, ← ih, ofProblems,
        List.foldl_append]
      rfl

theorem isEmpty_ofProblems {problems : List Problem} :
    (ofProblems problems).isEmpty = true ↔ problems = [] := by
  rw [isEmpty, ofProblems_toList, List.isEmpty_iff, SourceOrder.sort_eq_nil, List.map_eq_nil_iff]

end Diagnostics

theorem Reading.problems_eq_nil {reading : Reading} :
    reading.problems = [] ↔ reading.lexical = [] ∧ reading.state.problems = [] := by
  rw [problems, SourceOrder.sort_eq_nil, List.append_eq_nil_iff]

theorem Rule.exists_items (s : State) :
    ∃ items after, Rule.items .outermost s = .ok items after := by
  cases hrun : Rule.items .outermost s with
  | ok items after => exact ⟨items, after, rfl⟩
  | error problem after => exact absurd hrun (Rule.items_ne_error _ _ _ _)

variable {source : String} {fileId : Nat}

theorem items_problems_pairwise {items : List (Item Span)} {after : State}
    (hitems : Rule.items .outermost (Reading.ofSource source fileId).state = .ok items after) :
    after.problems.Pairwise fun a b => a.start ≤ b.start := by
  obtain ⟨hahead, hstop, hproblems⟩ := ofSource_state source fileId
  obtain ⟨passed, hpasses⟩ := (Rule.items_framed (Level.allowing_framed _)).ok hitems
  have hreported := hpasses.reported after.problems (by rw [hproblems, List.nil_append])
  have hbegin := hpasses.concat_current
  rw [hahead, hstop, ← tokens_eq_append] at hbegin
  exact hreported.pairwise (((tokens_pairwise source fileId).sublist hbegin.sublist).imp
    Nat.le_of_lt)

/-- The diagnostics are the problems of the tokens and those of the items, in the order of
the source. -/
theorem analyse_of_items {items : List (Item Span)} {after : State}
    (hitems : Rule.items .outermost (Reading.ofSource source fileId).state = .ok items after) :
    (analyse source fileId).module.items = items ∧
      (analyse source fileId).diagnostics.toList =
        (SourceOrder.sort Problem.start (lexicalProblems source fileId ++ after.problems)).map
          Diagnostic.ofProblem := by
  have hlexical : (Reading.ofSource source fileId).lexical = lexicalProblems source fileId := rfl
  simp only [analyse, Reading.readModule, hitems, Reading.problems, hlexical,
    Diagnostics.ofProblems_toList, true_and]
  exact SourceOrder.sort_of_pairwise
    (List.pairwise_map.mpr (SourceOrder.sort_pairwise Problem.start _))

end SourceFront
