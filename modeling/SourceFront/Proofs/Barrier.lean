import Mathlib.Data.List.TakeWhile
import Mathlib.Logic.Function.Iterate
import SourceFront.Proofs.Barrier.Rules
import SourceFront.Proofs.Cursor.Safety
import SourceFront.Proofs.Isolation

/-!
The first end in a list of tokens is where reading stops, wherever it is. What is behind it is
not looked at, and if reading goes on from there, nothing more is found.
-/

namespace SourceFront

/-- The tokens before the first end; all of them, if there is none. -/
def Token.beforeEnd (tokens : List Token) : List Token :=
  tokens.takeWhile fun token => !token.isEof

/-- The tokens through the first end. -/
def Token.throughEnd (tokens : List Token) : List Token :=
  beforeEnd tokens ++ (tokens.dropWhile fun token => !token.isEof).take 1

open Token (beforeEnd throughEnd)

theorem isEof_of_mem_beforeEnd {tokens : List Token} {token : Token}
    (h : token ∈ beforeEnd tokens) : token.isEof = false := by
  simpa using List.mem_takeWhile_imp h

theorem beforeEnd_cases (tokens : List Token) :
    (tokens = beforeEnd tokens ∧ throughEnd tokens = tokens) ∨
      ∃ last behind, tokens = beforeEnd tokens ++ last :: behind ∧ last.kind = .eof ∧
        throughEnd tokens = beforeEnd tokens ++ [last] := by
  have hwhole := List.takeWhile_append_dropWhile (p := fun token : Token => !token.isEof)
    (l := tokens)
  rw [throughEnd]
  cases hrest : tokens.dropWhile fun token => !token.isEof with
  | nil =>
      rw [hrest, List.append_nil] at hwhole
      exact .inl ⟨hwhole.symm, by rw [List.take_nil, List.append_nil]; exact hwhole⟩
  | cons last behind =>
      rw [hrest] at hwhole
      have hlast := List.head?_dropWhile_not (fun token : Token => !token.isEof) tokens
      rw [hrest] at hlast
      refine .inr ⟨last, behind, hwhole.symm, ?_, rfl⟩
      simpa [Token.isEof] using hlast

namespace State

theorem ofTokens_of_end (front : List Token) {last : Token} (hend : last.kind = .eof) :
    ofTokens (front ++ [last]) =
      ⟨((front ++ [last]).head?.map Token.span).getD ⟨0, 0, 0⟩, front, last.span, []⟩ := by
  have heof : last.isEof = true := decide_eq_true hend
  rw [ofTokens, List.getLast?_concat, List.dropLast_concat]
  simp only [heof, if_true]

theorem ofTokens_of_behind (front : List Token) {last : Token} (hend : last.kind = .eof)
    {behind : List Token} (hne : behind ≠ []) :
    ∃ b : Barrier, b.token = last ∧
      ofTokens (front ++ last :: behind) = b.put (ofTokens (front ++ [last])) := by
  obtain ⟨more, final, rfl⟩ := (List.eq_nil_or_concat' behind).resolve_left hne
  have hhead : (front ++ last :: (more ++ [final])).head? = (front ++ [last]).head? := by
    cases front <;> rfl
  have hwhole : front ++ last :: (more ++ [final]) = front ++ last :: more ++ [final] := by simp
  rw [ofTokens_of_end front hend, ofTokens, hhead, hwhole, List.getLast?_concat,
    List.dropLast_concat]
  cases hfinal : final.isEof with
  | true =>
      refine ⟨⟨last, hend, more, final.span⟩, rfl, ?_⟩
      simp [Barrier.put, extend, hfinal]
  | false =>
      let stop : Span := ⟨final.span.stop, final.span.stop, final.span.fileId⟩
      refine ⟨⟨last, hend, more ++ [final], stop⟩, rfl, ?_⟩
      simp [Barrier.put, extend, hfinal, stop]

/-- With tokens behind the first end, that end is a barrier; else nothing is cut off. -/
theorem ofTokens_cases (tokens : List Token) :
    (ofTokens (throughEnd tokens)).ahead = beforeEnd tokens ∧
      (ofTokens tokens = ofTokens (throughEnd tokens) ∨
        ∃ b : Barrier, (ofTokens (throughEnd tokens)).stop = b.token.span ∧
          ofTokens tokens = b.put (ofTokens (throughEnd tokens))) := by
  rcases beforeEnd_cases tokens with ⟨hnone, hthrough⟩ | ⟨last, behind, htokens, hend, hthrough⟩
  · rw [hthrough]
    refine ⟨?_, .inl rfl⟩
    rw [← hnone]
    refine (ofTokens_ahead fun token hmem => ?_).1
    exact isEof_of_mem_beforeEnd (hnone ▸ List.mem_of_getLast? hmem)
  · have hcut := ofTokens_of_end (beforeEnd tokens) hend
    rw [hthrough]
    refine ⟨by rw [hcut], ?_⟩
    by_cases hbehind : behind = []
    · left
      rw [hbehind] at htokens
      exact congrArg ofTokens htokens
    · right
      obtain ⟨b, htoken, hput⟩ := ofTokens_of_behind (beforeEnd tokens) hend hbehind
      refine ⟨b, by rw [hcut, htoken], ?_⟩
      rw [← hput]
      exact congrArg ofTokens htokens

end State

namespace Rule

variable {s t : State} {read : List (Item Span)}

theorem items_put {b : Barrier} (hstop : s.stop = b.token.span)
    (h : items .outermost s = .ok read t) :
    items .outermost (b.put s) = .ok read (b.put t) ∧ t.stop = b.token.span :=
  (h ▸ items_heeds (Level.allowing_heeds b Level.limit) s hstop False.elim).of_ok

theorem items_passes (h : items .outermost s = .ok read t)
    (hgoes : ∀ token ∈ s.ahead, token.isEof = false) : t.ahead = [] := by
  have hend := items_end (Level.allowing_consuming Level.limit) h
  obtain ⟨passed, hpasses⟩ := (items_framed (Level.allowing_framed Level.limit)).ok h
  cases hahead : t.ahead with
  | nil => rfl
  | cons token rest =>
      have hmem : token ∈ s.ahead := by
        rw [hpasses.ahead, hahead]
        simp
      rw [State.current_of_ahead hahead, hgoes token hmem] at hend
      cases hend

theorem items_throughEnd (tokens : List Token) :
    ∃ read cut whole, items .outermost (.ofTokens (throughEnd tokens)) = .ok read cut ∧
      items .outermost (.ofTokens tokens) = .ok read whole ∧ whole.problems = cut.problems ∧
      whole.current.span = cut.current.span ∧
      (State.ofTokens tokens).Passes (beforeEnd tokens) whole ∧ whole.current.isEof = true := by
  obtain ⟨hfront, hcases⟩ := State.ofTokens_cases tokens
  obtain ⟨read, cut, hcut⟩ := exists_items (.ofTokens (throughEnd tokens))
  have hnone : cut.ahead = [] :=
    items_passes hcut fun token hmem => isEof_of_mem_beforeEnd (hfront ▸ hmem)
  rcases hcases with hsame | ⟨b, hstop, hput⟩
  · rw [hsame]
    obtain ⟨passed, hpasses⟩ := (items_framed (Level.allowing_framed Level.limit)).ok hcut
    obtain rfl : passed = beforeEnd tokens := by
      rw [← hfront, hpasses.ahead, hnone, List.append_nil]
    exact ⟨read, cut, cut, hcut, hcut, rfl, rfl, hpasses,
      items_end (Level.allowing_consuming Level.limit) hcut⟩
  · obtain ⟨hwhole, hcutStop⟩ := items_put hstop hcut
    rw [← hput] at hwhole
    obtain ⟨passed, hpasses⟩ := (items_framed (Level.allowing_framed Level.limit)).ok hwhole
    obtain rfl : passed = beforeEnd tokens := by
      have hahead := hpasses.ahead
      rw [hput, Barrier.put, Barrier.put, State.extend, State.extend, hfront, hnone] at hahead
      exact (List.append_cancel_right hahead).symm
    exact ⟨read, cut, b.put cut, hcut, hwhole, rfl, Barrier.current_span hcutStop, hpasses,
      items_end (Level.allowing_consuming Level.limit) hwhole⟩

end Rule

namespace Reading

theorem readModule_of_end {reading : Reading} (h : reading.state.current.isEof = true) :
    reading.readModule =
      (⟨[], ⟨0, reading.state.current.span.stop, reading.state.current.span.fileId⟩⟩, reading) := by
  have hitems : Rule.items .outermost reading.state = .ok [] reading.state :=
    Rule.iterate_of_last (Rule.moduleRound_of_end h)
  simp only [readModule, hitems]

/-- The first end among tokens is where reading stops, wherever it is. The module and the
problems are those of the tokens through that end. The tokens in front of it are passed, and no
others, so that the walk through the list is at its index then; nor is any end passed by what
begins in front of it, be it an item, a statement or a phrase that nests, read or given up. If
modules are read from there again and again, they have no items, their range is the same, and
nothing else changes. -/
theorem end_is_barrier (tokens : List Token) :
    let reading := ofTokens tokens
    let cut := ofTokens (throughEnd tokens)
    let after := reading.readModule.2
    (reading.readModule.1 = cut.readModule.1 ∧ after.problems = cut.readModule.2.problems) ∧
      (reading.state.Passes (beforeEnd tokens) after.state ∧
        after.state.current.isEof = true) ∧
      (∃ items walk, Walk.items .outermost (.ofTokens tokens) = .ok items walk ∧
        reading.readModule.1.items = items ∧ walk.pos = (beforeEnd tokens).length) ∧
      (∀ (b : Barrier) n, (Level.allowing n).Heeds b ∧
        (Rule.statement (.allowing n)).Heeds b False ∧ (Rule.item (.allowing n)).Heeds b False) ∧
      ∀ n, ((fun again => again.readModule.2)^[n] after).readModule =
        (⟨[], reading.readModule.1.note⟩, after) := by
  intro reading cut after
  obtain ⟨read, t, u, hcut, hwhole, hproblems, hspan, hpasses, hend⟩ :=
    Rule.items_throughEnd tokens
  have hmodule : reading.readModule =
      (⟨read, ⟨0, u.current.span.stop, u.current.span.fileId⟩⟩, ⟨[], u⟩) := by
    simp only [readModule, reading, ofTokens, hwhole]
  have hmodule' : cut.readModule =
      (⟨read, ⟨0, t.current.span.stop, t.current.span.fileId⟩⟩, ⟨[], t⟩) := by
    simp only [readModule, cut, ofTokens, hcut]
  have hafter : after = ⟨[], u⟩ := congrArg Prod.snd hmodule
  refine ⟨⟨?_, ?_⟩, ?_, ?_, fun b n => ?_, fun n => ?_⟩
  · rw [hmodule, hmodule', hspan]
  · rw [hafter, hmodule', problems, problems, hproblems]
  · rw [hafter]
    exact ⟨hpasses, hend⟩
  · obtain ⟨items, walk, state, hwalk, hrule, hat⟩ := Walk.items_ofTokens tokens
    obtain ⟨rfl, rfl⟩ := EStateM.Result.ok.inj (hwhole.symm.trans hrule)
    have hpos := (Cursor.ofTokens_at tokens).pos_of_passes hat hpasses
    exact ⟨read, walk, hwalk, by rw [hmodule], hpos.trans (Nat.zero_add _)⟩
  · have hheeds := Level.allowing_heeds b n
    exact ⟨hheeds, Rule.statement_heeds hheeds, Rule.item_heeds hheeds⟩
  · have hagain : after.readModule = (⟨[], reading.readModule.1.note⟩, after) := by
      rw [hafter, hmodule]
      exact readModule_of_end hend
    rw [Function.iterate_fixed (congrArg Prod.snd hagain) n]
    exact hagain

example : (ofTokens (tokens "import \"a\";" 0 ++ tokens "fn" 0)).readModule.2.problems = [] := by
  decide +kernel

end Reading

end SourceFront
