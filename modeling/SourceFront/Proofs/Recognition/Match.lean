import SourceFront.Proofs.Recognition.Statement

/-!
The patterns and arms that are written are those that are read.
-/

namespace SourceFront

/-- Whether a path may end before a token of the kind. -/
def TokenKind.endsPath : TokenKind → Bool
  | .symbol .dot | .symbol .colonColon => false
  | _ => true

variable {α : Type}

theorem Pattern.nesting_phrase (pattern : Pattern α) : pattern.phrase.nesting = 0 := by
  cases pattern with
  | path segments note =>
      cases segments with
      | nil => rfl
      | cons name segments =>
          have hled : (Phrase.led (.either [.symbol .dot] [.symbol .colonColon])
              (segments.map Name.phrase)).nesting ≤ 0 := by
            rw [Phrase.nesting_led_le rfl]
            simp [Name.phrase]
          simpa [Pattern.phrase, Name.path, Phrase.separated, Name.phrase] using hled
  | _ => rfl

theorem Pattern.between_kind {pattern : Pattern α} {s t : State}
    (h : pattern.phrase.Between s t) :
    ∃ a : Terminal, s.current.kind = a.kind ∧ a.kind ≠ .symbol .rightBrace := by
  cases pattern with
  | path segments note =>
      obtain ⟨_, ⟨-, rfl, -⟩, hpath⟩ := h
      cases segments with
      | nil => exact absurd hpath.1 Bool.false_ne_true
      | cons name segments =>
          obtain ⟨_, hname, -⟩ := hpath
          exact ⟨_, State.Spells.kind hname, by simp [Terminal.kind]⟩
  | _ => exact ⟨_, State.Spells.kind h, by simp [Terminal.kind]⟩

theorem Pattern.patterns_kind {patterns : List (Pattern α)} {s t : State}
    (h : (Phrase.separated (.symbol .pipe) (patterns.map phrase)).Between s t) :
    ∃ a : Terminal, s.current.kind = a.kind ∧ a.kind ≠ .symbol .rightBrace := by
  cases patterns with
  | nil => exact absurd h.1 Bool.false_ne_true
  | cons pattern patterns =>
      obtain ⟨_, hpattern, -⟩ := h
      exact between_kind hpattern

theorem MatchArm.between_kind {arm : MatchArm α} {s t : State} (h : arm.phrase.Between s t) :
    ∃ a : Terminal, s.current.kind = a.kind ∧ a.kind ≠ .symbol .rightBrace := by
  obtain ⟨patterns, body, note⟩ := arm
  obtain ⟨_, hpatterns, -⟩ := h
  exact Pattern.patterns_kind hpatterns

theorem Phrase.nesting_patterns (patterns : List (Pattern α)) :
    (separated (.terminal (.symbol .pipe)) (patterns.map Pattern.phrase)).nesting = 0 := by
  cases patterns with
  | nil => rfl
  | cons pattern patterns =>
      have hled : (led (.terminal (.symbol .pipe)) (patterns.map Pattern.phrase)).nesting ≤ 0 := by
        rw [nesting_led_le rfl]
        simp [Pattern.nesting_phrase]
      rw [List.map_cons, separated, nesting, pattern.nesting_phrase]
      exact Nat.le_zero.mp (Nat.max_le.mpr ⟨Nat.le_refl 0, hled⟩)

namespace Rule

variable {n : Nat} {inner : Level} {s t : State}

/-- A name of a path behind a separator. -/
def segmentPhrase (name : Name α) : Phrase α :=
  .seq (.either [.symbol .dot] [.symbol .colonColon]) name.phrase

/-- A round of the names of a path. -/
def pathRound (read : List (Name Span)) : Rule (Round (List (Name Span))) := do
  if ← take? (.symbol .dot) then return .more (read ++ [← name])
  else if ← take? (.symbol .colonColon) then return .more (read ++ [← name])
  else return .last read

theorem pathRound_readsRun (n : Nat) (segments : List (Name α)) :
    ReadsRun False n (fun kind => kind.endsPath = true) (fun _ => True) pathRound
      (fun read shapes => read.map (Name.map forget) = shapes) segmentPhrase (Name.map forget)
      segments where
  framed := False.elim
  solid _ _ := rfl
  ended _ _ := trivial
  head _ _ _ _ _ := trivial
  last := by
    intro s read shapes hread hend
    have hdot : s.current.kind ≠ .symbol .dot := by
      intro hkind
      rw [hkind] at hend
      cases hend
    have hcolons : s.current.kind ≠ .symbol .colonColon := by
      intro hkind
      rw [hkind] at hend
      cases hend
    exact .unlessTaken hdot (.unlessTaken hcolons (.pure ⟨_, rfl, hread⟩))
  more := by
    intro segment hmem s t read shapes hread hspells _
    have hfits : (segmentPhrase segment).nesting ≤ n ↔ True := by
      simp [segmentPhrase, Name.phrase]
    obtain ⟨_, hseparator, hname, rfl, -⟩ := hspells
    rcases hseparator with ⟨hdot, rfl, -⟩ | ⟨hcolons, rfl, -⟩
    · refine .imp (.whenTaken (Token.kind_of_terminal? hdot)
        (.name (Token.kind_of_terminal? hname) (.pure ⟨_, rfl, ?_⟩))) hfits fun _ hgood => hgood
      simp [hread, Name.map, forget]
    · have hcolons' := Token.kind_of_terminal? hcolons
      have hdot : s.current.kind ≠ .symbol .dot := by simp [hcolons', Terminal.kind]
      refine .imp (.unlessTaken hdot (.whenTaken hcolons'
        (.name (Token.kind_of_terminal? hname) (.pure ⟨_, rfl, ?_⟩)))) hfits fun _ hgood => hgood
      simp [hread, Name.map, forget]

theorem pathTail_gives {first : Name Span} {name : Name α} {segments : List (Name α)}
    (hfirst : first.map forget = name.map forget)
    (hspells : (Phrase.concat (segments.map segmentPhrase)).Between s t)
    (hend : t.current.kind.endsPath = true) :
    Gives False True
      (fun read => read.map (Name.map forget) = (name :: segments).map (Name.map forget))
      (pathTail first) s t := by
  have hread : [first].map (Name.map forget) = [name.map forget] := by simp [hfirst]
  refine ((pathRound_readsRun 0 segments).gives hread hspells hend).imp ?_ ?_
  · rw [Phrase.nesting_concat_le]
    simp [segmentPhrase, Name.phrase]
  · simp

theorem pattern_gives {pattern : Pattern α} (hspells : pattern.phrase.Between s t)
    (hend : t.current.kind.endsPath = true) :
    Gives False True (fun value => value.map forget = pattern.map forget) Rule.pattern s t := by
  refine .current ?_
  cases pattern with
  | number digits note =>
      have hkind : s.current.kind = .number := State.Spells.kind hspells
      obtain ⟨hdigits, rfl, -⟩ := hspells
      have htext : s.current.text = digits := Token.text_of_terminal? hdigits
      simp only [hkind]
      exact .advance (.pure (by simp [Pattern.map, htext, forget]))
  | char value note =>
      have hkind : s.current.kind = .char value := State.Spells.kind hspells
      obtain ⟨-, rfl, -⟩ := hspells
      simp only [hkind]
      exact .advance (.pure rfl)
  | wildcard note =>
      have hkind : s.current.kind = .ident "_" := State.Spells.kind hspells
      obtain ⟨-, rfl, -⟩ := hspells
      simp only [hkind]
      exact .name hkind (.pure rfl)
  | path segments note =>
      obtain ⟨_, ⟨hproper, rfl, -⟩, hpath⟩ := hspells
      cases segments with
      | nil => exact absurd hpath.1 Bool.false_ne_true
      | cons name segments =>
          obtain ⟨_, ⟨hname, rfl, -⟩, hrest⟩ := hpath
          have hkind := Token.kind_of_terminal? hname
          have hplain : name.text ≠ "_" := by
            intro hwildcard
            simp [hwildcard] at hproper
          rw [Phrase.between_led, List.map_map] at hrest
          have hfirst : (⟨name.text, s.current.span⟩ : Name Span).map forget =
              name.map forget := rfl
          simp only [hkind, Terminal.kind]
          refine .name hkind ?_
          rw [if_neg hplain]
          refine .finish (pathTail_gives hfirst hrest hend) fun read hread =>
            .spanFrom (.pure ?_)
          simp [Pattern.map, hread, forget]

/-- A pattern behind a bar. -/
def patternPhrase (pattern : Pattern α) : Phrase α :=
  .seq (.symbol .pipe) pattern.phrase

/-- A round of the patterns of an arm. -/
def patternRound (read : List (Pattern Span)) : Rule (Round (List (Pattern Span))) := do
  if ← take? (.symbol .pipe) then return .more (read ++ [← pattern])
  else return .last read

theorem patternRound_readsRun (n : Nat) (patterns : List (Pattern α)) :
    ReadsRun False n (· = .symbol .fatArrow) (fun kind => kind.endsPath = true) patternRound
      (fun read shapes => read.map (Pattern.map forget) = shapes) patternPhrase
      (Pattern.map forget) patterns where
  framed := False.elim
  solid _ _ := rfl
  ended := by
    rintro kind rfl
    rfl
  head := by
    rintro pattern - s t ⟨_, hpipe, -⟩
    rw [hpipe.kind]
    rfl
  last := by
    intro s read shapes hread hend
    have hpipe : s.current.kind ≠ .symbol .pipe := by simp [hend]
    exact .unlessTaken hpipe (.pure ⟨_, rfl, hread⟩)
  more := by
    rintro pattern - s t read shapes hread ⟨_, ⟨hpipe, rfl, -⟩, hspells⟩ hend
    refine .imp (.whenTaken (Token.kind_of_terminal? hpipe) (.finish
      (pattern_gives hspells hend) fun value hvalue => .pure ⟨_, rfl, ?_⟩)) ?_
      fun _ hgood => hgood
    · simp [patternPhrase, pattern.nesting_phrase]
    · simp [hread, hvalue]

theorem patterns_gives {patterns : List (Pattern α)}
    (hspells : (Phrase.separated (.symbol .pipe) (patterns.map Pattern.phrase)).Between s t)
    (hend : t.current.kind = .symbol .fatArrow) :
    Gives False True
      (fun read => read.map (Pattern.map forget) = patterns.map (Pattern.map forget))
      Rule.patterns s t := by
  cases patterns with
  | nil => exact absurd hspells.1 Bool.false_ne_true
  | cons pattern patterns =>
      obtain ⟨u, hfirst, hrest⟩ := hspells
      rw [Phrase.between_led, List.map_map] at hrest
      have hround := patternRound_readsRun 0 patterns
      have hend' := hround.follows hrest (hround.ended _ hend)
      refine .finish (pattern_gives hfirst hend') fun value hvalue => ?_
      have hread : [value].map (Pattern.map forget) = [pattern.map forget] := by simp [hvalue]
      refine (hround.gives hread hrest hend).imp ?_ ?_
      · rw [Phrase.nesting_concat_le]
        simp [patternPhrase, Pattern.nesting_phrase]
      · simp

theorem armBody_of_expr (inner : Level) (hstatement : s.current.kind.beginsStatement = false)
    (hblock : s.current.kind ≠ .symbol .leftBrace) :
    armBody inner s = (inner.freeExpr >>= fun value => expect .comma >>= fun _ =>
      pure (.expr value)) s := by
  rw [armBody, current_bind]
  generalize s.current.kind = kind at hstatement hblock
  cases kind with
  | keyword k => cases k <;> first | rfl | cases hstatement
  | symbol symbol => cases symbol <;> first | rfl | exact absurd rfl hblock
  | _ => rfl

theorem keyword_kind {k : Keyword} {phrase : Phrase α}
    (h : (Phrase.seq (.keyword k) phrase).Between s t) : s.current.kind = .keyword k := by
  obtain ⟨_, hkeyword, -⟩ := h
  exact hkeyword.kind

section

variable (hinner : inner.Recognises α n)
include hinner

theorem armBody_gives {body : ArmBody α} (hspells : body.phrase.Between s t) :
    Gives True (body.phrase.nesting ≤ n) (fun value => value.map forget = body.map forget)
      (armBody inner) s t := by
  cases body with
  | block body =>
      replace hspells : body.phrase.Between s t := hspells
      have hkind := block_kind hspells
      refine .current ?_
      simp only [hkind]
      refine .finishLoose (hinner.block hspells) (fun _ => .pure _) fun value hvalue => .pure ?_
      simp [ArmBody.map, hvalue]
  | return_ value note =>
      have hkind : s.current.kind = .keyword .return_ := keyword_kind hspells
      refine .current ?_
      simp only [hkind]
      refine .finish (return_gives hinner hspells) fun read hread => .pure ?_
      simp [ArmBody.map, hread]
  | match_ choice =>
      replace hspells : choice.phrase.Between s t := hspells
      have hkind : s.current.kind = .keyword .match_ := by
        cases choice
        exact keyword_kind hspells
      refine .current ?_
      simp only [hkind]
      refine .finishLoose (hinner.choice hspells) (fun _ => .pure _) fun value hvalue => .pure ?_
      simp [ArmBody.map, hvalue]
  | break_ note =>
      have hkind : s.current.kind = .keyword .break_ := keyword_kind hspells
      refine .current ?_
      simp only [hkind]
      exact .finish (jump_gives hspells) fun value _ => .pure rfl
  | continue_ note =>
      have hkind : s.current.kind = .keyword .continue_ := keyword_kind hspells
      refine .current ?_
      simp only [hkind]
      exact .finish (jump_gives hspells) fun value _ => .pure rfl
  | expr value =>
      obtain ⟨u, hvalue, hcomma⟩ := hspells
      obtain ⟨a, hkind, hbegins, -⟩ := value.between_kind hvalue
      obtain ⟨hstatement, -, hblock⟩ := Terminal.beginsStatement_of_beginsExpr hbegins
      have hgives := freeExpr_gives hinner hvalue hcomma rfl
      have hcomma' := State.Spells.kind hcomma
      obtain ⟨-, rfl, -⟩ := hcomma
      refine .congr (armBody_of_expr inner (hkind ▸ hstatement) (hkind ▸ hblock)) ?_
      refine .imp (.finish hgives fun read hread => .expect hcomma' (.pure ?_)) ?_
        fun _ hgood => hgood
      · simp [ArmBody.map, hread]
      · simp [ArmBody.phrase]

theorem arm_gives {arm : MatchArm α} (hspells : arm.phrase.Between s t) :
    Gives True (arm.phrase.nesting ≤ n) (fun value => value.map forget = arm.map forget)
      (Rule.arm inner) s t := by
  obtain ⟨patterns, body, note⟩ := arm
  obtain ⟨u, hpatterns, _, harrow, hbody⟩ := hspells
  have harrow' := State.Spells.kind harrow
  have hpatterns := patterns_gives hpatterns harrow'
  obtain ⟨-, rfl, -⟩ := harrow
  refine .imp (.current (.bind hpatterns fun patterns' hpatterns' => .expect harrow'
    (.finishLoose (armBody_gives hinner hbody)
      (fun _ => .bind (.spanFrom _) fun _ => .pure _)
      fun body' hbody' => .spanFrom (.pure ?_)))) ?_ fun _ hgood => hgood
  · simp [MatchArm.map, hpatterns', hbody']
  · simp [MatchArm.phrase, Phrase.nesting_patterns]

/-- A round of the arms of a `match` statement. -/
def armRound (inner : Level) (read : List (MatchArm Span)) :
    Rule (Round (List (MatchArm Span))) := do
  if ← isAtClose .rightBrace then return .last read
  else return .more (read ++ [← arm inner])

variable (hframed : inner.Framed)
include hframed

theorem armRound_readsRun (arms : List (MatchArm α)) :
    ReadsRun True n (· = .symbol .rightBrace) (fun _ => True) (armRound inner)
      (fun read shapes => read.map (MatchArm.map forget) = shapes) MatchArm.phrase
      (MatchArm.map forget) arms where
  framed _ _ := .bind (.isAtClose _) fun _ => .ite (.pure _)
    (.bind (arm_framed hframed) fun _ => .pure _)
  solid arm _ := by
    cases arm
    simp [MatchArm.phrase]
  ended _ _ := trivial
  head _ _ _ _ _ := trivial
  last hread hend := .whenAtClose hend (.pure ⟨_, rfl, hread⟩)
  more := by
    intro arm hmem s t read shapes hread hspells _
    obtain ⟨hclose, hmore⟩ : s.current.kind ≠ .symbol .rightBrace ∧ s.current.kind ≠ .eof := by
      obtain ⟨a, hkind, hclose⟩ := MatchArm.between_kind hspells
      rw [hkind]
      exact ⟨hclose, by cases a <;> simp [Terminal.kind]⟩
    refine .unlessAtClose hclose hmore (.finishLoose (arm_gives hinner hspells)
      (fun _ => .pure _) fun value hvalue => .pure ⟨_, rfl, ?_⟩)
    simp [hread, hvalue]

theorem choice_gives {choice : MatchStmt α} (hspells : choice.phrase.Between s t) :
    Gives True (choice.phrase.nesting ≤ n)
      (fun value => value.map forget = choice.map forget) (Rule.choice inner) s t := by
  obtain ⟨subject, arms, note⟩ := choice
  obtain ⟨_, ⟨-, rfl, -⟩, u, hsubject, _, hopen, v, harms, hclose⟩ := hspells
  rw [MatchArm.phrases_eq_map] at harms
  have hopen' := State.Spells.kind hopen
  have hclose' := State.Spells.kind hclose
  have hsubject := condition_gives hinner hsubject hopen rfl
  obtain ⟨-, rfl, -⟩ := hopen
  obtain ⟨-, rfl, -⟩ := hclose
  have hnone : ([] : List (MatchArm Span)).map (MatchArm.map forget) = [] := rfl
  have harms := (armRound_readsRun hinner hframed arms).gives hnone harms hclose'
  refine .imp (.advance (.bind hsubject fun subject' hsubject' => .expect hopen'
    (.finishLoose harms (fun _ => .bind (.expect _) fun _ => .bind (.spanFrom _) fun _ =>
      .pure _) fun arms' harms' => .expect hclose' (.spanFrom (.pure ?_)))))
    ?_ fun _ hgood => hgood
  · simp [MatchStmt.map, MatchArm.mapList_eq_map, hsubject', harms']
  · simp [MatchStmt.phrase, MatchArm.phrases_eq_map]

end

end Rule

end SourceFront
