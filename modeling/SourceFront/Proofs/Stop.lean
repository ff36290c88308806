import SourceFront.Proofs.Tokenization

/-!
Where tokens stop. A blank or a semicolon goes on with no token, so what a token is read as is
settled where it ends before one: whatever else stands behind it, the same is read.
-/

namespace SourceFront

open Text

/-- Whether a character goes on with no token. -/
def Text.isStop (c : Char) : Bool :=
  c = ';' || isBlank c

/-- A text that goes on with no token. -/
def Stops (rest : List Char) : Prop :=
  ∀ c ∈ rest.head?, isStop c = true

variable {cs post rest more : List Char}

theorem takeWhile_stops {p : Char → Bool} (hp : ∀ c, isStop c = true → p c = false)
    (hmore : Stops more) (hrest : (cs ++ post).dropWhile p = rest ++ post) :
    (cs ++ more).takeWhile p = (cs ++ post).takeWhile p ∧
      (cs ++ more).dropWhile p = rest ++ more := by
  induction cs with
  | nil =>
      rw [List.nil_append] at hrest
      have hsplit := congrArg List.length (@List.takeWhile_append_dropWhile _ p post)
      rw [hrest, List.length_append, List.length_append] at hsplit
      have hrest : rest = [] := List.eq_nil_of_length_eq_zero (by omega)
      have htake : post.takeWhile p = [] := List.eq_nil_of_length_eq_zero (by omega)
      rw [List.nil_append, List.nil_append, htake, hrest]
      cases more with
      | nil => exact ⟨rfl, rfl⟩
      | cons c more =>
          have hstop := hp c (hmore c rfl)
          simp [hstop]
  | cons c cs ih =>
      rw [List.cons_append, List.dropWhile_cons] at hrest
      rw [List.cons_append, List.cons_append, List.takeWhile_cons, List.takeWhile_cons,
        List.dropWhile_cons]
      by_cases hc : p c = true
      · rw [if_pos hc] at hrest
        obtain ⟨htake, hdrop⟩ := ih hrest
        rw [if_pos hc, if_pos hc, if_pos hc, htake, hdrop]
        exact ⟨rfl, rfl⟩
      · rw [if_neg hc, ← List.cons_append] at hrest
        obtain rfl := List.append_cancel_right hrest
        rw [if_neg hc, if_neg hc, if_neg hc]
        exact ⟨rfl, rfl⟩

namespace Literal

theorem Piece.read?_append {piece : Piece} (h : Piece.read? cs = some (piece, rest))
    (more : List Char) : Piece.read? (piece.text ++ more) = some (piece, more) := by
  unfold read? at h
  split at h
  iterate 4 cases h
  next c cs _ =>
    obtain ⟨rfl, rfl⟩ := Prod.mk.inj (Option.some.inj h)
    simp [text, read?]
  next c cs _ hlast _ hescape =>
    have hslash : c ≠ '\\' := by
      rintro rfl
      cases cs with
      | nil => exact hlast rfl rfl
      | cons d cs => exact hescape d cs rfl rfl
    obtain ⟨rfl, rfl⟩ := Prod.mk.inj (Option.some.inj h)
    simp [text, read?, hslash]

theorem readPieces_append {quote : Char} {pieces : List Piece}
    (h : readPieces quote cs = (pieces, quote :: rest)) (more : List Char) :
    readPieces quote (piecesText pieces ++ quote :: more) = (pieces, quote :: more) := by
  fun_induction readPieces quote cs generalizing pieces with
  | case1 cs hclosed =>
      obtain ⟨rfl, -⟩ := Prod.mk.inj h
      rw [readPieces, if_pos (by simp [piecesText])]
      rfl
  | case2 cs hopen hnone =>
      obtain ⟨-, rfl⟩ := Prod.mk.inj h
      exact absurd rfl hopen
  | case3 cs hopen piece behind hpiece pieces' after hrest ih =>
      obtain ⟨rfl, rfl⟩ := Prod.mk.inj h
      have htext : piecesText (piece :: pieces') ++ quote :: more =
          piece.text ++ (piecesText pieces' ++ quote :: more) := by
        simp [piecesText]
      have hopen' : (piece.text ++ (piecesText pieces' ++ quote :: more)).head? ≠ some quote := by
        rw [Piece.read?_eq_append hpiece] at hopen
        rwa [List.head?_append_of_ne_nil _ piece.text_ne_nil] at hopen ⊢
      rw [htext, readPieces, if_neg hopen']
      split
      next hnone =>
        rw [Piece.read?_append hpiece] at hnone
        cases hnone
      next hsome =>
        rw [Piece.read?_append hpiece] at hsome
        cases hsome
        rw [ih hrest]

end Literal

namespace Lexeme

theorem isWordChar_of_isStop {c : Char} (h : isStop c = true) : isWordChar c = false := by
  rcases Bool.or_eq_true_iff.mp h with hsemicolon | hblank
  · rw [of_decide_eq_true hsemicolon]
    decide
  · exact isWordChar_of_isBlank hblank

theorem isDigit_of_isStop {c : Char} (h : isStop c = true) : c.isDigit = false := by
  rcases Bool.or_eq_true_iff.mp h with hsemicolon | hblank
  · rw [of_decide_eq_true hsemicolon]
    decide
  · exact isDigit_of_isBlank hblank

theorem isStop_of_mem_symbol {s : Symbol} {c : Char} (h : c ∈ s.spelling.toList.tail) :
    isStop c = false := by
  have hall : s.spelling.toList.tail.all (fun c => !isStop c) = true := by cases s <;> decide
  simpa using List.all_eq_true.mp hall c h

/-- The same lexeme with something else behind it. -/
def upTo (lexeme : Lexeme) (rest : List Char) : Lexeme :=
  { lexeme with rest }

theorem word_stops (hmore : Stops more) (hrest : (word (cs ++ post)).rest = rest ++ post) :
    word (cs ++ more) = (word (cs ++ post)).upTo (rest ++ more) := by
  obtain ⟨htake, hdrop⟩ := takeWhile_stops (fun _ => isWordChar_of_isStop) hmore hrest
  rw [word, htake, hdrop]
  rfl

theorem splitFraction_fst_eq_nil :
    (splitFraction cs).1 = [] ↔ ∀ c rest, cs = '.' :: c :: rest → c.isDigit = false := by
  unfold splitFraction
  split
  next c cs =>
    by_cases hdigit : c.isDigit = true
    · simp [hdigit]
    · simp [hdigit]
  next hnone => exact ⟨fun _ c rest hcs => absurd hcs (hnone c rest), fun _ => rfl⟩

theorem splitFraction_of_isDigit {c : Char} (hdigit : c.isDigit = true) :
    splitFraction ('.' :: c :: cs) =
      ('.' :: (c :: cs).takeWhile Char.isDigit, (c :: cs).dropWhile Char.isDigit) := by
  rw [splitFraction, if_pos hdigit]

theorem splitFraction_stops {fraction : List Char} (hmore : Stops more)
    (h : splitFraction (cs ++ post) = (fraction, rest ++ post)) :
    splitFraction (cs ++ more) = (fraction, rest ++ more) := by
  have hsplit := splitFraction_eq_append (cs ++ post)
  rw [h, ← List.append_assoc] at hsplit
  obtain rfl : fraction ++ rest = cs := List.append_cancel_right hsplit
  cases fraction with
  | nil =>
      have hnone := splitFraction_fst_eq_nil.mp (congrArg Prod.fst h)
      have hnone' : (splitFraction ([] ++ rest ++ more)).1 = [] := by
        refine splitFraction_fst_eq_nil.mpr fun c behind hsame => ?_
        cases rest with
        | nil =>
            have hstop := hmore '.' (by simp [show more = _ from hsame])
            cases hstop
        | cons point rest =>
            obtain ⟨rfl, hbehind⟩ := List.cons.inj hsame
            cases rest with
            | nil => exact isDigit_of_isStop (hmore c (by simp [show more = _ from hbehind]))
            | cons d rest =>
                obtain ⟨rfl, -⟩ := List.cons.inj hbehind
                exact hnone d (rest ++ post) rfl
      have hwhole := splitFraction_eq_append ([] ++ rest ++ more)
      rw [hnone', List.nil_append] at hwhole
      exact Prod.ext hnone' hwhole
  | cons point digits =>
      obtain ⟨c, behind, hsame, hdigit⟩ : ∃ c behind,
          point :: digits ++ rest ++ post = '.' :: c :: behind ∧ c.isDigit = true := by
        by_contra hnot
        have hnone := splitFraction_fst_eq_nil.mpr fun c behind hsame =>
          Bool.eq_false_iff.mpr fun hdigit => hnot ⟨c, behind, hsame, hdigit⟩
        rw [h] at hnone
        cases hnone
      rw [hsame, splitFraction_of_isDigit hdigit] at h
      obtain ⟨hfraction, hdrop⟩ := Prod.mk.inj h
      obtain ⟨rfl, hdigits⟩ := List.cons.inj hfraction
      obtain ⟨-, hsame⟩ := List.cons.inj hsame
      rw [← hsame] at hdrop hdigits
      obtain ⟨htake, hdrop⟩ := takeWhile_stops (fun _ => isDigit_of_isStop) hmore hdrop
      obtain ⟨digits, rfl⟩ : ∃ tail, digits = c :: tail := by
        rw [← hdigits, hsame, List.takeWhile_cons, if_pos hdigit]
        exact ⟨_, rfl⟩
      exact (splitFraction_of_isDigit hdigit).trans
        (Prod.ext (congrArg ('.' :: ·) (htake.trans hdigits)) hdrop)

theorem number_stops (hmore : Stops more) (hvalid : (number (cs ++ post)).kind ≠ .invalid)
    (hrest : (number (cs ++ post)).rest = rest ++ post) :
    number (cs ++ more) = (number (cs ++ post)).upTo (rest ++ more) := by
  cases hfraction : splitFraction ((cs ++ post).dropWhile Char.isDigit) with
  | mk fraction behind =>
      have htail : behind.takeWhile isWordChar = [] := by
        by_contra htail
        simp [number, hfraction, htail, invalid] at hvalid
      simp only [number, hfraction, if_pos htail] at hrest
      subst hrest
      have hdrop : (cs ++ post).dropWhile Char.isDigit = fraction ++ rest ++ post := by
        have hsplit := splitFraction_eq_append ((cs ++ post).dropWhile Char.isDigit)
        rw [hfraction] at hsplit
        rw [← hsplit, List.append_assoc]
      obtain ⟨hwhole, hdrop'⟩ := takeWhile_stops (fun _ => isDigit_of_isStop) hmore hdrop
      have hfraction' := hfraction
      rw [hdrop] at hfraction'
      have hfraction' := splitFraction_stops hmore hfraction'
      have htail' : (rest ++ more).takeWhile isWordChar = [] := by
        have hkept : (rest ++ post).dropWhile isWordChar = rest ++ post := by
          have hsplit := @List.takeWhile_append_dropWhile _ isWordChar (rest ++ post)
          rwa [htail, List.nil_append] at hsplit
        rw [(takeWhile_stops (fun _ => isWordChar_of_isStop) hmore hkept).1, htail]
      simp only [number, hwhole, hdrop', hfraction', hfraction, htail, htail', if_true]
      rfl

theorem string_stops (hvalid : (string (cs ++ post)).kind ≠ .invalid)
    (hrest : (string (cs ++ post)).rest = rest ++ post) :
    string (cs ++ more) = (string (cs ++ post)).upTo (rest ++ more) := by
  cases hpieces : Literal.readPieces '"' (cs ++ post) with
  | mk pieces behind =>
      obtain ⟨after, rfl⟩ : ∃ after, behind = '"' :: after := by
        simp only [string, hpieces] at hvalid
        split at hvalid
        · exact ⟨_, rfl⟩
        · exact absurd rfl hvalid
        · exact absurd rfl hvalid
      simp only [string, hpieces] at hrest
      subst hrest
      have hsplit := Literal.readPieces_eq_append '"' (cs ++ post)
      rw [hpieces, ← List.cons_append, ← List.append_assoc] at hsplit
      obtain rfl := List.append_cancel_right hsplit
      have hpieces' := Literal.readPieces_append hpieces (rest ++ more)
      rw [← List.cons_append, ← List.append_assoc] at hpieces'
      simp only [string, hpieces, hpieces']
      rfl

theorem char_stops (hvalid : (char (cs ++ post)).kind ≠ .invalid)
    (hrest : (char (cs ++ post)).rest = rest ++ post) :
    char (cs ++ more) = (char (cs ++ post)).upTo (rest ++ more) := by
  cases hpiece : Literal.Piece.read? (cs ++ post) with
  | none =>
      simp only [char, hpiece] at hvalid
      split at hvalid
      · exact absurd rfl hvalid
      · exact absurd rfl hvalid
  | some found =>
      obtain ⟨piece, behind⟩ := found
      have hopen : piece ≠ .plain '\'' := by
        rintro rfl
        simp [char, hpiece, invalid] at hvalid
      obtain ⟨after, rfl⟩ : ∃ after, behind = '\'' :: after := by
        have hsplit := @List.takeWhile_append_dropWhile _ staysInChar behind
        simp only [char, hpiece] at hvalid
        split at hvalid
        next hclosed =>
          split at hvalid
          next hsurplus =>
            rw [hsurplus, hclosed] at hsplit
            exact ⟨_, hsplit.symm⟩
          next => exact absurd rfl hvalid
        next => exact absurd rfl hvalid
      have hclosed (after : List Char) : ('\'' :: after).takeWhile staysInChar = [] ∧
          ('\'' :: after).dropWhile staysInChar = '\'' :: after := ⟨rfl, rfl⟩
      simp only [char, hpiece, (hclosed after).1, (hclosed after).2, if_true] at hrest
      subst hrest
      have hsplit := Literal.Piece.read?_eq_append hpiece
      rw [← List.cons_append, ← List.append_assoc] at hsplit
      obtain rfl := List.append_cancel_right hsplit
      have hpiece' := Literal.Piece.read?_append hpiece ('\'' :: (rest ++ more))
      rw [← List.cons_append, ← List.append_assoc] at hpiece'
      simp only [char, hpiece, hpiece']
      rfl

theorem mark_stops {c : Char} (hmore : Stops more)
    (hvalid : (mark c (cs ++ post)).kind ≠ .invalid)
    (hrest : (mark c (cs ++ post)).rest = rest ++ post) :
    mark c (cs ++ more) = (mark c (cs ++ post)).upTo (rest ++ more) := by
  cases hfound : Symbol.longest? (c :: (cs ++ post)) with
  | none => simp [mark_eq, hfound, invalid] at hvalid
  | some s =>
      have hsplit := mark_text_append_rest c (cs ++ post)
      rw [hrest] at hsplit
      simp only [mark_eq, hfound] at hsplit
      rw [← List.cons_append, ← List.append_assoc] at hsplit
      have hsame : s.spelling.toList ++ rest = c :: cs := List.append_cancel_right hsplit
      have hfound' : Symbol.longest? (c :: (cs ++ more)) = some s := by
        obtain ⟨-, longer, shorter, hall, hlonger⟩ := List.find?_eq_some_iff_append.mp hfound
        refine List.find?_eq_some_iff_append.mpr ⟨?_, longer, shorter, hall, fun t ht => ?_⟩
        · rw [← List.cons_append, ← hsame, List.append_assoc]
          exact List.isPrefixOf_iff_prefix.mpr (List.prefix_append _ _)
        -- A longer symbol would have a stop in it.
        have hnot := hlonger t ht
        rw [Bool.not_eq_true', Bool.eq_false_iff] at hnot ⊢
        intro hbegins
        obtain ⟨after, hafter⟩ := List.isPrefixOf_iff_prefix.mp hbegins
        refine hnot (List.isPrefixOf_iff_prefix.mpr ?_)
        rw [← List.cons_append] at hafter ⊢
        rcases List.append_eq_append_iff.mp hafter with ⟨extra, hcs, -⟩ | ⟨extra, ht, hextra⟩
        · rw [hcs, List.append_assoc]
          exact List.prefix_append _ _
        cases extra with
        | nil =>
            rw [ht, List.append_nil]
            exact List.prefix_append _ _
        | cons d extra =>
            have hstop := hmore d (by rw [hextra]; rfl)
            rw [isStop_of_mem_symbol (s := t) (by simp [ht])] at hstop
            cases hstop
      simp only [mark_eq, hfound, hfound']
      rw [← List.cons_append, ← hsame, List.append_assoc, List.drop_left]
      rfl

theorem read_stops {c : Char} (hmore : Stops more)
    (hvalid : (read c (cs ++ post)).kind ≠ .invalid)
    (hrest : (read c (cs ++ post)).rest = rest ++ post) :
    read c (cs ++ more) = (read c (cs ++ post)).upTo (rest ++ more) := by
  unfold read at hvalid hrest ⊢
  split
  next hword =>
    rw [if_pos hword, ← List.cons_append] at hrest
    exact word_stops hmore hrest
  next hword =>
    rw [if_neg hword] at hvalid hrest
    split
    next hdigit =>
      rw [if_pos hdigit, ← List.cons_append] at hvalid hrest
      exact number_stops hmore hvalid hrest
    next hdigit =>
      rw [if_neg hdigit] at hvalid hrest
      split
      next hquote =>
        rw [if_pos hquote] at hvalid hrest
        exact string_stops hvalid hrest
      next hquote =>
        rw [if_neg hquote] at hvalid hrest
        split
        next hquote =>
          rw [if_pos hquote] at hvalid hrest
          exact char_stops hvalid hrest
        next hquote =>
          rw [if_neg hquote] at hvalid hrest
          exact mark_stops hmore hvalid hrest

end Lexeme

namespace Gap

theorem absent_of_read {c : Char} (h : (read cs).rest = c :: rest) : Absent (c :: rest) := by
  fun_induction read cs with
  | case1 cs text behind hpiece gap ih => exact ih h
  | case2 => cases h
  | case3 cs hpiece hopens => exact h ▸ ⟨hpiece, Bool.eq_false_iff.mpr hopens⟩

theorem absent_slash_iff : Absent ('/' :: cs) ↔ cs.head? ≠ some '/' ∧ cs.head? ≠ some '*' := by
  constructor
  · rintro ⟨hpiece, hopens⟩
    constructor
    · intro hhead
      obtain ⟨cs, rfl⟩ := List.head?_eq_some_iff.mp hhead
      cases hpiece
    · intro hhead
      obtain ⟨cs, rfl⟩ := List.head?_eq_some_iff.mp hhead
      cases hopens
  · rintro ⟨hline, hblock⟩
    cases cs with
    | nil => exact ⟨rfl, rfl⟩
    | cons d cs =>
        have hline : d ≠ '/' := by simpa using hline
        have hblock : d ≠ '*' := by simpa using hblock
        constructor
        · simp [piece?, hline, hblock, show isBlank '/' = false from rfl]
        · simp [opensComment, hblock]

theorem absent_stops {c : Char} (hmore : Stops more) (h : Absent (c :: (cs ++ post))) :
    Absent (c :: (cs ++ more)) := by
  by_cases hslash : c = '/'
  · subst hslash
    rw [absent_slash_iff] at h ⊢
    cases cs with
    | nil =>
        have hmark (d : Char) (hd : isStop d = false) : more.head? ≠ some d := fun hhead =>
          Bool.false_ne_true (hd.symm.trans (hmore d hhead))
        exact ⟨hmark '/' rfl, hmark '*' rfl⟩
    | cons d cs => exact h
  · refine absent_cons (Bool.eq_false_iff.mpr fun hblank => ?_) hslash
    have hpiece := h.1
    simp [piece?, hslash, hblank] at hpiece

end Gap

/-- A valid lexeme that ends before `post` is the next one also where a stop comes in the place
of `post`. -/
theorem Lexeme.exists_stops {c : Char} {behind : List Char} (habsent : Gap.Absent (c :: behind))
    (hvalid : (read c behind).kind ≠ .invalid) (hrest : (read c behind).rest = cs ++ post)
    (hmore : Stops more) :
    ∃ front, (read c behind).text ++ (cs ++ more) = c :: front ∧ Gap.Absent (c :: front) ∧
      read c front = (read c behind).upTo (cs ++ more) := by
  have hsplit := read_text_append_rest c behind
  rw [hrest, ← List.append_assoc] at hsplit
  obtain ⟨front, hfront⟩ : ∃ front, (read c behind).text ++ cs = c :: front := by
    cases htext : (read c behind).text with
    | nil => exact absurd htext (read_text_ne_nil c behind)
    | cons d text =>
        rw [htext] at hsplit
        obtain ⟨rfl, -⟩ := List.cons.inj hsplit
        exact ⟨text ++ cs, rfl⟩
  rw [hfront] at hsplit
  obtain ⟨-, rfl⟩ := List.cons.inj hsplit
  refine ⟨front ++ more, ?_, Gap.absent_stops hmore habsent, read_stops hmore hvalid hrest⟩
  rw [← List.append_assoc, hfront, List.cons_append]

end SourceFront
