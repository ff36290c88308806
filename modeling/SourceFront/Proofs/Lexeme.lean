import Mathlib.Data.List.Nodup
import Mathlib.Data.List.TakeWhile
import SourceFront.Text.Blank
import SourceFront.Token.Lexeme

/-!
How tokens are written. A lexeme without faults has the text that its kind asks
for, and such a text is read back as the lexeme wherever a blank or the end
follows it.
-/

namespace SourceFront

open Text

/-- Whether the text is that of a name: a word that is not reserved. -/
def isName (text : List Char) : Bool :=
  text.head?.any Lexeme.isWordStart && text.all Lexeme.isWordChar &&
    (Keyword.ofSpelling? (String.ofList text)).isNone

/-- Whether the text is that of a number: digits, and a point and more digits if it
has a fraction. -/
def isNumeral (text : List Char) : Bool :=
  !(text.takeWhile Char.isDigit).isEmpty &&
    match text.dropWhile Char.isDigit with
    | [] => true
    | '.' :: c :: cs => (c :: cs).all Char.isDigit
    | _ => false

/-- Whether the piece may stand in a literal between `quote`s. -/
def Literal.Piece.isProper (quote : Char) : Piece → Bool
  | plain c => c != quote && c != '\\' && c != '\n'
  | escape c => (unescape? quote c).isSome

/-- How a token of each kind is written. -/
inductive TokenKind.Written : TokenKind → List Char → Prop where
  | keyword (k : Keyword) : Written (.keyword k) k.spelling.toList
  | symbol (s : Symbol) : Written (.symbol s) s.spelling.toList
  | ident {text : List Char} (h : isName text = true) :
      Written (.ident (String.ofList text)) text
  | number {text : List Char} (h : isNumeral text = true) : Written .number text
  | string {pieces : List Literal.Piece} (h : ∀ piece ∈ pieces, piece.isProper '"' = true) :
      Written (.string (String.ofList (pieces.map (·.value '"'))))
        ('"' :: Literal.piecesText pieces ++ ['"'])
  | char {piece : Literal.Piece} (h : piece.isProper '\'' = true) :
      Written (.char (piece.value '\'')) ('\'' :: piece.text ++ ['\''])

/-- Whether a token may end before the text: a blank or nothing comes next. -/
def Text.Ends (cs : List Char) : Prop :=
  ∀ c ∈ cs.head?, isBlank c = true

namespace Lexeme

theorem isAlpha_eq (c : Char) :
    c.isAlpha = (decide (c.val ≥ 'A'.val ∧ c.val ≤ 'Z'.val) ||
      (decide (c.val ≥ 'a'.val) && decide (c.val ≤ 'z'.val))) :=
  rfl

theorem isWordChar_of_isBlank {c : Char} (h : isBlank c = true) : isWordChar c = false := by
  simp only [isBlank, blankRanges, List.any_cons, List.any_nil, Bool.or_false,
    Bool.or_eq_true, Bool.and_eq_true, decide_eq_true_eq] at h
  have hval : c.toNat = c.val.toNat := rfl
  simp only [isWordChar, Char.isAlphanum, isAlpha_eq, Char.isDigit, Bool.or_eq_false_iff,
    Bool.and_eq_false_iff, decide_eq_false_iff_not, beq_eq_false_iff_ne, ge_iff_le,
    UInt32.le_iff_toNat_le, ne_eq, Char.ext_iff, ← UInt32.toNat_inj]
  simp
  omega

theorem isDigit_of_isBlank {c : Char} (h : isBlank c = true) : c.isDigit = false := by
  have hword := isWordChar_of_isBlank h
  simp only [isWordChar, Char.isAlphanum, Bool.or_eq_false_iff] at hword
  exact hword.1.2

theorem isWordChar_of_isWordStart {c : Char} (h : isWordStart c = true) :
    isWordChar c = true := by
  simp only [isWordStart, Bool.or_eq_true] at h
  simp only [isWordChar, Char.isAlphanum, Bool.or_eq_true]
  exact h.imp_left .inl

theorem isWordStart_of_isDigit {c : Char} (h : c.isDigit = true) : isWordStart c = false := by
  simp only [Char.isDigit, Bool.and_eq_true, decide_eq_true_eq, ge_iff_le,
    UInt32.le_iff_toNat_le] at h
  simp only [isWordStart, isAlpha_eq, Bool.or_eq_false_iff, Bool.and_eq_false_iff,
    decide_eq_false_iff_not, beq_eq_false_iff_ne, ge_iff_le, UInt32.le_iff_toNat_le, ne_eq,
    Char.ext_iff, ← UInt32.toNat_inj]
  simp at h ⊢
  omega

section Written

variable {c : Char} {cs : List Char}

theorem word_written (hstart : isWordStart c = true) :
    (word (c :: cs)).kind.Written (word (c :: cs)).text := by
  have htext : (c :: cs).takeWhile isWordChar = c :: cs.takeWhile isWordChar := by
    rw [List.takeWhile_cons, if_pos (isWordChar_of_isWordStart hstart)]
  unfold word
  dsimp only
  cases hreserved : Keyword.ofSpelling? (String.ofList ((c :: cs).takeWhile isWordChar)) with
  | some k =>
      have hspelling := Keyword.ofSpelling?_eq_some_iff.mp hreserved
      have hchars : (c :: cs).takeWhile isWordChar = k.spelling.toList := by
        rw [← hspelling, String.toList_ofList]
      dsimp only
      rw [hchars]
      exact .keyword k
  | none =>
      refine .ident ?_
      simp only [isName, hreserved, Option.isNone_none, Bool.and_true, Bool.and_eq_true,
        List.all_eq_true]
      refine ⟨?_, fun d hd => List.mem_takeWhile_imp hd⟩
      simp [htext, hstart]

theorem isNumeral_append {whole : List Char} (hne : whole ≠ [])
    (hwhole : ∀ d ∈ whole, d.isDigit = true) (rest : List Char) :
    isNumeral (whole ++ (splitFraction rest).1) = true := by
  unfold isNumeral
  rw [List.takeWhile_append_of_pos hwhole, List.dropWhile_append_of_pos hwhole]
  have hnonempty : ∀ more : List Char, (!(whole ++ more).isEmpty) = true := by
    simp [hne]
  unfold splitFraction
  split
  next d cs =>
    split
    next hd =>
      rw [hnonempty, Bool.true_and]
      have hdot : ('.' :: (d :: cs).takeWhile Char.isDigit).dropWhile Char.isDigit =
          '.' :: d :: cs.takeWhile Char.isDigit := by
        rw [List.takeWhile_cons, if_pos hd]
        rfl
      rw [hdot]
      simp only [List.all_cons, hd, Bool.true_and, List.all_takeWhile]
    next =>
      rw [hnonempty]
      rfl
  next =>
    rw [hnonempty]
    rfl

theorem number_written (hdigit : c.isDigit = true) (h : (number (c :: cs)).faults = []) :
    (number (c :: cs)).kind.Written (number (c :: cs)).text := by
  unfold number at h ⊢
  dsimp only at h ⊢
  split at h
  next htail =>
    rw [if_pos htail]
    refine .number (isNumeral_append ?_ (fun d hd => List.mem_takeWhile_imp hd) _)
    rw [List.takeWhile_cons, if_pos hdigit]
    exact List.cons_ne_nil _ _
  next => simp [invalid] at h

theorem piece_proper {quote : Char} {cs rest : List Char} {piece : Literal.Piece}
    (h : Literal.Piece.read? cs = some (piece, rest)) (hquote : cs.head? ≠ some quote)
    (hknown : piece.unknown? quote = none) : piece.isProper quote = true := by
  unfold Literal.Piece.read? at h
  split at h
  iterate 4 cases h
  next =>
    obtain ⟨rfl, rfl⟩ := Prod.mk.inj (Option.some.inj h)
    simp only [Literal.Piece.unknown?, ite_eq_right_iff, reduceCtorEq] at hknown
    simpa [Literal.Piece.isProper, Option.isSome_iff_ne_none] using hknown
  next c cs hfeed hlast _ hescape =>
    obtain ⟨rfl, rfl⟩ := Prod.mk.inj (Option.some.inj h)
    have hbackslash : c ≠ '\\' := by
      intro hc
      cases cs with
      | nil => exact hlast hc rfl
      | cons d ds => exact hescape d ds hc rfl
    have hquote' : c ≠ quote := fun hc => hquote (by rw [List.head?_cons, hc])
    simp [Literal.Piece.isProper, hquote', hbackslash, show c ≠ '\n' from hfeed]

theorem readPieces_proper {quote : Char} {cs : List Char} (offset : Nat)
    (h : Literal.unknownEscapes quote offset (Literal.readPieces quote cs).1 = []) :
    ∀ piece ∈ (Literal.readPieces quote cs).1, piece.isProper quote = true := by
  fun_induction Literal.readPieces quote cs generalizing offset with
  | case1 | case2 => simp
  | case3 cs hquote piece rest hpiece pieces after hafter ih =>
      have hproper : piece.unknown? quote = none ∧
          Literal.unknownEscapes quote (offset + byteLength piece.text) pieces = [] := by
        unfold Literal.unknownEscapes at h
        cases hunknown : piece.unknown? quote with
        | none => exact ⟨rfl, by simpa [hunknown] using h⟩
        | some c => simp [hunknown] at h
      rw [hafter] at ih
      intro other hmem
      rcases List.mem_cons.mp hmem with rfl | hmem
      · exact piece_proper hpiece hquote hproper.1
      · exact ih _ hproper.2 other hmem

theorem string_written {cs : List Char} (h : (string cs).faults = []) :
    (string cs).kind.Written (string cs).text := by
  unfold string at h ⊢
  dsimp only at h ⊢
  split
  next rest hrest =>
    simp only [hrest, escapeFaults, List.map_eq_nil_iff] at h
    exact .string (readPieces_proper 1 h)
  next rest hrest => simp [hrest, invalid] at h
  next hrest _ =>
    split at h <;> simp_all [invalid]

theorem char_written {cs : List Char} (h : (char cs).faults = []) :
    (char cs).kind.Written (char cs).text := by
  unfold char at h ⊢
  split at h
  next => simp [invalid] at h
  next piece rest hquote hpiece =>
    dsimp only at h
    split at h
    next after hafter =>
      split at h
      next hsurplus =>
        simp only [if_pos hsurplus]
        have hknown : piece.unknown? '\'' = none := by
          cases hunknown : piece.unknown? '\'' with
          | none => rfl
          | some c => simp [escapeFaults, Literal.unknownEscapes, hunknown] at h
        have hproper := piece_proper hpiece ?_ hknown
        · exact .char hproper
        · rintro hhead
          obtain ⟨more, rfl⟩ : ∃ more, cs = '\'' :: more := by
            cases cs <;> simp_all
          cases hpiece
          exact hquote rfl
      next => simp [invalid] at h
    next => simp [invalid] at h
  next =>
    split at h <;> simp [invalid] at h

theorem mark_written (h : (mark c cs).faults = []) :
    (mark c cs).kind.Written (mark c cs).text := by
  rw [mark_eq] at h ⊢
  split
  next s hs => exact .symbol s
  next hs => simp [hs, invalid] at h

/-- A lexeme without faults is written as its kind asks for. -/
theorem read_written (h : (read c cs).faults = []) :
    (read c cs).kind.Written (read c cs).text := by
  unfold read at h ⊢
  split
  next hstart => exact word_written hstart
  next hstart =>
    rw [if_neg hstart] at h
    split
    next hdigit =>
      rw [if_pos hdigit] at h
      exact number_written hdigit h
    next hdigit =>
      rw [if_neg hdigit] at h
      split
      next hquote =>
        rw [if_pos hquote] at h
        exact string_written h
      next hquote =>
        rw [if_neg hquote] at h
        split
        next hquote' =>
          rw [if_pos hquote'] at h
          exact char_written h
        next hquote' =>
          rw [if_neg hquote'] at h
          exact mark_written h

end Written

section Alone

variable {text rest : List Char}

theorem takeWhile_ends {p : Char → Bool} (hp : ∀ c, isBlank c = true → p c = false)
    (htext : ∀ c ∈ text, p c = true) (hrest : Ends rest) :
    (text ++ rest).takeWhile p = text ∧ (text ++ rest).dropWhile p = rest := by
  have hempty : rest.takeWhile p = [] ∧ rest.dropWhile p = rest := by
    cases rest with
    | nil => exact ⟨rfl, rfl⟩
    | cons c cs => simp [hp c (hrest c rfl)]
  rw [List.takeWhile_append_of_pos htext, List.dropWhile_append_of_pos htext, hempty.1,
    hempty.2, List.append_nil]
  exact ⟨rfl, rfl⟩

theorem word_ends (htext : ∀ c ∈ text, isWordChar c = true) (hrest : Ends rest) :
    word (text ++ rest) =
      ⟨match Keyword.ofSpelling? (String.ofList text) with
        | some k => .keyword k
        | none => .ident (String.ofList text), text, rest, []⟩ := by
  obtain ⟨htake, hdrop⟩ := takeWhile_ends (fun _ => isWordChar_of_isBlank) htext hrest
  have hread (cs : List Char) : word cs =
      ⟨match Keyword.ofSpelling? (String.ofList (cs.takeWhile isWordChar)) with
        | some k => .keyword k
        | none => .ident (String.ofList (cs.takeWhile isWordChar)),
        cs.takeWhile isWordChar, cs.dropWhile isWordChar, []⟩ := rfl
  rw [hread, htake, hdrop]

theorem keyword_chars (k : Keyword) :
    k.spelling.toList.head?.any isWordStart = true ∧
      ∀ c ∈ k.spelling.toList, isWordChar c = true := by
  rw [← List.all_eq_true]
  cases k <;> decide

theorem splitFraction_ends (hrest : Ends rest) : splitFraction rest = ([], rest) := by
  unfold splitFraction
  split
  next c cs => exact absurd (hrest '.' rfl) (by decide)
  next => rfl

theorem takeWhile_isWordChar_ends (hrest : Ends rest) : rest.takeWhile isWordChar = [] := by
  have hnil : ∀ c ∈ ([] : List Char), isWordChar c = true := by simp
  exact (takeWhile_ends (fun _ => isWordChar_of_isBlank) hnil hrest).1

theorem number_ends (h : isNumeral text = true) (hrest : Ends rest) :
    number (text ++ rest) = ⟨.number, text, rest, []⟩ := by
  have hwhole : ∀ d ∈ text.takeWhile Char.isDigit, d.isDigit = true :=
    fun d hd => List.mem_takeWhile_imp hd
  have hsplit := @List.takeWhile_append_dropWhile _ Char.isDigit text
  simp only [isNumeral, Bool.and_eq_true] at h
  generalize text.takeWhile Char.isDigit = whole at *
  generalize text.dropWhile Char.isDigit = fraction at *
  subst hsplit
  obtain ⟨-, hfraction⟩ := h
  split at hfraction
  next =>
    obtain ⟨htake, hdrop⟩ := takeWhile_ends (fun _ => isDigit_of_isBlank) hwhole hrest
    simp only [number, List.append_nil, htake, hdrop, splitFraction_ends hrest,
      takeWhile_isWordChar_ends hrest, if_true]
  next c cs =>
    obtain ⟨htake, hdrop⟩ := takeWhile_ends (fun _ => isDigit_of_isBlank)
      (List.all_eq_true.mp hfraction) hrest
    have hsplit : splitFraction ('.' :: c :: cs ++ rest) = ('.' :: c :: cs, rest) := by
      have hc : c.isDigit = true := List.all_eq_true.mp hfraction c (by simp)
      rw [List.cons_append] at htake hdrop
      simp only [List.cons_append, splitFraction, hc, if_true, htake, hdrop]
    have htake' : ('.' :: c :: cs ++ rest).takeWhile Char.isDigit = [] := rfl
    have hdrop' : ('.' :: c :: cs ++ rest).dropWhile Char.isDigit = '.' :: c :: cs ++ rest :=
      rfl
    simp only [number, List.append_assoc, List.takeWhile_append_of_pos hwhole,
      List.dropWhile_append_of_pos hwhole, htake', hdrop', hsplit,
      takeWhile_isWordChar_ends hrest, if_true, List.append_nil]
  next => cases hfraction

theorem read?_text {quote : Char} {piece : Literal.Piece} (hquote : quote ≠ '\n')
    (h : piece.isProper quote = true) (rest : List Char) :
    Literal.Piece.read? (piece.text ++ rest) = some (piece, rest) := by
  cases piece with
  | plain c =>
      simp only [Literal.Piece.isProper, Bool.and_eq_true, bne_iff_ne, ne_eq] at h
      obtain ⟨⟨-, hbackslash⟩, hfeed⟩ := h
      simp only [Literal.Piece.text, List.cons_append, List.nil_append]
      unfold Literal.Piece.read?
      split <;> simp_all
  | escape c =>
      have hfeed : c ≠ '\n' := by
        rintro rfl
        simp [Literal.Piece.isProper, Literal.unescape?, hquote.symm] at h
      simp [Literal.Piece.text, Literal.Piece.read?]

theorem text_head?_ne_quote {quote : Char} {piece : Literal.Piece} (hquote : quote ≠ '\\')
    (h : piece.isProper quote = true) (rest : List Char) :
    (piece.text ++ rest).head? ≠ some quote := by
  cases piece with
  | plain c =>
      simp only [Literal.Piece.isProper, Bool.and_eq_true, bne_iff_ne, ne_eq] at h
      simpa [Literal.Piece.text] using h.1.1
  | escape c => simpa [Literal.Piece.text] using hquote.symm

theorem readPieces_piecesText {quote : Char} {pieces : List Literal.Piece}
    (hbackslash : quote ≠ '\\') (hfeed : quote ≠ '\n')
    (h : ∀ piece ∈ pieces, piece.isProper quote = true) (rest : List Char) :
    Literal.readPieces quote (Literal.piecesText pieces ++ quote :: rest) =
      (pieces, quote :: rest) := by
  induction pieces with
  | nil => simp [Literal.piecesText, Literal.readPieces]
  | cons piece pieces ih =>
      have hpiece := h piece (by simp)
      have htext : Literal.piecesText (piece :: pieces) ++ quote :: rest =
          piece.text ++ (Literal.piecesText pieces ++ quote :: rest) := by
        simp [Literal.piecesText]
      rw [htext, Literal.readPieces, if_neg (text_head?_ne_quote hbackslash hpiece _)]
      split
      next hread =>
        rw [read?_text hfeed hpiece] at hread
        cases hread
      next piece' rest' hread =>
        rw [read?_text hfeed hpiece] at hread
        cases hread
        rw [ih fun other hmem => h other (by simp [hmem])]

theorem unknown?_of_isProper {quote : Char} {piece : Literal.Piece}
    (h : piece.isProper quote = true) : piece.unknown? quote = none := by
  cases piece with
  | plain c => rfl
  | escape c =>
      rw [Literal.Piece.isProper, Option.isSome_iff_ne_none] at h
      simpa [Literal.Piece.unknown?] using h

theorem escapeFaults_of_isProper {quote : Char} {pieces : List Literal.Piece}
    (h : ∀ piece ∈ pieces, piece.isProper quote = true) : escapeFaults quote pieces = [] := by
  have hunknown (offset : Nat) : Literal.unknownEscapes quote offset pieces = [] := by
    induction pieces generalizing offset with
    | nil => rfl
    | cons piece pieces ih =>
        rw [Literal.unknownEscapes, unknown?_of_isProper (h piece (by simp))]
        exact ih (fun other hmem => h other (by simp [hmem])) _
  rw [escapeFaults, hunknown, List.map_nil]

theorem symbol_chars (s : Symbol) : ∀ c ∈ s.spelling.toList, isBlank c = false := by
  have hall : s.spelling.toList.all (fun c => !isBlank c) = true := by cases s <;> decide
  simpa using hall

theorem symbol_spelling_nodup : (Symbol.all.map Symbol.spelling).Nodup := by
  decide +kernel

theorem longest?_ends (s : Symbol) (hrest : Ends rest) :
    Symbol.longest? (s.spelling.toList ++ rest) = some s := by
  have hbegins : (s.spelling.toList.isPrefixOf (s.spelling.toList ++ rest)) = true :=
    List.isPrefixOf_iff_prefix.mpr (List.prefix_append _ _)
  obtain ⟨longer, shorter, hall⟩ := List.append_of_mem s.mem_all
  rw [Symbol.longest?, List.find?_eq_some_iff_append]
  refine ⟨hbegins, longer, shorter, hall, fun t ht => ?_⟩
  rw [Bool.not_eq_true', Bool.eq_false_iff]
  intro htprefix
  obtain ⟨more, hmore⟩ := List.isPrefixOf_iff_prefix.mp htprefix
  -- a longer symbol would take the blank that follows
  have hlength : s.spelling.length ≤ t.spelling.length := by
    have hsorted := hall ▸ Symbol.all_longest_first
    exact (List.pairwise_append.mp hsorted).2.2 t ht s (by simp)
  obtain ⟨extra, hextra, hrest'⟩ : ∃ extra, t.spelling.toList = s.spelling.toList ++ extra ∧
      rest = extra ++ more := by
    rcases List.append_eq_append_iff.mp hmore with ⟨extra, hs, rfl⟩ | ⟨extra, ht, hrest⟩
    · have hnil : extra = [] := by
        have hcount := congrArg List.length hs
        simp only [List.length_append, String.length_toList] at hcount
        exact List.eq_nil_of_length_eq_zero (by omega)
      subst hnil
      exact ⟨[], by simpa using hs.symm, rfl⟩
    · exact ⟨extra, ht, hrest⟩
  cases extra with
  | nil =>
      have hsame : t = s := by
        refine List.inj_on_of_nodup_map symbol_spelling_nodup t.mem_all s.mem_all ?_
        exact String.toList_inj.mp (by simpa using hextra)
      subst hsame
      have hnodup := List.Nodup.of_map _ symbol_spelling_nodup
      rw [hall] at hnodup
      exact (List.nodup_append.mp hnodup).2.2 t ht t (by simp) rfl
  | cons c cs =>
      have hblank : isBlank c = true := hrest c (by simp [hrest'])
      have hchar : isBlank c = false := symbol_chars t c (by simp [hextra])
      rw [hchar] at hblank
      cases hblank

theorem string_ends {pieces : List Literal.Piece}
    (h : ∀ piece ∈ pieces, piece.isProper '"' = true) (rest : List Char) :
    string (Literal.piecesText pieces ++ '"' :: rest) =
      ⟨.string (String.ofList (pieces.map (·.value '"'))),
        '"' :: Literal.piecesText pieces ++ ['"'], rest, []⟩ := by
  simp only [string, readPieces_piecesText (by decide) (by decide) h,
    escapeFaults_of_isProper h]

theorem char_ends {piece : Literal.Piece} (h : piece.isProper '\'' = true)
    (rest : List Char) :
    char (piece.text ++ '\'' :: rest) =
      ⟨.char (piece.value '\''), '\'' :: piece.text ++ ['\''], rest, []⟩ := by
  have hfaults : escapeFaults '\'' [piece] = [] := escapeFaults_of_isProper (by simpa using h)
  have htake : ('\'' :: rest).takeWhile staysInChar = [] := rfl
  have hdrop : ('\'' :: rest).dropWhile staysInChar = '\'' :: rest := rfl
  unfold char
  rw [read?_text (by decide) h]
  split
  next hplain =>
    cases hplain
    simp [Literal.Piece.isProper] at h
  next hsame =>
    cases hsame
    simp only [htake, hdrop, hfaults, if_true]
  next hsame => cases hsame

theorem symbol_head (s : Symbol) : ∀ c ∈ s.spelling.toList.head?,
    isWordStart c = false ∧ c.isDigit = false ∧ c ≠ '"' ∧ c ≠ '\'' := by
  have hall : s.spelling.toList.head?.all (fun c =>
      !isWordStart c && !c.isDigit && c != '"' && c != '\'') = true := by
    cases s <;> decide
  intro c hhead
  rw [Option.mem_def.mp hhead] at hall
  simpa [and_assoc] using hall

theorem mark_ends (s : Symbol) (hrest : Ends rest) {c : Char} {cs : List Char}
    (h : s.spelling.toList = c :: cs) :
    mark c (cs ++ rest) = ⟨.symbol s, s.spelling.toList, rest, []⟩ := by
  have hlongest := longest?_ends s hrest
  rw [h, List.cons_append] at hlongest
  simp only [mark_eq, hlongest, h, List.length_cons, Lexeme.mk.injEq, true_and, and_true]
  simp

/-- A text that is written as its kind asks for is read as that kind where it ends. -/
theorem read_of_written {kind : TokenKind} (h : kind.Written text) (hrest : Ends rest) :
    ∃ c cs, text = c :: cs ∧ read c (cs ++ rest) = ⟨kind, text, rest, []⟩ := by
  have hword {text : List Char} (hstart : text.head?.any isWordStart = true)
      (htext : ∀ c ∈ text, isWordChar c = true) :
      ∃ c cs, text = c :: cs ∧ read c (cs ++ rest) = word (text ++ rest) := by
    cases text with
    | nil => cases hstart
    | cons c cs => exact ⟨c, cs, rfl, if_pos (by simpa using hstart)⟩
  cases h with
  | keyword k =>
      obtain ⟨hstart, htext⟩ := keyword_chars k
      obtain ⟨c, cs, hsame, hread⟩ := hword hstart htext
      refine ⟨c, cs, hsame, ?_⟩
      rw [hread, word_ends htext hrest]
      simp only [String.ofList_toList, Keyword.ofSpelling?_spelling]
  | ident hname =>
      simp only [isName, Bool.and_eq_true, List.all_eq_true] at hname
      obtain ⟨⟨hstart, htext⟩, hfree⟩ := hname
      obtain ⟨c, cs, hsame, hread⟩ := hword hstart htext
      refine ⟨c, cs, hsame, ?_⟩
      rw [hread, word_ends htext hrest, Option.isNone_iff_eq_none.mp hfree]
  | number hnumeral =>
      have hnumber := number_ends hnumeral hrest
      simp only [isNumeral, Bool.and_eq_true] at hnumeral
      obtain ⟨c, cs, rfl⟩ : ∃ c cs, text = c :: cs := by
        cases text with
        | nil => simp at hnumeral
        | cons c cs => exact ⟨c, cs, rfl⟩
      have hdigit : c.isDigit = true := by
        cases hc : c.isDigit with
        | true => rfl
        | false => simp [hc] at hnumeral
      have hstart : isWordStart c = false := isWordStart_of_isDigit hdigit
      refine ⟨c, cs, rfl, ?_⟩
      rw [read, if_neg (by simp [hstart]), if_pos hdigit]
      exact hnumber
  | @string pieces hpieces =>
      refine ⟨'"', Literal.piecesText pieces ++ ['"'], rfl, ?_⟩
      have hread : read '"' (Literal.piecesText pieces ++ ['"'] ++ rest) =
          string (Literal.piecesText pieces ++ ['"'] ++ rest) := rfl
      rw [hread, List.append_assoc]
      exact string_ends hpieces rest
  | @char piece hpiece =>
      refine ⟨'\'', piece.text ++ ['\''], rfl, ?_⟩
      have hread : read '\'' (piece.text ++ ['\''] ++ rest) =
          char (piece.text ++ ['\''] ++ rest) := rfl
      rw [hread, List.append_assoc]
      exact char_ends hpiece rest
  | symbol s =>
      obtain ⟨c, cs, hspelling⟩ := List.exists_cons_of_ne_nil s.spelling_ne_nil
      obtain ⟨hstart, hdigit, hquote, hquote'⟩ := symbol_head s c (by simp [hspelling])
      refine ⟨c, cs, hspelling, ?_⟩
      rw [read, if_neg (by simp [hstart]), if_neg (by simp [hdigit]), if_neg hquote,
        if_neg hquote']
      exact mark_ends s hrest hspelling

end Alone

end Lexeme

end SourceFront
