import SourceFront.Proofs.Lexing

/-!
Tokens take as much as they can. An operator is the longest one that stands there, a word is
all of its run of characters, and a number is the longest numeral, which no name may follow.
So the kind of a token and its text agree.
-/

namespace SourceFront

open Text

/-- The operators and punctuation marks of the reference. -/
def operatorTable : List String :=
  ["=", "+=", "-=", "*=", "/=", "%=", "==", "!=", "&&", "||", "!", "&", "*", "+", "-", "/", "%",
    "<", "<=", ">", ">=", ".", ",", ";", ":", "::", "(", ")", "\x7b", "\x7d", "[", "]", "...",
    "|", "=>"]

/-- The reserved words of the reference. -/
def keywordTable : List String :=
  ["fn", "struct", "union", "enum", "extern", "const", "let", "import", "pub", "if", "else",
    "loop", "while", "for", "match", "break", "continue", "return", "true", "false", "null", "as",
    "sizeof", "void", "int", "str", "char", "bool", "float"]

/-- Whether the operator begins the text, and no longer one does. -/
def LongestOperator (operator : String) (text : List Char) : Prop :=
  operator ∈ operatorTable ∧ operator.toList <+: text ∧
    ∀ other ∈ operatorTable, other.toList <+: text → other.length ≤ operator.length

/-- Whether the text splits behind the longest numeral that begins it. -/
def Text.SplitsNumeral (text numeral behind : List Char) : Prop :=
  text = numeral ++ behind ∧ isNumeral numeral = true ∧
    ∀ other, isNumeral other = true → other <+: text → other.length ≤ numeral.length

/-- Whether tokens of the kind are words, reserved or not. -/
def TokenKind.isWord : TokenKind → Bool
  | .keyword _ | .ident _ => true
  | _ => false

/-- How a token of this kind and with this text takes all that it can of `rest`, which begins
with it. It is `noted` if it is a number that runs into a name. -/
structure Munched (kind : TokenKind) (text rest : List Char) (noted : Prop) : Prop where
  operator : ∀ operator : String,
    (∃ s : Symbol, kind = .symbol s ∧ s.spelling = operator ∧ text = operator.toList) ↔
      LongestOperator operator rest
  wordStart : kind.isWord = true → rest.head?.any Lexeme.isWordStart = true
  word : rest.head?.any Lexeme.isWordStart = true →
    text = rest.takeWhile Lexeme.isWordChar ∧
      if String.ofList text ∈ keywordTable then
        ∃ k : Keyword, kind = .keyword k ∧ k.spelling = String.ofList text
      else kind = .ident (String.ofList text)
  digit : kind = .number → rest.head?.any Char.isDigit = true
  number : rest.head?.any Char.isDigit = true →
    ∃ numeral behind, SplitsNumeral rest numeral behind ∧
      if behind.head?.any Lexeme.isWordChar = true then
        kind = .invalid ∧ text = numeral ++ behind.takeWhile Lexeme.isWordChar ∧ noted
      else kind = .number ∧ text = numeral
  label : (kind.isKeyword = true ∨ ∃ s, kind = .symbol s) → text = kind.label.toList

theorem mem_keywordTable_iff {word : String} :
    word ∈ keywordTable ↔ ∃ k : Keyword, k.spelling = word := by
  have htable : keywordTable = Keyword.all.map Keyword.spelling := rfl
  rw [htable, List.mem_map]
  exact exists_congr fun k => and_iff_right k.mem_all

theorem mem_operatorTable_iff {operator : String} :
    operator ∈ operatorTable ↔ ∃ s : Symbol, s.spelling = operator := by
  have htable : operatorTable.Perm (Symbol.all.map Symbol.spelling) := by decide +kernel
  rw [htable.mem_iff, List.mem_map]
  exact exists_congr fun s => and_iff_right s.mem_all

namespace Symbol

variable {s : Symbol} {text : List Char}

theorem spelling_injective : Function.Injective spelling := fun s t h =>
  List.inj_on_of_nodup_map Lexeme.symbol_spelling_nodup s.mem_all t.mem_all h

theorem eq_of_begins {t : Symbol} (hs : s.spelling.toList <+: text)
    (ht : t.spelling.toList <+: text) (hlength : t.spelling.length = s.spelling.length) :
    t = s := by
  rw [← String.length_toList, ← String.length_toList] at hlength
  have hspelled : t.spelling.toList <+: s.spelling.toList :=
    List.prefix_of_prefix_length_le ht hs hlength.le
  exact spelling_injective (String.toList_inj.mp (hspelled.eq_of_length hlength))

/-- The table is searched from its longest symbols on. -/
theorem longestOperator_of_longest? (h : longest? text = some s) :
    LongestOperator s.spelling text := by
  obtain ⟨-, longer, shorter, hall, hlonger⟩ := List.find?_eq_some_iff_append.mp h
  refine ⟨mem_operatorTable_iff.mpr ⟨s, rfl⟩, spelling_prefix_of_longest? h, ?_⟩
  intro other hother hbegins
  obtain ⟨t, rfl⟩ := mem_operatorTable_iff.mp hother
  have hmem : t ∈ longer ++ s :: shorter := hall ▸ t.mem_all
  rcases List.mem_append.mp hmem with hmem | hmem
  · have hnot := hlonger t hmem
    rw [List.isPrefixOf_iff_prefix.mpr hbegins] at hnot
    cases hnot
  · have hsorted := hall ▸ all_longest_first
    rcases List.mem_cons.mp hmem with rfl | hmem
    · exact le_rfl
    · exact (List.pairwise_cons.mp (List.pairwise_append.mp hsorted).2.1).1 t hmem

theorem longest?_eq_some_iff : longest? text = some s ↔ LongestOperator s.spelling text := by
  refine ⟨longestOperator_of_longest?, fun ⟨hmem, hbegins, hlongest⟩ => ?_⟩
  cases hfound : longest? text with
  | none =>
      have hnone := List.find?_eq_none.mp hfound s s.mem_all
      exact absurd (List.isPrefixOf_iff_prefix.mpr hbegins) hnone
  | some t =>
      obtain ⟨htable, ht, hlonger⟩ := longestOperator_of_longest? hfound
      have hlength := le_antisymm (hlongest t.spelling htable ht) (hlonger s.spelling hmem hbegins)
      rw [eq_of_begins hbegins ht hlength]

end Symbol

theorem not_longestOperator {c : Char} {cs : List Char}
    (h : Lexeme.isWordStart c = true ∨ c.isDigit = true ∨ c = '"' ∨ c = '\'')
    (operator : String) : ¬ LongestOperator operator (c :: cs) := by
  rintro ⟨hmem, hbegins, -⟩
  obtain ⟨s, rfl⟩ := mem_operatorTable_iff.mp hmem
  obtain ⟨d, spelling, hspelling⟩ := List.exists_cons_of_ne_nil s.spelling_ne_nil
  obtain ⟨hstart, hdigit, hquote, hquote'⟩ := Lexeme.symbol_head s d (by simp [hspelling])
  rw [hspelling] at hbegins
  obtain ⟨rfl, -⟩ := List.cons_prefix_cons.mp hbegins
  rcases h with h | h | h | h
  · rw [hstart] at h
    cases h
  · rw [hdigit] at h
    cases h
  · exact hquote h
  · exact hquote' h

theorem Text.splitsNumeral_of_digit {c : Char} {cs : List Char} (hdigit : c.isDigit = true) :
    SplitsNumeral (c :: cs)
      ((c :: cs).takeWhile Char.isDigit ++
        (Lexeme.splitFraction ((c :: cs).dropWhile Char.isDigit)).1)
      (Lexeme.splitFraction ((c :: cs).dropWhile Char.isDigit)).2 := by
  have hwhole : (c :: cs).takeWhile Char.isDigit ≠ [] := by simp [hdigit]
  refine ⟨?_, Lexeme.isNumeral_append hwhole (fun d hd => List.mem_takeWhile_imp hd) _, ?_⟩
  · rw [List.append_assoc, Lexeme.splitFraction_eq_append, List.takeWhile_append_dropWhile]
  rintro other hnumeral ⟨more, hmore⟩
  rw [← hmore]
  have hdigits : ∀ d ∈ other.takeWhile Char.isDigit, d.isDigit = true :=
    fun d hd => List.mem_takeWhile_imp hd
  have hsplit := @List.takeWhile_append_dropWhile _ Char.isDigit other
  simp only [isNumeral, Bool.and_eq_true] at hnumeral
  generalize other.takeWhile Char.isDigit = whole at *
  generalize other.dropWhile Char.isDigit = fraction at *
  subst hsplit
  obtain ⟨-, hfraction⟩ := hnumeral
  -- Another numeral ends within the first run of digits, or goes on over the same point.
  split at hfraction
  next =>
    rw [List.append_nil, List.takeWhile_append_of_pos hdigits]
    simp only [List.length_append]
    omega
  next d ds =>
    have hds : ∀ e ∈ d :: ds, e.isDigit = true := List.all_eq_true.mp hfraction
    have hpoint : ('.' :: d :: ds ++ more).takeWhile Char.isDigit = [] ∧
        ('.' :: d :: ds ++ more).dropWhile Char.isDigit = '.' :: d :: (ds ++ more) :=
      ⟨rfl, rfl⟩
    rw [List.append_assoc, List.takeWhile_append_of_pos hdigits,
      List.dropWhile_append_of_pos hdigits, hpoint.1, hpoint.2]
    have hsplit : (Lexeme.splitFraction ('.' :: d :: (ds ++ more))).1 =
        '.' :: (d :: ds ++ more.takeWhile Char.isDigit) := by
      rw [Lexeme.splitFraction, if_pos (hds d List.mem_cons_self), ← List.cons_append,
        List.takeWhile_append_of_pos hds]
    rw [hsplit]
    simp only [List.length_append, List.length_cons]
    omega
  next => cases hfraction

/-- Whether tokens of the kind are neither words nor numbers nor symbols. -/
def TokenKind.isOther : TokenKind → Bool
  | .string _ | .char _ | .invalid | .eof => true
  | _ => false

theorem Munched.of_isOther {kind : TokenKind} {text rest : List Char} {noted : Prop}
    (hkind : kind.isOther = true)
    (hoperator : ∀ operator : String, ¬ LongestOperator operator rest)
    (hstart : rest.head?.any Lexeme.isWordStart = false)
    (hdigit : rest.head?.any Char.isDigit = false) : Munched kind text rest noted where
  operator operator := by
    refine iff_of_false ?_ (hoperator operator)
    rintro ⟨s, rfl, -⟩
    cases hkind
  wordStart h := by cases kind <;> cases hkind <;> cases h
  word h := absurd h (Bool.eq_false_iff.mp hstart)
  digit h := by
    rw [h] at hkind
    cases hkind
  number h := absurd h (Bool.eq_false_iff.mp hdigit)
  label h := by
    rcases h with h | ⟨s, rfl⟩
    · cases kind <;> cases hkind <;> cases h
    · cases hkind

namespace Lexeme

variable {c : Char} {cs : List Char}

/-- Whether the lexeme is noted as a number that runs into a name. -/
def isMalformedNumber (lexeme : Lexeme) : Prop :=
  ⟨.malformedNumber (String.ofList lexeme.text), 0, byteLength lexeme.text⟩ ∈ lexeme.faults

/-- The lexeme takes what it can of the text. -/
def Munches (lexeme : Lexeme) (rest : List Char) : Prop :=
  Munched lexeme.kind lexeme.text rest lexeme.isMalformedNumber

theorem word_kind (cs : List Char) :
    if String.ofList (word cs).text ∈ keywordTable then
      ∃ k : Keyword, (word cs).kind = .keyword k ∧ k.spelling = String.ofList (word cs).text
    else (word cs).kind = .ident (String.ofList (word cs).text) := by
  unfold word
  dsimp only
  cases hreserved : Keyword.ofSpelling? (String.ofList (cs.takeWhile isWordChar)) with
  | some k =>
      have hspelling := Keyword.spelling_of_ofSpelling? hreserved
      rw [if_pos (mem_keywordTable_iff.mpr ⟨k, hspelling⟩)]
      exact ⟨k, rfl, hspelling⟩
  | none =>
      rw [if_neg]
      intro hmem
      obtain ⟨k, hspelling⟩ := mem_keywordTable_iff.mp hmem
      rw [← hspelling, Keyword.ofSpelling?_spelling] at hreserved
      cases hreserved

theorem word_munches (hstart : isWordStart c = true) : (word (c :: cs)).Munches (c :: cs) := by
  have hdigit : c.isDigit = false := by
    cases hdigit : c.isDigit with
    | false => rfl
    | true => rw [← isWordStart_of_isDigit hdigit, hstart]
  have hkind := word_kind (c :: cs)
  have hword : (word (c :: cs)).kind.isWord = true ∧
      ((word (c :: cs)).kind.isKeyword = true →
        (word (c :: cs)).text = (word (c :: cs)).kind.label.toList) := by
    split at hkind
    · obtain ⟨k, hkind, hspelling⟩ := hkind
      rw [hkind]
      refine ⟨rfl, fun _ => ?_⟩
      rw [TokenKind.label, hspelling, String.toList_ofList]
    · rw [hkind]
      exact ⟨rfl, (nomatch ·)⟩
  have hsymbol (s : Symbol) : (word (c :: cs)).kind ≠ .symbol s := fun h => by
    rw [h] at hword
    cases hword.1
  refine ⟨fun operator => iff_of_false ?_ (not_longestOperator (.inl hstart) operator),
    fun _ => by simpa using hstart, fun _ => ⟨rfl, hkind⟩, fun h => ?_, fun h => ?_, fun h => ?_⟩
  · rintro ⟨s, hs, -⟩
    exact hsymbol s hs
  · rw [h] at hword
    cases hword.1
  · rw [List.head?_cons, Option.any_some, hdigit] at h
    cases h
  · exact h.elim hword.2 fun ⟨s, hs⟩ => absurd hs (hsymbol s)

/-- What is read of a number, behind the longest numeral. -/
theorem number_eq (cs : List Char) :
    let numeral := cs.takeWhile Char.isDigit ++ (splitFraction (cs.dropWhile Char.isDigit)).1
    let behind := (splitFraction (cs.dropWhile Char.isDigit)).2
    if behind.head?.any isWordChar = true then
      (number cs).kind = .invalid ∧ (number cs).text = numeral ++ behind.takeWhile isWordChar ∧
        (number cs).isMalformedNumber
    else (number cs).kind = .number ∧ (number cs).text = numeral := by
  have htail (behind : List Char) :
      behind.takeWhile isWordChar = [] ↔ ¬ behind.head?.any isWordChar = true := by
    cases behind with
    | nil => simp
    | cons d behind => simp
  dsimp only
  unfold number isMalformedNumber
  dsimp only
  split
  next hword => simp [(htail _).not_left.mpr hword, invalid]
  next hend => simp [(htail _).mpr hend]

theorem number_munches (hdigit : c.isDigit = true) : (number (c :: cs)).Munches (c :: cs) := by
  have hstart := isWordStart_of_isDigit hdigit
  have hnumber := number_eq (c :: cs)
  have hkind : (number (c :: cs)).kind = .invalid ∨ (number (c :: cs)).kind = .number := by
    dsimp only at hnumber
    split at hnumber
    · exact .inl hnumber.1
    · exact .inr hnumber.1
  refine ⟨fun operator => iff_of_false ?_ (not_longestOperator (.inr (.inl hdigit)) operator),
    fun h => ?_, fun h => ?_, fun _ => by simpa using hdigit,
    fun _ => ⟨_, _, splitsNumeral_of_digit hdigit, hnumber⟩, fun h => ?_⟩
  · rintro ⟨s, hs, -⟩
    rcases hkind with hkind | hkind <;> rw [hs] at hkind <;> cases hkind
  · rcases hkind with hkind | hkind <;> rw [hkind] at h <;> cases h
  · rw [List.head?_cons, Option.any_some, hstart] at h
    cases h
  · rcases hkind with hkind | hkind <;> rw [hkind] at h <;> simp [TokenKind.isKeyword] at h

theorem string_isOther : (string cs).kind.isOther = true := by
  unfold string
  dsimp only
  split <;> rfl

theorem char_isOther : (char cs).kind.isOther = true := by
  unfold char
  split
  · rfl
  · dsimp only
    split
    · split <;> rfl
    · rfl
  · split <;> rfl

theorem mark_munches (hstart : isWordStart c = false) (hdigit : c.isDigit = false) :
    (mark c cs).Munches (c :: cs) := by
  rw [mark_eq]
  cases hlongest : Symbol.longest? (c :: cs) with
  | some s =>
      refine ⟨fun operator => ⟨?_, fun h => ?_⟩, (nomatch ·), fun h => ?_, (nomatch ·),
        fun h => ?_, fun _ => rfl⟩
      · rintro ⟨t, ht, rfl, -⟩
        obtain rfl := TokenKind.symbol.inj ht
        exact Symbol.longest?_eq_some_iff.mp hlongest
      · obtain ⟨t, rfl⟩ := mem_operatorTable_iff.mp h.1
        have ht := Symbol.longest?_eq_some_iff.mpr h
        obtain rfl := Option.some.inj (hlongest.symm.trans ht)
        exact ⟨s, rfl, rfl, rfl⟩
      · rw [List.head?_cons, Option.any_some, hstart] at h
        cases h
      · rw [List.head?_cons, Option.any_some, hdigit] at h
        cases h
  | none =>
      refine .of_isOther rfl (fun operator h => ?_) (by simpa using hstart) (by simpa using hdigit)
      obtain ⟨s, rfl⟩ := mem_operatorTable_iff.mp h.1
      rw [Symbol.longest?_eq_some_iff.mpr h] at hlongest
      cases hlongest

theorem read_munches : (read c cs).Munches (c :: cs) := by
  unfold read
  split
  next hstart => exact word_munches hstart
  next hstart =>
    rw [Bool.not_eq_true] at hstart
    split
    next hdigit => exact number_munches hdigit
    next hdigit =>
      rw [Bool.not_eq_true] at hdigit
      split
      next hquote =>
        exact .of_isOther string_isOther (not_longestOperator (.inr (.inr (.inl hquote))))
          (by simpa using hstart) (by simpa using hdigit)
      next =>
        split
        next hquote =>
          exact .of_isOther char_isOther (not_longestOperator (.inr (.inr (.inr hquote))))
            (by simpa using hstart) (by simpa using hdigit)
        next => exact mark_munches hstart hdigit

end Lexeme

theorem Munched.imp {kind : TokenKind} {text rest : List Char} {noted noted' : Prop}
    (h : Munched kind text rest noted) (hnoted : noted → noted') :
    Munched kind text rest noted' where
  operator := h.operator
  wordStart := h.wordStart
  word := h.word
  digit := h.digit
  number hdigit := by
    obtain ⟨numeral, behind, hsplits, hread⟩ := h.number hdigit
    refine ⟨numeral, behind, hsplits, ?_⟩
    split
    next hword =>
      rw [if_pos hword] at hread
      exact hread.imp_right (And.imp_right hnoted)
    next hword => rwa [if_neg hword] at hread
  label := h.label

theorem Munched.eof (text : List Char) (noted : Prop) : Munched .eof text [] noted := by
  refine .of_isOther rfl (fun operator h => ?_) rfl rfl
  obtain ⟨s, rfl⟩ := mem_operatorTable_iff.mp h.1
  exact s.spelling_ne_nil (List.prefix_nil.mp h.2.1)

/-- Each token of a source takes all that it can of the text that begins with it: the longest
operator, the whole run of a word, the longest numeral. A word is a keyword if it is reserved
and else a name, a numeral is a number unless it runs into a name, which is noted, and the
text of a keyword or an operator is that of its kind. -/
theorem tokens_munch (source : String) (fileId : Nat) :
    ∀ token ∈ tokens source fileId, ∃ before rest,
      source.toList = before ++ rest ∧ token.span.start = byteLength before ∧
        token.text.toList <+: rest ∧
          Munched token.kind token.text.toList rest
            (⟨.malformedNumber token.text, token.span⟩ ∈ lexicalProblems source fileId) := by
  intro token hmem
  rcases exists_lexeme_of_mem_tokens hmem with rfl | ⟨placed, hread, rfl, hproblems⟩
  · refine ⟨source.toList, [], (List.append_nil _).symm, ?_, List.prefix_rfl, .eof _ _⟩
    have hlength := utf8ByteSize_ofList source.toList
    rwa [String.ofList_toList] at hlength
  · obtain ⟨before, c, behind, hsource, rfl, -⟩ := hread
    refine ⟨before, c :: behind, hsource, rfl, ?_, ?_⟩
    · rw [PlacedLexeme.token, String.toList_ofList]
      exact ⟨_, Lexeme.read_text_append_rest c behind⟩
    · rw [PlacedLexeme.token, String.toList_ofList]
      refine Lexeme.read_munches.imp fun hnoted => hproblems ?_
      exact List.mem_map.mpr ⟨_, hnoted, rfl⟩

/-- A number that runs into a name, behind an operator that a longer one begins with. -/
theorem tokens_munch_malformed :
    ⟨.invalid, "7.5up", ⟨2, 7, 0⟩⟩ ∈ tokens "a=7.5up" 0 ∧
      ∃ before rest, "a=7.5up".toList = before ++ rest ∧ 2 = byteLength before ∧
        "7.5up".toList <+: rest ∧
          Munched .invalid "7.5up".toList rest
            (⟨.malformedNumber "7.5up", ⟨2, 7, 0⟩⟩ ∈ lexicalProblems "a=7.5up" 0) :=
  have hmem : ⟨.invalid, "7.5up", ⟨2, 7, 0⟩⟩ ∈ tokens "a=7.5up" 0 := by decide +kernel
  ⟨hmem, tokens_munch "a=7.5up" 0 _ hmem⟩

end SourceFront
