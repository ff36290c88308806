/-!
The operators and punctuation marks of Iblang. One or two characters behind the first
tell which of them stands there (`read?`), and that is the longest that begins the text
(`read?_eq_longest?`).
-/

namespace SourceFront

/-- The operators and the other marks. -/
inductive Symbol where
  | ellipsis
  | equal | notEqual | lessEqual | greaterEqual | andAnd | orOr
  | plusAssign | minusAssign | starAssign | slashAssign | percentAssign
  | fatArrow | colonColon
  | plus | minus | star | slash | percent | assign | less | greater
  | bang | ampersand | pipe | dot
  | leftParen | rightParen | leftBrace | rightBrace | leftBracket | rightBracket
  | comma | colon | semicolon
  deriving DecidableEq, Repr

namespace Symbol

/-- How the symbol is written. -/
def spelling : Symbol → String
  | ellipsis => "..."
  | equal => "=="
  | notEqual => "!="
  | lessEqual => "<="
  | greaterEqual => ">="
  | andAnd => "&&"
  | orOr => "||"
  | plusAssign => "+="
  | minusAssign => "-="
  | starAssign => "*="
  | slashAssign => "/="
  | percentAssign => "%="
  | fatArrow => "=>"
  | colonColon => "::"
  | plus => "+"
  | minus => "-"
  | star => "*"
  | slash => "/"
  | percent => "%"
  | assign => "="
  | less => "<"
  | greater => ">"
  | bang => "!"
  | ampersand => "&"
  | pipe => "|"
  | dot => "."
  | leftParen => "("
  | rightParen => ")"
  | leftBrace => "\x7b"
  | rightBrace => "\x7d"
  | leftBracket => "["
  | rightBracket => "]"
  | comma => ","
  | colon => ":"
  | semicolon => ";"

/-- The compound symbol where `=` comes next, and else the bare one. -/
def withEqual (compound bare : Symbol) (next : Option Char) : Symbol × Nat :=
  if next = some '=' then (compound, 1) else (bare, 0)

/-- The symbol that begins with `c` and goes on in `cs`, with the number of characters that
it takes of `cs`. -/
def read? (c : Char) (cs : List Char) : Option (Symbol × Nat) :=
  let next := cs[0]?
  match c with
  | '+' => some (withEqual plusAssign plus next)
  | '-' => some (withEqual minusAssign minus next)
  | '*' => some (withEqual starAssign star next)
  | '/' => some (withEqual slashAssign slash next)
  | '%' => some (withEqual percentAssign percent next)
  | '!' => some (withEqual notEqual bang next)
  | '<' => some (withEqual lessEqual less next)
  | '>' => some (withEqual greaterEqual greater next)
  | '=' =>
      if next = some '=' then some (equal, 1)
      else if next = some '>' then some (fatArrow, 1)
      else some (assign, 0)
  | '&' => if next = some '&' then some (andAnd, 1) else some (ampersand, 0)
  | '|' => if next = some '|' then some (orOr, 1) else some (pipe, 0)
  | '.' =>
      if next = some '.' && cs[1]? = some '.' then some (ellipsis, 2) else some (dot, 0)
  | ':' => if next = some ':' then some (colonColon, 1) else some (colon, 0)
  | '(' => some (leftParen, 0)
  | ')' => some (rightParen, 0)
  | '\x7b' => some (leftBrace, 0)
  | '\x7d' => some (rightBrace, 0)
  | '[' => some (leftBracket, 0)
  | ']' => some (rightBracket, 0)
  | ',' => some (comma, 0)
  | ';' => some (semicolon, 0)
  | _ => none

/-- Every symbol, none before a longer one. -/
def all : List Symbol :=
  [ellipsis, equal, notEqual, lessEqual, greaterEqual, andAnd, orOr, plusAssign,
    minusAssign, starAssign, slashAssign, percentAssign, fatArrow, colonColon,
    plus, minus, star, slash, percent, assign, less, greater, bang, ampersand,
    pipe, dot, leftParen, rightParen, leftBrace, rightBrace, leftBracket,
    rightBracket, comma, colon, semicolon]

/-- The longest symbol that `text` begins with, looked up among all of them. -/
def longest? (text : List Char) : Option Symbol :=
  all.find? (·.spelling.toList.isPrefixOf text)

theorem mem_all (s : Symbol) : s ∈ all := by
  cases s <;> decide

theorem spelling_ne_nil (s : Symbol) : s.spelling.toList ≠ [] := by
  cases s <;> decide

theorem all_longest_first :
    all.Pairwise fun s t => t.spelling.length ≤ s.spelling.length := by
  decide +kernel

theorem isPrefixOf_cons (s : Symbol) (c : Char) (cs : List Char) :
    s.spelling.toList.isPrefixOf (c :: cs) =
      (s.spelling.toList.head? = some c && s.spelling.toList.tail.isPrefixOf cs) := by
  obtain ⟨d, ds, hspelling⟩ := List.exists_cons_of_ne_nil s.spelling_ne_nil
  simp [hspelling, List.isPrefixOf, Bool.beq_eq_decide_eq]

/-- The symbols that begin with the character. -/
def startingWith (c : Char) : List Symbol :=
  all.filter (·.spelling.toList.head? = some c)

theorem longest?_cons (c : Char) (cs : List Char) :
    longest? (c :: cs) = (startingWith c).find? (·.spelling.toList.tail.isPrefixOf cs) := by
  rw [startingWith, List.find?_filter, longest?]
  refine congrArg (all.find? ·) (funext fun s => ?_)
  rw [isPrefixOf_cons, Bool.decide_and, Bool.decide_eq_true, Bool.decide_eq_true]

theorem spelling_prefix_of_longest? {s : Symbol} {text : List Char} (h : longest? text = some s) :
    s.spelling.toList <+: text := by
  have hbegins := List.find?_some h
  exact List.isPrefixOf_iff_prefix.mp hbegins

section Lookahead

variable {c : Char} {cs : List Char} {s compound bare : Symbol}

theorem longest?_single (hstart : startingWith c = [s]) (hs : s.spelling.toList = [c]) :
    longest? (c :: cs) = some s := by
  rw [longest?_cons, hstart]
  simp [hs]

theorem longest?_pair (next : Char) (hstart : startingWith c = [compound, bare])
    (hcompound : compound.spelling.toList = [c, next]) (hbare : bare.spelling.toList = [c]) :
    longest? (c :: cs) = if cs[0]? = some next then some compound else some bare := by
  rw [longest?_cons, hstart]
  cases cs with
  | nil => simp [hcompound, hbare]
  | cons d ds =>
      by_cases h : next = d
      · simp [hcompound, h]
      · simp [hcompound, hbare, h, Ne.symm h]

theorem longest?_equal :
    longest? ('=' :: cs) =
      if cs[0]? = some '=' then some equal
      else if cs[0]? = some '>' then some fatArrow
      else some assign := by
  rw [longest?_cons]
  have hstart : startingWith '=' = [equal, fatArrow, assign] := rfl
  rw [hstart]
  cases cs with
  | nil => rfl
  | cons d ds =>
      by_cases h : '=' = d
      · subst h
        rfl
      · by_cases h' : '>' = d
        · subst h'
          rfl
        · simp [spelling, h, h', Ne.symm h, Ne.symm h']

/-- Two points behind the first are needed: two in all are not a symbol. -/
theorem longest?_dot :
    longest? ('.' :: cs) =
      if cs[0]? = some '.' && cs[1]? = some '.' then some ellipsis else some dot := by
  rw [longest?_cons]
  have hstart : startingWith '.' = [ellipsis, dot] := rfl
  rw [hstart]
  rcases cs with _ | ⟨d, _ | ⟨e, es⟩⟩
  · rfl
  · simp [spelling]
  · by_cases h : '.' = d
    · subst h
      by_cases h' : '.' = e
      · subst h'
        rfl
      · simp [spelling, h', Ne.symm h']
    · simp [spelling, h, Ne.symm h]

end Lookahead

/-- How many characters the symbol takes behind its first. -/
def further (s : Symbol) : Nat :=
  s.spelling.toList.length - 1

/-- Looking ahead finds the longest symbol that begins the text, and takes all of it. -/
theorem read?_eq_longest? (c : Char) (cs : List Char) :
    read? c cs = (longest? (c :: cs)).map fun s => (s, s.further) := by
  unfold read?
  dsimp only
  split
  case h_1 | h_2 | h_3 | h_4 | h_5 | h_6 | h_7 | h_8 =>
    rw [longest?_pair '=' rfl rfl rfl, withEqual]
    split <;> rfl
  case h_9 =>
    -- three symbols begin with `=`, and the order in which they are asked for does not matter
    rw [longest?_equal]
    split
    · rfl
    · split <;> rfl
  case h_10 =>
    rw [longest?_pair '&' rfl rfl rfl]
    split <;> rfl
  case h_11 =>
    rw [longest?_pair '|' rfl rfl rfl]
    split <;> rfl
  case h_12 =>
    rw [longest?_dot]
    split <;> rfl
  case h_13 =>
    rw [longest?_pair ':' rfl rfl rfl]
    split <;> rfl
  case h_22 =>
    -- no symbol begins with `c`
    have hstart : startingWith c = [] := by
      refine List.filter_eq_nil_iff.mpr fun s _ hs => ?_
      have hc : s.spelling.toList.head? = some c := of_decide_eq_true hs
      cases s <;> cases hc <;> contradiction
    rw [longest?_cons, hstart]
    rfl
  all_goals
    rw [longest?_single rfl rfl]
    rfl

end Symbol

end SourceFront
