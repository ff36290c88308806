import SourceFront.Grammar.Reading

/-!
Walks through a token list. The place reached is an index into the list; where an
expression stands and how deep phrases are nested are kept in variables that are set
where a phrase begins and put back where it ends. Nothing in this makes sure that the
index stays in the list, that no counter falls below zero or that each loop comes to an
end: a walk on which one of these goes wrong is in breach.
-/

namespace SourceFront

/-- What must not happen on a walk. -/
inductive Breach where
  /-- A token is asked for that is not in the list. -/
  | outOfRange
  /-- A part of the list is asked for that ends before it begins or behind the list. -/
  | badSlice
  /-- A counter falls below zero. -/
  | underflow
  /-- A loop goes on after a round that has not moved the index forward. -/
  | endless
  /-- Phrases are nested deeper than a recursion goes. -/
  | unbounded
  deriving DecidableEq, Repr

/-- A place in a list of tokens, with what has been noted on the way to it. -/
structure Cursor where
  tokens : List Token
  pos : Nat
  /-- Struct literals are recognised in the free place only. -/
  place : Place
  /-- The number of nested phrases that are open. -/
  depth : Nat
  /-- The greatest number of nested phrases that have been open. -/
  peak : Nat
  /-- The syntax problems reported so far, in the order of reporting. -/
  problems : List Problem
  /-- The tokens at which statements and items were given up, in that order. -/
  abandoned : List Token
  deriving Repr

namespace Cursor

/-- The cursor at the first of `tokens`, or at the end if there are none. The list ends
with the end of the source. -/
def ofTokens (tokens : List Token) : Cursor :=
  let state := State.ofTokens tokens
  ⟨state.ahead ++ [.eof state.stop], 0, .free, 0, 0, [], []⟩

/-- The number of tokens from the current one on. -/
def left (cursor : Cursor) : Nat :=
  cursor.tokens.length - cursor.pos

end Cursor

/-- What ends a walk early. -/
inductive Stop where
  | problem (problem : Problem)
  | breach (breach : Breach)
  deriving Repr

/-- What moves a cursor and returns, or stops. -/
abbrev Walk := EStateM Stop Cursor

namespace Walk

variable {α σ : Type}

/-- `a` without `b`. -/
def minus (a b : Nat) : Walk Nat :=
  if b ≤ a then pure (a - b) else throw (.breach .underflow)

/-- The token of an index. There is one at every place that a walk comes to. -/
def tokenAt (index : Nat) : Walk Token := do
  match (← get).tokens[index]? with
  | some token => return token
  | none => throw (.breach .outOfRange)

/-- The tokens from the index `start` to the index `stop`, which is not among them. -/
def slice (start stop : Nat) : Walk (List Token) := do
  let tokens := (← get).tokens
  if start ≤ stop ∧ stop ≤ tokens.length then return (tokens.take stop).drop start
  else throw (.breach .badSlice)

/-- The token at the cursor, which stays there. -/
def current : Walk Token := do
  tokenAt (← get).pos

/-- Moves on to the next token, if there is one. -/
def advance : Walk Token := do
  let token ← current
  let cursor ← get
  let last ← minus cursor.tokens.length 1
  set { cursor with pos := if cursor.pos < last then cursor.pos + 1 else cursor.pos }
  return token

/-- Whether the current token is of the kind. -/
def isAt (kind : TokenKind) : Walk Bool := do
  return (← current).kind = kind

/-- Whether a list ends here: at its closing symbol or at the end of the tokens. -/
def isAtClose (close : Symbol) : Walk Bool := do
  let token ← current
  return token.kind = .symbol close || token.isEof

/-- Reads the current token if it is of the kind. -/
def take? (kind : TokenKind) : Walk Bool := do
  if ← isAt kind then
    let _ ← advance
    return true
  else return false

/-- Stops with a problem of the current token. -/
def failWith (cause : Token → Cause) : Walk α := do
  let token ← current
  throw (.problem ⟨cause token, token.span⟩)

/-- Stops with what was expected in the place of the current token. -/
def failExpecting (expected : String) : Walk α :=
  failWith fun token => .unexpectedToken expected token.describe

/-- Reads the symbol, or stops if another token is there. -/
def expect (symbol : Symbol) : Walk Token := do
  if ← isAt (.symbol symbol) then advance
  else failExpecting ("`" ++ symbol.spelling ++ "`")

/-- The range from `start` through the token before the current one, if there is one. -/
def spanFrom (start : Span) : Walk Span := do
  let token ← tokenAt ((← get).pos - 1)
  return start.merge token.span

/-- Does `restore` behind the walk, whether it ends with a problem or not. -/
def andThen (walk : Walk α) (restore : Walk Unit) : Walk α := fun cursor =>
  match walk cursor with
  | .ok value cursor => (restore >>= fun _ => pure value) cursor
  | .error (.problem problem) cursor => (restore >>= fun _ => throw (.problem problem)) cursor
  | .error (.breach breach) cursor => .error (.breach breach) cursor

/-- Walks where expressions stand in `place`. -/
def within (place : Place) (walk : Walk α) : Walk α := do
  let outer := (← get).place
  modify ({ · with place })
  walk.andThen (modify ({ · with place := outer }))

/-- Sets the number of open phrases. There is no other way in which it changes. -/
def setDepth (depth : Nat) : Walk Unit :=
  modify fun cursor => { cursor with depth, peak := max cursor.peak depth }

/-- Closes a nested phrase. -/
def leave : Walk Unit := do
  let depth ← minus (← get).depth 1
  setDepth depth

/-- Reads a nested phrase, unless too many are open. -/
def nested (walk : Walk α) : Walk α := do
  if Level.limit ≤ (← get).depth then failWith fun _ => .nestingTooDeep Level.limit
  else
    setDepth ((← get).depth + 1)
    walk.andThen leave

/-- Repeats `step` until it tells that a round was the last one. -/
def iterate (step : σ → Walk (Round σ)) (value : σ) : Walk σ := fun cursor =>
  match step value cursor with
  | .error stop cursor' => .error stop cursor'
  | .ok (.last value') cursor' => .ok value' cursor'
  | .ok (.more value') cursor' =>
      if cursor'.left < cursor.left then iterate step value' cursor'
      else .error (.breach .endless) cursor'
termination_by cursor => cursor.left

/-- Elements with commas between them, up to the closing symbol. A comma may follow the last one.
-/
def commaList (close : Symbol) (element : Walk α) : Walk (List α) :=
  iterate (fun read => do
    if ← isAtClose close then return .last read
    let read := read ++ [← element]
    if ← take? (.symbol .comma) then return .more read
    else return .last read) []

/-- Parameters in the same way; an ellipsis may stand in the place of the last one. -/
def paramList (param : Walk α) : Walk (List α × Bool) :=
  iterate (fun (read, _) => do
    if ← isAtClose .rightParen then return .last (read, false)
    if ← take? (.symbol .ellipsis) then return .last (read, true)
    let read := read ++ [← param]
    if ← take? (.symbol .comma) then return .more (read, false)
    else return .last (read, false)) ([], false)

/-- Notes a problem, unless it lies in an invalid token, which has a problem of its own,
or starts where the problem before it does. -/
def report (problem : Problem) : Walk Unit := do
  let token ← current
  if token.kind = .invalid ∧ token.span = problem.span then return ()
  else
    modify fun cursor =>
      if (cursor.problems.getLast?.map Problem.start) = some problem.start then cursor
      else { cursor with problems := cursor.problems ++ [problem] }

/-- Notes that a statement or an item is given up at the current token. -/
def abandon : Walk Unit := do
  let token ← current
  modify fun cursor => { cursor with abandoned := cursor.abandoned ++ [token] }

/-- Reads a phrase with `walk`. If that fails, the problem is reported, and `resume`
goes on from there, given the index at which the phrase began. -/
def recover (walk : Walk α) (resume : (start : Nat) → Walk Unit) : Walk (Option α) :=
  fun start =>
    match walk start with
    | .ok value cursor => .ok (some value) cursor
    | .error (.problem problem) cursor =>
        (do
          report problem
          abandon
          resume start.pos
          return none) cursor
    | .error (.breach breach) cursor => .error (.breach breach) cursor

/-- Passes over one token, unless an item can begin there. -/
def itemRestRound : Walk (Round Unit) := do
  let token ← current
  if token.isEof || token.kind.beginsItem then return .last ()
  else
    let _ ← advance
    return .more ()

/-- Passes over the rest of the item that began at the index `start`, and over one token
at least since then. -/
def resumeItem (start : Nat) : Walk Unit := do
  if (← get).pos = start then let _ ← advance
  iterate (fun _ => itemRestRound) ()

/-- Passes over one token of the rest of a failed statement, with `depth` braces open, if
it goes on. -/
def statementRestRound (inFor : Bool) : Nat × Bool → Walk (Round (Nat × Bool))
  | (depth, fresh) => do
      match (← current).kind with
      | .eof => return .last (depth, fresh)
      | .symbol .semicolon =>
          let _ ← advance
          if depth = 0 && !inFor then return .last (depth, false)
          else return .more (depth, false)
      | .symbol .leftBrace =>
          let _ ← advance
          return .more (depth + 1, false)
      | .symbol .rightBrace =>
          if depth = 0 then return .last (depth, fresh)
          else
            let depth ← minus depth 1
            let _ ← advance
            if depth = 0 then return .last (depth, false)
            else return .more (depth, false)
      | kind =>
          if depth = 0 && !fresh && (kind.beginsItemOnly || kind.beginsStatement) then
            return .last (depth, fresh)
          else
            let _ ← advance
            return .more (depth, false)

/-- Passes over the rest of the statement that began at the index `start`. -/
def resumeStatement (start : Nat) : Walk Unit := do
  let inFor : Bool := (← tokenAt start).kind = .keyword .for_
  let pos := (← get).pos
  let read ← slice start pos
  let _ ← iterate (statementRestRound inFor) (openBraces read, pos = start)

end Walk

end SourceFront
