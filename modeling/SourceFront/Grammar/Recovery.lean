import SourceFront.Grammar.Rule

/-!
Going on after a failure. The problem is reported, and the tokens up to the next
place where a statement or an item can begin are passed over.
-/

namespace SourceFront

/-- The number of braces open after `tokens`. A closing brace with none open is
passed over. -/
def openBraces (tokens : List Token) : Nat :=
  tokens.foldl (fun depth token =>
    match token.kind with
    | .symbol .leftBrace => depth + 1
    | .symbol .rightBrace => depth - 1
    | _ => depth) 0

/-- How many tokens belong to the rest of a failed statement with `depth` braces
open: those through its semicolon or through the brace that closes its last open
one, but none from the brace that closes the block around it, and none from a
keyword that begins a statement or an item. Such a keyword counts if the
statement is `fresh`, that is, begins with it. The semicolons in a `for` header
do not end the statement. -/
def statementRest (inFor : Bool) : (depth : Nat) → (fresh : Bool) → List Token → Nat
  | _, _, [] => 0
  | depth, fresh, token :: tokens =>
      match token.kind with
      | .eof => 0
      | .symbol .semicolon =>
          if depth = 0 && !inFor then 1
          else 1 + statementRest inFor depth false tokens
      | .symbol .leftBrace => 1 + statementRest inFor (depth + 1) false tokens
      | .symbol .rightBrace =>
          match depth with
          | 0 => 0
          | 1 => 1
          | depth + 2 => 1 + statementRest inFor (depth + 1) false tokens
      | kind =>
          if depth = 0 && !fresh && (kind.beginsItemOnly || kind.beginsStatement) then 0
          else 1 + statementRest inFor depth false tokens

/-- How many tokens stand before the next that can begin an item. -/
def itemRest : List Token → Nat
  | [] => 0
  | token :: tokens =>
      if token.isEof || token.kind.beginsItem then 0 else 1 + itemRest tokens

namespace State

/-- Passes over `n` tokens. -/
def skip : (n : Nat) → State → State
  | 0, state => state
  | n + 1, state => skip n state.advance

/-- The tokens read since `start`. -/
def readSince (start state : State) : List Token :=
  start.ahead.take (start.ahead.length - state.ahead.length)

/-- Notes a problem, unless it lies in an invalid token, which has a problem of
its own, or starts where the problem before it does. -/
def report (problem : Problem) (state : State) : State :=
  if state.current.kind = .invalid ∧ state.current.span = problem.span then state
  else if (state.problems.getLast?.map Problem.start) = some problem.start then state
  else { state with problems := state.problems ++ [problem] }

/-- Passes over the rest of the statement that began at `start`. -/
def skipStatement (start state : State) : State :=
  let read := readSince start state
  let inFor : Bool := start.current.kind = .keyword .for_
  state.skip (statementRest inFor (openBraces read) read.isEmpty state.ahead)

/-- Passes over the rest of the item that began at `start`, and over one token at
least since then. -/
def skipItem (start state : State) : State :=
  let state := if (readSince start state).isEmpty then state.advance else state
  state.skip (itemRest state.ahead)

end State

/-- Reads a phrase with `rule`. If that fails, the problem is reported, `resume`
goes on from there, given the state in which the phrase began, and there is no
phrase. -/
def Rule.recover {α : Type} (rule : Rule α) (resume : State → State → State) :
    Rule (Option α) := fun start =>
  match rule start with
  | .ok value state => .ok (some value) state
  | .error problem state => .ok none (resume start (state.report problem))

end SourceFront
