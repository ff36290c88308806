import SourceFront.Grammar.Item
import SourceFront.SourceOrder
import SourceFront.Token.Stream

/-!
Reading modules from token lists. A module is always read; what is malformed is
left out of it and is a problem.
-/

namespace SourceFront

/-- A place in a token list, with the problems met on the way. -/
structure Reading where
  /-- The problems of the tokens themselves. -/
  lexical : List Problem
  state : State

namespace Reading

/-- The reading of given tokens, with no problems in them. -/
def ofTokens (tokens : List Token) : Reading :=
  ⟨[], .ofTokens tokens⟩

/-- The reading of a source, with the problems of its tokens. -/
def ofSource (source : String) (fileId : Nat) : Reading :=
  ⟨lexicalProblems source fileId, .ofTokens (tokens source fileId)⟩

/-- The module that the tokens from here to the end make up. Its range begins
with the file. -/
def readModule (reading : Reading) : Module Span × Reading :=
  let (items, state) :=
    match Rule.items .outermost reading.state with
    | .ok items state => (items, state)
    | .error _ state => ([], state)
  let stop := state.current.span
  (⟨items, ⟨0, stop.stop, stop.fileId⟩⟩, { reading with state })

/-- All problems in the order of the source. Those of tokens come before others
that start at the same place. -/
def problems (reading : Reading) : List Problem :=
  SourceOrder.sort Problem.start (reading.lexical ++ reading.state.problems)

end Reading

end SourceFront
