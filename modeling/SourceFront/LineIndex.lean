import SourceFront.Bisection

/-!
Line and column of a byte offset. Lines end at a line feed; columns count bytes. Both numbers
have 32 bits: where one would need more, it wraps around (`position`), or there is no position
(`position?`).
-/

namespace SourceFront

/-- A place of a text, both numbers counted from one. -/
structure Position where
  line : Nat
  column : Nat
  deriving DecidableEq, Repr

/-- The offsets at which the lines of a text start, ascending from zero. -/
structure LineIndex where
  starts : List Nat

namespace LineIndex

/-- The offsets just behind the line feeds of a text that begins at `offset`. -/
def startsBehindFeeds (offset : Nat) : List Char → List Nat
  | [] => []
  | c :: cs =>
      let behind := offset + c.utf8Size
      if c = '\n' then behind :: startsBehindFeeds behind cs
      else startsBehindFeeds behind cs

/-- The starts of the lines of a source. The first line starts at its beginning. -/
def ofSource (source : String) : LineIndex :=
  ⟨0 :: startsBehindFeeds 0 source.toList⟩

/-- The number of lines, at least one. -/
def lineCount (index : LineIndex) : Nat :=
  index.starts.length

/-- The last of the ascending `starts` that is not behind `offset`, with its
number; `start` is the one numbered `line` if all are behind. -/
def locate (offset line start : Nat) : List Nat → Nat × Nat
  | [] => (line, start)
  | next :: starts =>
      if next ≤ offset then locate offset (line + 1) next starts
      else (line, start)

/-- A count from zero as a count from one, in 32 bits. -/
def ordinal (count : Nat) : Nat :=
  (UInt32.ofNat count + 1).toNat

/-- The same, unless the sum overflows. -/
def ordinal? (count : Nat) : Option Nat :=
  if UInt32.ofNat count + 1 = 0 then none else some (ordinal count)

example : ordinal 4294967295 = 0 ∧ ordinal? 4294967295 = none := by decide

/-- Offsets past the end of the text count on in its last line. -/
def position (index : LineIndex) (offset : Nat) : Position :=
  let (line, start) := locate offset 0 0 index.starts.tail
  ⟨ordinal line, ordinal (offset - start)⟩

/-- The number of the line that starts at the offset, or else the number that such a line would
have. -/
def search (index : LineIndex) (offset : Nat) : Except Nat Nat :=
  let place := partitionPoint (· < offset) index.starts
  if index.starts[place]? = some offset then .ok place else .error place

/-- `a` without `b`, unless that is below zero. -/
def minus? (a b : Nat) : Option Nat :=
  if b ≤ a then some (a - b) else none

/-- The number of the line of the offset: of the line that starts there, or of the one before the
place where such a line would stand. -/
def line? (index : LineIndex) (offset : Nat) : Option Nat :=
  match index.search offset with
  | .ok line => some line
  | .error next => minus? next 1

/-- The position by a search among the starts of the lines, if no number falls below zero or
overflows and only lines that there are are asked for. -/
def position? (index : LineIndex) (offset : Nat) : Option Position := do
  let line ← index.line? offset
  let start ← index.starts[line]?
  let column ← minus? offset start
  return ⟨← ordinal? line, ← ordinal? column⟩

end LineIndex

end SourceFront
