/-!
What the program is asked, once its arguments are read, and what it answers.
-/

namespace SourceFront.Command

/-- How diagnostics are written. -/
inductive Format where
  | human | json
  deriving DecidableEq, Repr

/-- A command with what belongs to it. -/
inductive Request where
  | check (file : String)
  | parse (file : String) (noSpans : Bool)
  | tokens (file : String)
  | version
  deriving DecidableEq, Repr

/-- What the program is asked to do, and how it is to write its answer. -/
structure Invocation where
  /-- The command, if there is one. -/
  command : Option Request
  /-- A file that stands outside of a command. -/
  file : Option String
  format : Format
  /-- The number of diagnostics to write at most. -/
  cap : Option Nat
  deriving DecidableEq, Repr

/-- What is asked for, if anything is: without a command a file is checked. -/
def Invocation.request? (invocation : Invocation) : Option Request :=
  invocation.command.or (invocation.file.map .check)

/-- The file that a request is about. -/
def Request.file? : Request → Option String
  | check file | parse file _ | tokens file => some file
  | version => none

/-- The exit status and what is written on each stream. -/
structure Output where
  exit : Nat
  stdout : String
  stderr : String
  deriving DecidableEq, Repr

/-- A text as lines, each with a line feed at its end. -/
def lines (texts : List String) : String :=
  String.join (texts.map (· ++ "\n"))

/-- The name of the program and the number of its version. -/
def version : String := "ibc 0.1.0"

end SourceFront.Command
