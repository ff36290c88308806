import SourceFront.Json
import SourceFront.LineIndex
import SourceFront.Problem
import SourceFront.SourceOrder

/-!
Diagnostics: problems as they are shown. A list of diagnostics is kept in the
order of the source, and is shown as text or as JSON reports, all of it or its
first entries. Both forms find places for themselves; where a number of one does not
fit, they go on with what wraps around (`human`, `reports`) or fail (`human?`,
`reports?`).
-/

namespace SourceFront

/-- How bad a problem is. So far there are errors only. -/
inductive Severity where
  | error
  deriving DecidableEq, Repr

/-- The word for it in both forms. -/
def Severity.name : Severity → String
  | error => "error"

/-- A problem with the texts that it is shown with. -/
structure Diagnostic where
  code : String
  severity : Severity
  message : String
  span : Span
  help : Option String
  deriving DecidableEq, Repr

/-- Where a report points to. -/
structure Location where
  file : String
  start : Position
  stop : Position
  deriving DecidableEq, Repr

/-- A diagnostic with lines and columns instead of offsets. -/
structure Report where
  code : String
  severity : Severity
  message : String
  location : Location
  help : Option String
  deriving DecidableEq, Repr

namespace Diagnostic

/-- Where the range of the diagnostic starts, by which diagnostics are ordered. -/
def start (diagnostic : Diagnostic) : Nat :=
  diagnostic.span.start

/-- The diagnostic that tells of a problem. -/
def ofProblem (problem : Problem) : Diagnostic where
  code := problem.cause.code
  severity := .error
  message := problem.cause.message
  span := problem.span
  help := problem.cause.help

/-- The diagnostic as text: its place, its message, and its hint on a second line. -/
def renderAt (file : String) (place : Position) (diagnostic : Diagnostic) : String :=
  let line := file ++ ":" ++ toString place.line ++ ":" ++ toString place.column ++ ": " ++
    diagnostic.severity.name ++ "[" ++ diagnostic.code ++ "]: " ++ diagnostic.message
  match diagnostic.help with
  | none => line
  | some help => line ++ "\n  = help: " ++ help

/-- The entry of a diagnostic in a source. -/
def render (file : String) (index : LineIndex) (diagnostic : Diagnostic) : String :=
  diagnostic.renderAt file (index.position diagnostic.span.start)

/-- The same entry, if the numbers in it fit. -/
def render? (file : String) (index : LineIndex) (diagnostic : Diagnostic) : Option String :=
  (index.position? diagnostic.span.start).map (diagnostic.renderAt file ·)

/-- The report with the places of both ends. -/
def reportAt (file : String) (start stop : Position) (diagnostic : Diagnostic) : Report where
  code := diagnostic.code
  severity := diagnostic.severity
  message := diagnostic.message
  location := ⟨file, start, stop⟩
  help := diagnostic.help

/-- The report of a diagnostic in a source. -/
def report (file : String) (index : LineIndex) (diagnostic : Diagnostic) : Report :=
  diagnostic.reportAt file (index.position diagnostic.span.start)
    (index.position diagnostic.span.stop)

/-- The same report, if the numbers in it fit. -/
def report? (file : String) (index : LineIndex) (diagnostic : Diagnostic) : Option Report := do
  let start ← index.position? diagnostic.span.start
  let stop ← index.position? diagnostic.span.stop
  return diagnostic.reportAt file start stop

end Diagnostic

namespace Report

/-- The report as an object. -/
def toJson (report : Report) : Json :=
  .object
    [("code", .string report.code),
      ("severity", .string report.severity.name),
      ("message", .string report.message),
      ("location", .object
        [("file", .string report.location.file),
          ("line", .number report.location.start.line),
          ("column", .number report.location.start.column),
          ("end_line", .number report.location.stop.line),
          ("end_column", .number report.location.stop.column)]),
      ("help", .ofOption .string report.help)]

end Report

/-- Diagnostics of one source, in its order. -/
structure Diagnostics where
  toList : List Diagnostic
  deriving DecidableEq, Repr

namespace Diagnostics

/-- No diagnostics. -/
def empty : Diagnostics := ⟨[]⟩

/-- Adds a diagnostic behind all that start no later. -/
def push (diagnostic : Diagnostic) (diagnostics : Diagnostics) : Diagnostics :=
  ⟨SourceOrder.insert Diagnostic.start diagnostic diagnostics.toList⟩

/-- Adds the diagnostic of a problem. -/
def pushProblem (problem : Problem) (diagnostics : Diagnostics) : Diagnostics :=
  diagnostics.push (.ofProblem problem)

/-- Collects problems one by one. -/
def ofProblems (problems : List Problem) : Diagnostics :=
  problems.foldl (fun diagnostics problem => diagnostics.pushProblem problem) empty

/-- The number of all diagnostics, shown or not. -/
def size (diagnostics : Diagnostics) : Nat :=
  diagnostics.toList.length

def isEmpty (diagnostics : Diagnostics) : Bool :=
  diagnostics.toList.isEmpty

/-- The number of those that are errors. -/
def errorCount (diagnostics : Diagnostics) : Nat :=
  (diagnostics.toList.filter (·.severity = .error)).length

/-- Whether a run of the program has failed. -/
def hasErrors (diagnostics : Diagnostics) : Bool :=
  0 < diagnostics.errorCount

section

variable (diagnostics : Diagnostics) (file source : String) (cap : Option Nat)

/-- How many diagnostics the text shows. -/
def shown : Nat :=
  min (cap.getD diagnostics.size) diagnostics.size

/-- The diagnostics that the text shows, each as text. -/
def entries : List String :=
  (diagnostics.toList.take (diagnostics.shown cap)).map (·.render file (.ofSource source))

/-- The same entries, if all numbers in them fit. -/
def entries? : Option (List String) :=
  (diagnostics.toList.take (diagnostics.shown cap)).mapM (·.render? file (.ofSource source))

/-- The last line of the text, if it does not show all diagnostics. -/
def summary : List String :=
  if diagnostics.shown cap < diagnostics.size then
    ["... and " ++ toString (diagnostics.size - diagnostics.shown cap) ++ " more diagnostic(s)"]
  else []

/-- The text form, without a line feed at its end. -/
def human : String :=
  "\n".intercalate (diagnostics.entries file source cap ++ diagnostics.summary cap)

/-- The same text, if all numbers in it fit. -/
def human? : Option String :=
  (diagnostics.entries? file source cap).map fun entries =>
    "\n".intercalate (entries ++ diagnostics.summary cap)

/-- The first diagnostics, as many as the cap lets pass, or all of them without a cap. -/
def upTo : List Diagnostic :=
  match cap with
  | none => diagnostics.toList
  | some count => diagnostics.toList.take count

theorem mem_of_mem_upTo {diagnostics : Diagnostics} {cap : Option Nat} {diagnostic : Diagnostic}
    (h : diagnostic ∈ diagnostics.upTo cap) : diagnostic ∈ diagnostics.toList := by
  cases cap with
  | none => exact h
  | some count => exact List.mem_of_mem_take h

/-- The reports that are written with a cap. -/
def reports : List Report :=
  (diagnostics.upTo cap).map (·.report file (.ofSource source))

/-- The same reports, if all numbers in them fit. -/
def reports? : Option (List Report) :=
  (diagnostics.upTo cap).mapM (·.report? file (.ofSource source))

/-- The reports as one array. -/
def toJson : Json :=
  .array ((diagnostics.reports file source cap).map Report.toJson)

end

end Diagnostics

end SourceFront
