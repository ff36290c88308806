import SourceFront.Analysis
import SourceFront.Command.Arguments
import SourceFront.Command.Directory

/-!
What the program answers: its exit status and the texts it writes. Diagnostics
decide the status; the options change only how they are written. How arguments are read
is left open (`answerBy`).
-/

namespace SourceFront.Command

/-- One if there are errors, else zero. -/
def exitStatus (diagnostics : Diagnostics) : Nat :=
  if diagnostics.hasErrors then 1 else 0

/-- The diagnostics as text, with their number below them. -/
def humanLines (invocation : Invocation) (file source : String)
    (diagnostics : Diagnostics) : List String :=
  if diagnostics.isEmpty then []
  else
    [diagnostics.human file source invocation.cap,
      toString diagnostics.errorCount ++ " error(s) found in " ++ file]

/-- The diagnostics beside another output. -/
def sideLines (invocation : Invocation) (file source : String)
    (diagnostics : Diagnostics) : List String :=
  match invocation.format with
  | .human => humanLines invocation file source diagnostics
  | .json =>
      if diagnostics.isEmpty then []
      else [(diagnostics.toJson file source invocation.cap).render]

/-- Whether the file is well formed. JSON diagnostics are the main output. -/
def check (invocation : Invocation) (file source : String) : Output :=
  let analysis := analyse source 0
  let diagnostics := analysis.diagnostics
  let stdout :=
    match invocation.format with
    | .json => [(diagnostics.toJson file source invocation.cap).render]
    | .human =>
        if diagnostics.hasErrors then []
        else
          ["✅ " ++ file ++ ": no errors found (" ++
            toString analysis.module.items.length ++ " items)"]
  let stderr :=
    match invocation.format with
    | .json => []
    | .human => humanLines invocation file source diagnostics
  ⟨exitStatus diagnostics, lines stdout, lines stderr⟩

/-- The tree as JSON. -/
def parse (invocation : Invocation) (spans : Bool) (file source : String) : Output :=
  let analysis := analyse source 0
  let tree := if spans then analysis.module.spannedJson else analysis.module.bareJson
  ⟨exitStatus analysis.diagnostics, lines [tree.render],
    lines (sideLines invocation file source analysis.diagnostics)⟩

/-- The class of a token in a listing. -/
def tokenClass : TokenKind → String
  | .keyword _ => "keyword"
  | .symbol _ => "punct"
  | .ident _ => "ident"
  | .number => "number"
  | .string _ => "string"
  | .char _ => "char"
  | .invalid => "error"
  | .eof => "eof"

/-- The place, the class and the text of a token. -/
def tokenLine (index : LineIndex) (token : Token) : String :=
  let place := index.position token.span.start
  toString place.line ++ ":" ++ toString place.column ++ " " ++
    tokenClass token.kind ++ " " ++ token.text

/-- One line for each token. -/
def listTokens (invocation : Invocation) (file source : String) : Output :=
  let diagnostics := Diagnostics.ofProblems (lexicalProblems source 0)
  ⟨exitStatus diagnostics,
    lines ((tokens source 0).map (tokenLine (.ofSource source))),
    lines (sideLines invocation file source diagnostics)⟩

/-- The answer about a file, or the reason why it cannot be read. -/
def onFile (read : String → Except ReadFailure String) (file : String)
    (answer : String → Output) : Output :=
  match read file with
  | .ok source => answer source
  | .error failure =>
      ⟨1, "", lines ["error: failed to read " ++ file ++ ": " ++ failure.message]⟩

/-- The answer to an invocation; `read` gives the text of a file. -/
def run (invocation : Invocation) (read : String → Except ReadFailure String) :
    Output :=
  match invocation.command with
  | some (.check file) => onFile read file (check invocation file)
  | some (.parse file noSpans) => onFile read file (parse invocation (!noSpans) file)
  | some (.tokens file) => onFile read file (listTokens invocation file)
  | some .version => ⟨0, lines [version, "Iblang front end"], ""⟩
  | none =>
      match invocation.file with
      | some file => onFile read file (check invocation file)
      | none =>
          ⟨2, "", lines
            ["Error: No input file specified",
              "Usage: ibc <FILE> or ibc check <FILE>"]⟩

/-- The answer to a command line. The reader of the arguments answers by itself if they do not
make up an invocation. -/
def answerBy (readArgs : List String → Except Output Invocation) (args : List String)
    (read : String → Except ReadFailure String) : Output :=
  match readArgs args with
  | .ok invocation => run invocation read
  | .error output => output

/-- The answer by the reader that the program is built with here. -/
def answer (args : List String) (read : String → Except ReadFailure String) : Output :=
  answerBy Invocation.ofArgs args read

end SourceFront.Command
