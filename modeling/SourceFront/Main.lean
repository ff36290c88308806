import SourceFront.Command.Run

/-!
The program: it reads the file that the arguments name and writes the answer.
-/

namespace SourceFront.Command

/-- The text of a file of the system. -/
def readFile (path : String) : IO (Except ReadFailure String) := do
  try
    return decode (← IO.FS.readBinFile path)
  catch failure =>
    match failure with
    | .noFileOrDirectory .. => return .error .notFound
    | .permissionDenied .. => return .error .denied
    | .invalidArgument _ _ "name too long" => return .error .nameTooLong
    -- a directory can be opened, but not read from
    | .inappropriateType (some _) .. => return .error .notDirectory
    | .inappropriateType none .. => return .error .isDirectory
    | failure => return .error (.other (toString failure))

/-- Answers a command line on the standard streams. -/
def answerHere (args : List String) : IO UInt32 := do
  let request? := (Invocation.ofArgs args).toOption.bind (·.request?)
  let text ←
    match request?.bind (·.file?) with
    | some file => readFile file
    | none => pure (.error .notFound)
  let output := answer args fun _ => text
  (← IO.getStdout).putStr output.stdout
  (← IO.getStderr).putStr output.stderr
  return output.exit.toUInt32

end SourceFront.Command

/-- The entry point of the program. -/
def main (args : List String) : IO UInt32 :=
  SourceFront.Command.answerHere args
