/-!
Reading a file by its name, from a directory that holds nothing but files. A path
is walked step by step, so the first step that fails gives the reason.
-/

namespace SourceFront.Command

/-- Why a file has no text. -/
inductive ReadFailure where
  | notFound
  | denied
  | notDirectory
  | isDirectory
  | nameTooLong
  | notText
  | other (message : String)
  deriving DecidableEq, Repr

/-- The reason as it is shown to the user. -/
def ReadFailure.message : ReadFailure → String
  | notFound => "No such file or directory (os error 2)"
  | denied => "Permission denied (os error 13)"
  | notDirectory => "Not a directory (os error 20)"
  | isDirectory => "Is a directory (os error 21)"
  | nameTooLong => "File name too long (os error 36)"
  | notText => "stream did not contain valid UTF-8"
  | other message => message

/-- The text that the bytes of a file encode. -/
def decode (bytes : ByteArray) : Except ReadFailure String :=
  match String.fromUTF8? bytes with
  | some text => .ok text
  | none => .error .notText

/-- The bytes that a path may have. -/
def pathLimit : Nat := 4095

/-- The bytes that one name in a path may have. -/
def nameLimit : Nat := 255

/-- Files by their names, in the order in which they are written. -/
abbrev Directory := List (String × ByteArray)

/-- Where a path has led to. -/
inductive Spot where
  | directory
  /-- A directory above, in which no name is known. -/
  | above
  | file (bytes : ByteArray)

namespace Directory

/-- The file of a name. A file takes the place of an earlier one of its name. -/
def file? (directory : Directory) (name : String) : Option ByteArray :=
  directory.reverse.lookup name

/-- The spot that a name leads to from within a directory. -/
def enter (directory : Directory) : Spot → String → Except ReadFailure Spot
  | .directory, name =>
      match directory.file? name with
      | some bytes => .ok (.file bytes)
      | none => .error .notFound
  | _, _ => .error .notFound

/-- One step of a path. No step leads on from a file; a step of no or of one point
stays where it is, and one of two points leads above. -/
def step (directory : Directory) : Spot → String → Except ReadFailure Spot
  | .file _, _ => .error .notDirectory
  | spot, name =>
      if name = "" ∨ name = "." then .ok spot
      else if name = ".." then .ok .above
      else if nameLimit < name.utf8ByteSize then .error .nameTooLong
      else directory.enter spot name

/-- The steps of a path, with slashes between them. -/
def steps (path : String) : List String :=
  (path.toList.splitOn '/').map String.ofList

/-- Where a path starts: above, if a slash leads it. -/
def start (path : String) : Spot :=
  if path.toList.head? = some '/' then .above else .directory

/-- The spot at the end of a path. -/
def find (directory : Directory) (path : String) : Except ReadFailure Spot :=
  if path = "" then .error .notFound
  else if pathLimit < path.utf8ByteSize then .error .nameTooLong
  else (steps path).foldlM directory.step (start path)

/-- The text of the file that a path names. -/
def read (directory : Directory) (path : String) : Except ReadFailure String := do
  match ← directory.find path with
  | .file bytes => decode bytes
  | .directory | .above => .error .isDirectory

end Directory

end SourceFront.Command
