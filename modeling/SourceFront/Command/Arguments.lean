import SourceFront.Command.Invocation

/-!
A reader of the arguments, with which the program can run: a command with its file, and
options, which may stand before or behind the command. What stands nearer to the file
counts. Nothing that is proved of the answers depends on it.
-/

namespace SourceFront.Command

/-- The word of a command. -/
inductive Verb where
  | check | parse | tokens | version
  deriving DecidableEq, Repr

/-- The options of one place, as far as they are set. -/
structure Options where
  format : Option Format
  cap : Option Nat
  deriving DecidableEq, Repr

/-- Why arguments do not make up an invocation. -/
inductive Notice where
  /-- The version is asked for by an option. -/
  | version
  | help
  | misuse
  deriving DecidableEq, Repr

/-- The answer of the reader itself. -/
def Notice.output : Notice → Output
  | version => ⟨0, lines [Command.version], ""⟩
  | help => ⟨0, lines ["Usage: ibc [OPTIONS] [FILE] [COMMAND]"], ""⟩
  | misuse => ⟨2, "", lines ["error: the arguments are not understood"]⟩

/-- The format that a word asks for. -/
def Format.ofWord? : String → Option Format
  | "human" => some .human
  | "json" => some .json
  | _ => none

/-- The command that a word names. -/
def Verb.ofWord? : String → Option Verb
  | "check" => some .check
  | "parse" => some .parse
  | "tokens" => some .tokens
  | "version" => some .version
  | _ => none

/-- A number in decimal digits, perhaps behind a plus sign, of 64 bits at most. -/
def natural? (word : String) : Option Nat :=
  let digits :=
    match word.toList with
    | '+' :: digits => digits
    | digits => digits
  if digits.isEmpty || !digits.all Char.isDigit then none
  else
    let value := digits.foldl (fun n c => 10 * n + (c.toNat - '0'.toNat)) 0
    if value < UInt64.size then some value else none

/-- An argument by its form. -/
inductive Argument where
  /-- The name of an option, with the value joined to it by an equals sign. -/
  | long (name : String) (value : Option String)
  /-- A hyphen and letters, of which the first one counts. -/
  | short (letter : Char)
  /-- No later argument is an option. -/
  | endOfOptions
  | word (text : String)
  deriving DecidableEq, Repr

/-- A lone hyphen is a word. -/
def Argument.ofString (text : String) : Argument :=
  match text.toList with
  | ['-', '-'] => endOfOptions
  | '-' :: '-' :: body =>
      let value :=
        match body.dropWhile (· != '=') with
        | _ :: value => some (String.ofList value)
        | [] => none
      long (String.ofList (body.takeWhile (· != '='))) value
  | '-' :: letter :: _ => short letter
  | _ => word text

/-- The arguments read so far. -/
structure Draft where
  /-- The command, once it is read. -/
  verb : Option Verb
  /-- The file behind the command, or a file that stands alone. -/
  file : Option String
  /-- A file before the command. -/
  outerFile : Option String
  noSpans : Bool
  /-- The options before the command. -/
  outer : Options
  /-- The options behind it. -/
  inner : Options
  deriving DecidableEq, Repr

namespace Draft

/-- What is known before any argument has been read. -/
def empty : Draft :=
  ⟨none, none, none, false, ⟨none, none⟩, ⟨none, none⟩⟩

/-- The options that the next option belongs to. -/
def options (draft : Draft) : Options :=
  if draft.verb.isSome then draft.inner else draft.outer

/-- Sets the options that an option read now belongs to: those behind the command, if it has been
read. -/
def withOptions (draft : Draft) (options : Options) : Draft :=
  if draft.verb.isSome then { draft with inner := options }
  else { draft with outer := options }

/-- Sets a named option, which must not be set yet in its place. -/
def addOption? (draft : Draft) (name value : String) : Option Draft :=
  match name with
  | "format" =>
      if draft.options.format.isSome then none
      else
        (Format.ofWord? value).map fun format =>
          draft.withOptions { draft.options with format := some format }
  | "max-errors" =>
      if draft.options.cap.isSome then none
      else
        (natural? value).map fun cap =>
          draft.withOptions { draft.options with cap := some cap }
  | _ => none

/-- A word that names no command names the one file. -/
def addFile? (draft : Draft) (name : String) : Option Draft :=
  if name.isEmpty || draft.file.isSome || draft.verb = some .version then none
  else some { draft with file := some name }

/-- The first command word is the command. -/
def addWord? (draft : Draft) (word : String) : Option Draft :=
  match draft.verb, Verb.ofWord? word with
  | none, some verb =>
      some { draft with verb := some verb, file := none, outerFile := draft.file }
  | _, _ => draft.addFile? word

/-- Leaves the ranges out of a tree. Only `parse` takes this option, and only once. -/
def addNoSpans? (draft : Draft) : Option Draft :=
  if draft.verb = some .parse && !draft.noSpans then some { draft with noSpans := true }
  else none

/-- The command of a whole command line, if there is one. A command needs its file. -/
def command? (draft : Draft) : Option (Option Request) :=
  match draft.verb, draft.file with
  | some .check, some file => some (some (.check file))
  | some .parse, some file => some (some (.parse file draft.noSpans))
  | some .tokens, some file => some (some (.tokens file))
  | some .version, _ => some (some .version)
  | some _, none => none
  | none, _ => some none

/-- The invocation that all arguments make up, if they are enough. -/
def invocation? (draft : Draft) : Option Invocation :=
  draft.command?.map fun command =>
    ⟨command, if draft.verb.isSome then draft.outerFile else draft.file,
      (draft.inner.format.or draft.outer.format).getD .human,
      draft.inner.cap.or draft.outer.cap⟩

/-- A step of the reader that must not fail. -/
def orMisuse {α : Type} : Option α → Except Notice α
  | some a => .ok a
  | none => .error .misuse

/-- Reads the arguments that are left. -/
def read (draft : Draft) : List String → Except Notice Invocation
  | [] => orMisuse draft.invocation?
  | arg :: args =>
      match Argument.ofString arg with
      | .endOfOptions => orMisuse ((args.foldlM addFile? draft).bind invocation?)
      | .word text =>
          if text = "help" && draft.verb.isNone then .error .help
          else do
            let draft ← orMisuse (draft.addWord? text)
            draft.read args
      | .short letter =>
          if letter = 'h' then .error .help
          else if letter = 'V' && draft.verb.isNone then .error .version
          else .error .misuse
      | .long "help" none => .error .help
      | .long "version" none =>
          if draft.verb.isNone then .error .version else .error .misuse
      | .long "no-spans" none => do
          let draft ← orMisuse draft.addNoSpans?
          draft.read args
      | .long name (some value) => do
          let draft ← orMisuse (draft.addOption? name value)
          draft.read args
      | .long name none =>
          match args with
          | [] => .error .misuse
          | value :: args => do
              let .word text := Argument.ofString value | .error .misuse
              let draft ← orMisuse (draft.addOption? name text)
              draft.read args

end Draft

/-- What the arguments ask for, or the answer if they ask for nothing that can be done. -/
def Invocation.ofArgs (args : List String) : Except Output Invocation :=
  (Draft.empty.read args).mapError Notice.output

end SourceFront.Command
