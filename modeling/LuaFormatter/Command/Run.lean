import LuaFormatter.Command.Request
import LuaFormatter.Format.Program
import LuaFormatter.Report.Frame
import LuaFormatter.Report.Message
import LuaFormatter.Tree.Outline

/-!
# Running a request

What the program does with its files and its standard input, as a function: `Request.run` gives the
exit status, what is printed, and the files afterwards. Only `format` changes a file, and only if
neither a preview nor a check was asked for.
-/

namespace LuaFormatter

/-- What a run finds: the files by their names, and standard input. -/
structure World where
  files : List (String × ByteArray)
  input : ByteArray

/-- How a run ends. -/
inductive Status where
  /-- All is well. -/
  | success
  /-- The file is not as it should be. -/
  | failure
  /-- The file could not be read. -/
  | trouble
deriving DecidableEq

/-- The exit code of a status. -/
def Status.code : Status → Nat
  | success => 0
  | failure => 1
  | trouble => 2

/-- What a run leaves behind. -/
structure Outcome where
  status : Status
  output : String := ""
  errors : String := ""
  files : List (String × ByteArray)

namespace World

/-- The number of bytes from which on a text is too large to read: offsets have 32 bits. -/
def sizeLimit : Nat := 4294967295

/-- The text of some bytes, or the message that there are none or that they are not a text. -/
def decode (contents : Option ByteArray) (problem : Message) : Except Message String :=
  match contents.bind String.fromUTF8? with
  | none => .error problem
  | some text =>
    if sizeLimit ≤ text.utf8ByteSize then .error { title := "File too large - max size 4GB" }
    else .ok text

/-- The bytes that a file name stands for, if there are any. A dash stands for standard input. -/
def contents? (world : World) (file : String) : Option ByteArray :=
  if file = "-" then some world.input else world.files.lookup file

/-- The text of a file, or the message that it cannot be read. -/
def read (world : World) (file : String) : Except Message String :=
  decode (world.contents? file)
    (if file = "-" then { title := "Problem Reading from STDIN" }
    else { title := "File not found `" ++ file ++ "`" })

/-- The files after one of them was written. -/
def write (world : World) (file : String) (text : String) : List (String × ByteArray) :=
  world.files.map fun (name, contents) =>
    if name = file then (name, text.toUTF8) else (name, contents)

end World

/-- A message on lines of its own, with an empty line after it. -/
def Message.report (message : Message) : String :=
  message.styled.plain ++ "\n"

/-- The faults of a program, each with the code that it is about. -/
def Program.report (program : Program) (file : String) : String :=
  String.join <| program.faults.map fun fault =>
    (Message.ofFault fault).report ++ (frame file program.source fault.span).plain ++ "\n"

/-- The tokens of a source, one on a line. -/
def tokenReport (file : String) (source : List Char) : String :=
  let line (token : Token) : String :=
    let length :=
      if token.kind.isFixed then "" else " (length: " ++ toString token.length ++ ")"
    Frame.alignedNumber token.start ++ " │ " ++ token.kind.describe ++ length ++ "\n"
  "    ╭─[Tokens: " ++ Frame.shownTitle file ++ "]\n" ++
    String.join ((tokenise source).map line) ++ "────╯\n"

/-- The tree of a program. -/
def Program.treeReport (program : Program) (file : String) : String :=
  (if program.isValid then "" else "\n") ++
    "╭─[Abstract Syntax Tree: " ++ Frame.shownTitle file ++ "]\n" ++ outline program.root ++ "╯\n"

/-- The message that a file is not formatted. -/
def notFormatted (file : String) : Message where
  title := "File is not formatted"
  body := "`" ++ Frame.shownTitle file ++ "` is not formatted"
  hint := some "run `lunar format` on the file to format it"

namespace Request

/-- Read a file and go on with its text; a file that cannot be read is reported. -/
def withSource (world : World) (file : String) (next : String → Outcome) : Outcome :=
  match world.read file with
  | .ok source => next source
  | .error message => { status := .trouble, errors := message.report, files := world.files }

/-- Read a program and go on with it; one with faults is reported. -/
def withProgram (world : World) (file : String) (next : String → Program → Outcome) : Outcome :=
  withSource world file fun source =>
    let program := parse source.toList
    if program.isValid then next source program
    else { status := .trouble, errors := program.report file, files := world.files }

/-- Format a file: preview, check or write it. Standard input is printed instead of written. -/
def runFormat (world : World) (file : String) (mode : FormatMode) (style : Style) : Outcome :=
  withProgram world file fun source program =>
    let formatted := String.ofList (program.format style)
    if mode.dryRun then { status := .success, output := formatted, files := world.files }
    else if mode.check then
      if formatted = source then { status := .success, files := world.files }
      else
        { status := .failure, errors := (notFormatted file).report, files := world.files }
    else if file = "-" then { status := .success, output := formatted, files := world.files }
    else if formatted = source then { status := .success, files := world.files }
    else { status := .success, files := world.write file formatted }

/-- Do what is asked for. -/
def run (world : World) : Request → Outcome
  | version => { status := .success, output := "lunar 0.1.0\n", files := world.files }
  | format file mode style => runFormat world file mode style
  | printTokens file =>
    withSource world file fun source =>
      { status := .success, output := tokenReport file source.toList, files := world.files }
  | printTree file =>
    withSource world file fun source =>
      let program := parse source.toList
      { status := .success, output := program.treeReport file, errors := program.report file
        files := world.files }
  | printDoc file style =>
    withProgram world file fun _ program =>
      { status := .success, output := (program.toDoc style).outline ++ "\n", files := world.files }

end Request

end LuaFormatter
