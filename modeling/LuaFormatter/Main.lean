import LuaFormatter.Command.Run

/-!
# The program

Reads the file or the standard input that the arguments name, runs the request, and carries out what
it leaves behind.
-/

open LuaFormatter

/-- The contents of a file, if it can be read. -/
def readContents? (file : String) : IO (Option ByteArray) := do
  try
    return some (← IO.FS.readBinFile file)
  catch _ =>
    return none

/-- All of standard input. -/
partial def readInput (stream : IO.FS.Stream) (read : ByteArray) : IO ByteArray := do
  let chunk ← stream.read 65536
  if chunk.isEmpty then return read else readInput stream (read ++ chunk)

/-- What a request finds: the one file that it names, or standard input. -/
def findWorld (request : Request) : IO World := do
  match request.file? with
  | none => return ⟨[], ByteArray.empty⟩
  | some "-" => return ⟨[], ← readInput (← IO.getStdin) ByteArray.empty⟩
  | some file =>
    match ← readContents? file with
    | some contents => return ⟨[(file, contents)], ByteArray.empty⟩
    | none => return ⟨[], ByteArray.empty⟩

/-- Run the program with its arguments. -/
def main (arguments : List String) : IO UInt32 := do
  match Request.ofArguments? arguments with
  | none =>
    IO.eprintln "error: the arguments were not understood"
    return 2
  | some request =>
    let world ← findWorld request
    let outcome := request.run world
    IO.eprint outcome.errors
    IO.print outcome.output
    for (file, contents) in outcome.files do
      unless world.files.any fun (name, before) => name == file && before == contents do
        IO.FS.writeBinFile file contents
    return outcome.status.code.toUInt32
