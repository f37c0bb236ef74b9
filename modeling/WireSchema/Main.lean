import WireSchema.CommandLine

/-!
# Entry point

Reads the files of a call, prints what it asks for, and ends with status 1 after a failure.
-/

namespace WireSchema.Command

/-- The text of bytes that were read. -/
def textOfBytes (bytes : ByteArray) : Except ReadError String :=
  match String.fromUTF8? bytes with
  | some text => .ok text
  | none => .error .notText

/-- The number of an error, which the system reports with either sign. -/
def errorNumber (code : UInt32) : UInt32 := min code (0 - code)

/-- Why the system could not read a file. -/
def causeOf (e : IO.Error) : ReadError :=
  match e with
  | .noFileOrDirectory _ _ _ => .notFound
  | .permissionDenied _ _ _ => .denied
  | .inappropriateType _ code _ => if errorNumber code = 20 then .notFolder else .isFolder
  | .invalidArgument _ code _ =>
    if errorNumber code = 36 then .nameTooLong else .system (toString e)
  | e => .system (toString e)

/-- The text of a file, or why it cannot be read. -/
def readText (path : String) : IO (Except ReadError String) := do
  try
    return textOfBytes (← IO.FS.readBinFile path)
  catch e => return .error (causeOf e)

/-- The files and the input that a call needs. -/
def readSources (c : Command) :
    IO (List (String × Except ReadError String) × Except ReadError String) := do
  if c.paths.isEmpty then
    let input ← IO.getStdin
    return ([], textOfBytes (← input.readBinToEnd))
  let files ← c.paths.mapM fun path => do return (path, ← readText path)
  return (files, .ok "")

/-- Prints a failure; gives the status. -/
def report (e : CommandError) : IO UInt32 := do
  IO.eprintln ("Error: " ++ e.message)
  return 1

end WireSchema.Command

open WireSchema in
def main (args : List String) : IO UInt32 := do
  match Command.ofArgs args with
  | .error e => Command.report e
  | .ok c =>
    let (files, input) ← Command.readSources c
    let read (path : String) : Except ReadError String := (files.lookup path).getD (.ok "")
    match c.source read input >>= c.output with
    | .error e => Command.report e
    | .ok text =>
      IO.print text
      return 0
