import WireSchema.Folder
import WireSchema.Print.Module
import WireSchema.Source.Reading

/-!
# The command line

A call names the schema files to compile as one schema, or none to compile what stands on the
standard input. Every option counts once; it is taken out of the arguments where it stands first, so
a second one is unknown.
-/

namespace WireSchema

/-- Why a call fails. -/
inductive CommandError where
  | missingValue (option : String)
  | unknownOption (argument : String)
  /-- A schema file cannot be read. -/
  | reading (path : String) (cause : ReadError)
  /-- The standard input cannot be read. -/
  | input (cause : ReadError)
  | schema (cause : SchemaError)
  | noSuchFile (path : String)
  deriving DecidableEq, Repr

def CommandError.message : CommandError → String
  | .missingValue option => option ++ " needs a value"
  | .unknownOption argument => "unknown option " ++ argument
  | .reading path cause => "reading " ++ path ++ "\n\nCaused by:\n    " ++ cause.message
  | .input cause => cause.message
  | .schema cause => cause.message
  | .noSuchFile path => "no generated file named " ++ path

/-- What a call asks for. -/
structure Command where
  print : PrintOptions := {}
  /-- The only file to print. -/
  only : Option String := none
  /-- Whether to list the paths instead. -/
  list : Bool := false
  /-- The schema files. -/
  paths : List String := []
  deriving Repr

namespace Command

/-- Takes a flag out of the arguments. -/
def takeFlag (name : String) (args : List String) : Bool × List String :=
  (args.contains name, args.erase name)

/-- Takes an option with its value out of the arguments. -/
def takeValue (names : List String) :
    List String → Except CommandError (Option String × List String)
  | [] => .ok (none, [])
  | arg :: rest =>
    if names.contains arg then
      match rest with
      | value :: rest => .ok (some value, rest)
      | [] => .error (.missingValue arg)
    else do
      let (value, rest) ← takeValue names rest
      return (value, arg :: rest)

def isOption (arg : String) : Bool := arg.toList.head? == some '-'

/-- What the arguments ask for. -/
def ofArgs (args : List String) : Except CommandError Command := do
  let (runtime, args) ← takeValue ["--runtime"] args
  let (noHeader, args) := takeFlag "--no-header" args
  let (_, args) := takeFlag "--little-endian" args
  let (only, args) ← takeValue ["-o", "--only"] args
  let (list, args) := takeFlag "--list" args
  match args.find? isOption with
  | some arg => throw (.unknownOption arg)
  | none =>
    let plain : PrintOptions := {}
    let print := { plain with
      runtimePath := runtime.getD plain.runtimePath, header := !noHeader }
    return { print, only, list, paths := args }

/-- The schema text: the files one after another, each with a line end, or else the input. -/
def source (c : Command) (read : String → Except ReadError String)
    (input : Except ReadError String) : Except CommandError String :=
  if c.paths.isEmpty then input.mapError .input
  else do
    let texts ← c.paths.mapM fun path => (read path).mapError (.reading path)
    return String.join (texts.map (· ++ "\n"))

/-- What is printed of the files. -/
def select (c : Command) (files : List (String × String)) : Except CommandError String :=
  if c.list then .ok (String.join (files.map fun (path, _) => path ++ "\n"))
  else
    match c.only with
    | none => .ok (String.join (files.map fun (path, text) =>
      "// ==> " ++ path ++ "\n" ++ text ++ "\n"))
    | some path =>
      match files.lookup path with
      | some text => .ok text
      | none => .error (.noSuchFile path)

/-- What is printed for a schema text. -/
def output (c : Command) (text : String) : Except CommandError String := do
  let schema ← (Schema.parse text).mapError .schema
  let files ← (schema.compile .none c.print).mapError .schema
  c.select files

/-- What a call with the given arguments prints; `read` gives the text of a file and `input` that of
the standard input. -/
def run (args : List String) (read : String → Except ReadError String)
    (input : Except ReadError String) : Except CommandError String := do
  let c ← ofArgs args
  let text ← c.source read input
  c.output text

end Command

end WireSchema
