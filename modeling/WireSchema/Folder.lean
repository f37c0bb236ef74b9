import WireSchema.Text.Lines

/-!
# Folders

A working folder as a value, and what reading a path in it gives. A path is walked part by part: a
part names an entry of the folder reached so far, `.` and the empty part stay there, and `..` goes
one folder up. Nothing is known of what lies outside of the working folder but that it is a folder.
-/

namespace WireSchema

/-- Why a file cannot be read. -/
inductive ReadError where
  | notFound
  | denied
  /-- Something other than a folder stands in the middle of the path. -/
  | notFolder
  | isFolder
  | nameTooLong
  /-- The bytes of the file are no text. -/
  | notText
  /-- Anything else, in the words of the system. -/
  | system (text : String)
  deriving DecidableEq, Repr

def ReadError.message : ReadError → String
  | .notFound => "No such file or directory (os error 2)"
  | .denied => "Permission denied (os error 13)"
  | .notFolder => "Not a directory (os error 20)"
  | .isFolder => "Is a directory (os error 21)"
  | .nameTooLong => "File name too long (os error 36)"
  | .notText => "stream did not contain valid UTF-8"
  | .system text => text

/-- The parts of a path. -/
def pathParts (path : String) : List String :=
  (Text.splitAtMarks (· == '/') [] path.toList).map String.ofList

/-- A folder, by the paths of the files in it and below. -/
structure Folder where
  files : List (List String × String)
  deriving Repr

namespace Folder

/-- The folder with the given files; of several with one path the last counts. -/
def ofFiles (files : List (String × String)) : Folder :=
  ⟨files.reverse.map fun (path, text) => (pathParts path, text)⟩

/-- A place that a walk reaches. -/
inductive Place where
  /-- In the folder or below, by the names that lead there. -/
  | inside (names : List String)
  | outside
  deriving DecidableEq, Repr

def text? (f : Folder) (names : List String) : Option String := f.files.lookup names

/-- Whether there is a folder at `names`. -/
def isFolder (f : Folder) (names : List String) : Bool :=
  names.isEmpty || f.files.any fun (path, _) => names.isPrefixOf path && names != path

/-- The longest name of an entry, in bytes. -/
def nameLimit : Nat := 255

/-- The longest path, in bytes. -/
def pathLimit : Nat := 4095

/-- The place that the entry `name` of a folder leads to. -/
def enter (f : Folder) (name : String) : Place → Except ReadError Place
  | .outside => .error .notFound
  | .inside names =>
    let inner := names ++ [name]
    if (f.text? inner).isSome || f.isFolder inner then .ok (.inside inner) else .error .notFound

/-- The place one folder up. -/
def up : Place → Place
  | .inside (name :: rest) => .inside (name :: rest).dropLast
  | _ => .outside

/-- One part of a walk. -/
def step (f : Folder) (place : Place) (part : String) : Except ReadError Place :=
  let atFile := match place with
    | .inside names => (f.text? names).isSome
    | .outside => false
  if atFile then .error .notFolder
  else if part = "" || part = "." then .ok place
  else if part = ".." then .ok (up place)
  else if nameLimit < part.utf8ByteSize then .error .nameTooLong
  else f.enter part place

/-- The place that a path leads to. One that begins with a slash begins outside. -/
def walk (f : Folder) (path : String) : Except ReadError Place :=
  if path = "" then .error .notFound
  else if pathLimit < path.utf8ByteSize then .error .nameTooLong
  else
    let start : Place := if path.toList.head? = some '/' then .outside else .inside []
    (pathParts path).foldlM f.step start

/-- The text of the file at a path. -/
def read (f : Folder) (path : String) : Except ReadError String := do
  match ← f.walk path with
  | .outside => throw .isFolder
  | .inside names =>
    match f.text? names with
    | some text => return text
    | none => throw .isFolder

end Folder

end WireSchema
