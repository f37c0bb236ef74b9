import WireSchema.Text.Words

/-!
# Identifiers of generated code

How names of a schema become identifiers of the generated source: types in upper camel case,
members, bindings and handler methods in snake case, with a way round every keyword of the target
language.
-/

namespace WireSchema.Naming

/-- Words that cannot be plain identifiers of the target language. -/
def keywords : List String :=
  ["as", "async", "await", "break", "const", "continue", "crate", "dyn", "else", "enum", "extern",
   "false", "fn", "for", "if", "impl", "in", "let", "loop", "match", "mod", "move", "mut", "pub",
   "ref", "return", "self", "Self", "static", "struct", "super", "trait", "true", "type", "unsafe",
   "use", "where", "while", "abstract", "become", "box", "do", "final", "macro", "override", "priv",
   "try", "typeof", "unsized", "virtual", "yield"]

/-- Names that every generated function binds already: the reader, the writer and the parameter of
an encoder. -/
def reservedLocals : List String := ["r", "w", "value"]

def isKeyword (name : String) : Bool := keywords.contains name

/-- Whether a decimal digit begins `name`. -/
def startsWithDigit (name : String) : Bool :=
  match name.toList with
  | c :: _ => c.isDigit
  | [] => false

/-- The type identifier of a name. -/
def typeName (raw : String) : String :=
  let name := Text.upperCamel raw
  if name = "" then "Unnamed" else if startsWithDigit name then "T" ++ name else name

/-- The snake case of a name, made to begin like an identifier. -/
def snakeName (raw : String) : String :=
  let name := Text.snake raw
  if name = "" then "v" else if startsWithDigit name then "_" ++ name else name

/-- The member identifier of a name. A keyword is marked raw, where the language allows it. -/
def memberName (raw : String) : String :=
  let name := snakeName raw
  if isKeyword name then
    if ["self", "Self", "super", "crate"].contains name then name ++ "_" else "r#" ++ name
  else name

/-- The base name of a local binding. A keyword takes a trailing underscore. -/
def bindingName (raw : String) : String :=
  let name := snakeName raw
  if isKeyword name then name ++ "_" else name

/-- What follows `stem` in `name`, whatever the case of its letters, if an uppercase letter or an
underscore comes next. -/
def afterStem (stem name : List Char) : Option (List Char) :=
  if stem.isPrefixOf (name.map Char.toLower) then
    match name.drop stem.length with
    | c :: rest => if c.isUpper || c == '_' then some (c :: rest) else none
    | [] => none
  else none

/-- The handler method of a packet: the member name of what follows the name of its flow. -/
def handlerMethod (packet : String) : String :=
  let stems := ["serverbound".toList, "clientbound".toList, "bound".toList]
  let rest := (stems.findSome? (afterStem · packet.toList)).getD packet.toList
  let rest := rest.dropWhile (· == '_')
  memberName (if rest.isEmpty then packet else String.ofList rest)

/-- What follows the last `::` of `path`; `best` is the answer so far. -/
def lastSegmentFrom (best : List Char) : List Char → List Char
  | [] => best
  | ':' :: ':' :: rest => lastSegmentFrom rest (':' :: rest)
  | _ :: rest => lastSegmentFrom best rest

/-- The last segment of a path whose segments are divided by `::`. -/
def lastSegment (path : String) : String :=
  String.ofList (lastSegmentFrom path.toList path.toList)

/-- Whether a list of characters contains `::`. -/
def hasDivider : List Char → Bool
  | [] => false
  | ':' :: ':' :: _ => true
  | _ :: rest => hasDivider rest

/-- Whether `name` is a path of several segments. -/
def isPath (name : String) : Bool := hasDivider name.toList

end WireSchema.Naming
