import WireSchema.Generate
import WireSchema.Print.Code

/-!
# Source files

The files of a schema: one of shared types, for each protocol one that joins its flows and one for
each flow, and one that lists them all.
-/

namespace WireSchema

/-- How source is written. -/
structure PrintOptions where
  /-- The module from which generated code takes the reader and the writer. -/
  runtimePath : String := "packetgen::wire"
  /-- Whether files begin with a banner. -/
  header : Bool := true
  /-- What types derive. -/
  derives : List String := ["Debug", "Clone", "PartialEq"]
  deriving Repr

namespace Print

open Ir Naming

def banner (o : PrintOptions) : List Line :=
  if o.header then [line "// @generated by packetgen. Do not edit.", blank] else []

/-- What every file of code begins with. -/
def preamble (o : PrintOptions) : List Line :=
  banner o ++ [line "#![allow(unused_imports, unused_variables)]", blank]

def runtimeUse (o : PrintOptions) : Line :=
  line ("use " ++ o.runtimePath ++ "::\x7bDecodeError, EncodeError, Reader, Writer\x7d;")

def useLines (paths : List String) : List Line := paths.map fun p => line ("use " ++ p ++ ";")

/-- Documentation, line by line. -/
def docLines (doc : Option String) : List Line :=
  ((doc.map Text.lines).getD []).map fun l =>
    line ("/// " ++ String.ofList (Text.trimEnd l.toList))

def deriveLines (derives : List String) : List Line :=
  if derives.isEmpty then [] else [line ("#[derive(" ++ commas derives ++ ")]")]

/-- The head of a function that takes a reader or a writer. -/
def readerHead (name params result : String) : String :=
  "pub fn " ++ name ++ "<R: Reader + ?Sized>(" ++ params ++ "r: &mut R) -> Result<" ++ result ++
    ", DecodeError>"

/-! ### Shared types -/

def structLines (o : PrintOptions) (name : String) (fields : List FieldDecl)
    (doc : Option String) : List Line :=
  let head := "pub struct " ++ name
  docLines doc ++ deriveLines o.derives ++
    if fields.isEmpty then [line (head ++ " \x7b\x7d")]
    else braces head (fields.flatMap fun f =>
      docLines f.doc ++ [line ("pub " ++ memberName f.name ++ ": " ++ typeText f.type ++ ",")])

/-- What an enumeration derives: it can always be copied, compared and hashed. -/
def enumDerives (o : PrintOptions) : List String :=
  o.derives ++ ["Copy", "Eq", "Hash"].filter fun d => !o.derives.contains d

def enumLines (o : PrintOptions) (d : EnumDecl) : List Line :=
  let name := typeName d.name
  let idType := d.backing.valueType
  let unknown := "_ => Err(DecodeError::UnknownEnumId \x7b ty: " ++ ownedText d.name ++
    ", id: id as i128 \x7d),"
  deriveLines (enumDerives o) ++
  braces ("pub enum " ++ name) (d.entries.map fun (n, _) => line (typeName n ++ ",")) ++
  [blank] ++
  braces ("impl " ++ name) (
    braces ("pub fn from_id(id: " ++ idType ++ ") -> Result<Self, DecodeError>")
      (braces "match id" (d.entries.map (fun (n, id) =>
        line (toString id ++ " => Ok(" ++ name ++ "::" ++ typeName n ++ "),")) ++
        [line unknown])) ++
    [blank] ++
    braces ("pub fn to_id(&self) -> " ++ idType)
      (braces "match self" (d.entries.map fun (n, id) =>
        line (name ++ "::" ++ typeName n ++ " => " ++ toString id ++ ","))))

def unionLines (o : PrintOptions) (name : String) (variants : List VariantDecl) : List Line :=
  deriveLines o.derives ++
  braces ("pub enum " ++ typeName name) (variants.map fun v =>
    match v.payload with
    | some payload => line (typeName v.name ++ "(" ++ typeName payload ++ "),")
    | none => line (typeName v.name ++ ","))

def codecLines (d : CodecDecl) : List Line :=
  let type := typeText d.type
  braces (readerHead (readerName d.name) "" type) (block d.decode) ++
  [blank] ++
  braces ("pub fn " ++ writerName d.name ++ "<W: Writer + ?Sized>(w: &mut W, " ++ d.value.name ++
    ": &" ++ type ++ ") -> Result<(), EncodeError>") (encoderBody d.encode)

def declLines (o : PrintOptions) : Decl → List Line
  | .struct name fields => structLines o (typeName name) fields none
  | .enum d => enumLines o d
  | .union name variants => unionLines o name variants
  | .alias name target =>
    [line ("pub type " ++ typeName name ++ " = " ++ typeText target ++ ";")]
  | .codec d => codecLines d

/-- The symbols that a declaration needs in the file of shared types. -/
def declSymbols : Decl → List String
  | .struct _ fields => fields.flatMap (·.type.symbols)
  | .alias _ target => target.symbols
  | .codec d => d.type.symbols ++ d.decode.symbols ++ Stmt.symbols d.encode
  | .enum _ | .union _ _ => []

def typesFile (o : PrintOptions) (g : Generated) : List Line :=
  let paths := (distinct (g.types.flatMap declSymbols)).filter isPath
  preamble o ++ runtimeUse o :: useLines paths ++ g.types.flatMap fun d => blank :: declLines o d

/-! ### Protocols -/

def packetEnum (flow : Flow) : String := typeName flow.name ++ "Packet"

def handlerTrait (flow : Flow) : String := typeName flow.name ++ "Handler"

/-- The enumeration of the packets of a flow. -/
def packetEnumLines (o : PrintOptions) (f : Generated.FlowUnit) : List Line :=
  let module := f.flow.name
  let name := packetEnum f.flow
  let case (p : Generated.Packet) : String := name ++ "::" ++ typeName p.handler
  let path (p : Generated.Packet) : String := module ++ "::" ++ p.typeName
  let each (text : Generated.Packet → String) : List Line := f.packets.map fun p => line (text p)
  let unknown := "_ => Err(DecodeError::UnknownPacket \x7b flow: " ++ ownedText module ++
    ", id \x7d),"
  deriveLines o.derives ++
  braces ("pub enum " ++ name) (each fun p => typeName p.handler ++ "(" ++ path p ++ "),") ++
  [blank] ++
  braces ("impl " ++ name) (spaced [
    braces "pub fn id(&self) -> i32"
      (braces "match self" (each fun p => case p ++ "(_) => " ++ path p ++ "::ID,")),
    braces (readerHead "decode" "id: i32, " "Self")
      (braces "match id" (each (fun p =>
        Text.hexLiteral 2 p.id ++ " => Ok(" ++ case p ++ "(" ++ path p ++ "::decode(r)?)),") ++
        [line unknown])),
    braces "pub fn encode<W: Writer + ?Sized>(&self, w: &mut W) -> Result<(), EncodeError>"
      (braces "match self" (each fun p => case p ++ "(p) => p.encode(w),")),
    braces ("pub fn dispatch<H: " ++ module ++ "::" ++ handlerTrait f.flow ++
      " + ?Sized>(&self, handler: &mut H)")
      (braces "match self" (each fun p => case p ++ "(p) => p.dispatch(handler),"))])

def protocolFile (o : PrintOptions) (p : Generated.Protocol) : List Line :=
  let name := typeName p.name ++ "Protocol"
  preamble o ++ p.flows.map (fun f => line ("pub mod " ++ f.flow.name ++ ";")) ++
  [blank, runtimeUse o] ++
  p.flows.flatMap (fun f => blank :: packetEnumLines o f) ++
  [blank, line ("pub struct " ++ name ++ ";"), blank] ++
  braces ("impl " ++ name) (spaced (p.flows.map fun f =>
    braces (readerHead ("decode_" ++ f.flow.name) "id: i32, " (packetEnum f.flow))
      [line (packetEnum f.flow ++ "::decode(id, r)")]))

/-! ### Flows -/

/-- The source text of a further method, without empty lines at its ends. -/
def methodLines (method : String) : List Line :=
  (Text.lines (String.ofList (Text.trimMarks '\n' method.toList))).map line

def packetLines (o : PrintOptions) (handler : String) (p : Generated.Packet) : List Line :=
  structLines o p.typeName p.fields p.doc ++
  [blank] ++
  braces ("impl " ++ p.typeName) (spaced ([
    [line ("pub const ID: i32 = " ++ Text.hexLiteral 2 p.id ++ ";")],
    braces (readerHead "decode" "" "Self") (block p.decode),
    braces "pub fn encode<W: Writer + ?Sized>(&self, w: &mut W) -> Result<(), EncodeError>"
      (encoderBody p.encode),
    braces ("pub fn dispatch<H: " ++ handler ++ " + ?Sized>(&self, handler: &mut H)")
      [line ("handler." ++ p.handler ++ "(self);")]] ++
    p.methods.map methodLines))

/-- The names of shared declarations as the file of a flow imports them. -/
def importedName (g : Generated) (name : String) : String :=
  if (g.decl? name).isSome then typeName name else name

def sharedUse (g : Generated) (names : List String) : List Line :=
  if names.isEmpty then []
  else [line ("use super::super::types::\x7b" ++ commas (names.map (importedName g)) ++ "\x7d;")]

def flowFile (o : PrintOptions) (g : Generated) (f : Generated.FlowUnit) : List Line :=
  let handler := handlerTrait f.flow
  preamble o ++ runtimeUse o :: sharedUse g f.shared ++ useLines f.external ++
  f.packets.flatMap (fun p => blank :: packetLines o handler p) ++
  blank :: braces ("pub trait " ++ handler) (spaced (f.packets.map fun p =>
    [line ("fn " ++ p.handler ++ "(&mut self, _packet: &" ++ p.typeName ++ ") \x7b\x7d")]))

/-! ### All files -/

def rootFile (o : PrintOptions) (g : Generated) : List Line :=
  banner o ++ line "pub mod types;" ::
    g.protocols.map fun p => line ("pub mod " ++ memberName p.name ++ ";")

/-- The files of a protocol, with their paths. -/
def protocolFiles (o : PrintOptions) (g : Generated) (p : Generated.Protocol) :
    List (String × List Line) :=
  let dir := memberName p.name
  (dir ++ "/mod.rs", protocolFile o p) ::
    p.flows.map fun f => (dir ++ "/" ++ f.flow.name ++ ".rs", flowFile o g f)

end Print

/-- The source files of generated code, with their paths. -/
def Generated.files (g : Generated) (o : PrintOptions) : List (String × String) :=
  let files := ("types.rs", Print.typesFile o g) ::
    g.protocols.flatMap (Print.protocolFiles o g) ++ [("mod.rs", Print.rootFile o g)]
  files.map fun (path, lines) => (path, Print.renderLines lines)

/-- The source files of a schema. -/
def Schema.compile (hooks : Lowering.Hooks) (s : Schema) (o : PrintOptions) :
    Except SchemaError (List (String × String)) := do
  let g ← s.generate hooks
  return g.files o

end WireSchema
