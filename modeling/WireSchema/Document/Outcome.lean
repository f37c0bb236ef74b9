import WireSchema.Document.Code
import WireSchema.RunError
import WireSchema.Schema

/-!
# Errors, schemas and generated code in documents

An error is a record of the name of its cause and its message.
-/

namespace WireSchema.Document

def ofError (kind message : String) : Document :=
  .record [("error", .word kind), ("message", .word message)]

/-- The name of the cause of a schema error. -/
def schemaErrorKind : SchemaError → String
  | .duplicateProtocol _ => "DuplicateProtocol"
  | .duplicateType _ => "DuplicateType"
  | .duplicatePacket _ _ _ => "DuplicatePacket"
  | .unresolvedReference _ => "UnresolvedReference"
  | .alreadyResolved _ => "AlreadyResolved"
  | .bitSlotMissing _ _ => "BitSlotMissing"
  | .bitSlotRepeated _ _ => "BitSlotRepeated"
  | .bitSlotNested _ _ => "BitSlotNested"
  | .notABitSlot _ _ => "NotABitSlot"
  | .packedOverflow _ _ _ => "PackedOverflow"
  | .invalidBacking _ => "InvalidBacking"
  | .notAStruct _ => "NotAStruct"
  | .nonBooleanPresence _ => "NonBooleanPresence"
  | .invalidEnumId _ _ _ => "InvalidEnumId"
  | .duplicateTag _ _ => "DuplicateTag"
  | .emptyUnion _ => "EmptyUnion"
  | .unknownTagVariant _ _ => "UnknownTagVariant"
  | .unknownType _ => "UnknownType"
  | .parse _ => "Parse"
  | .hook _ => "Hook"
  | .overflow => "panic"
  | .tooDeep => "TooDeep"

/-- An error of a schema. A program that stops at an overflow has no message. -/
def ofSchemaError : SchemaError → Document
  | .overflow => .record [("error", .word (schemaErrorKind .overflow))]
  | e => ofError (schemaErrorKind e) e.message

/-- The name of the cause of a decoding error. -/
def decodeErrorKind : Wire.DecodeError → String
  | .unexpectedEnd => "UnexpectedEof"
  | .malformedVarint _ => "MalformedVarInt"
  | .negativeLength _ => "NegativeLength"
  | .invalidUtf8 _ => "InvalidUtf8"
  | .unknownEnumId _ _ => "UnknownEnumId"
  | .unknownTag _ _ => "UnknownTag"
  | .literalMismatch _ _ => "LiteralMismatch"
  | .unknownPacket _ _ => "UnknownPacket"
  | .transform _ _ => "Transform"

/-- The name of the cause of an encoding error. -/
def encodeErrorKind : Wire.EncodeError → String
  | .unknownEnumName _ _ => "UnknownEnumName"
  | .unmatchedVariant _ => "UnmatchedVariant"
  | .lengthMismatch _ _ => "LengthMismatch"
  | .lengthOverflow _ => "LengthOverflow"
  | .transform _ _ => "Transform"

/-- The name of the cause of an error of a run. -/
def runErrorKind : RunError → String
  | .decode cause => "Decode." ++ decodeErrorKind cause
  | .encode cause => "Encode." ++ encodeErrorKind cause
  | .shape _ _ => "Shape"
  | .unknownPacket _ => "UnknownPacket"
  | .unknownFlow _ => "UnknownFlow"
  | .unknownDecl _ => "UnknownDecl"
  | .unbound _ => "Unbound"
  | .unknownFunction _ => "UnknownFunction"
  | .tooDeep => "TooDeep"

def ofRunError (e : RunError) : Document := ofError (runErrorKind e) e.message

/-- A result, with its error as a document. -/
def ofResult {α : Type} (write : α → Document) : Except SchemaError α → Document
  | .ok a => write a
  | .error e => ofSchemaError e

/-- A packet of a schema with its id. -/
def ofPacket (refs : Refs) (p : Packet) (id : Nat) : Document :=
  .record [
    ("id", .number id), ("name", .word p.name), ("doc", optional .word p.doc),
    ("methods", words p.methods),
    ("fields", rowOf (fun f => .record [
      ("name", .word f.name), ("type", .word (f.shape.canonicalName refs)),
      ("stored", .flag f.shape.isStored), ("doc", optional .word f.doc)]) p.fields)]

/-- The protocols of a schema, with the canonical names of the types of their fields. -/
def ofSchema (s : Schema) : Document :=
  let packets (ps : List Packet) : Document :=
    .row (ps.zipIdx.map fun (p, id) => ofPacket s.refs p id)
  .record [("protocols", rowOf (fun p => .record [
    ("name", .word p.name), ("serverbound", packets p.serverbound),
    ("clientbound", packets p.clientbound)]) s.protocols)]

def ofGeneratedPacket (p : Generated.Packet) : Document :=
  .record [
    ("id", .number p.id), ("name", .word p.name), ("type_name", .word p.typeName),
    ("handler", .word p.handler), ("doc", optional .word p.doc), ("fields", rowOf ofField p.fields),
    ("decode", ofBlock p.decode), ("this", ofLocal p.this), ("encode", ofBody p.encode),
    ("methods", words p.methods)]

def ofFlow (f : Generated.FlowUnit) : Document :=
  .record [
    ("flow", .word f.flow.name), ("shared", words f.shared), ("external", words f.external),
    ("packets", rowOf ofGeneratedPacket f.packets)]

/-- The paths of host functions, in order. -/
def ofFunctions (functions : List (String × HostFunction)) : Document :=
  words ((functions.map (·.1)).mergeSort (· ≤ ·))

def ofGenerated (g : Generated) : Document :=
  .record [
    ("types", rowOf ofDecl g.types), ("functions", ofFunctions g.functions),
    ("protocols", rowOf (fun p => .record [("name", .word p.name), ("flows", rowOf ofFlow p.flows)])
      g.protocols)]

end WireSchema.Document
