import WireSchema.Machine.Eval

/-!
# Decoding and encoding with generated code

Codecs call each other no deeper than the data nests, and through each codec at most once without
taking from the data. So the calls may go as deep as the data seen so far allows, with room to
spare: the size of the value that is written, and the number of bytes that were read.
-/

namespace WireSchema

open Ir

/-- How deep codecs may call each other on data of the given size. -/
def Generated.callDepth (g : Generated) (size : Nat) : Nat :=
  (g.types.length + 1) * (size + 65536)

/-- The number of bytes that were read. -/
def Stream.position : Stream → Nat
  | .input reader => reader.position
  | .output _ => 0

/-- Fails if calls go deeper than the data seen so far allows: a value of the given size, and the
bytes read. -/
def Run.checkDepth (g : Generated) (size depth : Nat) : Run Unit := fun m =>
  if depth < g.callDepth (size + m.stream.position) then .ok ((), m) else .error .tooDeep

namespace Calls

/-- Reads with a codec, which runs on bindings of its own. -/
def decodeWith (p : Program) (codec : String) : Run Value :=
  match p.code.codec? codec with
  | none => throw (.unknownDecl codec)
  | some d => do
    Run.note (.enterDecoder codec)
    Run.withEnv [] (Run.evalBlock p d.decode)

/-- Writes a value with a codec, which runs on bindings of its own. -/
def encodeWith (p : Program) (codec : String) (v : Value) : Run Unit :=
  match p.code.codec? codec with
  | none => throw (.unknownDecl codec)
  | some d => do
    Run.note (.enterEncoder codec v)
    Run.withEnv (.single d.value.id v) (Run.execBlock p d.encode)

/-- Calls that are already `depth` deep in a run on a value of the given size, and go at most `fuel`
deeper. -/
def nested (g : Generated) (order : Wire.ByteOrder) (size : Nat) : Nat → Nat → Calls
  | 0, _ => { decode := fun _ => throw .tooDeep, encode := fun _ _ => throw .tooDeep }
  | fuel + 1, depth =>
    { decode := fun codec => do
        Run.checkDepth g size depth
        decodeWith { code := g, order, calls := nested g order size fuel (depth + 1) } codec
      encode := fun codec v => do
        Run.checkDepth g size depth
        encodeWith { code := g, order, calls := nested g order size fuel (depth + 1) } codec v }

end Calls

namespace Generated

/-- The code as a program that reads at most `length` bytes and writes a value of the given size. -/
def program (g : Generated) (order : Wire.ByteOrder) (size length : Nat) : Program :=
  { code := g, order, calls := Calls.nested g order size (g.callDepth (size + length)) 0 }

/-- Runs a decoder on bytes; gives the number of bytes read and the value. -/
def runDecoder (g : Generated) (order : Wire.ByteOrder) (body : Block) (bytes : List UInt8) :
    Except RunError (Nat × Value) := do
  let start : Machine := { env := [], stream := .input (.ofBytes bytes) }
  let (v, m) ← (Run.evalBlock (g.program order 0 bytes.length) body).run start
  match m.stream with
  | .input reader => return (reader.position, v)
  | .output _ => return (0, v)

/-- Runs an encoder on a value; gives the bytes. -/
def runEncoder (g : Generated) (order : Wire.ByteOrder) (param : Local) (body : List Stmt)
    (v : Value) : Except RunError (List UInt8) := do
  let start : Machine := { env := .single param.id v, stream := .output [] }
  let ((), m) ← (Run.execBlock (g.program order v.size 0) body).run start
  return m.stream.written

/-- The packets of a flow of a protocol. -/
def flowOf (g : Generated) (protocol : String) (flow : Flow) : Except RunError FlowUnit :=
  match (g.protocol? protocol).bind (·.flow? flow) with
  | some f => .ok f
  | none => .error (.unknownFlow (protocol ++ "/" ++ flow.name))

/-- Decodes the packet with an id; gives the number of bytes read and the value. -/
def decodePacket (g : Generated) (order : Wire.ByteOrder) (protocol : String) (flow : Flow)
    (id : Int) (bytes : List UInt8) : Except RunError (Nat × Value) := do
  let f ← g.flowOf protocol flow
  match f.packetById? id with
  | some p => g.runDecoder order p.decode bytes
  | none => throw (.decode (.unknownPacket flow.name id))

/-- Encodes the packet with a name, be it that of the schema or of the struct. -/
def encodePacket (g : Generated) (order : Wire.ByteOrder) (protocol : String) (flow : Flow)
    (name : String) (v : Value) : Except RunError (List UInt8) := do
  let f ← g.flowOf protocol flow
  match f.packetByName? name with
  | some p => g.runEncoder order p.this p.encode v
  | none => throw (.unknownPacket name)

/-- Decodes with the codec that has a base name. -/
def decodeType (g : Generated) (order : Wire.ByteOrder) (codec : String) (bytes : List UInt8) :
    Except RunError Value := do
  match g.codec? codec with
  | some d =>
    let (_, v) ← g.runDecoder order d.decode bytes
    return v
  | none => throw (.unknownDecl codec)

/-- Encodes with the codec that has a base name. -/
def encodeType (g : Generated) (order : Wire.ByteOrder) (codec : String) (v : Value) :
    Except RunError (List UInt8) :=
  match g.codec? codec with
  | some d => g.runEncoder order d.value d.encode v
  | none => throw (.unknownDecl codec)

end Generated

end WireSchema
