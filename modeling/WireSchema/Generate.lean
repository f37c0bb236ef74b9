import WireSchema.Schema

/-!
# Generation of a schema

The shared types come first, then the packets of every flow of every protocol. Bindings are numbered
through a flow; the names of bindings start anew in every function.
-/

namespace WireSchema

open Ir Lowering

/-- The measure of a packet. -/
def Packet.weight (p : Packet) : Nat :=
  Shape.weightFields p.fields + ((p.decodeHook.getD "").length + (p.encodeHook.getD "").length)

/-- The measure of all shapes of a schema. -/
def Schema.weight (s : Schema) : Nat :=
  total (s.types.map (·.2.weight)) + s.refs.weight +
    total (s.protocols.map fun p =>
      total ((p.serverbound ++ p.clientbound).map Packet.weight))

namespace Generate

/-- The decoder of a packet: its hook, or its fields in order. -/
def packetDecoder (hooks : Hooks) (em : Emitter) (p : Packet) (shape : PacketShape) : Gen Expr :=
  match p.decodeHook with
  | some hook => hooks.decodePacket hook em shape
  | none => do return structOf shape.type (← em.decodeBindings (.struct shape.fields))

/-- The encoder of a packet: its hook, or its fields in order. -/
def packetEncoder (hooks : Hooks) (em : Emitter) (p : Packet) (shape : PacketShape) (src : Expr) :
    Gen Unit :=
  match p.encodeHook with
  | some hook => hooks.encodePacket hook em shape src
  | none => em.encodeFields (.struct shape.fields) src

/-- The code of a packet with the given id. -/
def packet (hooks : Hooks) (em : Emitter) (id : Nat) (p : Packet) : Gen Generated.Packet := do
  let typeName := Naming.typeName p.name
  let shape : PacketShape := ⟨typeName, p.fields⟩
  Gen.withHint typeName do
    let fields ← (p.fields.filter (·.shape.isStored)).mapM fun f => do
      let type ← Gen.withHint f.name (em.typeExpr f.shape)
      return { name := f.name, type, doc := f.doc : FieldDecl }
    Gen.beginFunction
    let decode ← Gen.captureBlock (packetDecoder hooks em p shape)
    Gen.beginFunction
    let this ← Gen.param "self"
    let (encode, _) ← Gen.capture (packetEncoder hooks em p shape (.var this))
    return {
      id, name := p.name, typeName, handler := Naming.handlerMethod p.name, doc := p.doc, fields,
      decode, this, encode, methods := p.methods }

/-- The name of the handler of a packet whose own is taken. -/
def numberedHandler (p : Generated.Packet) : String :=
  Naming.memberName p.name ++ "_" ++ Text.hex 2 p.id

/-- The packets of a flow from the one with the given id on; `handlers` are taken. -/
def packetsFrom (hooks : Hooks) (em : Emitter) (handlers : List String) (id : Nat) :
    List Packet → Gen (List Generated.Packet)
  | [] => return []
  | p :: rest => do
    let generated ← packet hooks em id p
    let generated := if handlers.contains generated.handler
      then { generated with handler := numberedHandler generated } else generated
    let others ← packetsFrom hooks em (generated.handler :: handlers) (id + 1) rest
    return generated :: others

/-- Runs `act` on a draft of its own. -/
def onNewDraft {α : Type} (act : Gen α) : Gen α := do
  Gen.updateDraft fun _ => {}
  act

/-- The code of the flows of a protocol that have packets. -/
def flows (hooks : Hooks) (em : Emitter) (p : Protocol) : Gen (List Generated.FlowUnit) := do
  let used := Flow.all.filter fun flow => !(p.packets flow).isEmpty
  used.mapM fun flow => onNewDraft do
    let packets ← packetsFrom hooks em [] 0 (p.packets flow)
    return { flow, packets, shared := [], external := [] }

/-- The code of a protocol. -/
def protocol (hooks : Hooks) (em : Emitter) (p : Protocol) : Gen Generated.Protocol :=
  return { name := p.name, flows := ← flows hooks em p }

/-- The names that a declaration makes available. -/
def declaredNames : Decl → List String
  | .codec c => [readerName c.name, writerName c.name]
  | d => [d.name]

/-- The symbols of packets, each once. -/
def packetSymbols (packets : List Generated.Packet) : List String :=
  distinct (packets.flatMap fun p =>
    p.fields.flatMap (·.type.symbols) ++ p.decode.symbols ++ Stmt.symbols p.encode)

/-- The flow with its imports: the symbols that are declared, and the paths among the others. -/
def withImports (declared : List String) (f : Generated.FlowUnit) : Generated.FlowUnit :=
  let symbols := packetSymbols f.packets
  { f with
    shared := symbols.filter declared.contains
    external := symbols.filter fun n => !declared.contains n && Naming.isPath n }

end Generate

namespace Schema

/-- The session that generates a schema. -/
def session (s : Schema) : Session := { refs := s.refs, nextGroup := s.nextGroup }

/-- The code of all types and packets of a schema, before the imports. -/
def generateUnits (hooks : Hooks) (s : Schema) : Gen (List Generated.Protocol) := do
  let em := emitter hooks (depthFor s.weight)
  s.types.forM fun (_, shape) => em.prepare shape
  s.protocols.mapM (Generate.protocol hooks em)

/-- The code of a schema. -/
def generate (hooks : Hooks) (s : Schema) : Except SchemaError Generated :=
  match (s.generateUnits hooks).start s.session with
  | (.error e, _) => .error e
  | (.ok protocols, session) =>
    let types := session.registry.finished
    let declared := types.flatMap Generate.declaredNames
    let protocols := protocols.map fun (p : Generated.Protocol) =>
      { p with flows := p.flows.map (Generate.withImports declared) }
    .ok { types, protocols, functions := session.registry.functions }

end Schema

end WireSchema
