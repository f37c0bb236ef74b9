import WireSchema.Generated
import WireSchema.Lowering.Tie

/-!
# Schemas

A schema collects shared types and protocols, in the order in which they are added. Packets are
numbered from zero in each flow of a protocol. A refused addition leaves the schema as it was.
-/

namespace WireSchema

structure Packet where
  name : String
  fields : List Field
  doc : Option String := none
  /-- Source text of further methods. -/
  methods : List String := []
  /-- The hook that decodes the packet in place of its fields. -/
  decodeHook : Option String := none
  /-- The hook that writes the packet in place of its fields. -/
  encodeHook : Option String := none

structure Protocol where
  name : String
  serverbound : List Packet := []
  clientbound : List Packet := []

namespace Protocol

/-- The packets of a flow; the position of a packet is its id. -/
def packets (p : Protocol) : Flow → List Packet
  | .serverbound => p.serverbound
  | .clientbound => p.clientbound

def append (p : Protocol) (flow : Flow) (packet : Packet) : Protocol :=
  match flow with
  | .serverbound => { p with serverbound := p.serverbound ++ [packet] }
  | .clientbound => { p with clientbound := p.clientbound ++ [packet] }

theorem packets_append (p : Protocol) (flow other : Flow) (packet : Packet) :
    (p.append flow packet).packets other =
      p.packets other ++ if flow = other then [packet] else [] := by
  cases flow <;> cases other <;> simp [append, packets]

@[simp]
theorem name_append (p : Protocol) (flow : Flow) (packet : Packet) :
    (p.append flow packet).name = p.name := by
  cases flow <;> rfl

/-- The protocol with another packet, and the id of the packet. -/
def addPacket (p : Protocol) (flow : Flow) (packet : Packet) :
    Except SchemaError (Nat × Protocol) :=
  if (p.packets flow).any (·.name == packet.name) then
    .error (.duplicatePacket p.name flow.name packet.name)
  else .ok ((p.packets flow).length, p.append flow packet)

end Protocol

structure Schema where
  /-- The shared types, by name. -/
  types : List (String × Shape) := []
  protocols : List Protocol := []
  /-- The shapes behind the labels of references. -/
  refs : Refs := []
  /-- The number of the next bit group. -/
  nextGroup : Nat := 1

namespace Schema

/-- The schema with another protocol, which has no packets yet. -/
def addProtocol (s : Schema) (name : String) : Except SchemaError Schema :=
  if s.protocols.any (·.name == name) then .error (.duplicateProtocol name)
  else .ok { s with protocols := s.protocols ++ [{ name }] }

/-- The schema with another packet in a protocol, and the id of the packet. A protocol that the
schema does not have stays without it. -/
def addPacket (s : Schema) (protocol : String) (flow : Flow) (packet : Packet) :
    Except SchemaError (Nat × Schema) := do
  match s.protocols.find? (·.name == protocol) with
  | none => return (0, s)
  | some p =>
    let (id, p) ← p.addPacket flow packet
    let protocols := s.protocols.map fun q => if q.name == protocol then p else q
    return (id, { s with protocols })

/-- The schema with another shared type, and the shape by which the type is used. -/
def addType (s : Schema) (name : String) (shape : Shape) : Except SchemaError (Shape × Schema) :=
  if s.types.any (·.1 == name) then .error (.duplicateType name)
  else .ok (shape, { s with types := s.types ++ [(name, shape)] })

/-- Adds a shared type. -/
def declareType (s : Schema) (name : String) (shape : Shape) :
    Except SchemaError (Shape × Schema) :=
  s.addType name (.alias name shape)

/-- Adds a shared type that is read and written by functions of its own. -/
def exportType (s : Schema) (name : String) (shape : Shape) :
    Except SchemaError (Shape × Schema) :=
  s.addType name (.exported name shape)

/-- Resolves the label of a reference. -/
def resolve (s : Schema) (label : String) (target : Shape) : Except SchemaError Schema := do
  return { s with refs := ← s.refs.resolve label target }

end Schema

end WireSchema
