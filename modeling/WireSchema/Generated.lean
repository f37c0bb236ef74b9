import WireSchema.Host
import WireSchema.Ir.Symbols

/-!
# Generated code

What generation yields: the shared declarations, and for each protocol the packets of its flows with
their decoders and encoders.
-/

namespace WireSchema

open Ir

/-- A direction of a protocol. Each has packet ids of its own. -/
inductive Flow where
  | serverbound
  | clientbound
  deriving DecidableEq, Repr

namespace Flow

def all : List Flow := [.serverbound, .clientbound]

def name : Flow → String
  | .serverbound => "serverbound"
  | .clientbound => "clientbound"

def ofName? : String → Option Flow
  | "serverbound" => some .serverbound
  | "clientbound" => some .clientbound
  | _ => none

end Flow

namespace Generated

structure Packet where
  id : Nat
  /-- The name in the schema. -/
  name : String
  /-- The name of the struct. -/
  typeName : String
  /-- The name of the method that handles the packet. -/
  handler : String
  doc : Option String
  fields : List FieldDecl
  decode : Block
  /-- The parameter of the encoder. -/
  this : Local
  encode : List Stmt
  /-- Source text of further methods. -/
  methods : List String

/-- The packets of a flow; there is at least one. -/
structure FlowUnit where
  flow : Flow
  packets : List Packet
  /-- The shared types and codecs that the packets use. -/
  shared : List String
  /-- The paths outside the generated code that the packets use. -/
  external : List String

structure Protocol where
  name : String
  flows : List FlowUnit

def FlowUnit.packetById? (f : FlowUnit) (id : Int) : Option Packet :=
  f.packets.find? (·.id == id)

/-- The first packet with a name, be it that of the schema or of the struct. -/
def FlowUnit.packetByName? (f : FlowUnit) (name : String) : Option Packet :=
  f.packets.find? fun p => p.name == name || p.typeName == name

def Protocol.flow? (p : Protocol) (flow : Flow) : Option FlowUnit :=
  p.flows.find? (·.flow == flow)

end Generated

/-- The generated code of a schema. -/
structure Generated where
  /-- The shared declarations, in order. -/
  types : List Decl
  protocols : List Generated.Protocol
  /-- The host functions, by path. -/
  functions : List (String × HostFunction)

namespace Generated

def protocol? (g : Generated) (name : String) : Option Protocol :=
  g.protocols.find? (·.name == name)

/-- The declaration of a type. -/
def decl? (g : Generated) (name : String) : Option Decl :=
  g.types.find? fun
    | .codec _ => false
    | d => d.name == name

/-- The codec with a base name. -/
def codec? (g : Generated) (base : String) : Option CodecDecl :=
  g.types.findSome? fun
    | .codec c => if c.name == base then some c else none
    | _ => none

end Generated

end WireSchema
