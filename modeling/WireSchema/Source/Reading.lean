import WireSchema.Schema
import WireSchema.Source.Cycle
import WireSchema.Source.Grammar

/-!
# Schemas from text

Type declarations are built in order, before all protocols. A type may be used before its
declaration; such a use is a reference under the name of the type, which the declaration resolves.
-/

namespace WireSchema

namespace Source

/-- What a name means while types are built: `known` are built already, and all of `names` are going
to be. -/
def lookupIn (names : List String) (known : List (String × Shape)) : Lookup := fun name =>
  match known.lookup name with
  | some shape => .ok shape
  | none => if names.contains name then .ok (.ref name) else .error (.unknownType name)

/-- Fails at the first type that is declared a second time; the names of `seen` are taken. -/
def checkNames (seen : List String) : List TypeDecl → Except SchemaError Unit
  | [] => .ok ()
  | d :: rest => if seen.contains d.name then .error (.duplicateType d.name)
    else checkNames (d.name :: seen) rest

/-- A schema under construction, with the types built so far. -/
structure Assembly where
  schema : Schema
  known : List (String × Shape) := []

/-- Builds with the groups of the schema. -/
def Assembly.building {α : Type} (d : Assembly) (act : Build α) :
    Except SchemaError (α × Assembly) := do
  let (a, nextGroup) ← act.run d.schema.nextGroup
  return (a, { d with schema := { d.schema with nextGroup } })

/-- The assembly with one more type. -/
def Assembly.addType (names : List String) (assembly : Assembly) (d : TypeDecl) :
    Except SchemaError Assembly := do
  let (shape, assembly) ← assembly.building (d.type.shape (lookupIn names assembly.known))
  let (shape, schema) ←
    if d.exported then assembly.schema.exportType d.name shape
    else assembly.schema.declareType d.name shape
  let schema ← schema.resolve d.name shape
  return { schema, known := (d.name, shape) :: assembly.known }

/-- The assembly with one more packet. -/
def Assembly.addPacket (lookup : Lookup) (protocol : String) (flow : Flow) (assembly : Assembly)
    (p : PacketSpec) : Except SchemaError Assembly := do
  let (fields, assembly) ← assembly.building (TypeSpec.shapeFields lookup p.fields)
  let (_, schema) ←
    assembly.schema.addPacket protocol flow { name := p.name, fields, doc := docOf p.docs }
  return { assembly with schema }

/-- The assembly with one more protocol. -/
def Assembly.addProtocol (lookup : Lookup) (assembly : Assembly) (d : ProtocolDecl) :
    Except SchemaError Assembly := do
  let schema ← assembly.schema.addProtocol d.name
  d.flows.foldlM (fun assembly block =>
    block.packets.foldlM (Assembly.addPacket lookup d.name block.flow) assembly)
    { assembly with schema }

/-- The schema of declarations; bit groups are numbered from `firstGroup` on. -/
def schemaOf (firstGroup : Nat) (items : List Item) : Except SchemaError Schema := do
  let types := items.filterMap Item.type?
  checkNames [] types
  let names := types.map (·.name)
  let assembly ← types.foldlM (Assembly.addType names) { schema := { nextGroup := firstGroup } }
  (Mentions.ofDecls types).check
  let lookup := lookupIn names assembly.known
  let assembly ← (items.filterMap Item.protocol?).foldlM (Assembly.addProtocol lookup) assembly
  return assembly.schema

end Source

/-- The schema that a text describes, with its bit groups numbered from `firstGroup` on. -/
def Schema.parseFrom (firstGroup : Nat) (text : String) : Except SchemaError Schema :=
  match Source.Item.parseAll? text with
  | some items => Source.schemaOf firstGroup items
  | none => .error (.parse "<syntax>")

/-- The schema that a text describes. -/
def Schema.parse (text : String) : Except SchemaError Schema := Schema.parseFrom 1 text

end WireSchema
