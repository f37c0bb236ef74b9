/-!
# Schema errors

Everything that can be wrong with a schema. Building a schema and generating code from it stop at
the first error.
-/

namespace WireSchema

/-- Why a schema is refused. -/
inductive SchemaError where
  | duplicateProtocol (name : String)
  | duplicateType (name : String)
  | duplicatePacket (protocol flow packet : String)
  | unresolvedReference (label : String)
  | alreadyResolved (label : String)
  | bitSlotMissing (owner : String) (index : Nat)
  | bitSlotRepeated (owner : String) (index : Nat)
  | bitSlotNested (owner : String) (index : Nat)
  | notABitSlot (owner field : String)
  | packedOverflow (owner : String) (total bits : Nat)
  | invalidBacking (name : String)
  | notAStruct (name : String)
  | nonBooleanPresence (name : String)
  | invalidEnumId (owner variant : String) (id : Int)
  | duplicateTag (owner tag : String)
  | emptyUnion (name : String)
  | unknownTagVariant (owner variant : String)
  | unknownType (name : String)
  | parse (message : String)
  | hook (message : String)
  /-- A sum outgrows its machine integer, which stops a program that checks for it. -/
  | overflow
  /-- Shapes refer to each other without end. -/
  | tooDeep
  deriving DecidableEq, Repr

def SchemaError.message : SchemaError → String
  | .duplicateProtocol name => "duplicate protocol: " ++ name
  | .duplicateType name => "duplicate type: " ++ name
  | .duplicatePacket protocol flow packet => s!"duplicate packet {packet} in {protocol}/{flow}"
  | .unresolvedReference label => "unresolved type reference: " ++ label
  | .alreadyResolved label => "type reference already resolved: " ++ label
  | .bitSlotMissing owner index => s!"bit slot {index} of {owner} is not used by any field"
  | .bitSlotRepeated owner index => s!"bit slot {index} of {owner} is used more than once"
  | .bitSlotNested owner index => s!"bit slot {index} of {owner} appears inside a nested type"
  | .notABitSlot owner field => s!"field {field} of packed struct {owner} is not a bit slot"
  | .packedOverflow owner total bits =>
    s!"bit widths of {owner} total {total}, backing holds {bits}"
  | .invalidBacking name => name ++ " cannot back a packed or flag struct"
  | .notAStruct name => name ++ " is not a struct and cannot be merged"
  | .nonBooleanPresence name => s!"presence type {name} is not boolean"
  | .invalidEnumId owner variant id =>
    s!"enum {owner}: id {id} of {variant} is used twice or does not fit the backing type"
  | .duplicateTag owner tag => s!"union {owner}: two variants share the tag {tag}"
  | .emptyUnion name => s!"union {name} has no variants"
  | .unknownTagVariant owner variant => s!"tag value for unknown variant {variant} of {owner}"
  | .unknownType name => "unknown type: " ++ name
  | .parse message => "parse error: " ++ message
  | .hook message => "hook failed: " ++ message
  | .overflow => "attempt to add with overflow"
  | .tooDeep => "types nest without end"

end WireSchema
