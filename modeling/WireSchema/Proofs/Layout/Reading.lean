import WireSchema.Shape.Reference
import WireSchema.Value.Description
import WireSchema.Wire.Reader

/-!
# Reading a layout directly

What the bytes of a shape mean, by recursion on the shape and without any generated code. Fields
come in their order; a boolean comes before an optional value and a count before items; a tag
selects the variant it was declared for; the integer of packed fields and flags comes once; a
literal with a backing has to be there. Aliases, exported types and references are read like what
they stand for.
-/

namespace WireSchema

/-- An error of decoding without its details. -/
def Wire.DecodeError.outline : Wire.DecodeError → Wire.DecodeError
  | .unexpectedEnd => .unexpectedEnd
  | .malformedVarint _ => .malformedVarint 0
  | .negativeLength _ => .negativeLength 0
  | .invalidUtf8 _ => .invalidUtf8 (.incomplete 0)
  | .unknownEnumId _ _ => .unknownEnumId "" 0
  | .unknownTag _ _ => .unknownTag "" ""
  | .literalMismatch _ _ => .literalMismatch "" ""
  | .unknownPacket _ _ => .unknownPacket "" 0
  | .transform _ _ => .transform "" ""

namespace Layout

open Wire

/-- Items of one kind, one after another. -/
def repeated {α : Type} (item : Read α) : Nat → Read (List α)
  | 0 => return []
  | count + 1 => do
    let first ← item
    let others ← repeated item count
    return first :: others

/-- The number of items that a count announces; a negative one announces none. Counts are seen in
128-bit two's complement, like all integers. -/
def itemCount (count : Value) : Nat := (count.asInt?.getD 0).toNat

/-- The value of a slot in the integer of its struct: some of its bits, extended like the integer's
type, or whether a bit of the mask is set. -/
def slotValue (raw : Value) : SlotKind → Value
  | .bits shift width _ =>
    match raw with
    | .int kind bits =>
      .int kind (if kind.signed then (bits.extractLsb' shift width).signExtend kind.bits
        else (bits.extractLsb' shift width).setWidth kind.bits)
    | v => v
  | .flag mask _ =>
    match raw with
    | .int _ bits => .bool (bits.toNat &&& mask.toNat != 0)
    | _ => .bool false

/-- The fields of a packed or flag struct in its integer. -/
def slotMembers (raw : Value) (fields : List Field) : List (String × Value) :=
  fields.filterMap fun f =>
    match f.shape with
    | .slot _ _ kind => some (f.name, slotValue raw kind)
    | _ => none

/-- The name in an enumeration or the text that a variant is declared for. -/
def tagName (given : Option Literal) (key : String) : String :=
  match given with
  | some (.str s) => s
  | some l => l.text
  | none => key

/-- Whether a tag is the one that a variant is declared for, which is the `index`-th of its union.
Without a tag of its own a variant goes by its key or by its place. -/
def selects (found : Value) (given : Option Literal) (index : Nat) (key : String) : Bool :=
  match found with
  | .enum name => name == tagName given key
  | .str text => text == tagName given key
  | .bool b =>
    b == match given with
      | some (.bool t) => t
      | some (.int n _) => n != 0
      | _ => index != 0
  | v =>
    v.asInt? == some (match given with
      | some (.int n _) => n
      | _ => index)

/-- How a shape is read: as a value, and as the stored members of a struct. -/
structure Part where
  value : Read Value
  members : Read (List (String × Value))

section

variable (order : ByteOrder) (target : String → Part)

/-- The members of a packed or flag struct. -/
def groupMembers (backing : Primitive) (fields : List Field) : Read (List (String × Value)) := do
  let raw ← read order backing
  return slotMembers raw fields

mutual

/-- A value of a shape, given the parts behind labels. A slot has no bytes of its own, and what a
hook reads is not known here. -/
def valueWith : Shape → Read Value
  | .prim p => read order p
  | .optional value presence => do
    let present ← valueWith presence
    if present.asBool? = some true then valueWith value else return .null
  | .list item length => do
    let count ← read order length
    let items ← repeated (valueWith item) (itemCount count)
    return .list items
  | .map key value length => do
    let count ← read order length
    let entries ← repeated (do
      let k ← valueWith key
      let v ← valueWith value
      return (k, v)) (itemCount count)
    return .map entries
  | .struct fields => do
    let members ← fieldsWith fields
    return .ofFields members
  | .merged parts => do
    let members ← partsWith parts
    return .ofFields members
  | .packed backing _ fields _ | .flags backing _ fields _ => do
    let members ← groupMembers order backing fields
    return .ofFields members
  | .enum backing entries => do
    let id ← read order backing
    match entries.find? fun entry => id.asInt? == some entry.2 with
    | some (name, _) => return .enum name
    | none => throw (.unknownEnumId "" (id.asInt?.getD 0))
  | .union _ tag variants tags => do
    let found ← valueWith tag
    variantsWith found tags 0 variants
  | .alias _ inner | .exported _ inner => valueWith inner
  | .ref label => (target label).value
  | .transformed _ backing _ fromWire _ transform => do
    let raw ← valueWith backing
    match transform.decode raw with
    | .ok v => return v
    | .error message => throw (.transform fromWire message)
  | .literal l none => return .ofLiteral l
  | .literal l (some p) => do
    let found ← read order p
    if found == .ofLiteral l then return .ofLiteral l
    else throw (.literalMismatch l.text found.describe)
  | .slot _ _ _ | .custom _ _ _ => return .null

/-- The stored members of a struct. -/
def membersWith : Shape → Read (List (String × Value))
  | .struct fields => fieldsWith fields
  | .merged parts => partsWith parts
  | .packed backing _ fields _ | .flags backing _ fields _ => groupMembers order backing fields
  | .alias _ inner | .exported _ inner => membersWith inner
  | .ref label => (target label).members
  | _ => return []

def fieldsWith : List (Member Shape) → Read (List (String × Value))
  | [] => return []
  | f :: rest => do
    let v ← valueWith f.shape
    let others ← fieldsWith rest
    return if f.shape.isStored then (f.name, v) :: others else others

def partsWith : List Shape → Read (List (String × Value))
  | [] => return []
  | s :: rest => do
    let first ← membersWith s
    let others ← partsWith rest
    return first ++ others

/-- The variant that a tag selects, from the `index`-th on. One without members has no payload. -/
def variantsWith (found : Value) (tags : List (String × Literal)) (index : Nat) :
    List (String × Shape) → Read Value
  | [] => throw (.unknownTag "" found.describe)
  | (key, payload) :: rest =>
    if selects found (tags.lookup key) index key then do
      let members ← membersWith payload
      return .variant key (if members.isEmpty then none else some (.ofFields members))
    else variantsWith found tags (index + 1) rest

end

/-- How a shape is read, given the parts behind labels. -/
def partWith (s : Shape) : Part := ⟨valueWith order target s, membersWith order target s⟩

end

/-- How a shape is read when at most `fuel` references are followed. -/
def partAt (order : ByteOrder) (refs : Refs) (fuel : Nat) : Shape → Part :=
  Shape.following refs (partWith order) (fun _ => ⟨return .null, return []⟩) fuel

/-- How a shape is read. -/
def part (order : ByteOrder) (refs : Refs) : Shape → Part := partAt order refs refs.length

/-- Reads fields from bytes; gives the number of bytes read and the struct. -/
def decodeFields (order : ByteOrder) (refs : Refs) (fields : List Field) (bytes : List UInt8) :
    Except DecodeError (Nat × Value) :=
  match (part order refs (.struct fields)).value.run (Reader.ofBytes bytes) with
  | (.ok v, reader) => .ok (reader.position, v)
  | (.error e, _) => .error e

end Layout

end WireSchema
