import WireSchema.Lowering.Declaring
import WireSchema.Lowering.Tags

/-!
# Decoders

The code that decodes the values of a shape. Every part of a shape is decoded once for each of its
occurrences, in the order of the wire.
-/

namespace WireSchema.Lowering

open Ir

/-- The value of a bit slot, from the integer of its struct. -/
def slotExpr (raw : Expr) : SlotKind → Except SchemaError Expr
  | .bits shift width backing => do
    let kind ← Shape.backingKind backing
    let shifted := if shift = 0 then raw else .binary .shr raw (.int shift .u32)
    if kind.signed then
      let pad := kind.bits - width
      if pad = 0 then return shifted
      else return .binary .shr (.binary .shl shifted (.int pad .u32)) (.int pad .u32)
    else if shift + width = kind.bits then return shifted
    else return .binary .bitAnd shifted (.int (IntKind.mask width) kind)
  | .flag mask backing => do
    let kind ← Shape.backingKind backing
    return .binary .ne (.binary .bitAnd raw (.int mask kind)) (.int 0 kind)

/-- Decodes a bit slot; the struct of its group has to be at hand. -/
def decodeSlot (group index : Nat) (kind : SlotKind) : Gen Expr := do
  match ← Gen.activeGroup? group with
  | some ⟨_, some raw⟩ => Gen.ofExcept (slotExpr raw kind)
  | _ => throw (.bitSlotNested (groupOwner group) index)

/-- Decodes fields in order; gives the bindings of the stored ones. -/
def decodeFields (em : Emitter) (fields : List Field) : Gen (List (String × Local)) := do
  let bindings ← fields.mapM fun f => do
    let x ← Gen.withHint f.name (Gen.declare f.name (em.decodeExpr f.shape))
    return (f, x)
  return (bindings.filter (·.1.shape.isStored)).map fun (f, x) => (f.name, x)

/-- Decodes the integer of a packed or flag struct, then its fields. -/
def decodeGroup (em : Emitter) (backing : Primitive) (group : Nat) (fields : List Field) :
    Gen (List (String × Local)) := do
  let raw ← Gen.declare ((← Gen.lastHint "packed") ++ "_bits") (return .read backing)
  Gen.withGroup group (some (.var raw)) (decodeFields em fields)

/-- Binds every field of a struct; gives the bindings of the stored ones. -/
def decodeBindings (em : Emitter) (s : Shape) : Gen (List (String × Local)) := do
  match s with
  | .struct fields => decodeFields em fields
  | .merged parts =>
    let bindings ← parts.mapM fun part => do em.decodeBindings (← Gen.resolved part)
    return bindings.flatten
  | .packed backing _ fields group => decodeGroup em backing group fields
  | .flags backing _ fields group => decodeGroup em backing group fields
  | .alias _ _ | .exported _ _ | .ref _ => em.decodeBindings (← Gen.resolved s)
  | s => throw (.notAStruct (← Gen.canonicalName s))

/-- The struct expression over bindings of its fields. -/
def structOf (type : String) (bindings : List (String × Local)) : Expr :=
  .struct type (bindings.map fun (name, x) => (name, .var x))

/-- Decodes an optional value: a condition if the value needs no statements, and a binding that is
set under the condition otherwise. -/
def decodeOptional (em : Emitter) (value presence : Shape) : Gen Expr := do
  if !presence.isBoolean (← Gen.refs) then
    throw (.nonBooleanPresence (← Gen.canonicalName presence))
  let test ← em.decodeExpr presence
  let block ← Gen.captureBlock (em.decodeExpr value)
  if block.stmts.isEmpty then return .cond test (.present block.result) .absent
  let x ← Gen.declareMut (← Gen.lastHint "present") .absent
  Gen.emit (.branch test (block.stmts ++ [.assign x (.present block.result)]) [])
  return .var x

/-- Decodes a collection: its length, then as many items, which are added to `empty`. -/
def decodeCollection (length : Primitive) (empty : Expr) (item : Gen Expr) : Gen Expr := do
  if !length.isInteger then throw (.invalidBacking length.schemaName)
  let name ← Gen.lastHint "items"
  let count ← Gen.declare (name ++ "_len") (return .read length)
  let acc ← Gen.declareMut name empty
  let block ← Gen.captureBlock item
  Gen.emit (.times (.var count) (block.stmts ++ [.push acc block.result]))
  return .var acc

/-- Decodes the payload of a variant. One of which nothing is stored is read and forgotten. -/
def decodePayload (em : Emitter) (key : String) (payload : Shape) : Gen (Option Expr) := do
  if (← Gen.storedFields payload).isEmpty then
    discard <| em.decodeBindings (← Gen.resolved payload)
    return none
  else return some (← Gen.withHint key (em.decodeExpr payload))

/-- The arms that decode the variants from the `index`-th on into `result`; `seen` are the tags
before. -/
def decodeArms (em : Emitter) (type : String) (tag : Shape) (tags : List (String × Literal))
    (result : Local) (seen : List Tag) (index : Nat) :
    List (String × Shape) → Gen (List (Pattern × List Stmt))
  | [] => return []
  | (key, payload) :: rest => do
    let value ← unionTag em tag tags index key
    if seen.contains value then throw (.duplicateTag type value.text)
    let block ← Gen.captureBlock do
      return .variant type key (← decodePayload em key payload)
    let arms ← decodeArms em type tag tags result (value :: seen) (index + 1) rest
    return (value.pattern, block.stmts ++ [.assign result block.result]) :: arms

/-- Decodes a union: its tag, then the variant that the tag selects. -/
def decodeUnion (em : Emitter) (tagField : String) (tag : Shape) (variants : List (String × Shape))
    (tags : List (String × Literal)) : Gen Expr := do
  let type ← unionName em tagField tag variants tags
  let value ← Gen.withHint tagField (Gen.declare tagField (em.decodeExpr tag))
  let result ← Gen.declareDeferred (← Gen.lastHint "variant")
  let arms ← decodeArms em type tag tags result [] 0 variants
  let fallback := if ← tagIsExhaustive tag variants tags then none
    else some (Failure.unknownTag type (.var value))
  Gen.emit (.select (.var value) arms fallback)
  return .var result

/-- Decodes a literal: if it takes up bytes, they have to hold it. -/
def decodeLiteral (value : Literal) : Option Primitive → Gen Expr
  | none => return .lit value
  | some p => do
    let found ← Gen.declare "literal" (return .read p)
    Gen.emit (.branch (.binary .ne (.var found) (.lit value))
      [.fail (.literalMismatch value (.var found))] [])
    return .lit value

/-- An expression that decodes a value of a shape. -/
def decodeExpr (hooks : Hooks) (em : Emitter) (s : Shape) : Gen Expr := do
  match s with
  | .prim p => return .read p
  | .optional value presence => decodeOptional em value presence
  | .list item length =>
    decodeCollection length .newList (Gen.withHint "item" (em.decodeExpr item))
  | .map key value length =>
    decodeCollection length .newMap do
      let k ← Gen.withHint "key" (Gen.declare "key" (em.decodeExpr key))
      let v ← Gen.withHint "value" (Gen.declare "val" (em.decodeExpr value))
      return .pair (.var k) (.var v)
  | .struct _ | .merged _ | .packed _ _ _ _ | .flags _ _ _ _ =>
    let type ← structName em s
    return structOf type (← em.decodeBindings s)
  | .enum backing entries =>
    let type ← enumName backing entries
    return .fromId type (.read backing)
  | .union tagField tag variants tags => decodeUnion em tagField tag variants tags
  | .slot group index kind => decodeSlot group index kind
  | .alias _ inner =>
    discard <| em.typeExpr s
    em.decodeExpr inner
  | .exported name _ =>
    discard <| em.typeExpr s
    return .callDecode (codecBase name)
  | .custom _ _ hook => hooks.decode hook em
  | .ref label =>
    match (← Gen.refs).lookup label with
    | some target => em.decodeExpr target
    | none => throw (.unresolvedReference label)
  | .transformed _ backing _ fromWire _ transform =>
    Gen.registerFunction fromWire (HostFunction.unary transform.decode)
    let raw ← em.decodeExpr backing
    return .call fromWire [raw] true
  | .literal value backing => decodeLiteral value backing

end WireSchema.Lowering
