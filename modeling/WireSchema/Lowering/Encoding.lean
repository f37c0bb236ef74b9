import WireSchema.Lowering.Declaring
import WireSchema.Lowering.Tags

/-!
# Encoders

The code that writes the values of a shape, part by part in the order of the wire.
-/

namespace WireSchema.Lowering

open Ir

/-- Writes the length of the collection `src`. -/
def writeLength (length : Primitive) (src : Expr) : Gen Unit := do
  let kind ← Gen.ofExcept (Shape.backingKind length)
  Gen.emit (.write length (.cast (.len src) kind))

/-- The terms of a packed or flag integer put together. -/
def orTerms (kind : IntKind) : List Expr → Expr
  | [] => .int 0 kind
  | term :: rest => rest.foldl (.binary .bitOr) term

/-- The term of a field of a packed struct: its low bits, moved to their place. -/
def packedTerm (owner : String) (kind : IntKind) (src : Expr) (f : Field) :
    Except SchemaError Expr :=
  match f.shape with
  | .slot _ _ (.bits shift width _) =>
    let value := Expr.field src f.name
    let masked := if width = kind.bits then value
      else .binary .bitAnd value (.int (IntKind.mask width) kind)
    .ok (if shift = 0 then masked else .binary .shl masked (.int shift .u32))
  | _ => .error (.notABitSlot owner f.name)

/-- The term of a field of a flag struct, if the field uses a flag: the mask when the flag is set.
-/
def flagTerm (kind : IntKind) (group : Nat) (src : Expr) (f : Field) : Option Expr :=
  let term (set : Expr) : Nat × SlotKind → Option Expr
    | (_, .flag mask _) => some (.cond set (.int mask kind) (.int 0 kind))
    | _ => none
  match f.shape with
  | .optional _ presence =>
    (Shape.slotOf? group presence).bind (term (.isPresent (.field src f.name)))
  | s => (Shape.slotOf? group s).bind (term (.field src f.name))

/-- Whether a field of a flag struct is written after the flags. -/
def followsFlags (f : Field) : Bool :=
  match f.shape with
  | .slot _ _ _ => false
  | _ => true

/-- Writes fields in order. -/
def encodeInOrder (em : Emitter) (src : Expr) (fields : List Field) : Gen Unit :=
  fields.forM fun f => Gen.withHint f.name (em.encode f.shape (.field src f.name))

/-- Writes the fields of a struct. -/
def encodeFields (em : Emitter) (s : Shape) (src : Expr) : Gen Unit := do
  match s with
  | .struct fields => encodeInOrder em src fields
  | .merged parts => parts.forM fun part => do em.encodeFields (← Gen.resolved part) src
  | .packed backing _ fields _ =>
    let kind ← Gen.ofExcept (Shape.backingKind backing)
    let owner ← Gen.canonicalName s
    let terms ← Gen.ofExcept (fields.mapM (packedTerm owner kind src))
    Gen.emit (.write backing (orTerms kind terms))
  | .flags backing _ fields group =>
    let kind ← Gen.ofExcept (Shape.backingKind backing)
    Gen.emit (.write backing (orTerms kind (fields.filterMap (flagTerm kind group src))))
    Gen.withGroup group none (encodeInOrder em src (fields.filter followsFlags))
  | .alias _ _ | .exported _ _ | .ref _ => em.encodeFields (← Gen.resolved s) src
  | s => throw (.notAStruct (← Gen.canonicalName s))

/-- Writes an optional value: whether it is present, then the value if it is. -/
def encodeOptional (em : Emitter) (value presence : Shape) (src : Expr) : Gen Unit := do
  if !presence.isBoolean (← Gen.refs) then
    throw (.nonBooleanPresence (← Gen.canonicalName presence))
  em.encode presence (.isPresent src)
  let x ← Gen.alloc (← Gen.lastHint "inner")
  let (body, _) ← Gen.capture (em.encode value (.place x))
  if !body.isEmpty then Gen.emit (.ifPresent x src body)

/-- The arms that write the variants from the `index`-th on. -/
def encodeArms (em : Emitter) (type tagField : String) (tag : Shape)
    (tags : List (String × Literal)) (index : Nat) :
    List (String × Shape) → Gen (List (Pattern × List Stmt))
  | [] => return []
  | (key, payload) :: rest => do
    let value ← unionTag em tag tags index key
    let binding ← if (← Gen.storedFields payload).isEmpty then pure none
      else some <$> Gen.alloc key
    let source := (binding.map Expr.place).getD .absent
    let (body, _) ← Gen.capture do
      Gen.withHint tagField (em.encode tag value.expr)
      Gen.withHint key do em.encodeFields (← Gen.resolved payload) source
    let arms ← encodeArms em type tagField tag tags (index + 1) rest
    return (.variant type key binding, body) :: arms

/-- Writes a union: for each variant its tag, then its payload. -/
def encodeUnion (em : Emitter) (tagField : String) (tag : Shape) (variants : List (String × Shape))
    (tags : List (String × Literal)) (src : Expr) : Gen Unit := do
  let type ← unionName em tagField tag variants tags
  let arms ← encodeArms em type tagField tag tags 0 variants
  Gen.emit (.select src arms (some (.unmatchedVariant type)))

/-- Emits the statements that write a value of a shape. -/
def encode (hooks : Hooks) (em : Emitter) (s : Shape) (src : Expr) : Gen Unit := do
  match s with
  | .prim p => Gen.emit (.write p src)
  | .optional value presence => encodeOptional em value presence src
  | .list item length =>
    writeLength length src
    let x ← Gen.alloc "item"
    let (body, _) ← Gen.capture (Gen.withHint "item" (em.encode item (.place x)))
    Gen.emit (.forEach x src body)
  | .map key value length =>
    writeLength length src
    let k ← Gen.alloc "key"
    let v ← Gen.alloc "val"
    let (body, _) ← Gen.capture do
      Gen.withHint "key" (em.encode key (.place k))
      Gen.withHint "value" (em.encode value (.place v))
    Gen.emit (.forEachPair k v src body)
  | .struct _ | .merged _ | .packed _ _ _ _ | .flags _ _ _ _ =>
    discard <| structName em s
    em.encodeFields s src
  | .enum backing entries =>
    let type ← enumName backing entries
    Gen.emit (.write backing (.toId type src))
  | .union tagField tag variants tags => encodeUnion em tagField tag variants tags src
  | .slot group index _ =>
    if (← Gen.activeGroup? group).isNone then throw (.bitSlotNested (groupOwner group) index)
  | .alias _ inner =>
    discard <| em.typeExpr s
    em.encode inner src
  | .exported name _ =>
    discard <| em.typeExpr s
    Gen.emit (.writeCodec (codecBase name) src)
  | .custom _ _ hook => hooks.encode hook em src
  | .ref label =>
    match (← Gen.refs).lookup label with
    | some target => em.encode target src
    | none => throw (.unresolvedReference label)
  | .transformed _ backing _ _ toWire transform =>
    Gen.registerFunction toWire (HostFunction.unary transform.encode)
    let wire := Expr.call toWire [.borrow src] false
    match backing with
    | .prim _ => em.encode backing wire
    | _ =>
      let x ← Gen.declare "wire" (return wire)
      em.encode backing (.var x)
  | .literal value (some p) => Gen.emit (.write p (.lit value))
  | .literal _ none => return ()

end WireSchema.Lowering
