import WireSchema.Ir.Symbols
import WireSchema.Lowering.Emitter

/-!
# Declarations of shapes

Structs, enumerations and unions are declared once, under their canonical name; every later
occurrence of the same shape uses that declaration. A declaration is called by the alias of its
shape, or else by the place where the shape was first met.
-/

namespace WireSchema.Lowering

open Ir

/-- The name that a declaration is to have: the alias of its signature, or else the one that the
hints give. -/
def desiredName (signature fallback : String) : Gen String := do
  match ← Gen.aliasOf? signature with
  | some name => return name
  | none => Gen.hintName fallback

/-- Declares a struct-like shape; gives its name. -/
def structName (em : Emitter) (s : Shape) : Gen String := do
  let signature ← Gen.canonicalName s
  let desired ← desiredName signature (s.safeName (← Gen.refs))
  let name ← Gen.registerConstant signature desired fun name => do
    Gen.ofExcept (s.slotsValid (← Gen.refs) name)
    Gen.nested name do
      let fields ← (← Gen.storedFields s).mapM fun f => do
        let type ← Gen.withHint f.name (em.typeExpr f.shape)
        return { name := f.name, type, doc := f.doc : FieldDecl }
      return .struct name fields
  discard <| Gen.registerAlias signature name
  return name

/-- Fails at the first entry whose id does not fit the type or was used before. -/
def checkIds (owner : String) (kind : IntKind) (seen : List Int) :
    List (String × Int) → Except SchemaError Unit
  | [] => .ok ()
  | (variant, id) :: rest =>
    if kind.wrap id ≠ id ∨ (¬kind.signed ∧ id < 0) ∨ seen.contains id then
      .error (.invalidEnumId owner variant id)
    else checkIds owner kind (id :: seen) rest

/-- Declares an enumeration; gives its name. -/
def enumName (backing : Primitive) (entries : List (String × Int)) : Gen String := do
  let kind ← Gen.ofExcept (Shape.backingKind backing)
  let signature ← Gen.canonicalName (.enum backing entries)
  let desired ← desiredName signature "Enum"
  Gen.ofExcept (checkIds desired kind [] entries)
  let name ← Gen.registerConstant signature desired fun name =>
    return .enum { name, backing, entries }
  discard <| Gen.registerAlias signature name
  return name

/-- The declaration of a variant. Its payload has to be a struct, which is declared unless nothing
of it is stored. -/
def variantDecl (em : Emitter) (key : String) (payload : Shape) : Gen VariantDecl := do
  if !(← Gen.resolved payload).isStructLike then
    throw (.notAStruct (← Gen.canonicalName payload))
  if (← Gen.storedFields payload).isEmpty then return { name := key, payload := none }
  match ← Gen.withHint key (em.typeExpr payload) with
  | .named name => return { name := key, payload := some name }
  | _ => throw (.notAStruct (← Gen.canonicalName payload))

/-- Declares a union; gives its name. -/
def unionName (em : Emitter) (tagField : String) (tag : Shape) (variants : List (String × Shape))
    (tags : List (String × Literal)) : Gen String := do
  let signature ← Gen.canonicalName (.union tagField tag variants tags)
  let desired ← desiredName signature "Union"
  if variants.isEmpty then throw (.emptyUnion desired)
  match tags.find? fun (key, _) => !variants.any (·.1 == key) with
  | some (key, _) => throw (.unknownTagVariant desired key)
  | none => pure ()
  let name ← Gen.registerConstant signature desired fun name =>
    Gen.nested name do
      discard <| Gen.withHint tagField (em.typeExpr tag)
      let decls ← variants.mapM fun (key, payload) => variantDecl em key payload
      return .union name decls
  discard <| Gen.registerAlias signature name
  return name

/-- Gives a shape a shared name. A shape that has a name already keeps it, and the new name becomes
an alias of it. -/
def declareAlias (em : Emitter) (name : String) (inner : Shape) : Gen String := do
  let signature ← Gen.canonicalName inner
  if (← Gen.resolved inner).isNominal then
    discard <| Gen.registerAlias signature name
    let actual ← em.typeExpr inner
    if actual ≠ .named name then
      discard <| Gen.registerGlobal name (return .alias name actual)
    return name
  if (← Gen.registry).isDeclared name then return name
  let target ← em.typeExpr inner
  discard <| Gen.registerGlobal name (return .alias name target)
  discard <| Gen.registerAlias signature name
  return name

/-- The base name of the functions of an exported type. -/
def codecBase (name : String) : String := Naming.bindingName name

/-- Declares the functions that read and write an exported type. -/
def declareCodec (em : Emitter) (name : String) (inner : Shape) : Gen Unit := do
  let base := codecBase name
  discard <| Gen.registerGlobal (readerName base) <| Gen.nested name do
    let decode ← Gen.captureBlock (em.decodeExpr inner)
    Gen.beginFunction
    let value ← Gen.param "value"
    let (encode, _) ← Gen.capture (em.encode inner (.place value))
    return .codec { name := base, type := .named name, decode, value, encode }

/-- The named type of a collection that has an alias, or else the type `build` gives. -/
def aliasedOr (s : Shape) (build : Gen TypeExpr) : Gen TypeExpr := do
  match ← Gen.aliasOf? (← Gen.canonicalName s) with
  | some name => return .named name
  | none => build

/-- The type of the values of a shape, with all declarations that it needs. -/
def typeExpr (em : Emitter) (s : Shape) : Gen TypeExpr := do
  match s with
  | .prim p => return .prim p
  | .optional value _ => aliasedOr s do return .option (← em.typeExpr value)
  | .list item _ => aliasedOr s do return .list (← Gen.withHint "item" (em.typeExpr item))
  | .map key value _ => aliasedOr s do
    let key ← Gen.withHint "key" (em.typeExpr key)
    let value ← Gen.withHint "value" (em.typeExpr value)
    return .map key value
  | .struct _ | .merged _ | .packed _ _ _ _ | .flags _ _ _ _ => return .named (← structName em s)
  | .enum backing entries => return .named (← enumName backing entries)
  | .union tagField tag variants tags => return .named (← unionName em tagField tag variants tags)
  | .slot _ _ (.flag _ _) => return .prim .bool
  | .slot _ _ (.bits _ _ backing) => return .prim backing
  | .alias name inner => return .named (← declareAlias em name inner)
  | .exported name inner =>
    let name ← declareAlias em name inner
    declareCodec em name inner
    return .named name
  | .custom _ definition _ => return definition
  | .ref label =>
    match (← Gen.refs).lookup label with
    | some target => em.typeExpr target
    | none => throw (.unresolvedReference label)
  | .transformed _ _ hostType _ _ _ => return .external hostType
  | .literal _ (some p) => return .prim p
  | .literal (.bool _) none => return .prim .bool
  | .literal (.str _) none => return .prim .string
  | .literal (.int _ _) none => return .prim .i32

/-- Declares everything within a shape. A codec declares what is within its own shape, and what is
behind a reference is declared where it is used. -/
def prepare (em : Emitter) (s : Shape) : Gen Unit := do
  match s with
  | .ref _ | .slot _ _ _ => return ()
  | .exported _ _ => discard <| em.typeExpr s
  | s =>
    discard <| em.typeExpr s
    (s.subshapes (← Gen.refs)).forM em.prepare

end WireSchema.Lowering
