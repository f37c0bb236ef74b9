import WireSchema.Shape
import WireSchema.Source.Number

/-!
# Shapes of written types

A written type becomes a shape once its names are looked up. The names of primitives always mean the
primitives. The parts of a type are built from left to right, and the first error counts.
-/

namespace WireSchema.Source

/-- Building of shapes: the state is the number of the next bit group. -/
abbrev Build := StateT Nat (Except SchemaError)

/-- How the name of a declared type is looked up. -/
abbrev Lookup := String → Except SchemaError Shape

def primitiveNamed (name : String) : Except SchemaError Primitive :=
  match Primitive.ofName? name with
  | some p => .ok p
  | none => .error (.unknownType name)

/-- A primitive that holds integers. -/
def integerNamed (name : String) : Except SchemaError Primitive := do
  let p ← primitiveNamed name
  if p.isInteger then return p else throw (.invalidBacking p.schemaName)

/-- The type of a length; lengths are varints unless said otherwise. -/
def lengthNamed : Option String → Except SchemaError Primitive
  | some name => integerNamed name
  | none => .ok .varint

/-- A number for the next bit group. -/
def freshGroup : Build Nat := do
  let group ← get
  set (group + 1)
  return group

/-- The id after another. Ids are 128-bit integers, and none comes after the largest. -/
def idAfter (id : Int) : Except SchemaError Int :=
  if id + 1 < Nat.pow 2 127 then .ok (id + 1) else .error .overflow

/-- The entries of an enumeration with their ids. An entry without one has the id after that of the
entry before it; `next` is the id that the next such entry has, and the names of `seen` are taken.
The next id is counted after every entry, also after the last one.
-/
def enumIds (seen : List String) (next : Int) :
    List (String × Option Numeral) → Except SchemaError (List (String × Int))
  | [] => .ok []
  | (name, given) :: rest => do
    let id ← match given with
      | some n => n.value
      | none => .ok next
    if seen.contains name then throw (.parse ("enum: duplicate entry " ++ name))
    let others ← enumIds (name :: seen) (← idAfter id) rest
    return (name, id) :: others

/-- The width of a slot. -/
def slotWidth (n : Numeral) : Except SchemaError Nat := do
  let width ← n.value
  if 0 ≤ width ∧ width.toNat < Nat.pow 2 32 then return width.toNat
  else throw (.parse s!"packed: bad width {width}")

/-- Fails at the first name of `order` that is no slot or comes a second time. -/
def checkOrder (names seen : List String) : List String → Except SchemaError Unit
  | [] => .ok ()
  | name :: rest => do
    if !names.contains name || seen.contains name then
      throw (.parse ("packed: bad field order entry " ++ name))
    checkOrder names (name :: seen) rest

/-- The fields of a packed struct in the given order. -/
def packedFields (names : List String) (slots : List Shape) (order : List String) : List Field :=
  order.filterMap fun name =>
    ((names.zip slots).lookup name).map fun slot => { name, shape := slot }

/-- A packed struct. -/
def packedShape (backing : String) (slots : List (String × Numeral))
    (order : Option (List String)) : Build Shape := do
  let backing ← integerNamed backing
  let widths ← slots.mapM fun (_, width) => (slotWidth width : Except SchemaError Nat)
  let names := slots.map (·.1)
  let order := order.getD names
  checkOrder names [] order
  let group ← freshGroup
  let made ← Shape.packedSlots group backing widths
  return .packed backing widths (packedFields names made order) group

/-- A flag struct. -/
def flagsShape (backing : String) (entries : List (String × Numeral)) : Build Shape := do
  let backing ← integerNamed backing
  let masks ← entries.mapM fun (name, mask) =>
    (do return (name, ← mask.value) : Except SchemaError (String × Int))
  let group ← freshGroup
  Shape.flagStruct group backing masks

/-- A fixed value; an integer without a type of its own has 32 bits. -/
def literalShape (backing : Option String) (value : LiteralSpec) : Except SchemaError Shape := do
  let backing ← backing.mapM primitiveNamed
  let kind := (backing.bind Primitive.intKind?).getD .i32
  return Shape.fixed (← value.literal kind) backing

/-- The primitive of a fixed number of bytes. -/
def bytesShape (n : Numeral) : Except SchemaError Shape := do
  let length ← n.value
  if 0 ≤ length ∧ length.toNat < Nat.pow 2 64 then return .prim (.fixedBytes length.toNat)
  else throw (.parse s!"bytes[{length}]: bad length")

/-- The type of the integer tags of a union. -/
def tagKind : Shape → IntKind
  | .prim p => p.intKind?.getD .i32
  | _ => .i32

/-- The text of documentation, if there is any. -/
def docOf (docs : List String) : Option String :=
  if docs.isEmpty then none else some (String.intercalate "\n" docs)

namespace TypeSpec

mutual

/-- The shape of a written type. -/
def shape (lookup : Lookup) : TypeSpec → Build Shape
  | .named name =>
    match Primitive.ofName? name with
    | some p => return .prim p
    | none => lookup name
  | .bytes n => bytesShape n
  | .optional value => do return .opt (← shape lookup value)
  | .list item length => do
    let item ← shape lookup item
    return .list item (← lengthNamed length)
  | .map key value length => do
    let key ← shape lookup key
    let value ← shape lookup value
    return .map key value (← lengthNamed length)
  | .enum backing entries => do
    let backing ← integerNamed backing
    return .enum backing (← enumIds [] 0 entries)
  | .union tagField tag arms => do
    let tag ← shape lookup tag
    let made ← shapeArms lookup (tagKind tag) [] arms
    return .union tagField tag (made.map fun (name, _, fields) => (name, .struct fields))
      (made.filterMap fun (name, given, _) => given.map fun l => (name, l))
  | .struct fields => do return .struct (← shapeFields lookup fields)
  | .merge parts => do return .merged (← shapeParts lookup parts)
  | .packed backing slots order => packedShape backing slots order
  | .flags backing entries => flagsShape backing entries
  | .literal backing value => literalShape backing value

def shapeFields (lookup : Lookup) : List (FieldSpec TypeSpec) → Build (List Field)
  | [] => return []
  | ⟨docs, name, type⟩ :: rest => do
    let shape ← shape lookup type
    let others ← shapeFields lookup rest
    return { name, shape, doc := docOf docs } :: others

def shapeParts (lookup : Lookup) : List TypeSpec → Build (List Shape)
  | [] => return []
  | part :: rest => do
    let shape ← shape lookup part
    let others ← shapeParts lookup rest
    return shape :: others

/-- The variants of a union with their tags and fields; the names of `seen` are taken. -/
def shapeArms (lookup : Lookup) (kind : IntKind) (seen : List String) :
    List (ArmSpec TypeSpec) → Build (List (String × Option Literal × List Field))
  | [] => return []
  | ⟨name, tag, fields⟩ :: rest => do
    let tag ← match tag with
      | some l => some <$> (l.literal kind : Except SchemaError Literal)
      | none => pure none
    let fields ← shapeFields lookup fields
    if seen.contains name then throw (.parse ("union: duplicate variant " ++ name))
    let others ← shapeArms lookup kind (name :: seen) rest
    return (name, tag, fields) :: others

end

mutual

/-- The declared types that a written type mentions, in order, one entry for each mention. -/
def mentions : TypeSpec → List String
  | .named name => if (Primitive.ofName? name).isSome then [] else [name]
  | .optional value => mentions value
  | .list item _ => mentions item
  | .map key value _ => mentions key ++ mentions value
  | .union _ tag arms => mentions tag ++ mentionsArms arms
  | .struct fields => mentionsFields fields
  | .merge parts => mentionsParts parts
  | .bytes _ | .enum _ _ | .packed _ _ _ | .flags _ _ | .literal _ _ => []

def mentionsFields : List (FieldSpec TypeSpec) → List String
  | [] => []
  | ⟨_, _, type⟩ :: rest => mentions type ++ mentionsFields rest

def mentionsParts : List TypeSpec → List String
  | [] => []
  | part :: rest => mentions part ++ mentionsParts rest

def mentionsArms : List (ArmSpec TypeSpec) → List String
  | [] => []
  | ⟨_, _, fields⟩ :: rest => mentionsFields fields ++ mentionsArms rest

end

end TypeSpec

end WireSchema.Source
