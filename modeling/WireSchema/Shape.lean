import WireSchema.Error
import WireSchema.Host
import WireSchema.Ir.Decl

/-!
# Shapes

A shape says how a value is laid out on the wire. Shapes refer to each other by label, so they may
be recursive; a table gives the shape behind each label. The slots of packed and flag structs carry
the number of the group they belong to, which no two such structs share.
-/

namespace WireSchema

/-- A named part of a struct. -/
structure Member (σ : Type) where
  name : String
  shape : σ
  doc : Option String := none
  deriving Repr

/-- What a bit slot takes from the integer of its struct. -/
inductive SlotKind where
  /-- `width` bits from bit `shift` on. -/
  | bits (shift width : Nat) (backing : Primitive)
  /-- Whether a bit of `mask` is set. -/
  | flag (mask : Int) (backing : Primitive)
  deriving DecidableEq, Repr

/-- The layout of a value on the wire. -/
inductive Shape where
  | prim (p : Primitive)
  /-- A boolean that says whether the value follows. -/
  | optional (value presence : Shape)
  | list (item : Shape) (length : Primitive)
  | map (key value : Shape) (length : Primitive)
  | struct (fields : List (Member Shape))
  /-- The fields of several structs, one after another. -/
  | merged (parts : List Shape)
  | enum (backing : Primitive) (entries : List (String × Int))
  /-- A tag and the struct of the variant that the tag selects. Tags may be given by variant. -/
  | union (tagField : String) (tag : Shape) (variants : List (String × Shape))
      (tags : List (String × Literal))
  /-- Fields packed into one integer, most significant width first. -/
  | packed (backing : Primitive) (widths : List Nat) (fields : List (Member Shape)) (group : Nat)
  /-- An integer of flags, followed by the fields that are no flags. -/
  | flags (backing : Primitive) (masks : List (String × Int)) (fields : List (Member Shape))
      (group : Nat)
  | slot (group index : Nat) (kind : SlotKind)
  | alias (name : String) (inner : Shape)
  /-- An alias that is read and written by functions of its own. -/
  | exported (name : String) (inner : Shape)
  /-- A layout that only a hook knows; `definition` is the type of its values. -/
  | custom (signature : String) (definition : Ir.TypeExpr) (hook : String)
  /-- The shape that the table of references holds under a label. -/
  | ref (label : String)
  /-- A shape whose values a pair of host functions translates. -/
  | transformed (name : String) (backing : Shape) (hostType fromWire toWire : String)
      (transform : Transform)
  /-- A fixed value, which takes up bytes if it has a backing. -/
  | literal (value : Literal) (backing : Option Primitive)

abbrev Field := Member Shape

instance : Inhabited Shape := ⟨.merged []⟩

/-- The shapes behind the labels. -/
abbrev Refs := List (String × Shape)

/-- The table with `label` resolved to `target`; a label is resolved once. -/
def Refs.resolve (refs : Refs) (label : String) (target : Shape) : Except SchemaError Refs :=
  match refs.lookup label with
  | some _ => .error (.alreadyResolved label)
  | none => .ok (refs ++ [(label, target)])

/-- The sum of numbers. -/
def total (ns : List Nat) : Nat := ns.foldr (· + ·) 0

namespace Shape

/-- An optional value with a boolean of its own. -/
def opt (value : Shape) : Shape := .optional value (.prim .bool)

/-- An enumeration with ids 0, 1, 2, … -/
def enumeration (backing : Primitive) (names : List String) : Shape :=
  .enum backing (names.zipIdx.map fun (n, i) => (n, (i : Int)))

/-- A literal; an integer takes the type of its backing. -/
def fixed (value : Literal) (backing : Option Primitive) : Shape :=
  match value, backing.bind Primitive.intKind? with
  | .int v _, some kind => .literal (.int v kind) backing
  | value, _ => .literal value backing

/-- The integer type of a backing. -/
def backingKind (p : Primitive) : Except SchemaError IntKind :=
  match p.intKind? with
  | some kind => .ok kind
  | none => .error (.invalidBacking p.schemaName)

/-- The sum of widths, which are 32-bit integers as their sum is. -/
def sumOfWidths (widths : List Nat) : Except SchemaError Nat :=
  if total widths < Nat.pow 2 32 then .ok (total widths) else .error .overflow

theorem sumOfWidths_of_fits {widths : List Nat} {kind : IntKind}
    (fits : total widths ≤ kind.bits) : sumOfWidths widths = .ok (total widths) := by
  have bits : kind.bits < Nat.pow 2 32 := by cases kind <;> decide
  exact if_pos (Nat.lt_of_le_of_lt fits bits)

/-- The slots of a packed struct, one for each width. The widths have to be positive and fit the
backing. -/
def packedSlots (group : Nat) (backing : Primitive) (widths : List Nat) :
    Except SchemaError (List Shape) := do
  let kind ← backingKind backing
  let sum ← sumOfWidths widths
  if kind.bits < sum ∨ widths.contains 0 then
    throw (.packedOverflow ("Packed<" ++ backing.schemaName ++ ">") sum kind.bits)
  return widths.zipIdx.map fun (width, index) =>
    .slot group index (.bits (total (widths.drop (index + 1))) width backing)

/-- The slots of a flag struct, one for each mask. The masks have to be positive and fit the
backing. -/
def flagSlots (group : Nat) (backing : Primitive) (masks : List (String × Int)) :
    Except SchemaError (List Shape) := do
  let kind ← backingKind backing
  match masks.find? fun (_, m) => m ≤ 0 || IntKind.mask kind.bits < m with
  | some (name, _) =>
    throw (.packedOverflow ("Flags<" ++ backing.schemaName ++ ">." ++ name) 0 kind.bits)
  | none => return masks.zipIdx.map fun ((_, m), index) => .slot group index (.flag m backing)

/-- A flag struct whose fields are its flags. -/
def flagStruct (group : Nat) (backing : Primitive) (masks : List (String × Int)) :
    Except SchemaError Shape := do
  let slots ← flagSlots group backing masks
  let fields := (masks.zip slots).map fun ((name, _), s) => { name, shape := s }
  return .flags backing masks fields group

/-- The shapes that a shape is made of; a resolved reference is made of its target. -/
def subshapes (refs : Refs) : Shape → List Shape
  | .prim _ | .enum _ _ | .slot _ _ _ | .custom _ _ _ | .literal _ _ => []
  | .optional value presence => [value, presence]
  | .list item _ => [item]
  | .map key value _ => [key, value]
  | .struct fields | .packed _ _ fields _ | .flags _ _ fields _ => fields.map (·.shape)
  | .merged parts => parts
  | .union _ tag variants _ => tag :: variants.map (·.2)
  | .alias _ inner | .exported _ inner => [inner]
  | .ref label => (refs.lookup label).toList
  | .transformed _ backing _ _ _ _ => [backing]

/-- Literals take up bytes but are not part of the value. -/
def isStored : Shape → Bool
  | .literal _ _ => false
  | _ => true

def isStructLike : Shape → Bool
  | .struct _ | .merged _ | .packed _ _ _ _ | .flags _ _ _ _ => true
  | _ => false

/-- Whether values of the shape have a declared type of their own. -/
def isNominal : Shape → Bool
  | .enum _ _ | .union _ _ _ _ => true
  | s => s.isStructLike

mutual

/-- A measure of the text that a shape takes to write. -/
def weight : Shape → Nat
  | .prim _ | .slot _ _ _ | .ref _ | .literal _ _ => 1
  | .enum _ entries => entries.length + 1
  | .optional value presence => weight value + weight presence + 1
  | .list item _ => weight item + 1
  | .map key value _ => weight key + weight value + 1
  | .struct fields => weightFields fields + 1
  | .merged parts => weightList parts + 1
  | .union _ tag variants _ => weight tag + weightVariants variants + 1
  | .packed _ _ fields _ | .flags _ _ fields _ => weightFields fields + 1
  | .alias _ inner | .exported _ inner => weight inner + 1
  | .custom _ _ hook => hook.length + 1
  | .transformed _ backing _ _ _ _ => weight backing + 1

def weightFields : List (Member Shape) → Nat
  | [] => 0
  | f :: rest => weight f.shape + weightFields rest + 1

def weightList : List Shape → Nat
  | [] => 0
  | s :: rest => weight s + weightList rest

def weightVariants : List (String × Shape) → Nat
  | [] => 0
  | (_, s) :: rest => weight s + weightVariants rest + 1

end

end Shape

/-- The measure of a table of references. -/
def Refs.weight (refs : Refs) : Nat := total (refs.map (·.2.weight))

end WireSchema
