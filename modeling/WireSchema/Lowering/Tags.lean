import WireSchema.Lowering.Emitter

/-!
# Tags of unions

The tag that selects a variant is the one given for it, or else its key for enumerations and texts,
and its position for booleans and integers.
-/

namespace WireSchema.Lowering

open Ir

/-- The value of a tag. -/
inductive Tag where
  | lit (l : Literal)
  | enum (type name : String)
  deriving DecidableEq, Repr

def Tag.pattern : Tag → Pattern
  | .lit l => .lit l
  | .enum type name => .enum type name

def Tag.expr : Tag → Expr
  | .lit l => .lit l
  | .enum type name => .enumValue type name

/-- The text of a tag in messages. -/
def Tag.text : Tag → String
  | .lit l => l.text
  | .enum _ name => name

/-- The name that a tag literal stands for. -/
def literalName : Literal → String
  | .str s => s
  | l => l.text

/-- The tag of the variant `key`, the `index`-th of its union. -/
def unionTag (em : Emitter) (tag : Shape) (tags : List (String × Literal)) (index : Nat)
    (key : String) : Gen Tag := do
  let given := tags.lookup key
  match ← Gen.resolved tag with
  | .enum _ entries =>
    match ← em.typeExpr tag with
    | .named type =>
      let name := (given.map literalName).getD key
      if entries.any (·.1 == name) then return .enum type name
      else throw (.unknownTagVariant type name)
    | _ => throw (.invalidBacking (← Gen.canonicalName tag))
  | .prim .string => return .lit (.str ((given.map literalName).getD key))
  | .prim .bool =>
    match given with
    | some (.bool b) => return .lit (.bool b)
    | some (.int v _) => return .lit (.bool (v != 0))
    | _ => return .lit (.bool (index != 0))
  | s@(.prim p) =>
    match p.intKind? with
    | some kind =>
      match given with
      | some (.int v _) => return .lit (.int v kind)
      | some other => throw (.unknownTagVariant (← Gen.canonicalName tag) other.text)
      | none => return .lit (.int index kind)
    | none => throw (.invalidBacking (← Gen.canonicalName s))
  | s => throw (.invalidBacking (← Gen.canonicalName s))

/-- Whether the tag is an enumeration each of whose names selects a variant. -/
def tagIsExhaustive (tag : Shape) (variants : List (String × Shape))
    (tags : List (String × Literal)) : Gen Bool := do
  match ← Gen.resolved tag with
  | .enum _ entries =>
    return entries.all fun (name, _) => variants.any fun (key, _) =>
      match tags.lookup key with
      | some (.str s) => s == name
      | _ => key == name
  | _ => return false

end WireSchema.Lowering
