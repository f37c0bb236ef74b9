import WireSchema.IntKind
import WireSchema.Literal

/-!
# Values

The dynamic values that decoding yields and encoding takes. An integer carries exactly the bits of
its type and a floating-point number its bit pattern. The fields of a struct are kept in the order
of their names, so equal structs are equal lists.
-/

namespace WireSchema

/-- A decoded value. -/
inductive Value where
  | bool (b : Bool)
  | int (kind : IntKind) (bits : BitVec kind.bits)
  | f32 (bits : BitVec 32)
  | f64 (bits : BitVec 64)
  | str (s : String)
  | bytes (bs : List UInt8)
  /-- An absent optional. -/
  | null
  | list (items : List Value)
  /-- Entries in the order of insertion. -/
  | map (entries : List (Value × Value))
  /-- Fields in the order of their names. -/
  | struct (fields : List (String × Value))
  /-- A name of an enumeration. -/
  | enum (name : String)
  /-- A variant of a union, with its payload. -/
  | variant (name : String) (payload : Option Value)

namespace Value

/-- The integer of the given type that `v` wraps to. -/
def ofInt (kind : IntKind) (v : Int) : Value :=
  .int kind (BitVec.ofInt kind.bits v)

def intKind? : Value → Option IntKind
  | .int kind _ => some kind
  | _ => none

/-- The number that calculations see in an integer. -/
def asInt? : Value → Option Int
  | .int kind bits => some (kind.view bits)
  | _ => none

def asBool? : Value → Option Bool
  | .bool b => some b
  | _ => none

def asStr? : Value → Option String
  | .str s => some s
  | _ => none

def asList? : Value → Option (List Value)
  | .list items => some items
  | _ => none

def asStruct? : Value → Option (List (String × Value))
  | .struct fields => some fields
  | _ => none

/-- `fields`, ordered by name, with `name` set to `v`. -/
def setField (name : String) (v : Value) : List (String × Value) → List (String × Value)
  | [] => [(name, v)]
  | (n, w) :: rest =>
    if name < n then (name, v) :: (n, w) :: rest
    else if name = n then (name, v) :: rest
    else (n, w) :: setField name v rest

/-- The struct with the given fields; of several with one name the last counts. -/
def ofFields (fields : List (String × Value)) : Value :=
  .struct (fields.foldl (fun acc (name, v) => setField name v acc) [])

/-- The field `name` of a list of fields. -/
def getField? (name : String) (fields : List (String × Value)) : Option Value :=
  fields.findSome? fun (n, v) => if n = name then some v else none

/-- The field `name` of a struct. -/
def field? (v : Value) (name : String) : Option Value :=
  v.asStruct?.bind (getField? name)

/-- What messages call a value of this form. -/
def kind : Value → String
  | .bool _ => "bool"
  | .int _ _ => "integer"
  | .f32 _ | .f64 _ => "float"
  | .str _ => "string"
  | .bytes _ => "bytes"
  | .null => "null"
  | .list _ => "list"
  | .map _ => "map"
  | .struct _ => "struct"
  | .enum _ => "enum"
  | .variant _ _ => "variant"

/-- Equality of IEEE numbers with `mantissa` fraction bits, given by their bits below the sign and
their signs: no NaN equals anything, and the two zeros are equal. -/
def floatEq (width mantissa : Nat) (a b : BitVec width) : Bool :=
  let magnitude (x : BitVec width) := x.toNat % Nat.pow 2 (width - 1)
  let infinity := Nat.pow 2 (width - 1) - Nat.pow 2 mantissa
  magnitude a ≤ infinity && magnitude b ≤ infinity &&
    (a == b || (magnitude a == 0 && magnitude b == 0))

mutual

/-- Equality of values, with floating-point numbers compared as numbers. -/
def equal : Value → Value → Bool
  | .bool a, .bool b => a == b
  | .int k a, .int l b => k == l && a.toNat == b.toNat
  | .f32 a, .f32 b => floatEq 32 23 a b
  | .f64 a, .f64 b => floatEq 64 52 a b
  | .str a, .str b => a == b
  | .bytes a, .bytes b => a == b
  | .null, .null => true
  | .list a, .list b => equalList a b
  | .map a, .map b => equalEntries a b
  | .struct a, .struct b => equalFields a b
  | .enum a, .enum b => a == b
  | .variant n p, .variant m q => n == m && equalOption p q
  | _, _ => false

def equalOption : Option Value → Option Value → Bool
  | none, none => true
  | some a, some b => equal a b
  | _, _ => false

def equalList : List Value → List Value → Bool
  | [], [] => true
  | a :: as, b :: bs => equal a b && equalList as bs
  | _, _ => false

def equalEntries : List (Value × Value) → List (Value × Value) → Bool
  | [], [] => true
  | (k, v) :: as, (l, w) :: bs => equal k l && equal v w && equalEntries as bs
  | _, _ => false

def equalFields : List (String × Value) → List (String × Value) → Bool
  | [], [] => true
  | (n, v) :: as, (m, w) :: bs => n == m && equal v w && equalFields as bs
  | _, _ => false

end

instance : BEq Value := ⟨equal⟩

/-- Whether a value is the absent optional. -/
def isNull : Value → Bool
  | .null => true
  | _ => false

/-- The value of a literal: an integer wraps to its type. -/
def ofLiteral : Literal → Value
  | .int v kind => ofInt kind v
  | .bool b => .bool b
  | .str s => .str s

/-- Whether a value is the one that a literal names. The number of an integer literal is not
wrapped here. -/
def isLiteral (v : Value) : Literal → Bool
  | .int n _ => v.asInt? == some n
  | .bool b => v.asBool? == some b
  | .str s => v.asStr? == some s

mutual

/-- The number of values that a value is made of. -/
def size : Value → Nat
  | .list items => sizeList items + 1
  | .map entries => sizeEntries entries + 1
  | .struct fields => sizeFields fields + 1
  | .variant _ (some payload) => size payload + 1
  | _ => 1

def sizeList : List Value → Nat
  | [] => 0
  | v :: rest => size v + sizeList rest

def sizeEntries : List (Value × Value) → Nat
  | [] => 0
  | (k, v) :: rest => size k + size v + sizeEntries rest

def sizeFields : List (String × Value) → Nat
  | [] => 0
  | (_, v) :: rest => size v + sizeFields rest

end

end Value

end WireSchema
