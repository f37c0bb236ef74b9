import WireSchema.Document
import WireSchema.Primitive
import WireSchema.Text.Lines
import WireSchema.Value.Description

/-!
# Data in documents

Primitives, literals and values.
-/

namespace WireSchema.Document

/-- The lowercase hexadecimal digits of bytes. -/
def hexOfBytes (bytes : List UInt8) : String :=
  String.join (bytes.map fun b => Text.hex 2 b.toNat)

/-- The number that a hexadecimal digit stands for. -/
def hexDigit (c : Char) : Nat :=
  if c.isDigit then c.toNat - '0'.toNat else c.toLower.toNat - 'a'.toNat + 10

/-- The number with the given hexadecimal digits. -/
def ofHexDigits (cs : List Char) : Nat := cs.foldl (fun n c => n * 16 + hexDigit c) 0

/-- The bytes with the given hexadecimal digits. -/
def bytesOfHex : List Char → List UInt8
  | a :: b :: rest => UInt8.ofNat (hexDigit a * 16 + hexDigit b) :: bytesOfHex rest
  | _ => []

def ofPrimitive : Primitive → Document
  | .fixedBytes n => .word s!"bytes[{n}]"
  | p => .word p.methodSuffix

/-- The primitive with a name of a schema text, or `bytes[n]`. -/
def primitiveNamed? (name : String) : Option Primitive :=
  match name.toList with
  | 'b' :: 'y' :: 't' :: 'e' :: 's' :: '[' :: digits =>
    (String.ofList digits.dropLast).toNat?.map .fixedBytes
  | _ => Primitive.ofName? name

def toPrimitive? (d : Document) : Option Primitive := d.word?.bind primitiveNamed?

def ofIntKind (kind : IntKind) : Document := .word kind.name

def toIntKind? (d : Document) : Option IntKind := do
  let name ← d.word?
  [IntKind.i8, .u8, .i16, .u16, .i32, .u32, .i64, .u64, .u128, .usize].find? (·.name == name)

def ofLiteral : Literal → Document
  | .int n kind => .record [("int", decimal n), ("ty", ofIntKind kind)]
  | .bool b => .record [("bool", .flag b)]
  | .str s => .record [("str", .word s)]

def toLiteral? (d : Document) : Option Literal :=
  match d.part "int", d.part "bool", d.part "str" with
  | .null, .flag b, _ => some (.bool b)
  | .null, _, .word s => some (.str s)
  | n, _, _ => do return .int (← n.int?) (← toIntKind? (d.part "ty"))

mutual

def ofValue : Value → Document
  | .bool b => .record [("bool", .flag b)]
  | .int kind bits => .record [(kind.name, decimal (Value.number kind bits))]
  | .f32 bits => .record [("f32", .word (Text.hex 8 bits.toNat))]
  | .f64 bits => .record [("f64", .word (Text.hex 16 bits.toNat))]
  | .str s => .record [("str", .word s)]
  | .bytes bs => .record [("bytes", .word (hexOfBytes bs))]
  | .null => .null
  | .list items => .record [("list", .row (ofValues items))]
  | .map entries => .record [("map", .row (ofEntries entries))]
  | .struct fields => .record [("struct", .record (ofFields fields))]
  | .enum name => .record [("enum", .word name)]
  | .variant name none => .record [("variant", .row [.word name])]
  | .variant name (some p) => .record [("variant", .row [.word name, ofValue p])]

def ofValues : List Value → List Document
  | [] => []
  | v :: rest => ofValue v :: ofValues rest

def ofEntries : List (Value × Value) → List Document
  | [] => []
  | (k, v) :: rest => .row [ofValue k, ofValue v] :: ofEntries rest

def ofFields : List (String × Value) → List (String × Document)
  | [] => []
  | (n, v) :: rest => (n, ofValue v) :: ofFields rest

end

mutual

def toValue? : Document → Option Value
  | .null => some .null
  | .record [("list", .row items)] => (toValues? items).map .list
  | .record [("map", .row entries)] => (toEntries? entries).map .map
  | .record [("struct", .record fields)] => (toFields? fields).map Value.ofFields
  | .record [("variant", .row [.word name])] => some (.variant name none)
  | .record [("variant", .row [.word name, p])] =>
    (toValue? p).map fun v => .variant name (some v)
  | .record [(key, .flag b)] => if key = "bool" then some (.bool b) else none
  | .record [(key, d)] => scalar? key d
  | _ => none

/-- A value without parts. -/
def scalar? (key : String) (d : Document) : Option Value := do
  let text ← d.word?
  match key with
  | "f32" => return .f32 (BitVec.ofNat 32 (ofHexDigits text.toList))
  | "f64" => return .f64 (BitVec.ofNat 64 (ofHexDigits text.toList))
  | "str" => return .str text
  | "bytes" => return .bytes (bytesOfHex text.toList)
  | "enum" => return .enum text
  | _ => return Value.ofInt (← toIntKind? (.word key)) (← text.toInt?)

def toValues? : List Document → Option (List Value)
  | [] => some []
  | d :: rest => do return (← toValue? d) :: (← toValues? rest)

def toEntries? : List Document → Option (List (Value × Value))
  | [] => some []
  | .row [k, v] :: rest => do return (← toValue? k, ← toValue? v) :: (← toEntries? rest)
  | _ :: _ => none

def toFields? : List (String × Document) → Option (List (String × Value))
  | [] => some []
  | (n, d) :: rest => do return (n, ← toValue? d) :: (← toFields? rest)

end

end WireSchema.Document
