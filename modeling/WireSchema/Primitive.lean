import WireSchema.IntKind

/-!
# Wire primitives

The kinds of value that a byte stream holds without further structure.
-/

namespace WireSchema

/-- A wire primitive. -/
inductive Primitive where
  | bool
  | i8
  | u8
  | i16
  | u16
  | i32
  | u32
  | i64
  | u64
  | f32
  | f64
  /-- A 32-bit integer in groups of seven bits. -/
  | varint
  /-- A 64-bit integer in groups of seven bits. -/
  | varlong
  | u128
  /-- UTF-8 text after its length in bytes. -/
  | string
  /-- Bytes after their number. -/
  | bytes
  /-- All bytes that are left. -/
  | rest
  | fixedBytes (length : Nat)
  deriving DecidableEq, Repr

namespace Primitive

/-- The end of the names of the methods that read and write the primitive. -/
def methodSuffix : Primitive → String
  | bool => "bool"
  | i8 => "i8"
  | u8 => "u8"
  | i16 => "i16"
  | u16 => "u16"
  | i32 => "i32"
  | u32 => "u32"
  | i64 => "i64"
  | u64 => "u64"
  | f32 => "f32"
  | f64 => "f64"
  | varint => "varint"
  | varlong => "varlong"
  | u128 => "u128"
  | string => "string"
  | bytes => "bytes"
  | rest => "rest"
  | fixedBytes _ => "fixed_bytes"

/-- The integer type of the values, for a primitive that holds integers. -/
def intKind? : Primitive → Option IntKind
  | i8 => some .i8
  | u8 => some .u8
  | i16 => some .i16
  | u16 => some .u16
  | i32 | varint => some .i32
  | u32 => some .u32
  | i64 | varlong => some .i64
  | u64 => some .u64
  | u128 => some .u128
  | _ => none

/-- The type that values have in generated code. -/
def valueType : Primitive → String
  | string => "String"
  | bytes | rest | fixedBytes _ => "Vec<u8>"
  | f32 => "f32"
  | f64 => "f64"
  | bool => "bool"
  | p => match p.intKind? with
    | some kind => kind.name
    | none => "()"

def isInteger (p : Primitive) : Bool := p.intKind?.isSome

/-- Whether values are written by value and not by reference. -/
def isCopy : Primitive → Bool
  | string | bytes | rest | fixedBytes _ => false
  | _ => true

/-- The name of the primitive in canonical names of shapes. -/
def schemaName : Primitive → String
  | bool => "Bool"
  | i8 => "I8"
  | u8 => "U8"
  | i16 => "I16"
  | u16 => "U16"
  | i32 => "I32"
  | u32 => "U32"
  | i64 => "I64"
  | u64 => "U64"
  | f32 => "F32"
  | f64 => "F64"
  | varint => "VarInt"
  | varlong => "VarLong"
  | u128 => "U128"
  | string => "String"
  | bytes => "Bytes"
  | rest => "RestBytes"
  | fixedBytes n => s!"FixedBytes{n}"

/-- The primitive that a schema text calls `name`. -/
def ofName? (name : String) : Option Primitive :=
  match name with
  | "bool" | "boolean" => some bool
  | "i8" | "byte" => some i8
  | "u8" | "ubyte" => some u8
  | "i16" | "short" => some i16
  | "u16" | "ushort" => some u16
  | "i32" | "int" => some i32
  | "u32" => some u32
  | "i64" | "long" => some i64
  | "u64" => some u64
  | "f32" | "float" => some f32
  | "f64" | "double" => some f64
  | "varint" => some varint
  | "varlong" => some varlong
  | "u128" | "uuid" => some u128
  | "string" => some string
  | "bytes" => some bytes
  | "rest" => some rest
  | _ => none

end Primitive

end WireSchema
