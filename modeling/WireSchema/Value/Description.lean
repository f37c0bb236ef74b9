import WireSchema.Value
import WireSchema.Decimal.FloatText

/-!
# Descriptions of values

The text by which messages show a value: scalars plainly, everything else with its constructors.
-/

namespace WireSchema.Value

/-- Texts divided by commas. -/
def commaSeparated (parts : List String) : String := String.intercalate ", " parts

/-- The name of the constructor of an integer. -/
def constructorName : IntKind → String
  | .i8 => "I8"
  | .u8 => "U8"
  | .i16 => "I16"
  | .u16 => "U16"
  | .i32 => "I32"
  | .u32 => "U32"
  | .i64 => "I64"
  | .u64 => "U64"
  | .u128 => "U128"
  | .usize => "Usize"

/-- The number that an integer stands for. -/
def number (kind : IntKind) (bits : BitVec kind.bits) : Int :=
  if kind.signed then bits.toInt else bits.toNat

mutual

/-- A value with its constructors. -/
def inspect : Value → String
  | .bool b => if b then "Bool(true)" else "Bool(false)"
  | .int kind bits => constructorName kind ++ "(" ++ toString (number kind bits) ++ ")"
  | .f32 bits => "Float(" ++ Decimal.single.text bits.toNat ++ ")"
  | .f64 bits => "Double(" ++ Decimal.double.text bits.toNat ++ ")"
  | .str s => "String(" ++ Text.quoted s ++ ")"
  | .bytes bs => "Bytes([" ++ commaSeparated (bs.map fun b => toString b.toNat) ++ "])"
  | .null => "Null"
  | .list items => "List([" ++ commaSeparated (inspectList items) ++ "])"
  | .map entries => "Map([" ++ commaSeparated (inspectEntries entries) ++ "])"
  | .struct fields => "Struct(\x7b" ++ commaSeparated (inspectFields fields) ++ "\x7d)"
  | .enum name => "Enum(" ++ Text.quoted name ++ ")"
  | .variant name none => "Variant(" ++ Text.quoted name ++ ", None)"
  | .variant name (some payload) =>
    "Variant(" ++ Text.quoted name ++ ", Some(" ++ inspect payload ++ "))"

def inspectList : List Value → List String
  | [] => []
  | v :: rest => inspect v :: inspectList rest

def inspectEntries : List (Value × Value) → List String
  | [] => []
  | (k, v) :: rest => ("(" ++ inspect k ++ ", " ++ inspect v ++ ")") :: inspectEntries rest

def inspectFields : List (String × Value) → List String
  | [] => []
  | (name, v) :: rest => (Text.quoted name ++ ": " ++ inspect v) :: inspectFields rest

end

/-- A value as messages show it. -/
def describe : Value → String
  | .str s => Text.quoted s
  | .enum name => name
  | .bool b => if b then "true" else "false"
  | .int kind bits => toString (kind.view bits)
  | v => v.inspect

end WireSchema.Value
