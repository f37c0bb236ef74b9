/-!
# Integer types

The fixed-width integer types of generated code. Calculations on them take place in 128-bit two's
complement, so an unsigned 128-bit integer is seen there as the signed integer with the same bits.
-/

namespace WireSchema

/-- An integer type of generated code. -/
inductive IntKind where
  | i8
  | u8
  | i16
  | u16
  | i32
  | u32
  | i64
  | u64
  | u128
  | usize
  deriving DecidableEq, Repr

namespace IntKind

/-- The number of bits. -/
def bits : IntKind → Nat
  | i8 | u8 => 8
  | i16 | u16 => 16
  | i32 | u32 => 32
  | i64 | u64 | usize => 64
  | u128 => 128

def signed : IntKind → Bool
  | i8 | i16 | i32 | i64 => true
  | u8 | u16 | u32 | u64 | u128 | usize => false

def name : IntKind → String
  | i8 => "i8"
  | u8 => "u8"
  | i16 => "i16"
  | u16 => "u16"
  | i32 => "i32"
  | u32 => "u32"
  | i64 => "i64"
  | u64 => "u64"
  | u128 => "u128"
  | usize => "usize"

/-- The number that calculations see in the bits of an integer. -/
def view (kind : IntKind) (b : BitVec kind.bits) : Int :=
  if kind.signed || kind.bits == 128 then b.toInt else b.toNat

/-- `v` reduced to the range of the type by dropping high bits. -/
def wrap (kind : IntKind) (v : Int) : Int :=
  kind.view (BitVec.ofInt kind.bits v)

/-- The number with `width` ones, as far as 128-bit two's complement has it. -/
def mask (width : Nat) : Int :=
  (Nat.pow 2 (min width 127) : Nat) - 1

end IntKind

end WireSchema
