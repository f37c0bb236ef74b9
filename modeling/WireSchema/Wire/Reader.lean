import WireSchema.Primitive
import WireSchema.Value
import WireSchema.Wire.Bytes
import WireSchema.Wire.Error

/-!
# Reading primitives

A reader stands at a position of a byte string. Every read moves it forward; one that asks for more
bytes than are left fails and leaves it at the end.
-/

namespace WireSchema.Wire

/-- A position in a byte string. -/
structure Reader where
  /-- The bytes not read yet. -/
  rest : List UInt8
  /-- The number of bytes read. -/
  position : Nat
  deriving DecidableEq, Repr

/-- A reader at the front of `bytes`. -/
def Reader.ofBytes (bytes : List UInt8) : Reader := ⟨bytes, 0⟩

/-- A read: it moves the reader also when it fails. -/
abbrev Read := ExceptT DecodeError (StateM Reader)

/-- The next `count` bytes. -/
def take (count : Nat) : Read (List UInt8) := do
  let reader ← get
  let front := reader.rest.take count
  if front.length = count then
    set (Reader.mk (reader.rest.drop count) (reader.position + count))
    return front
  else
    set (Reader.mk [] (reader.position + reader.rest.length))
    throw .unexpectedEnd

/-- All bytes that are left. -/
def takeRest : Read (List UInt8) := do
  let reader ← get
  take reader.rest.length

/-- The next `count` bytes as a number. -/
def takeNumber (order : ByteOrder) (count : Nat) : Read Nat := do
  let bytes ← take count
  return order.combine bytes

/-- A number in at most `fuel` more groups of seven bits, out of `limit` that it may have. -/
def takeGroups (limit : Nat) : Nat → Read Nat
  | 0 => throw (.malformedVarint limit)
  | fuel + 1 => do
    let byte ← takeNumber .little 1
    if byte < 128 then return byte
    else
      let high ← takeGroups limit fuel
      return byte - 128 + 128 * high

/-- A 32-bit integer in groups of seven bits. -/
def takeVarint : Read (BitVec 32) := do
  let n ← takeGroups varintGroups varintGroups
  return BitVec.ofNat 32 n

/-- A 64-bit integer in groups of seven bits. -/
def takeVarlong : Read (BitVec 64) := do
  let n ← takeGroups varlongGroups varlongGroups
  return BitVec.ofNat 64 n

/-- Bytes after their number. -/
def takeCounted : Read (List UInt8) := do
  let length ← takeVarint
  if length.toInt < 0 then throw (.negativeLength length.toInt)
  take length.toNat

/-- An integer of fixed width. -/
def takeInt (order : ByteOrder) (kind : IntKind) : Read Value := do
  let n ← takeNumber order (kind.bits / 8)
  return .int kind (BitVec.ofNat kind.bits n)

/-- The value of a primitive at the position of the reader. -/
def read (order : ByteOrder) : Primitive → Read Value
  | .bool => do
    let byte ← takeNumber order 1
    return .bool (byte != 0)
  | .i8 => takeInt order .i8
  | .u8 => takeInt order .u8
  | .i16 => takeInt order .i16
  | .u16 => takeInt order .u16
  | .i32 => takeInt order .i32
  | .u32 => takeInt order .u32
  | .i64 => takeInt order .i64
  | .u64 => takeInt order .u64
  | .u128 => takeInt order .u128
  | .f32 => do
    let n ← takeNumber order 4
    return .f32 (BitVec.ofNat 32 n)
  | .f64 => do
    let n ← takeNumber order 8
    return .f64 (BitVec.ofNat 64 n)
  | .varint => do
    let n ← takeVarint
    return .int .i32 n
  | .varlong => do
    let n ← takeVarlong
    return .int .i64 n
  | .string => do
    let bytes ← takeCounted
    match Text.decodeUtf8 bytes with
    | .ok text => return .str text
    | .error cause => throw (.invalidUtf8 cause)
  | .bytes => do
    let bytes ← takeCounted
    return .bytes bytes
  | .rest => do
    let bytes ← takeRest
    return .bytes bytes
  | .fixedBytes count => do
    let bytes ← take count
    return .bytes bytes

end WireSchema.Wire
