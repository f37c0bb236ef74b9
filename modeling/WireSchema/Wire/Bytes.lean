/-!
# Numbers as bytes

The bytes of a natural number in either byte order, and in groups of seven bits of which all but the
last are marked by their high bit.
-/

namespace WireSchema.Wire

/-- The order of the bytes of a fixed-width number. -/
inductive ByteOrder where
  /-- Most significant byte first. -/
  | big
  /-- Least significant byte first. -/
  | little
  deriving DecidableEq, Repr

/-- The `width` low bytes of `n`, least significant first. -/
def split : Nat → Nat → List UInt8
  | 0, _ => []
  | width + 1, n => UInt8.ofNat n :: split width (n / 256)

/-- The number whose bytes, least significant first, are given. -/
def combine : List UInt8 → Nat
  | [] => 0
  | b :: rest => b.toNat + 256 * combine rest

/-- The `width` low bytes of `n` in the given order. -/
def ByteOrder.split (order : ByteOrder) (width n : Nat) : List UInt8 :=
  match order with
  | .big => (Wire.split width n).reverse
  | .little => Wire.split width n

/-- The number that `bytes` hold in the given order. -/
def ByteOrder.combine (order : ByteOrder) (bytes : List UInt8) : Nat :=
  match order with
  | .big => Wire.combine bytes.reverse
  | .little => Wire.combine bytes

/-- `n` in groups of seven bits, least significant first, as few as possible and at most `limit`. -/
def groups : Nat → Nat → List UInt8
  | 0, _ => []
  | limit + 1, n =>
    if n < 128 then [UInt8.ofNat n] else UInt8.ofNat (n % 128 + 128) :: groups limit (n / 128)

/-- The largest number of groups of a 32-bit integer. -/
def varintGroups : Nat := 5

/-- The largest number of groups of a 64-bit integer. -/
def varlongGroups : Nat := 10

end WireSchema.Wire
