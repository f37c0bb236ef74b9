import WireSchema.Primitive
import WireSchema.Value
import WireSchema.Wire.Bytes
import WireSchema.Wire.Error

/-!
# Writing primitives

The bytes of a value as a given primitive. Any integer is accepted for an integer primitive and
wraps to its width; everything else has to be of the primitive's own form.
-/

namespace WireSchema.Wire

/-- Why a value cannot be written. -/
inductive WriteError where
  | encode (cause : EncodeError)
  /-- The value is not of the form that the primitive takes. -/
  | shape (expected found : String)
  deriving DecidableEq, Repr

/-- The number of a single-precision bit pattern, in double precision. A NaN keeps its payload and
becomes quiet. -/
def widen (bits : BitVec 32) : BitVec 64 :=
  let sign := bits.toNat >>> 31
  let biased := bits.toNat >>> 23 % 256
  let fraction := bits.toNat % 1 <<< 23
  let magnitude :=
    if biased = 255 then
      2047 <<< 52 + if fraction = 0 then 0 else fraction <<< 29 ||| 1 <<< 51
    else if biased = 0 then
      if fraction = 0 then 0
      else
        let top := Nat.log2 fraction
        (top + 874) <<< 52 + (fraction - 1 <<< top) <<< (52 - top)
    else (biased + 896) <<< 52 + fraction <<< 29
  BitVec.ofNat 64 (sign <<< 63 + magnitude)

/-- The bytes of an integer that has the bits `n`. -/
def intBytes (order : ByteOrder) (p : Primitive) (kind : IntKind) (n : Nat) : List UInt8 :=
  match p with
  | .varint => groups varintGroups n
  | .varlong => groups varlongGroups n
  | _ => order.split (kind.bits / 8) n

/-- Bytes after their number, if 31 bits can hold it. -/
def countedBytes (bytes : List UInt8) : Except WriteError (List UInt8) :=
  if bytes.length < Nat.pow 2 31 then .ok (groups varintGroups bytes.length ++ bytes)
  else .error (.encode (.lengthOverflow bytes.length))

/-- The bytes of `v` as the primitive `p`. -/
def write (order : ByteOrder) (p : Primitive) (v : Value) : Except WriteError (List UInt8) :=
  match p.intKind? with
  | some kind =>
    match v.asInt? with
    | some n => .ok (intBytes order p kind (BitVec.ofInt kind.bits n).toNat)
    | none => .error (.shape kind.name v.kind)
  | none =>
    match p, v with
    | .bool, .bool b => .ok [if b then 1 else 0]
    | .f32, .f32 bits => .ok (order.split 4 bits.toNat)
    | .f64, .f64 bits => .ok (order.split 8 bits.toNat)
    | .f64, .f32 bits => .ok (order.split 8 (widen bits).toNat)
    | .string, .str text => countedBytes (Text.encodeUtf8 text)
    | .bytes, .bytes bytes => countedBytes bytes
    | .rest, .bytes bytes => .ok bytes
    | .fixedBytes count, .bytes bytes =>
      if bytes.length = count then .ok bytes
      else .error (.encode (.lengthMismatch count bytes.length))
    | p, v => .error (.shape p.valueType v.kind)

end WireSchema.Wire
