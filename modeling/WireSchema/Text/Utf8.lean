/-!
# UTF-8

Text as bytes. Reading stops at the first byte that cannot be part of a text and says where that
is and how many bytes were wrong, or that the bytes end inside a character.
-/

namespace WireSchema.Text

/-- Why bytes are not UTF-8. Positions count from the first byte. -/
inductive Utf8Error where
  /-- `length` bytes from `index` on begin no character. -/
  | invalid (length index : Nat)
  /-- The bytes end inside the character that begins at `index`. -/
  | incomplete (index : Nat)
  deriving DecidableEq, Repr

/-- The wording of an error. -/
def Utf8Error.message : Utf8Error → String
  | .invalid length index => s!"invalid utf-8 sequence of {length} bytes from index {index}"
  | .incomplete index => s!"incomplete utf-8 byte sequence from index {index}"

/-- The bytes of a text. -/
def encodeUtf8 (text : String) : List UInt8 :=
  text.toList.flatMap String.utf8EncodeChar

/-- The six bits that a continuation byte carries, if `b` is one. -/
def continuation (b : UInt8) : Option Nat :=
  if 0x80 ≤ b.toNat ∧ b.toNat ≤ 0xbf then some (b.toNat - 0x80) else none

/-- The bounds of the second byte of a character that begins with the three-byte or four-byte
leader `b`. They leave out long forms, surrogates and numbers above U+10FFFF. -/
def secondBounds (b : Nat) : Nat × Nat :=
  if b = 0xe0 then (0xa0, 0xbf)
  else if b = 0xed then (0x80, 0x9f)
  else if b = 0xf0 then (0x90, 0xbf)
  else if b = 0xf4 then (0x80, 0x8f)
  else (0x80, 0xbf)

/-- The six bits of the second byte of a character with leader `lead`, if it is within bounds. -/
def secondByte (lead : Nat) (b : UInt8) : Option Nat :=
  if (secondBounds lead).1 ≤ b.toNat ∧ b.toNat ≤ (secondBounds lead).2 then some (b.toNat - 0x80)
  else none

/-- The character at the front of `bytes`, the bytes after it and its length. `index` is the
position of the first byte. -/
def decodeChar (index : Nat) (lead : UInt8) (rest : List UInt8) :
    Except Utf8Error (Char × List UInt8 × Nat) :=
  let a := lead.toNat
  if a < 0x80 then .ok (Char.ofNat a, rest, 1)
  else if 0xc2 ≤ a ∧ a ≤ 0xdf then
    match rest with
    | [] => .error (.incomplete index)
    | b :: rest =>
      match continuation b with
      | none => .error (.invalid 1 index)
      | some x => .ok (Char.ofNat ((a - 0xc0) * 64 + x), rest, 2)
  else if 0xe0 ≤ a ∧ a ≤ 0xef then
    match rest with
    | [] => .error (.incomplete index)
    | b :: rest =>
      match secondByte a b, rest with
      | none, _ => .error (.invalid 1 index)
      | some _, [] => .error (.incomplete index)
      | some x, c :: rest =>
        match continuation c with
        | none => .error (.invalid 2 index)
        | some y => .ok (Char.ofNat (((a - 0xe0) * 64 + x) * 64 + y), rest, 3)
  else if 0xf0 ≤ a ∧ a ≤ 0xf4 then
    match rest with
    | [] => .error (.incomplete index)
    | b :: rest =>
      match secondByte a b, rest with
      | none, _ => .error (.invalid 1 index)
      | some _, [] => .error (.incomplete index)
      | some x, c :: rest =>
        match continuation c, rest with
        | none, _ => .error (.invalid 2 index)
        | some _, [] => .error (.incomplete index)
        | some y, d :: rest =>
          match continuation d with
          | none => .error (.invalid 3 index)
          | some z => .ok (Char.ofNat ((((a - 0xf0) * 64 + x) * 64 + y) * 64 + z), rest, 4)
  else .error (.invalid 1 index)

/-- The characters of `bytes`, which begin at position `index`. A character takes at least one
byte, so `fuel` bytes can be read with `fuel` steps. -/
def decodeFrom : Nat → Nat → List UInt8 → Except Utf8Error (List Char)
  | _, _, [] => .ok []
  | 0, _, _ :: _ => .ok []
  | fuel + 1, index, lead :: rest => do
    let (c, rest, length) ← decodeChar index lead rest
    let cs ← decodeFrom fuel (index + length) rest
    return c :: cs

/-- The text that `bytes` hold. -/
def decodeUtf8 (bytes : List UInt8) : Except Utf8Error String :=
  (decodeFrom bytes.length 0 bytes).map String.ofList

end WireSchema.Text
