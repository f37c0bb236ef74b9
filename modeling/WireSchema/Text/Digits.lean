/-!
# Hexadecimal text
-/

namespace WireSchema.Text

/-- The lowercase hexadecimal digits of `n`, without leading zeros. -/
def hexDigits (n : Nat) : List Char :=
  Nat.toDigits 16 n

/-- `cs`, with zeros put in front up to `width` characters. -/
def padZeros (width : Nat) (cs : List Char) : List Char :=
  List.replicate (width - cs.length) '0' ++ cs

/-- `n` in hexadecimal, with at least `width` digits. -/
def hex (width n : Nat) : String :=
  String.ofList (padZeros width (hexDigits n))

/-- `n` in hexadecimal after `0x`, with at least `width` digits. -/
def hexLiteral (width n : Nat) : String :=
  "0x" ++ hex width n

end WireSchema.Text
