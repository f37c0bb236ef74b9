import WireSchema.Decimal.Shortest

/-!
# Text of floating-point numbers

The text that messages give a floating-point number: the shortest decimal that reads back,
positional from `10 ^ (-4)` up to `10 ^ 16` with at least one decimal place, and with an exponent
outside of that.
-/

namespace WireSchema.Decimal

/-- The layout of an IEEE binary format. -/
structure Format where
  mantissaBits : Nat
  exponentBits : Nat

def single : Format := ⟨23, 8⟩

def double : Format := ⟨52, 11⟩

/-- A number of a format, taken apart. -/
inductive Class where
  | nan
  | infinite
  | zero
  | finite (x : Binary)

/-- What the bits of a number of the format `f` stand for, sign aside. -/
def Format.classify (f : Format) (bits : Nat) : Class :=
  let fraction := bits % Nat.pow 2 f.mantissaBits
  let biased := bits / Nat.pow 2 f.mantissaBits % Nat.pow 2 f.exponentBits
  let base : Int := 2 - Nat.pow 2 (f.exponentBits - 1) - f.mantissaBits
  if biased == Nat.pow 2 f.exponentBits - 1 then if fraction == 0 then .infinite else .nan
  else if biased == 0 then
    if fraction == 0 then .zero else .finite ⟨fraction, base, false⟩
  else .finite ⟨Nat.pow 2 f.mantissaBits + fraction, base + biased - 1, fraction == 0 && 1 < biased⟩

def Format.negative (f : Format) (bits : Nat) : Bool :=
  bits / Nat.pow 2 (f.mantissaBits + f.exponentBits) % 2 == 1

/-- The characters of a list of decimal digits. -/
def digitChars (digits : List Nat) : List Char := digits.map Nat.digitChar

/-- Positional text, with at least one place after the point. -/
def positional (d : Digits) : List Char :=
  if d.point ≤ 0 then
    ['0', '.'] ++ List.replicate (-d.point).toNat '0' ++ digitChars d.digits
  else
    let whole := d.digits.take d.point.toNat
    let places := d.digits.drop d.point.toNat
    digitChars whole ++ List.replicate (d.point.toNat - d.digits.length) '0' ++ ['.'] ++
      (if places.isEmpty then ['0'] else digitChars places)

/-- Text with an exponent. -/
def scientific (d : Digits) : List Char :=
  let places := digitChars (d.digits.drop 1)
  digitChars (d.digits.take 1) ++ (if places.isEmpty then [] else '.' :: places) ++
    'e' :: (toString (d.point - 1)).toList

/-- The text of a number of the format `f`. -/
def Format.text (f : Format) (bits : Nat) : String :=
  let sign := if f.negative bits then ['-'] else []
  match f.classify bits with
  | .nan => "NaN"
  | .infinite => String.ofList (sign ++ "inf".toList)
  | .zero => String.ofList (sign ++ "0.0".toList)
  | .finite x =>
    let d := shortest x
    String.ofList
      (sign ++ if -3 ≤ d.point ∧ d.point ≤ 16 then positional d else scientific d)

end WireSchema.Decimal
