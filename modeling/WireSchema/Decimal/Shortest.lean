/-!
# Shortest decimals

The decimal with the fewest digits that reads back as a given binary floating-point number. A number
is `mantissa * 2 ^ exponent`; the decimals that read back as it lie between the midpoints to its two
neighbours, and those midpoints count when the mantissa is even. For one digit after another, the
two neighbours of the number on the decimal grid are tried in exact arithmetic.
-/

namespace WireSchema.Decimal

/-- A positive binary floating-point number, with the layout of its format. -/
structure Binary where
  mantissa : Nat
  exponent : Int
  /-- Whether the gap to the next smaller number is half the gap to the next larger one. -/
  narrowBelow : Bool

/-- Digits, most significant first, and the power of ten of the point: `0.d₁d₂… * 10 ^ point`. -/
structure Digits where
  digits : List Nat
  point : Int

/-- A fraction of natural numbers. -/
structure Fraction where
  num : Nat
  den : Nat

/-- `n * 2 ^ exponent`. -/
def Fraction.scaled (n : Nat) (exponent : Int) : Fraction :=
  if exponent < 0 then ⟨n, Nat.pow 2 (-exponent).toNat⟩ else ⟨n * Nat.pow 2 exponent.toNat, 1⟩

/-- `n * 10 ^ power`. -/
def Fraction.onGrid (n : Nat) (power : Int) : Fraction :=
  if power < 0 then ⟨n, Nat.pow 10 (-power).toNat⟩ else ⟨n * Nat.pow 10 power.toNat, 1⟩

def Fraction.lt (a b : Fraction) : Bool := a.num * b.den < b.num * a.den

def Fraction.le (a b : Fraction) : Bool := a.num * b.den ≤ b.num * a.den

/-- The number itself. -/
def Binary.value (x : Binary) : Fraction := Fraction.scaled (4 * x.mantissa) (x.exponent - 2)

/-- The midpoint to the next smaller number. -/
def Binary.low (x : Binary) : Fraction :=
  Fraction.scaled (4 * x.mantissa - if x.narrowBelow then 1 else 2) (x.exponent - 2)

/-- The midpoint to the next larger number. -/
def Binary.high (x : Binary) : Fraction := Fraction.scaled (4 * x.mantissa + 2) (x.exponent - 2)

/-- Whether the decimal `d` reads back as `x`. -/
def Binary.reads (x : Binary) (d : Fraction) : Bool :=
  if x.mantissa % 2 == 0 then x.low.le d && d.le x.high else x.low.lt d && d.lt x.high

/-- How many times `f` has to be multiplied by ten to reach one. -/
def leadingZeros : Nat → Fraction → Nat
  | 0, _ => 0
  | fuel + 1, f => if f.den ≤ f.num then 0 else leadingZeros fuel ⟨f.num * 10, f.den⟩ + 1

/-- The power `p` with `10 ^ (p - 1) ≤ f < 10 ^ p`. -/
def pointOf (f : Fraction) : Int :=
  if f.den ≤ f.num then (Nat.toDigits 10 (f.num / f.den)).length
  else 1 - (leadingZeros 400 f : Int)

/-- The largest `n` with `n * 10 ^ power ≤ f`. -/
def floorOn (f : Fraction) (power : Int) : Nat :=
  if power < 0 then f.num * Nat.pow 10 (-power).toNat / f.den
  else f.num / (f.den * Nat.pow 10 power.toNat)

/-- Whether `f` is nearer to `n + 1` than to `n` on the grid of `10 ^ power`, or as near to both. -/
def nearerAbove (f : Fraction) (n : Nat) (power : Int) : Bool :=
  let middle := Fraction.onGrid (2 * n + 1) power
  (Fraction.mk middle.num (2 * middle.den)).le f

/-- The decimal with `count` digits or fewer that reads back as `x`, if there is one. -/
def candidate (x : Binary) (count : Nat) : Option (Nat × Int) :=
  let power := pointOf x.value - count
  let n := floorOn x.value power
  let below := x.reads (Fraction.onGrid n power)
  let above := x.reads (Fraction.onGrid (n + 1) power)
  if above && (!below || nearerAbove x.value n power) then some (n + 1, power)
  else if below then some (n, power)
  else none

/-- The first of `count`, `count + 1`, … digits that are enough. -/
def shortestFrom (x : Binary) : Nat → Nat → Nat × Int
  | 0, _ => (0, 0)
  | fuel + 1, count => (candidate x count).getD (shortestFrom x fuel (count + 1))

/-- The digits of `n` without zeros at the end. -/
def significant (n : Nat) : List Nat :=
  let digits := (Nat.toDigits 10 n).map fun c => c.toNat - '0'.toNat
  (digits.reverse.dropWhile (· == 0)).reverse

/-- The shortest decimal that reads back as `x`; seventeen digits are always enough for 64 bits. -/
def shortest (x : Binary) : Digits :=
  let (n, power) := shortestFrom x 20 1
  ⟨significant n, (Nat.toDigits 10 n).length + power⟩

end WireSchema.Decimal
