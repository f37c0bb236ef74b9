import WireSchema.Error
import WireSchema.Literal
import WireSchema.Source.Spec
import WireSchema.Text.Lines

/-!
# Numbers and literals of a schema text

A number has to fit 128-bit two's complement without its sign.
-/

namespace WireSchema.Source

namespace Numeral

/-- A number as written. -/
def text (n : Numeral) : String :=
  let sign := if n.negative then ['-'] else []
  let mark := match n.hexMark with
    | some c => ['0', c]
    | none => []
  String.ofList (sign ++ mark ++ n.digits)

/-- The value of a decimal or hexadecimal digit. -/
def digitValue (c : Char) : Nat :=
  if c.isDigit then c.toNat - '0'.toNat
  else if 'a' ≤ c then c.toNat - 'a'.toNat + 10
  else c.toNat - 'A'.toNat + 10

def base (n : Numeral) : Nat := if n.hexMark.isSome then 16 else 10

/-- The number that the digits stand for. -/
def magnitude (n : Numeral) : Nat :=
  n.digits.foldl (fun acc c => acc * n.base + digitValue c) 0

/-- The number as written. -/
def value (n : Numeral) : Except SchemaError Int :=
  if n.magnitude < Nat.pow 2 127 then .ok (if n.negative then -n.magnitude else n.magnitude)
  else .error (.parse s!"bad integer {n.text}: number too large to fit in target type")

end Numeral

/-- The text that the body of a quoted text stands for: quotes, line feeds, tabs and backslashes are
replaced one kind after the other. -/
def unescape (body : List Char) : List Char :=
  let step (escape : Char) (image : Char) (cs : List Char) : List Char :=
    Text.replace ['\\', escape] [image] cs
  step '\\' '\\' (step 't' '\t' (step 'n' '\n' (step '"' '"' body)))

/-- The literal; an integer has the given type. -/
def LiteralSpec.literal (kind : IntKind) : LiteralSpec → Except SchemaError Literal
  | .int n => do return .int (← n.value) kind
  | .bool b => return .bool b
  | .str body => return .str (String.ofList (unescape body))

end WireSchema.Source
