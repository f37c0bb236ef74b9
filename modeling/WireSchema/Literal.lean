import WireSchema.IntKind
import WireSchema.Text.Quoted

/-!
# Literals
-/

namespace WireSchema

/-- A fixed value of a schema. An integer keeps the number it was given, also where its type cannot
hold it. -/
inductive Literal where
  | int (value : Int) (kind : IntKind)
  | bool (value : Bool)
  | str (value : String)
  deriving DecidableEq, Repr

/-- The text of a literal in names and messages. -/
def Literal.text : Literal → String
  | .int value _ => toString value
  | .bool value => if value then "true" else "false"
  | .str value => Text.quoted value

end WireSchema
