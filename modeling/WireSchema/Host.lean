import WireSchema.Value

/-!
# Host functions

Functions from outside the generated code that a running decoder or encoder calls by path.
-/

namespace WireSchema

/-- A host function: it gives a value or says what is wrong with its arguments. -/
abbrev HostFunction := List Value → Except String Value

/-- A pair of functions between wire values and host values. -/
structure Transform where
  /-- From the wire to the host. -/
  decode : Value → Except String Value
  /-- From the host to the wire. -/
  encode : Value → Except String Value

/-- A function of one argument as a host function. -/
def HostFunction.unary (f : Value → Except String Value) : HostFunction
  | v :: _ => f v
  | [] => .error "missing argument"

/-- Host functions by path, with `path` set to `f`. -/
def HostFunction.insert (path : String) (f : HostFunction) :
    List (String × HostFunction) → List (String × HostFunction)
  | [] => [(path, f)]
  | (other, g) :: rest =>
    if other = path then (path, f) :: rest else (other, g) :: insert path f rest

end WireSchema
