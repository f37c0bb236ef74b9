import WireSchema.Wire.Writer

/-!
# Errors of running code
-/

namespace WireSchema

/-- Why a run of generated code fails. -/
inductive RunError where
  | decode (cause : Wire.DecodeError)
  | encode (cause : Wire.EncodeError)
  /-- A value does not have the form that the code asks for. -/
  | shape (expected found : String)
  | unknownPacket (name : String)
  | unknownFlow (name : String)
  | unknownDecl (name : String)
  | unbound (name : String)
  | unknownFunction (path : String)
  /-- Codecs call each other without end. -/
  | tooDeep
  deriving DecidableEq, Repr

def RunError.message : RunError → String
  | .decode cause => "decode: " ++ cause.message
  | .encode cause => "encode: " ++ cause.message
  | .shape expected found => s!"value shape: expected {expected}, found {found}"
  | .unknownPacket name => "unknown packet: " ++ name
  | .unknownFlow name => "unknown protocol or flow: " ++ name
  | .unknownDecl name => "unknown declaration: " ++ name
  | .unbound name => s!"binding {name} used before assignment"
  | .unknownFunction path => "no host function registered for " ++ path
  | .tooDeep => "codecs nest without end"

/-- The error of a value that does not have the expected form. -/
def RunError.misfit (expected : String) (found : Value) : RunError := .shape expected found.kind

/-- An error of writing, seen by a run. -/
def RunError.ofWrite : Wire.WriteError → RunError
  | .encode cause => .encode cause
  | .shape expected found => .shape expected found

end WireSchema
