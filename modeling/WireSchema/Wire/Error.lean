import WireSchema.Text.Utf8
import WireSchema.Text.Digits

/-!
# Errors of reading and writing
-/

namespace WireSchema.Wire

/-- Why bytes cannot be decoded. -/
inductive DecodeError where
  | unexpectedEnd
  /-- An integer in groups of seven bits has more than `limit` of them. -/
  | malformedVarint (limit : Nat)
  | negativeLength (length : Int)
  | invalidUtf8 (cause : Text.Utf8Error)
  | unknownEnumId (type : String) (id : Int)
  | unknownTag (type tag : String)
  | literalMismatch (expected found : String)
  | unknownPacket (flow : String) (id : Int)
  /-- A host function refused the value it was given. -/
  | transform (path message : String)
  deriving DecidableEq, Repr

def DecodeError.message : DecodeError → String
  | .unexpectedEnd => "unexpected end of input"
  | .malformedVarint limit => s!"malformed VarInt: more than {limit} bytes"
  | .negativeLength length => s!"negative length {length}"
  | .invalidUtf8 cause => "invalid UTF-8: " ++ cause.message
  | .unknownEnumId type id => s!"unknown id {id} for enum {type}"
  | .unknownTag type tag => s!"unknown tag {tag} for union {type}"
  | .literalMismatch expected found => s!"literal mismatch: expected {expected}, found {found}"
  | .unknownPacket flow id =>
    "unknown packet id " ++ Text.hexLiteral 2 (BitVec.ofInt 32 id).toNat ++ " in flow " ++ flow
  | .transform path message => s!"transform {path} failed: {message}"

/-- Why a value cannot be encoded. -/
inductive EncodeError where
  | unknownEnumName (type name : String)
  | unmatchedVariant (type : String)
  | lengthMismatch (expected actual : Nat)
  | lengthOverflow (length : Nat)
  /-- A host function refused the value it was given. -/
  | transform (path message : String)
  deriving DecidableEq, Repr

def EncodeError.message : EncodeError → String
  | .unknownEnumName type name => s!"unknown name {name} for enum {type}"
  | .unmatchedVariant type => s!"value matches no variant of {type}"
  | .lengthMismatch expected actual =>
    s!"length mismatch: expected {expected} bytes, got {actual}"
  | .lengthOverflow length => s!"length {length} does not fit the length prefix"
  | .transform path message => s!"transform {path} failed: {message}"

end WireSchema.Wire
