import WireSchema.Source.Token

/-!
# The grammar of schema texts

Alternatives are tried in order and the first that applies is taken, so a type whose opening word is
not followed by what it asks for is read as a name. All repetitions and nestings are bounded by the
length of the text.
-/

namespace WireSchema.Source

open WireSchema.Source.Parser

/-- A field, given the parser of its type. -/
def field (bound : Nat) (type : Parser TypeSpec) : Parser (FieldSpec TypeSpec) := do
  let docs ← many doc bound
  let name ← ident
  word ":"
  let type ← type
  word ";"
  return { docs, name, type }

/-- The integer type of a length, if one is given. -/
def lengthSuffix : Parser (Option String) := opt (do word ","; ident)

def enumEntry : Parser (String × Option Numeral) := do
  let name ← ident
  let id ← opt (do word "="; numeral)
  return (name, id)

def packedSlot : Parser (String × Numeral) := do
  let name ← ident
  word ":"
  let width ← numeral
  return (name, width)

def flagEntry : Parser (String × Numeral) := do
  let name ← ident
  word "="
  let mask ← numeral
  return (name, mask)

/-- A name between angle brackets. -/
def bracketed : Parser String := do
  word "<"
  let name ← ident
  word ">"
  return name

/-- A variant, given the parser of the types of its fields. Its documentation is not kept. -/
def arm (bound : Nat) (type : Parser TypeSpec) : Parser (ArmSpec TypeSpec) := do
  let _ ← many doc bound
  let name ← ident
  let tag ← opt (do word "="; literal)
  word "=>"
  word "\x7b"
  let fields ← many (field bound type) bound
  word "\x7d"
  return { name, tag, fields }

/-- What stands between braces, if there is any. -/
def entries {α : Type} (items : Parser (List α)) : Parser (List α) := do
  word "\x7b"
  let found ← opt items
  word "\x7d"
  return found.getD []

/-- A type. -/
def typeSpec : Nat → Parser TypeSpec
  | 0 => failure
  | bound + 1 =>
    let type := typeSpec bound
    (do
      word "optional"; word "<"
      let value ← type
      word ">"
      return .optional value)
    <|> (do
      word "list"; word "<"
      let item ← type
      let length ← lengthSuffix
      word ">"
      return .list item length)
    <|> (do
      word "map"; word "<"
      let key ← type
      word ","
      let value ← type
      let length ← lengthSuffix
      word ">"
      return .map key value length)
    <|> (do
      word "enum"
      let backing ← bracketed
      return .enum backing (← entries (commaEnded bound enumEntry)))
    <|> (do
      word "union"; word "<"
      let tagField ← ident
      word ":"
      let tag ← type
      word ">"
      return .union tagField tag (← entries (commaEnded bound (arm bound type))))
    <|> (do
      word "struct"; word "\x7b"
      let fields ← many (field bound type) bound
      word "\x7d"
      return .struct fields)
    <|> (do
      word "merge"; word "("
      let parts ← commaSeparated bound type
      word ")"
      return .merge parts)
    <|> (do
      word "packed"
      let backing ← bracketed
      word "["
      let slots ← commaSeparated bound packedSlot
      word "]"
      let order ← opt (do
        word "\x7b"
        let names ← commaSeparated bound ident
        word "\x7d"
        return names)
      return .packed backing slots order)
    <|> (do
      word "flags"
      let backing ← bracketed
      word "\x7b"
      let masks ← commaEnded bound flagEntry
      word "\x7d"
      return .flags backing masks)
    <|> (do
      word "literal"
      let backing ← opt bracketed
      word "("
      let value ← literal
      word ")"
      return .literal backing value)
    <|> (do
      word "bytes"; word "["
      let length ← numeral
      word "]"
      return .bytes length)
    <|> (do
      return .named (← ident))

def typeDecl (bound : Nat) (keyword : String) (exported : Bool) : Parser Item := do
  let _ ← many doc bound
  word keyword
  let name ← ident
  word "="
  let type ← typeSpec bound
  word ";"
  return .type { exported, name, type }

def packetSpec (bound : Nat) : Parser PacketSpec := do
  let docs ← many doc bound
  word "packet"
  let name ← ident
  word "\x7b"
  let fields ← many (field bound (typeSpec bound)) bound
  word "\x7d"
  return { docs, name, fields }

def flowName : Parser Flow :=
  (do word "serverbound"; return .serverbound) <|> (do word "clientbound"; return .clientbound)

def flowSpec (bound : Nat) : Parser FlowSpec := do
  let flow ← flowName
  word "\x7b"
  let packets ← many (packetSpec bound) bound
  word "\x7d"
  return { flow, packets }

def protocolDecl (bound : Nat) : Parser Item := do
  let _ ← many doc bound
  word "protocol"
  let name ← ident
  word "\x7b"
  let flows ← many (flowSpec bound) bound
  word "\x7d"
  return .protocol { name, flows }

/-- All declarations up to the end of the text. -/
def items (bound : Nat) : Parser (List Item) := do
  let found ← many
    (typeDecl bound "type" false <|> typeDecl bound "export" true <|> protocolDecl bound) bound
  endOfText
  return found

/-- The declarations of a schema text, if it follows the grammar. -/
def Item.parseAll? (text : String) : Option (List Item) :=
  let cs := text.toList
  ((items cs.length).run cs).map (·.1)

end WireSchema.Source
