import WireSchema.Generated

/-!
# Schemas as written

The declarations of a schema text. Names are not looked up yet, and numbers and texts are kept as
they are written.
-/

namespace WireSchema.Source

/-- An integer as written. -/
structure Numeral where
  negative : Bool
  /-- The mark between the leading zero and the digits of a hexadecimal number. -/
  hexMark : Option Char
  digits : List Char
  deriving DecidableEq, Repr

/-- A literal as written; a text without its quotes. -/
inductive LiteralSpec where
  | int (n : Numeral)
  | bool (b : Bool)
  | str (body : List Char)
  deriving DecidableEq, Repr

/-- A field as written, with its lines of documentation. -/
structure FieldSpec (τ : Type) where
  docs : List String
  name : String
  type : τ
  deriving Repr

/-- A variant of a union as written. -/
structure ArmSpec (τ : Type) where
  name : String
  tag : Option LiteralSpec
  fields : List (FieldSpec τ)
  deriving Repr

/-- A type as written. -/
inductive TypeSpec where
  | optional (value : TypeSpec)
  | list (item : TypeSpec) (length : Option String)
  | map (key value : TypeSpec) (length : Option String)
  | enum (backing : String) (entries : List (String × Option Numeral))
  | union (tagField : String) (tag : TypeSpec) (arms : List (ArmSpec TypeSpec))
  | struct (fields : List (FieldSpec TypeSpec))
  | merge (parts : List TypeSpec)
  /-- Slots with their widths, and the order of the fields if it is not that of the slots. -/
  | packed (backing : String) (slots : List (String × Numeral)) (order : Option (List String))
  | flags (backing : String) (entries : List (String × Numeral))
  | literal (backing : Option String) (value : LiteralSpec)
  | bytes (length : Numeral)
  | named (name : String)
  deriving Repr

structure PacketSpec where
  docs : List String
  name : String
  fields : List (FieldSpec TypeSpec)
  deriving Repr

/-- The packets of one flow; a protocol may have several such blocks. -/
structure FlowSpec where
  flow : Flow
  packets : List PacketSpec
  deriving Repr

structure TypeDecl where
  exported : Bool
  name : String
  type : TypeSpec
  deriving Repr

structure ProtocolDecl where
  name : String
  flows : List FlowSpec
  deriving Repr

/-- A declaration of a schema. -/
inductive Item where
  | type (d : TypeDecl)
  | protocol (d : ProtocolDecl)
  deriving Repr

def Item.type? : Item → Option TypeDecl
  | .type d => some d
  | .protocol _ => none

def Item.protocol? : Item → Option ProtocolDecl
  | .type _ => none
  | .protocol d => some d

end WireSchema.Source
