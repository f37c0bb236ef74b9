import WireSchema.Naming
import WireSchema.Shape
import WireSchema.Text.Lines

/-!
# Shapes behind references

Questions about a shape whose answer lies behind its references. Each is a recursion on the shape
that asks for the answer at a label; a chain of references that does not come back to a label is no
longer than the table, so the table is consulted that often.
-/

namespace WireSchema.Shape

/-- The answer at a shape, where `ask` answers at a shape once it knows the answers at labels and
`lost` is the answer at a label that is not in the table. At most `fuel` references are followed. -/
def following {α : Type} (refs : Refs) (ask : (String → α) → Shape → α) (lost : String → α) :
    Nat → Shape → α
  | 0 => ask lost
  | fuel + 1 => ask fun label =>
    match refs.lookup label with
    | some target => following refs ask lost fuel target
    | none => lost label

/-! ### Canonical names -/

/-- Texts divided by commas. -/
def joined (parts : List String) : String := String.intercalate ", " parts

/-- A text between braces. -/
def braced (text : String) : String := "\x7b" ++ text ++ "\x7d"

mutual

/-- The canonical name of a shape, given the names of labels. -/
def nameWith (nameOf : String → String) : Shape → String
  | .prim p => p.schemaName
  | .optional value (.prim .bool) => "Option<" ++ nameWith nameOf value ++ ">"
  | .optional value presence =>
    "Option<" ++ nameWith nameOf value ++ ", " ++ nameWith nameOf presence ++ ">"
  | .list item length => "List<" ++ nameWith nameOf item ++ ", " ++ length.schemaName ++ ">"
  | .map key value length =>
    "Map<" ++ nameWith nameOf key ++ ", " ++ nameWith nameOf value ++ ", " ++
      length.schemaName ++ ">"
  | .struct fields => braced (joined (namesOfFields nameOf fields))
  | .merged parts => "Merge<" ++ joined (namesOfParts nameOf parts) ++ ">"
  | .enum backing entries =>
    "Enum<" ++ backing.schemaName ++ ">" ++
      braced (joined (entries.map fun (n, v) => n ++ "=" ++ toString v))
  | .union tagField tag variants tags =>
    "Union<" ++ tagField ++ ": " ++ nameWith nameOf tag ++ ">" ++
      braced (joined (namesOfVariants nameOf tags variants))
  | .packed backing widths fields _ =>
    "Packed<" ++ backing.schemaName ++ ">[" ++ joined (widths.map toString) ++ "]" ++
      braced (joined (namesOfFields nameOf fields))
  | .flags backing masks fields _ =>
    "Flags<" ++ backing.schemaName ++ ">[" ++
      joined (masks.map fun (n, m) => n ++ "=" ++ Text.hexLiteral 0 m.toNat) ++ "]" ++
      braced (joined (namesOfFields nameOf fields))
  | .slot _ index _ => "$" ++ toString index
  | .alias name _ | .exported name _ => name
  | .custom signature _ _ => signature
  | .ref label => nameOf label
  | .transformed name _ _ _ _ _ => name
  | .literal value (some p) => "Literal<" ++ p.schemaName ++ ">(" ++ value.text ++ ")"
  | .literal value none => "Literal(" ++ value.text ++ ")"

def namesOfFields (nameOf : String → String) : List (Member Shape) → List String
  | [] => []
  | f :: rest => (f.name ++ ": " ++ nameWith nameOf f.shape) :: namesOfFields nameOf rest

def namesOfParts (nameOf : String → String) : List Shape → List String
  | [] => []
  | s :: rest => nameWith nameOf s :: namesOfParts nameOf rest

def namesOfVariants (nameOf : String → String) (tags : List (String × Literal)) :
    List (String × Shape) → List String
  | [] => []
  | (key, s) :: rest =>
    let tag := match tags.lookup key with
      | some l => "=" ++ l.text
      | none => ""
    (key ++ tag ++ "=>" ++ nameWith nameOf s) :: namesOfVariants nameOf tags rest

end

/-- The name that describes the structure of a shape. Shapes with one name share a declaration. -/
def canonicalName (refs : Refs) : Shape → String :=
  following refs nameWith ("?" ++ ·) refs.length

/-- The canonical name as an identifier. -/
def safeName (refs : Refs) (s : Shape) : String :=
  let pieces := Text.splitAtMarks (fun c => !c.isAlphanum) [] (s.canonicalName refs).toList
  String.join ((pieces.filter (!·.isEmpty)).map fun p => Naming.typeName (String.ofList p))

/-! ### Resolution -/

/-- The shape behind aliases, given the shapes behind labels. -/
def resolvedWith (target : String → Except SchemaError Shape) : Shape → Except SchemaError Shape
  | .alias _ inner | .exported _ inner => resolvedWith target inner
  | .ref label => target label
  | s => .ok s

/-- The shape behind aliases and references. -/
def resolved (refs : Refs) : Shape → Except SchemaError Shape :=
  following refs resolvedWith (.error <| .unresolvedReference ·) refs.length

/-- Whether values are booleans, given the answer for labels. -/
def booleanWith (isBool : String → Bool) : Shape → Bool
  | .prim .bool => true
  | .slot _ _ (.flag _ _) => true
  | .alias _ inner | .exported _ inner => booleanWith isBool inner
  | .ref label => isBool label
  | .custom _ definition _ => definition == .prim .bool
  | .literal (.bool _) _ => true
  | _ => false

/-- Whether values are booleans, so that they can say whether an optional is present. -/
def isBoolean (refs : Refs) : Shape → Bool :=
  following refs booleanWith (fun _ => false) refs.length

/-! ### Fields -/

mutual

/-- The stored fields of a struct, given those of labels. -/
def storedFieldsWith (refs : Refs) (fieldsOf : String → Except SchemaError (List Field)) :
    Shape → Except SchemaError (List Field)
  | .struct fields | .packed _ _ fields _ | .flags _ _ fields _ =>
    .ok (fields.filter (·.shape.isStored))
  | .merged parts => storedFieldsOfParts refs fieldsOf parts
  | .alias _ inner | .exported _ inner => storedFieldsWith refs fieldsOf inner
  | .ref label => fieldsOf label
  | s => .error (.notAStruct (s.canonicalName refs))

def storedFieldsOfParts (refs : Refs) (fieldsOf : String → Except SchemaError (List Field)) :
    List Shape → Except SchemaError (List Field)
  | [] => .ok []
  | s :: rest => do
    let first ← storedFieldsWith refs fieldsOf s
    let others ← storedFieldsOfParts refs fieldsOf rest
    return first ++ others

end

/-- The fields of a struct that are part of its value, those of merged parts in their order. -/
def storedFields (refs : Refs) : Shape → Except SchemaError (List Field) :=
  following refs (storedFieldsWith refs) (.error <| .unresolvedReference ·) refs.length

end WireSchema.Shape
