import WireSchema.Ir.Stmt

/-!
# Declarations of generated code
-/

namespace WireSchema.Ir

/-- A type as generated code writes it. -/
inductive TypeExpr where
  | prim (p : Primitive)
  | named (name : String)
  | option (t : TypeExpr)
  | list (t : TypeExpr)
  | map (key value : TypeExpr)
  /-- A type from outside the generated code, by its path. -/
  | external (path : String)
  deriving DecidableEq, Repr

structure FieldDecl where
  name : String
  type : TypeExpr
  doc : Option String
  deriving DecidableEq, Repr

structure EnumDecl where
  name : String
  backing : Primitive
  entries : List (String × Int)
  deriving DecidableEq, Repr

/-- The id of a name. -/
def EnumDecl.idOf? (d : EnumDecl) (name : String) : Option Int :=
  (d.entries.find? fun (n, _) => n == name).map (·.2)

/-- The name with a given id. -/
def EnumDecl.nameOf? (d : EnumDecl) (id : Int) : Option String :=
  (d.entries.find? fun (_, i) => i == id).map (·.1)

structure VariantDecl where
  name : String
  /-- The name of the struct of the payload; none if the variant has no stored fields. -/
  payload : Option String
  deriving DecidableEq, Repr

/-- The pair of functions that read and write an exported type. -/
structure CodecDecl where
  name : String
  type : TypeExpr
  decode : Block
  /-- The parameter of the encoder. -/
  value : Local
  encode : List Stmt
  deriving Repr, BEq

/-- A declaration of the module of shared types. -/
inductive Decl where
  | struct (name : String) (fields : List FieldDecl)
  | enum (d : EnumDecl)
  | union (name : String) (variants : List VariantDecl)
  | alias (name : String) (target : TypeExpr)
  | codec (d : CodecDecl)
  deriving Repr, BEq

def Decl.name : Decl → String
  | .struct name _ | .union name _ | .alias name _ => name
  | .enum d => d.name
  | .codec d => d.name

/-- The declaration under another name. -/
def Decl.rename (name : String) : Decl → Decl
  | .struct _ fields => .struct name fields
  | .enum d => .enum { d with name }
  | .union _ variants => .union name variants
  | .alias _ target => .alias name target
  | .codec d => .codec { d with name }

end WireSchema.Ir
