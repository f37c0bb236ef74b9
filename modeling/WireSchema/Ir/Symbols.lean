import WireSchema.Ir.Decl

/-!
# Symbols

The names from outside its own body that a piece of generated code needs: declared types, functions
of codecs and host functions. They are listed in the order of their first occurrence.
-/

namespace WireSchema.Ir

/-- The symbols of a type, one entry for each occurrence. -/
def TypeExpr.symbols : TypeExpr → List String
  | .prim _ => []
  | .named n | .external n => [n]
  | .option t | .list t => t.symbols
  | .map k v => k.symbols ++ v.symbols

/-- The name of the function that reads with a codec. -/
def readerName (codec : String) : String := "read_" ++ codec

/-- The name of the function that writes with a codec. -/
def writerName (codec : String) : String := "write_" ++ codec

/-- The symbol that a node of an expression needs by itself. -/
def Expr.symbol? : Expr → Option String
  | .struct ty _ | .variant ty _ _ | .enumValue ty _ | .fromId ty _ | .toId ty _ => some ty
  | .callDecode codec => some (readerName codec)
  | .call path _ _ => some path
  | _ => none

/-- The symbols of an expression, one entry for each occurrence. -/
def Expr.symbols (e : Expr) : List String := e.nodes.filterMap Expr.symbol?

def Pattern.symbol? : Pattern → Option String
  | .enum ty _ | .variant ty _ _ => some ty
  | .lit _ => none

/-- The symbols that a statement needs besides those of its expressions and blocks. -/
def Stmt.ownSymbols : Stmt → List String
  | .writeCodec codec _ => [writerName codec]
  | .select _ arms fallback =>
    arms.filterMap (·.1.symbol?) ++
      match fallback with
      | some (.unmatchedVariant ty) => [ty]
      | _ => []
  | _ => []

/-- The symbols of a list of statements, one entry for each occurrence. -/
def Stmt.symbols (stmts : List Stmt) : List String :=
  (Stmt.flattenBlock stmts).flatMap fun s => s.exprs.flatMap Expr.symbols ++ s.ownSymbols

/-- The symbols of a block, one entry for each occurrence. -/
def Block.symbols (b : Block) : List String := Stmt.symbols b.stmts ++ b.result.symbols

/-- Each symbol once, at its first occurrence. -/
def distinct (symbols : List String) : List String := symbols.eraseDups

end WireSchema.Ir
