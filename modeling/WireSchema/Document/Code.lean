import WireSchema.Document.Data
import WireSchema.Ir.Decl

/-!
# Code in documents
-/

namespace WireSchema.Document

open Ir

def ofType : TypeExpr → Document
  | .prim p => tagged "prim" [ofPrimitive p]
  | .named n => tagged "named" [.word n]
  | .option t => tagged "option" [ofType t]
  | .list t => tagged "list" [ofType t]
  | .map k v => tagged "map" [ofType k, ofType v]
  | .external path => tagged "external" [.word path]

def ofLocal (x : Local) : Document := .row [.number x.id, .word x.name]

mutual

def ofExpr : Expr → Document
  | .lit l => tagged "lit" [ofLiteral l]
  | .var x => tagged "local" [ofLocal x]
  | .deref e => tagged "deref" [ofExpr e]
  | .borrow e => tagged "ref" [ofExpr e]
  | .read p => tagged "read" [ofPrimitive p]
  | .field e n => tagged "field" [ofExpr e, .word n]
  | .struct ty fields => tagged "struct" [.word ty, .row (ofExprFields fields)]
  | .variant ty n none => tagged "variant" [.word ty, .word n, .null]
  | .variant ty n (some e) => tagged "variant" [.word ty, .word n, ofExpr e]
  | .enumValue ty n => tagged "enum" [.word ty, .word n]
  | .fromId ty e => tagged "from_id" [.word ty, ofExpr e]
  | .toId ty e => tagged "to_id" [.word ty, ofExpr e]
  | .binary op a b => tagged "bin" [.word op.symbol, ofExpr a, ofExpr b]
  | .cast e kind => tagged "cast" [ofExpr e, ofIntKind kind]
  | .cond c t o => tagged "cond" [ofExpr c, ofExpr t, ofExpr o]
  | .present e => tagged "some" [ofExpr e]
  | .absent => tagged "none" []
  | .isPresent e => tagged "is_some" [ofExpr e]
  | .len e => tagged "len" [ofExpr e]
  | .newList => tagged "new_list" []
  | .newMap => tagged "new_map" []
  | .pair a b => tagged "pair" [ofExpr a, ofExpr b]
  | .callDecode codec => tagged "call_decode" [.word codec]
  | .call path args fallible => tagged "call" [.word path, .row (ofExprs args), .flag fallible]

def ofExprs : List Expr → List Document
  | [] => []
  | e :: rest => ofExpr e :: ofExprs rest

def ofExprFields : List (String × Expr) → List Document
  | [] => []
  | (n, e) :: rest => .row [.word n, ofExpr e] :: ofExprFields rest

end

def ofFailure : Failure → Document
  | .unknownTag ty e => tagged "unknown_tag" [.word ty, ofExpr e]
  | .literalMismatch l e => tagged "literal_mismatch" [ofLiteral l, ofExpr e]
  | .unmatchedVariant ty => tagged "unmatched_variant" [.word ty]

def ofPattern : Pattern → Document
  | .lit l => tagged "lit" [ofLiteral l]
  | .enum ty n => tagged "enum" [.word ty, .word n]
  | .variant ty n x => tagged "variant" [.word ty, .word n, optional ofLocal x]

mutual

def ofStmt : Stmt → Document
  | .bind x m init => tagged "let" [ofLocal x, .flag m, optional ofExpr init]
  | .assign x e => tagged "assign" [ofLocal x, ofExpr e]
  | .eval e => tagged "eval" [ofExpr e]
  | .write p e => tagged "write" [ofPrimitive p, ofExpr e]
  | .writeCodec codec e => tagged "write_codec" [.word codec, ofExpr e]
  | .branch e yes no => tagged "if" [ofExpr e, .row (ofStmts yes), .row (ofStmts no)]
  | .ifPresent x e body => tagged "if_some" [ofLocal x, ofExpr e, .row (ofStmts body)]
  | .times e body => tagged "repeat" [ofExpr e, .row (ofStmts body)]
  | .forEach x e body => tagged "for_each" [ofLocal x, ofExpr e, .row (ofStmts body)]
  | .forEachPair k v e body =>
    tagged "for_each_pair" [ofLocal k, ofLocal v, ofExpr e, .row (ofStmts body)]
  | .push x e => tagged "push" [ofLocal x, ofExpr e]
  | .select e arms fallback =>
    tagged "match" [ofExpr e, .row (ofArms arms), optional ofFailure fallback]
  | .fail f => tagged "fail" [ofFailure f]

def ofStmts : List Stmt → List Document
  | [] => []
  | s :: rest => ofStmt s :: ofStmts rest

def ofArms : List (Pattern × List Stmt) → List Document
  | [] => []
  | (p, body) :: rest => .row [ofPattern p, .row (ofStmts body)] :: ofArms rest

end

/-- A list of statements. -/
def ofBody (stmts : List Stmt) : Document := .row (ofStmts stmts)

def ofBlock (b : Block) : Document :=
  .record [("stmts", ofBody b.stmts), ("result", ofExpr b.result)]

def ofField (f : FieldDecl) : Document :=
  .row [.word f.name, ofType f.type, optional .word f.doc]

def ofDecl : Decl → Document
  | .struct n fields => tagged "struct" [.word n, rowOf ofField fields]
  | .enum d =>
    tagged "enum" [.word d.name, ofPrimitive d.backing,
      rowOf (fun (n, id) => .row [.word n, decimal id]) d.entries]
  | .union n variants =>
    tagged "union" [.word n,
      rowOf (fun v => .row [.word v.name, optional .word v.payload]) variants]
  | .alias n t => tagged "alias" [.word n, ofType t]
  | .codec c =>
    tagged "codec" [.word c.name, ofType c.type, ofBlock c.decode, ofLocal c.value,
      ofBody c.encode]

end WireSchema.Document
