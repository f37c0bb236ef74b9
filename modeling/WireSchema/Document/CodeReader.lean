import WireSchema.Document.Code

/-!
# Reading code from documents
-/

namespace WireSchema.Document

open Ir

def toType? : Document → Option TypeExpr
  | .row [.word kind, d] =>
    match kind with
    | "prim" => (toPrimitive? d).map .prim
    | "named" => d.word?.map .named
    | "option" => (toType? d).map .option
    | "list" => (toType? d).map .list
    | "external" => d.word?.map .external
    | _ => none
  | .row [.word "map", k, v] => do return .map (← toType? k) (← toType? v)
  | _ => none

def toLocal? : Document → Option Local
  | .row [id, name] => do return ⟨← id.nat?, ← name.word?⟩
  | _ => none

def toOp? (symbol : String) : Option BinOp :=
  [BinOp.shl, .shr, .bitAnd, .bitOr, .eq, .ne].find? (·.symbol == symbol)

mutual

def toExpr? : Document → Option Expr
  | .row [.word kind] =>
    match kind with
    | "none" => some .absent
    | "new_list" => some .newList
    | "new_map" => some .newMap
    | _ => none
  | .row [.word kind, d] =>
    match kind with
    | "lit" => (toLiteral? d).map .lit
    | "local" => (toLocal? d).map .var
    | "deref" => (toExpr? d).map .deref
    | "ref" => (toExpr? d).map .borrow
    | "read" => (toPrimitive? d).map .read
    | "some" => (toExpr? d).map .present
    | "is_some" => (toExpr? d).map .isPresent
    | "len" => (toExpr? d).map .len
    | "call_decode" => d.word?.map .callDecode
    | _ => none
  | .row [.word "struct", .word ty, .row fields] => (toExprFields? fields).map (.struct ty)
  | .row [.word kind, a, b] =>
    match kind with
    | "field" => do return .field (← toExpr? a) (← b.word?)
    | "enum" => do return .enumValue (← a.word?) (← b.word?)
    | "from_id" => do return .fromId (← a.word?) (← toExpr? b)
    | "to_id" => do return .toId (← a.word?) (← toExpr? b)
    | "cast" => do return .cast (← toExpr? a) (← toIntKind? b)
    | "pair" => do return .pair (← toExpr? a) (← toExpr? b)
    | _ => none
  | .row [.word "variant", .word ty, .word n, .null] => some (.variant ty n none)
  | .row [.word "variant", .word ty, .word n, d] =>
    (toExpr? d).map fun e => .variant ty n (some e)
  | .row [.word "bin", .word op, a, b] => do return .binary (← toOp? op) (← toExpr? a) (← toExpr? b)
  | .row [.word "cond", c, t, o] => do return .cond (← toExpr? c) (← toExpr? t) (← toExpr? o)
  | .row [.word "call", .word path, .row args, .flag fallible] =>
    (toExprs? args).map (.call path · fallible)
  | _ => none

def toExprs? : List Document → Option (List Expr)
  | [] => some []
  | d :: rest => do return (← toExpr? d) :: (← toExprs? rest)

def toExprFields? : List Document → Option (List (String × Expr))
  | [] => some []
  | .row [.word n, d] :: rest => do return (n, ← toExpr? d) :: (← toExprFields? rest)
  | _ :: _ => none

end

def toFailure? : Document → Option Failure
  | .row [.word "unknown_tag", ty, e] => do return .unknownTag (← ty.word?) (← toExpr? e)
  | .row [.word "literal_mismatch", l, e] => do
    return .literalMismatch (← toLiteral? l) (← toExpr? e)
  | .row [.word "unmatched_variant", ty] => ty.word?.map .unmatchedVariant
  | _ => none

def toPattern? : Document → Option Pattern
  | .row [.word "lit", l] => (toLiteral? l).map .lit
  | .row [.word "enum", ty, n] => do return .enum (← ty.word?) (← n.word?)
  | .row [.word "variant", ty, n, x] => do
    return .variant (← ty.word?) (← n.word?) (← optional? toLocal? x)
  | _ => none

mutual

def toStmt? : Document → Option Stmt
  | .row [.word "eval", e] => (toExpr? e).map .eval
  | .row [.word "fail", f] => (toFailure? f).map .fail
  | .row [.word "repeat", e, .row body] => do return .times (← toExpr? e) (← toStmts? body)
  | .row [.word kind, a, e] =>
    match kind with
    | "assign" => do return .assign (← toLocal? a) (← toExpr? e)
    | "write" => do return .write (← toPrimitive? a) (← toExpr? e)
    | "write_codec" => do return .writeCodec (← a.word?) (← toExpr? e)
    | "push" => do return .push (← toLocal? a) (← toExpr? e)
    | _ => none
  | .row [.word "let", x, .flag m, init] => do
    return .bind (← toLocal? x) m (← optional? toExpr? init)
  | .row [.word "if", e, .row yes, .row no] => do
    return .branch (← toExpr? e) (← toStmts? yes) (← toStmts? no)
  | .row [.word "if_some", x, e, .row body] => do
    return .ifPresent (← toLocal? x) (← toExpr? e) (← toStmts? body)
  | .row [.word "for_each", x, e, .row body] => do
    return .forEach (← toLocal? x) (← toExpr? e) (← toStmts? body)
  | .row [.word "match", e, .row arms, fallback] => do
    return .select (← toExpr? e) (← toArms? arms) (← optional? toFailure? fallback)
  | .row [.word "for_each_pair", k, v, e, .row body] => do
    return .forEachPair (← toLocal? k) (← toLocal? v) (← toExpr? e) (← toStmts? body)
  | _ => none

def toStmts? : List Document → Option (List Stmt)
  | [] => some []
  | d :: rest => do return (← toStmt? d) :: (← toStmts? rest)

def toArms? : List Document → Option (List (Pattern × List Stmt))
  | [] => some []
  | .row [p, .row body] :: rest => do
    return (← toPattern? p, ← toStmts? body) :: (← toArms? rest)
  | _ :: _ => none

end

/-- A list of statements. -/
def toBody? (d : Document) : Option (List Stmt) := d.row?.bind toStmts?

def toBlock? (d : Document) : Option Block := do
  return ⟨← toBody? (d.part "stmts"), ← toExpr? (d.part "result")⟩

def toField? : Document → Option FieldDecl
  | .row [name, type, doc] => do
    return { name := ← name.word?, type := ← toType? type, doc := ← optional? word? doc }
  | _ => none

def toEntry? : Document → Option (String × Int)
  | .row [name, id] => do return (← name.word?, ← id.int?)
  | _ => none

def toVariant? : Document → Option VariantDecl
  | .row [name, payload] => do
    return { name := ← name.word?, payload := ← optional? word? payload }
  | _ => none

def toDecl? : Document → Option Decl
  | .row [.word "struct", .word name, fields] => (rowOf? toField? fields).map (.struct name)
  | .row [.word "enum", .word name, backing, entries] => do
    return .enum { name, backing := ← toPrimitive? backing, entries := ← rowOf? toEntry? entries }
  | .row [.word "union", .word name, variants] => (rowOf? toVariant? variants).map (.union name)
  | .row [.word "alias", .word name, target] => (toType? target).map (.alias name)
  | .row [.word "codec", .word name, type, decode, value, encode] => do
    return .codec {
      name, type := ← toType? type, decode := ← toBlock? decode, value := ← toLocal? value,
      encode := ← toBody? encode }
  | _ => none

end WireSchema.Document
