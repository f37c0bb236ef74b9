import WireSchema.Ir.Symbols
import WireSchema.Naming
import WireSchema.Print.Line
import WireSchema.Text.Digits

/-!
# Source text of expressions and statements

Brackets are written where the target language needs them: round an operation that another is
applied to, and round an operation whose member is taken. Bindings by reference are already
references, so a reference to what one refers to is the binding itself.
-/

namespace WireSchema.Print

open Ir Naming

/-- An integer in the range of its type, in hexadecimal from three hexadecimal digits on. -/
def integer (kind : IntKind) (v : Int) : String :=
  let n := kind.wrap v
  if 255 < n then Text.hexLiteral 1 n.toNat else toString n

def literal : Literal → String
  | .int v kind => integer kind v
  | l => l.text

/-- A type. -/
def typeText : TypeExpr → String
  | .prim p => p.valueType
  | .named n => typeName n
  | .option t => "Option<" ++ typeText t ++ ">"
  | .list t => "Vec<" ++ typeText t ++ ">"
  | .map k v => "Vec<(" ++ typeText k ++ ", " ++ typeText v ++ ")>"
  | .external path => lastSegment path

/-- A name of a type that is qualified by the type. -/
def qualified (type name : String) : String := typeName type ++ "::" ++ typeName name

/-- What a member is taken of, given its own text. -/
def receiver (e : Expr) (text : String) : String :=
  match e with
  | .deref (.var x) => x.name
  | .binary _ _ _ | .cast _ _ | .cond _ _ _ | .deref _ | .borrow _ => "(" ++ text ++ ")"
  | _ => text

/-- What an operator or a cast is applied to, given its own text. -/
def operand (e : Expr) (text : String) : String :=
  match e with
  | .binary _ _ _ | .cast _ _ | .cond _ _ _ => "(" ++ text ++ ")"
  | _ => text

/-- The call that reads a primitive. -/
def readCall : Primitive → String
  | .fixedBytes n => s!"r.read_fixed_bytes({n})?"
  | p => "r.read_" ++ p.methodSuffix ++ "()?"

/-- A member of a struct expression. A member that has the name of the binding it is set to is
written once. -/
def structMember (name : String) (value : Expr) (text : String) : String :=
  let member := memberName name
  match value with
  | .var x => if x.name = member then member else member ++ ": " ++ text
  | _ => member ++ ": " ++ text

mutual

/-- An expression. -/
def expr : Expr → String
  | .lit l => literal l
  | .var x => x.name
  | .deref e => "*" ++ receiver e (expr e)
  | .borrow (.deref e) => expr e
  | .borrow e => "&" ++ receiver e (expr e)
  | .read p => readCall p
  | .field e name => receiver e (expr e) ++ "." ++ memberName name
  | .struct type fields =>
    if fields.isEmpty then typeName type ++ " \x7b\x7d"
    else typeName type ++ " \x7b " ++ commas (structMembers fields) ++ " \x7d"
  | .variant type name payload =>
    match payload with
    | none => qualified type name
    | some e => qualified type name ++ "(" ++ expr e ++ ")"
  | .enumValue type name => qualified type name
  | .fromId type e => typeName type ++ "::from_id(" ++ expr e ++ ")?"
  | .toId _ e => receiver e (expr e) ++ ".to_id()"
  | .binary op a b => operand a (expr a) ++ " " ++ op.symbol ++ " " ++ operand b (expr b)
  | .cast e kind => operand e (expr e) ++ " as " ++ kind.name
  | .cond c t o => "if " ++ expr c ++ " \x7b " ++ expr t ++ " \x7d else \x7b " ++ expr o ++ " \x7d"
  | .present e => "Some(" ++ expr e ++ ")"
  | .absent => "None"
  | .isPresent e => receiver e (expr e) ++ ".is_some()"
  | .len e => receiver e (expr e) ++ ".len()"
  | .newList | .newMap => "Vec::new()"
  | .pair a b => "(" ++ expr a ++ ", " ++ expr b ++ ")"
  | .callDecode codec => readerName codec ++ "(r)?"
  | .call path args fallible =>
    lastSegment path ++ "(" ++ commas (exprs args) ++ ")" ++ if fallible then "?" else ""

def exprs : List Expr → List String
  | [] => []
  | e :: rest => expr e :: exprs rest

def structMembers : List (String × Expr) → List String
  | [] => []
  | (name, e) :: rest => structMember name e (expr e) :: structMembers rest

end

/-- An expression as the receiver of a member. -/
def tight (e : Expr) : String := receiver e (expr e)

/-- An expression as an argument by reference. -/
def byReference : Expr → String
  | .lit (.str s) => expr (.lit (.str s))
  | .deref e => expr e
  | .borrow e => expr (.borrow e)
  | e => "&" ++ tight e

/-- The call that writes a primitive. -/
def writeCall (p : Primitive) (e : Expr) : String :=
  match p with
  | .fixedBytes n => s!"w.write_fixed_bytes({byReference e}, {n})?"
  | p =>
    let argument := if p.isCopy then expr e else byReference e
    "w.write_" ++ p.methodSuffix ++ "(" ++ argument ++ ")?"

/-- The text of `text` as an owned string. -/
def ownedText (text : String) : String := Text.quoted text ++ ".to_string()"

/-- A failure. -/
def failure : Failure → String
  | .unknownTag type tag =>
    "return Err(DecodeError::UnknownTag \x7b ty: " ++ ownedText type ++
      ", tag: format!(\"\x7b:?\x7d\", " ++ expr tag ++ ") \x7d)"
  | .literalMismatch expected found =>
    "return Err(DecodeError::LiteralMismatch \x7b expected: " ++ ownedText expected.text ++
      ", found: " ++ tight found ++ ".to_string() \x7d)"
  | .unmatchedVariant type =>
    "return Err(EncodeError::UnmatchedVariant \x7b ty: " ++ ownedText type ++ " \x7d)"

def pattern : Pattern → String
  | .lit l => literal l
  | .enum type name => qualified type name
  | .variant type name none => qualified type name
  | .variant type name (some x) => qualified type name ++ "(" ++ x.name ++ ")"

/-- What a selection is made on; the first pattern says how. -/
def scrutinee (e : Expr) : Option Pattern → String
  | some (.lit (.str _)) => tight e ++ ".as_str()"
  | some (.variant _ _ _) => byReference e
  | _ => expr e

/-- The last arm of a selection. The variants of a union leave nothing over. -/
def fallbackArm : Option Failure → List Line
  | none | some (.unmatchedVariant _) => []
  | some f => [line ("_ => " ++ failure f ++ ",")]

mutual

/-- A statement. -/
def stmt : Stmt → List Line
  | .bind x mutable init =>
    let head := "let " ++ (if mutable then "mut " else "") ++ x.name
    match init with
    | some e => [line (head ++ " = " ++ expr e ++ ";")]
    | none => [line (head ++ ";")]
  | .assign x e => [line (x.name ++ " = " ++ expr e ++ ";")]
  | .eval e => [line (expr e ++ ";")]
  | .write p e => [line (writeCall p e ++ ";")]
  | .writeCodec codec e => [line (writerName codec ++ "(w, " ++ byReference e ++ ")?;")]
  | .branch c yes no =>
    let head := "if " ++ expr c
    if no.isEmpty then braces head (stmts yes)
    else line (head ++ " \x7b") :: nest (stmts yes) ++ braces "\x7d else" (stmts no)
  | .ifPresent x e body =>
    braces ("if let Some(" ++ x.name ++ ") = " ++ byReference e) (stmts body)
  | .times count body => braces ("for _ in 0.." ++ tight count) (stmts body)
  | .forEach x e body => braces ("for " ++ x.name ++ " in " ++ byReference e) (stmts body)
  | .forEachPair k v e body =>
    braces ("for (" ++ k.name ++ ", " ++ v.name ++ ") in " ++ byReference e) (stmts body)
  | .push x e => [line (x.name ++ ".push(" ++ expr e ++ ");")]
  | .select e cases fallback =>
    braces ("match " ++ scrutinee e (cases.head?.map (·.1))) (arms cases ++ fallbackArm fallback)
  | .fail f => [line (failure f ++ ";")]

def stmts : List Stmt → List Line
  | [] => []
  | s :: rest => stmt s ++ stmts rest

def arms : List (Pattern × List Stmt) → List Line
  | [] => []
  | (p, body) :: rest => braces (pattern p ++ " =>") (stmts body) ++ arms rest

end

/-- The body of a decoder. -/
def block (b : Block) : List Line := stmts b.stmts ++ [line ("Ok(" ++ expr b.result ++ ")")]

/-- The body of an encoder. -/
def encoderBody (body : List Stmt) : List Line := stmts body ++ [line "Ok(())"]

end WireSchema.Print
