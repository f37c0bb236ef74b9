import WireSchema.Machine.State
import WireSchema.Value.Description

/-!
# Running expressions and statements

Optional values are the value itself or null, and references are the values they refer to. The calls
of codecs are given from outside, so everything here follows the structure of the code.
-/

namespace WireSchema

open Ir

/-- How a run calls codecs. -/
structure Calls where
  decode : String → Run Value
  encode : String → Value → Run Unit

/-- What a run needs to know: the generated code, the order of bytes, and how to call codecs. -/
structure Program where
  code : Generated
  order : Wire.ByteOrder
  calls : Calls

namespace Run

/-- The number and the type of an integer. -/
def asInteger (v : Value) : Run (Int × IntKind) :=
  match v.asInt?, v.intKind? with
  | some n, some kind => return (n, kind)
  | _, _ => throw (.misfit "integer" v)

def asTruth (v : Value) : Run Bool :=
  match v.asBool? with
  | some b => return b
  | none => throw (.misfit "bool" v)

/-- The number of items or bytes of a collection. -/
def lengthOf : Value → Run Nat
  | .list items => return items.length
  | .map entries => return entries.length
  | .str s => return s.utf8ByteSize
  | .bytes bs => return bs.length
  | v => throw (.misfit "collection" v)

/-- The field of a struct; a missing one is null. -/
def fieldOf (v : Value) (name : String) : Run Value :=
  match v with
  | .struct fields => return (Value.getField? name fields).getD .null
  | v => throw (.misfit "struct" v)

/-- The amount of a shift: the low 32 bits of a number. -/
def shiftAmount (n : Int) : Nat := (BitVec.ofInt 32 n).toNat

/-- A 128-bit integer shifted to the left. All bits leave it from 128 places on. -/
def shiftLeft (n : BitVec 128) (amount : Nat) : BitVec 128 :=
  if amount < 128 then n <<< amount else 0

/-- The result of an operation on 128-bit integers. -/
def combine (op : BinOp) (a b : Int) : Int :=
  let wide (n : Int) : BitVec 128 := BitVec.ofInt 128 n
  match op with
  | .shl => (shiftLeft (wide a) (shiftAmount b)).toInt
  | .shr => a >>> min (shiftAmount b) 127
  | .bitAnd => (wide a &&& wide b).toInt
  | .bitOr => (wide a ||| wide b).toInt
  | .eq | .ne => 0

/-- Whether two values are equal; integers are compared as numbers, whatever their types. -/
def sameValue (a b : Value) : Bool :=
  match a.asInt?, b.asInt? with
  | some x, some y => x == y
  | _, _ => a == b

/-- The result of an operation; an integer has the type of the left operand. -/
def binary (op : BinOp) (a b : Value) : Run Value :=
  match op with
  | .eq => return .bool (sameValue a b)
  | .ne => return .bool (!sameValue a b)
  | op => do
    let (n, kind) ← asInteger a
    let (k, _) ← asInteger b
    return .ofInt kind (combine op n k)

/-- Fails unless `v` can be the left operand; the right one is not evaluated then. -/
def leftOperand (op : BinOp) (v : Value) : Run Unit :=
  match op with
  | .eq | .ne => return
  | _ => do
    let _ ← asInteger v

/-- The enumeration that a type name stands for, through at most `fuel` aliases. -/
def enumeration (g : Generated) : Nat → String → Run EnumDecl
  | 0, type => throw (.unknownDecl type)
  | fuel + 1, type =>
    match g.decl? type with
    | some (.enum d) => return d
    | some (.alias _ (.named target)) => enumeration g fuel target
    | _ => throw (.unknownDecl type)

/-- The enumeration that a type name stands for. No chain of aliases is longer than the list of
types. -/
def enumOf (g : Generated) (type : String) : Run EnumDecl :=
  enumeration g (g.types.length + 1) type

/-- The name of an enumeration with the id `v`. -/
def nameOfId (g : Generated) (type : String) (v : Value) : Run Value := do
  let (id, _) ← asInteger v
  let d ← enumOf g type
  match d.nameOf? id with
  | some name => return .enum name
  | none => throw (.decode (.unknownEnumId type id))

/-- The id of a name of an enumeration, as an integer of its backing. -/
def idOfName (g : Generated) (type : String) (v : Value) : Run Value :=
  match v with
  | .enum name => do
    let d ← enumOf g type
    match d.idOf? name with
    | some id => return .ofInt (d.backing.intKind?.getD .i32) id
    | none => throw (.encode (.unknownEnumName type name))
  | v => throw (.misfit "enum" v)

mutual

/-- The value of an expression. Parts are evaluated from left to right. -/
def eval (p : Program) : Expr → Run Value
  | .lit l => return .ofLiteral l
  | .var x => valueOf x
  | .deref e | .borrow e | .present e => eval p e
  | .read prim => read p.order prim
  | .field e name => do
    let v ← eval p e
    fieldOf v name
  | .struct _ fields => do
    let values ← evalFields p fields
    return .ofFields values
  | .variant _ name payload => do
    let v ← evalOption p payload
    return .variant name v
  | .enumValue _ name => return .enum name
  | .fromId type e => do
    let v ← eval p e
    nameOfId p.code type v
  | .toId type e => do
    let v ← eval p e
    idOfName p.code type v
  | .binary op a b => do
    let v ← eval p a
    leftOperand op v
    let w ← eval p b
    binary op v w
  | .cast e kind => do
    let v ← eval p e
    let (n, _) ← asInteger v
    return .ofInt kind n
  | .cond test yes no => do
    let v ← eval p test
    if ← asTruth v then eval p yes else eval p no
  | .absent => return .null
  | .isPresent e => do
    let v ← eval p e
    return .bool (!v.isNull)
  | .len e => do
    let v ← eval p e
    let n ← lengthOf v
    return .ofInt .usize n
  | .newList => return .list []
  | .newMap => return .map []
  | .pair a b => do
    let v ← eval p a
    let w ← eval p b
    return .list [v, w]
  | .callDecode codec => p.calls.decode codec
  | .call path args fallible => do
    let values ← evalList p args
    callHost p.code path values fallible

def evalOption (p : Program) : Option Expr → Run (Option Value)
  | none => return none
  | some e => do
    let v ← eval p e
    return some v

def evalList (p : Program) : List Expr → Run (List Value)
  | [] => return []
  | e :: rest => do
    let v ← eval p e
    let values ← evalList p rest
    return v :: values

def evalFields (p : Program) : List (String × Expr) → Run (List (String × Value))
  | [] => return []
  | (name, e) :: rest => do
    let v ← eval p e
    let values ← evalFields p rest
    return (name, v) :: values

end

/-- The bindings that a pattern sets when it matches a value. -/
def matchBindings (v : Value) : Pattern → Option (List (Local × Value))
  | .lit l => if v.isLiteral l then some [] else none
  | .enum _ name =>
    match v with
    | .enum n => if n = name then some [] else none
    | _ => none
  | .variant _ name binding =>
    match v with
    | .variant n payload =>
      if n = name then some (binding.toList.map fun x => (x, payload.getD .null)) else none
    | _ => none

/-- The error that a failure raises. -/
def errorOf (p : Program) : Failure → Run RunError
  | .unknownTag type tag => do
    let v ← eval p tag
    return .decode (.unknownTag type v.describe)
  | .literalMismatch expected found => do
    let v ← eval p found
    return .decode (.literalMismatch expected.text v.describe)
  | .unmatchedVariant type => return .encode (.unmatchedVariant type)

/-- Raises a failure. -/
def raise (p : Program) (f : Failure) : Run Unit := do
  let e ← errorOf p f
  throw e

/-- The number of rounds of a loop; a negative count means none. -/
def rounds (v : Value) : Run Nat :=
  match v.asInt? with
  | some n => return n.toNat
  | none => throw (.misfit "integer count" v)

def asItems : Value → Run (List Value)
  | .list items => return items
  | v => throw (.misfit "list" v)

def asEntries : Value → Run (List (Value × Value))
  | .map entries => return entries
  | v => throw (.misfit "map" v)

mutual

/-- Runs a statement. -/
def exec (p : Program) : Stmt → Run Unit
  | .bind x _ none => bind x .null
  | .bind x _ (some e) | .assign x e => do
    let v ← eval p e
    bind x v
  | .eval e => do
    let _ ← eval p e
  | .write prim e => do
    let v ← eval p e
    write p.order prim v
  | .writeCodec codec e => do
    let v ← eval p e
    p.calls.encode codec v
  | .branch test yes no => do
    let v ← eval p test
    if ← asTruth v then execBlock p yes else execBlock p no
  | .ifPresent x e body => do
    let v ← eval p e
    if v.isNull then return
    bind x v
    execBlock p body
  | .times count body => do
    let v ← eval p count
    let n ← rounds v
    times (execBlock p body) n
  | .forEach x source body => do
    let v ← eval p source
    let items ← asItems v
    forEach (fun item => do bind x item; execBlock p body) items
  | .forEachPair key value source body => do
    let v ← eval p source
    let entries ← asEntries v
    forEach (fun (k, w) => do bind key k; bind value w; execBlock p body) entries
  | .push x e => do
    let v ← eval p e
    push x v
  | .select e arms fallback => do
    let v ← eval p e
    execArms p v fallback arms
  | .fail f => raise p f

/-- Runs statements in order. -/
def execBlock (p : Program) : List Stmt → Run Unit
  | [] => return
  | s :: rest => do
    exec p s
    execBlock p rest

/-- Runs the first arm that matches `v`, or else the fallback. -/
def execArms (p : Program) (v : Value) (fallback : Option Failure) :
    List (Pattern × List Stmt) → Run Unit
  | [] =>
    match fallback with
    | some f => raise p f
    | none => throw (.misfit "a matching arm" v)
  | (pattern, body) :: rest =>
    match matchBindings v pattern with
    | some bindings => do
      forEach (fun (x, w) => bind x w) bindings
      execBlock p body
    | none => execArms p v fallback rest

end

/-- The value of a body. -/
def evalBlock (p : Program) (b : Block) : Run Value := do
  execBlock p b.stmts
  eval p b.result

end Run

end WireSchema
