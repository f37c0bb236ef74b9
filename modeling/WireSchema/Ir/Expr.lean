import WireSchema.Primitive
import WireSchema.Literal

/-!
# Expressions of generated code

Decoders and encoders are built as expressions and statements, which are printed or run later.
Everything that a pass needs to know about an expression comes from its nodes, listed in the order
of their evaluation.
-/

namespace WireSchema.Ir

/-- A binding. The number identifies it; the name is what is printed. -/
structure Local where
  id : Nat
  name : String
  deriving DecidableEq, Repr, Inhabited

inductive BinOp where
  | shl
  | shr
  | bitAnd
  | bitOr
  | eq
  | ne
  deriving DecidableEq, Repr

def BinOp.symbol : BinOp → String
  | .shl => "<<"
  | .shr => ">>"
  | .bitAnd => "&"
  | .bitOr => "|"
  | .eq => "=="
  | .ne => "!="

inductive Expr where
  | lit (l : Literal)
  | var (x : Local)
  /-- A binding by reference, used as the place it refers to. -/
  | deref (e : Expr)
  /-- A reference to a place. -/
  | borrow (e : Expr)
  | read (p : Primitive)
  | field (e : Expr) (name : String)
  | struct (type : String) (fields : List (String × Expr))
  | variant (type name : String) (payload : Option Expr)
  | enumValue (type name : String)
  /-- The name of an enumeration that has the given id; fails if there is none. -/
  | fromId (type : String) (id : Expr)
  | toId (type : String) (value : Expr)
  | binary (op : BinOp) (lhs rhs : Expr)
  | cast (e : Expr) (kind : IntKind)
  | cond (test yes no : Expr)
  | present (e : Expr)
  | absent
  | isPresent (e : Expr)
  | len (e : Expr)
  | newList
  | newMap
  | pair (a b : Expr)
  /-- The value that an exported codec reads. -/
  | callDecode (codec : String)
  /-- The result of a host function. -/
  | call (path : String) (args : List Expr) (fallible : Bool)
  deriving Repr, Inhabited, BEq

namespace Expr

def int (v : Int) (kind : IntKind) : Expr := .lit (.int v kind)

/-- The place that a binding by reference refers to. -/
def place (x : Local) : Expr := .deref (.var x)

/-- The immediate parts of an expression, in order of evaluation. -/
def children : Expr → List Expr
  | .lit _ | .var _ | .read _ | .enumValue _ _ | .absent | .newList | .newMap | .callDecode _ => []
  | .deref e | .borrow e | .field e _ | .cast e _ | .present e | .isPresent e | .len e => [e]
  | .fromId _ e | .toId _ e => [e]
  | .struct _ fields => fields.map (·.2)
  | .variant _ _ payload => payload.toList
  | .binary _ a b | .pair a b => [a, b]
  | .cond c t o => [c, t, o]
  | .call _ args _ => args

mutual

/-- An expression and all its parts, each before its own parts, from left to right. -/
def nodes : Expr → List Expr
  | e@(.lit _) | e@(.var _) | e@(.read _) | e@(.enumValue _ _) => [e]
  | e@(.absent) | e@(.newList) | e@(.newMap) | e@(.callDecode _) => [e]
  | e@(.deref a) | e@(.borrow a) | e@(.field a _) | e@(.cast a _) => e :: nodes a
  | e@(.present a) | e@(.isPresent a) | e@(.len a) => e :: nodes a
  | e@(.fromId _ a) | e@(.toId _ a) => e :: nodes a
  | e@(.struct _ fields) => e :: nodesFields fields
  | e@(.variant _ _ payload) => e :: nodesOption payload
  | e@(.binary _ a b) | e@(.pair a b) => e :: (nodes a ++ nodes b)
  | e@(.cond c t o) => e :: (nodes c ++ nodes t ++ nodes o)
  | e@(.call _ args _) => e :: nodesList args

def nodesOption : Option Expr → List Expr
  | none => []
  | some e => nodes e

def nodesList : List Expr → List Expr
  | [] => []
  | e :: rest => nodes e ++ nodesList rest

def nodesFields : List (String × Expr) → List Expr
  | [] => []
  | (_, e) :: rest => nodes e ++ nodesFields rest

end

/-- Whether the node itself touches the stream or can fail. -/
def isEffect : Expr → Bool
  | .read _ | .fromId _ _ | .callDecode _ | .call _ _ _ => true
  | _ => false

/-- Whether evaluation touches the stream or can fail. -/
def hasEffect (e : Expr) : Bool := e.nodes.any isEffect

/-- The binding that a node refers to. -/
def localId? : Expr → Option Nat
  | .var x => some x.id
  | _ => none

/-- The bindings that an expression refers to, one entry for each occurrence. -/
def locals (e : Expr) : List Nat := e.nodes.filterMap localId?

/-- Whether an expression refers to the binding `x`. -/
def mentions (e : Expr) (x : Nat) : Bool := e.locals.contains x

/-- An expression to put in the place of a binding. -/
structure Replacement where
  binding : Nat
  image : Expr

mutual

/-- The expression with the first occurrence of the replaced binding gone, if it occurs. -/
def substFirst (r : Replacement) : Expr → Option Expr
  | .var y => if y.id = r.binding then some r.image else none
  | .lit _ | .read _ | .enumValue _ _ | .absent | .newList | .newMap | .callDecode _ => none
  | .deref e => (substFirst r e).map .deref
  | .borrow e => (substFirst r e).map .borrow
  | .field e name => (substFirst r e).map (.field · name)
  | .cast e kind => (substFirst r e).map (.cast · kind)
  | .present e => (substFirst r e).map .present
  | .isPresent e => (substFirst r e).map .isPresent
  | .len e => (substFirst r e).map .len
  | .fromId ty e => (substFirst r e).map (.fromId ty)
  | .toId ty e => (substFirst r e).map (.toId ty)
  | .struct ty fields => (substFirstFields r fields).map (.struct ty)
  | .variant ty name payload => (substFirstOption r payload).map (.variant ty name ·)
  | .binary op a b =>
    match substFirst r a with
    | some a => some (.binary op a b)
    | none => (substFirst r b).map (.binary op a)
  | .pair a b =>
    match substFirst r a with
    | some a => some (.pair a b)
    | none => (substFirst r b).map (.pair a)
  | .cond c t o =>
    match substFirst r c with
    | some c => some (.cond c t o)
    | none =>
      match substFirst r t with
      | some t => some (.cond c t o)
      | none => (substFirst r o).map (.cond c t)
  | .call path args fallible => (substFirstList r args).map (.call path · fallible)

def substFirstOption (r : Replacement) : Option Expr → Option (Option Expr)
  | none => none
  | some e => (substFirst r e).map some

def substFirstList (r : Replacement) : List Expr → Option (List Expr)
  | [] => none
  | e :: rest =>
    match substFirst r e with
    | some e => some (e :: rest)
    | none => (substFirstList r rest).map (e :: ·)

def substFirstFields (r : Replacement) :
    List (String × Expr) → Option (List (String × Expr))
  | [] => none
  | (name, e) :: rest =>
    match substFirst r e with
    | some e => some ((name, e) :: rest)
    | none => (substFirstFields r rest).map ((name, e) :: ·)

end

end Expr

end WireSchema.Ir
