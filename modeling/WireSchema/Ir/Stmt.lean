import WireSchema.Ir.Expr

/-!
# Statements of generated code

A body is a list of statements; statements nest through their blocks. The statements of a body with
all that are nested in them, each before its blocks, are its flattening, from which uses and
assignments are read off.
-/

namespace WireSchema.Ir

/-- A failure that generated code can raise. -/
inductive Failure where
  | unknownTag (type : String) (tag : Expr)
  | literalMismatch (expected : Literal) (found : Expr)
  | unmatchedVariant (type : String)
  deriving Repr, BEq

inductive Pattern where
  | lit (l : Literal)
  | enum (type name : String)
  | variant (type name : String) (binding : Option Local)
  deriving DecidableEq, Repr

inductive Stmt where
  | bind (x : Local) (mutable : Bool) (init : Option Expr)
  | assign (x : Local) (e : Expr)
  /-- Evaluate for the effects only. -/
  | eval (e : Expr)
  | write (p : Primitive) (e : Expr)
  /-- Write with an exported codec. -/
  | writeCodec (codec : String) (e : Expr)
  | branch (test : Expr) (yes no : List Stmt)
  /-- Run the block if the optional is present, with its value bound. -/
  | ifPresent (x : Local) (e : Expr) (body : List Stmt)
  /-- Run the block as often as the count says. -/
  | times (count : Expr) (body : List Stmt)
  | forEach (x : Local) (source : Expr) (body : List Stmt)
  | forEachPair (key value : Local) (source : Expr) (body : List Stmt)
  /-- Add to the end of a collection. -/
  | push (x : Local) (e : Expr)
  | select (e : Expr) (arms : List (Pattern × List Stmt)) (fallback : Option Failure)
  | fail (f : Failure)
  deriving Repr, BEq

/-- Statements followed by a result. -/
structure Block where
  stmts : List Stmt
  result : Expr
  deriving Repr, BEq

def Failure.exprs : Failure → List Expr
  | .unknownTag _ tag => [tag]
  | .literalMismatch _ found => [found]
  | .unmatchedVariant _ => []

namespace Stmt

/-- The expressions of a statement, without those of its blocks. -/
def exprs : Stmt → List Expr
  | .bind _ _ init => init.toList
  | .assign _ e | .eval e | .write _ e | .writeCodec _ e | .push _ e => [e]
  | .branch e _ _ | .ifPresent _ e _ | .times e _ | .forEach _ e _ | .forEachPair _ _ e _ => [e]
  | .select e _ fallback => e :: fallback.toList.flatMap Failure.exprs
  | .fail f => f.exprs

/-- The blocks of a statement. -/
def blocks : Stmt → List (List Stmt)
  | .branch _ yes no => [yes, no]
  | .ifPresent _ _ body | .times _ body | .forEach _ _ body | .forEachPair _ _ _ body => [body]
  | .select _ arms _ => arms.map (·.2)
  | _ => []

mutual

/-- A statement and all that are nested in it, each before its blocks. -/
def flatten : Stmt → List Stmt
  | s@(.branch _ yes no) => s :: (flattenBlock yes ++ flattenBlock no)
  | s@(.ifPresent _ _ body) | s@(.times _ body) => s :: flattenBlock body
  | s@(.forEach _ _ body) | s@(.forEachPair _ _ _ body) => s :: flattenBlock body
  | s@(.select _ arms _) => s :: flattenArms arms
  | s => [s]

def flattenBlock : List Stmt → List Stmt
  | [] => []
  | s :: rest => flatten s ++ flattenBlock rest

def flattenArms : List (Pattern × List Stmt) → List Stmt
  | [] => []
  | (_, body) :: rest => flattenBlock body ++ flattenArms rest

end

/-- The binding that a statement sets or adds to. -/
def target? : Stmt → Option Nat
  | .assign x _ | .push x _ => some x.id
  | _ => none

/-- The binding whose collection a statement adds to, which counts as a use of it. -/
def pushed? : Stmt → Option Nat
  | .push x _ => some x.id
  | _ => none

/-- The bindings that a statement uses by itself, one entry for each use. -/
def ownUses (s : Stmt) : List Nat :=
  s.exprs.flatMap Expr.locals ++ s.pushed?.toList

/-- The bindings that a list of statements sets or adds to. -/
def assigned (stmts : List Stmt) : List Nat :=
  (flattenBlock stmts).filterMap target?

/-- The bindings that a list of statements uses, one entry for each use. -/
def uses (stmts : List Stmt) : List Nat :=
  (flattenBlock stmts).flatMap ownUses

/-- All expressions of a list of statements with their parts, in order. -/
def nodes (stmts : List Stmt) : List Expr :=
  (flattenBlock stmts).flatMap fun s => s.exprs.flatMap Expr.nodes

/-- Whether an expression of the statement refers to the binding `x`, or a block of it uses `x`. -/
def mentions (s : Stmt) (x : Nat) : Bool :=
  s.exprs.any (·.mentions x) || (s.blocks.flatMap uses).contains x

end Stmt

/-- The failure with the first occurrence of the replaced binding gone, if it occurs. -/
def Failure.substFirst (r : Expr.Replacement) : Failure → Option Failure
  | .unknownTag ty tag => (tag.substFirst r).map (.unknownTag ty)
  | .literalMismatch l found => (found.substFirst r).map (.literalMismatch l)
  | .unmatchedVariant _ => none

namespace Stmt

mutual

/-- The statement with the first occurrence of the replaced binding gone, if it occurs. Its own
expressions come before its blocks. -/
def substFirst (r : Expr.Replacement) : Stmt → Option Stmt
  | .bind y m (some e) => (e.substFirst r).map fun e => .bind y m (some e)
  | .bind _ _ none => none
  | .assign y e => (e.substFirst r).map (.assign y)
  | .eval e => (e.substFirst r).map .eval
  | .write p e => (e.substFirst r).map (.write p)
  | .writeCodec codec e => (e.substFirst r).map (.writeCodec codec)
  | .push y e => (e.substFirst r).map (.push y)
  | .branch e yes no =>
    match e.substFirst r with
    | some e => some (.branch e yes no)
    | none =>
      match substFirstBlock r yes with
      | some yes => some (.branch e yes no)
      | none => (substFirstBlock r no).map (.branch e yes)
  | .ifPresent y e body =>
    match e.substFirst r with
    | some e => some (.ifPresent y e body)
    | none => (substFirstBlock r body).map (.ifPresent y e)
  | .times e body =>
    match e.substFirst r with
    | some e => some (.times e body)
    | none => (substFirstBlock r body).map (.times e)
  | .forEach y e body =>
    match e.substFirst r with
    | some e => some (.forEach y e body)
    | none => (substFirstBlock r body).map (.forEach y e)
  | .forEachPair k v e body =>
    match e.substFirst r with
    | some e => some (.forEachPair k v e body)
    | none => (substFirstBlock r body).map (.forEachPair k v e)
  | .select e arms fallback =>
    match e.substFirst r with
    | some e => some (.select e arms fallback)
    | none =>
      match fallback.bind (·.substFirst r) with
      | some f => some (.select e arms (some f))
      | none => (substFirstArms r arms).map (.select e · fallback)
  | .fail f => (f.substFirst r).map .fail

def substFirstBlock (r : Expr.Replacement) : List Stmt → Option (List Stmt)
  | [] => none
  | s :: rest =>
    match substFirst r s with
    | some s => some (s :: rest)
    | none => (substFirstBlock r rest).map (s :: ·)

def substFirstArms (r : Expr.Replacement) :
    List (Pattern × List Stmt) → Option (List (Pattern × List Stmt))
  | [] => none
  | (p, body) :: rest =>
    match substFirstBlock r body with
    | some body => some ((p, body) :: rest)
    | none => (substFirstArms r rest).map ((p, body) :: ·)

end

end Stmt

end WireSchema.Ir
