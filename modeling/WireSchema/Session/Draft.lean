import WireSchema.Naming
import WireSchema.Session.Registry

/-!
# Drafts of function bodies

The body under construction: nested scopes of statements and names, the hints that name anonymous
shapes, and the bit groups whose structs are being generated. Innermost comes first in every stack.
No two bindings of a function get the same name, so none ever hides another.
-/

namespace WireSchema

open Ir

structure Scope where
  stmts : List Stmt := []
  /-- The bindings, last first, with the names they were asked for under. -/
  names : List (String × Local) := []

/-- A packed or flag struct that is being generated. -/
structure ActiveGroup where
  group : Nat
  /-- The integer, while the struct is being decoded. -/
  raw : Option Expr

structure Draft where
  scopes : List Scope := [{}]
  /-- The number of the next binding. It is not cut to a machine integer: no body comes near to the
  `2 ^ 32` bindings that a counter of 32 bits tells apart. -/
  nextLocal : Nat := 0
  /-- Every name given out in the current function. -/
  taken : List String := []
  hints : List String := []
  groups : List ActiveGroup := []

namespace Draft

/-- The draft of a unit that is named after `hint`. -/
def named (hint : String) : Draft := { hints := [hint] }

/-- The draft with the innermost scope changed. -/
def updateScope (d : Draft) (f : Scope → Scope) : Draft :=
  match d.scopes with
  | scope :: outer => { d with scopes := f scope :: outer }
  | [] => d

@[simp]
theorem nextLocal_updateScope (d : Draft) (f : Scope → Scope) :
    (d.updateScope f).nextLocal = d.nextLocal := by
  unfold updateScope
  split <;> rfl

@[simp]
theorem taken_updateScope (d : Draft) (f : Scope → Scope) : (d.updateScope f).taken = d.taken := by
  unfold updateScope
  split <;> rfl

@[simp]
theorem groups_updateScope (d : Draft) (f : Scope → Scope) :
    (d.updateScope f).groups = d.groups := by
  unfold updateScope
  split <;> rfl

def emit (d : Draft) (s : Stmt) : Draft :=
  d.updateScope fun scope => { scope with stmts := scope.stmts ++ [s] }

def pushScope (d : Draft) : Draft := { d with scopes := {} :: d.scopes }

/-- The innermost scope, and the draft without it. -/
def popScope (d : Draft) : Scope × Draft :=
  match d.scopes with
  | scope :: outer => (scope, { d with scopes := outer })
  | [] => ({}, d)

@[simp]
theorem groups_popScope (d : Draft) : d.popScope.2.groups = d.groups := by
  unfold popScope
  split <;> rfl

/-- The draft with the statements and names of a scope added to the innermost one. -/
def join (d : Draft) (inner : Scope) : Draft :=
  d.updateScope fun scope =>
    { stmts := scope.stmts ++ inner.stmts, names := inner.names ++ scope.names }

/-- The draft of a new function. -/
def beginFunction (d : Draft) : Draft :=
  { d with scopes := [{}], taken := [], groups := [] }

def isTaken (d : Draft) (name : String) : Bool :=
  Naming.reservedLocals.contains name || Naming.isKeyword name || d.taken.contains name

/-- `base` without the underscores at its end, unless nothing else is left. -/
def stem (base : String) : String :=
  let cs := (base.toList.reverse.dropWhile (· == '_')).reverse
  if cs.isEmpty then base else String.ofList cs

/-- The name of a binding asked for as `requested`: the plain name, or the first of `_1`, `_2`, …
that is free. -/
def freeName (d : Draft) (requested : String) : String :=
  let base := Naming.bindingName requested
  firstFree d.isTaken (fun n => if n = 0 then base else stem base ++ "_" ++ toString n)
    (d.taken.length + 1) 0

/-- A binding with exactly this name. -/
def fresh (d : Draft) (name : String) : Local × Draft :=
  (⟨d.nextLocal, name⟩,
    { d with nextLocal := d.nextLocal + 1, taken := name :: d.taken })

/-- A new binding in the innermost scope. -/
def alloc (d : Draft) (requested : String) : Local × Draft :=
  let (x, d) := d.fresh (d.freeName requested)
  (x, d.updateScope fun scope => { scope with names := (requested, x) :: scope.names })

/-- The visible binding that was asked for under a name, innermost and latest first. -/
def lookup (d : Draft) (name : String) : Option Local :=
  d.scopes.findSome? fun scope => scope.names.lookup name

/-- The type name that the hints give, or the one of `fallback` without hints. -/
def hintName (d : Draft) (fallback : String) : String :=
  match d.hints with
  | [] => Naming.typeName fallback
  | hints => String.join (hints.reverse.map Naming.typeName)

/-- The group with a number, if its struct is being generated. -/
def activeGroup? (d : Draft) (group : Nat) : Option ActiveGroup :=
  d.groups.find? (·.group == group)

end Draft

end WireSchema
