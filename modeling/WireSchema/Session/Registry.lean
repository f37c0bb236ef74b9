import WireSchema.Host
import WireSchema.Ir.Decl

/-!
# The registry of shared declarations

All bodies of a run share one registry. A declaration first reserves its name, which gives it a
place, and is filled in when it is finished; so it may refer to itself, and the places keep the
order of the reservations. Constants are known by a key, aliases by the signature of a shape, host
functions by a path; for each of them the first registration counts.
-/

namespace WireSchema

open Ir

structure Registry where
  /-- The reserved names, in order, with the declarations that are finished. -/
  slots : List (String × Option Decl) := []
  /-- The names of constants, by key. -/
  constants : List (String × String) := []
  /-- The names of shapes, by signature. -/
  aliases : List (String × String) := []
  /-- The host functions, by path. -/
  functions : List (String × HostFunction) := []

/-- The first of the candidates from `n` on that is not taken; `fuel` of them are tried before. -/
def firstFree (taken : String → Bool) (candidate : Nat → String) : Nat → Nat → String
  | 0, n => candidate n
  | fuel + 1, n =>
    if taken (candidate n) then firstFree taken candidate fuel (n + 1) else candidate n

namespace Registry

/-- Whether a name is reserved. -/
def isDeclared (r : Registry) (name : String) : Bool := r.slots.any (·.1 == name)

/-- The finished declaration of a name. -/
def decl? (r : Registry) (name : String) : Option Decl :=
  (r.slots.find? (·.1 == name)).bind (·.2)

/-- The finished declarations, in the order of their reservations. -/
def finished (r : Registry) : List Decl := r.slots.filterMap (·.2)

def reserve (r : Registry) (name : String) : Registry :=
  { r with slots := r.slots ++ [(name, none)] }

/-- The registry with the declaration of a reserved name filled in. -/
def fill (r : Registry) (name : String) (d : Decl) : Registry :=
  { r with slots := r.slots.map fun (n, old) => if n == name then (n, some d) else (n, old) }

/-- `desired`, or the first of `desired2`, `desired3`, … that is free. -/
def freeName (r : Registry) (desired : String) : String :=
  firstFree r.isDeclared (fun n => if n = 0 then desired else desired ++ toString (n + 1))
    r.slots.length 0

def addConstant (r : Registry) (key name : String) : Registry :=
  { r with constants := r.constants ++ [(key, name)] }

/-- The registry with a name for a signature, unless it has one, and the name that counts. -/
def addAlias (r : Registry) (signature name : String) : String × Registry :=
  match r.aliases.lookup signature with
  | some existing => (existing, r)
  | none => (name, { r with aliases := r.aliases ++ [(signature, name)] })

def addFunction (r : Registry) (path : String) (f : HostFunction) : Registry :=
  match r.functions.lookup path with
  | some _ => r
  | none => { r with functions := r.functions ++ [(path, f)] }

end Registry

end WireSchema
