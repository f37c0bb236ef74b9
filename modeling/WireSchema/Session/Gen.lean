import WireSchema.Ir.Elision
import WireSchema.Session.Draft
import WireSchema.Shape.Slots

/-!
# Generation

Generation works on a session: the registry of the run, the draft at hand, and the table of
references. A failure ends a computation but not the session, whose stacks are balanced again by the
time the failure is seen.
-/

namespace WireSchema

open Ir

structure Session where
  registry : Registry := {}
  draft : Draft := {}
  refs : Refs := []
  /-- The number of the next bit group. -/
  nextGroup : Nat := 1

/-- A computation of a session; a failure keeps the session it led to. -/
abbrev Gen := ExceptT SchemaError (StateM Session)

namespace Gen

/-- Runs a computation on a session. -/
def start {α : Type} (act : Gen α) (s : Session) : Except SchemaError α × Session :=
  act.run.run s

/-- Runs `act` between two changes of the session, the second also after a failure. -/
def between {α : Type} (enter leave : Session → Session) (act : Gen α) : Gen α :=
  ExceptT.mk do
    modify enter
    let result ← act.run
    modify leave
    return result

def refs : Gen Refs := return (← get).refs

def registry : Gen Registry := return (← get).registry

def draft : Gen Draft := return (← get).draft

def updateDraft (f : Draft → Draft) : Gen Unit :=
  modify fun s => { s with draft := f s.draft }

def updateRegistry (f : Registry → Registry) : Gen Unit :=
  modify fun s => { s with registry := f s.registry }

/-- A value or an error as a computation. -/
def ofExcept {α : Type} : Except SchemaError α → Gen α
  | .ok a => pure a
  | .error e => throw e

/-- Resolves a label. -/
def resolve (label : String) (target : Shape) : Gen Unit := do
  let table ← ofExcept ((← refs).resolve label target)
  modify fun s => { s with refs := table }

/-- The number of a new bit group. -/
def freshGroup : Gen Nat := do
  let s ← get
  set { s with nextGroup := s.nextGroup + 1 }
  return s.nextGroup

/-! ### The draft -/

def beginFunction : Gen Unit := updateDraft Draft.beginFunction

/-- Runs `act` in a scope of its own; gives the scope and the result. -/
def inScope {α : Type} (act : Gen α) : Gen (Scope × α) := do
  updateDraft Draft.pushScope
  let result ← ExceptT.lift act.run
  let (scope, d) := (← draft).popScope
  updateDraft fun _ => d
  return (scope, ← ofExcept result)

/-- Runs `act` in a scope of its own; gives the statements and the result. -/
def capture {α : Type} (act : Gen α) : Gen (List Stmt × α) := do
  let (scope, a) ← inScope act
  return (scope.stmts, a)

/-- The elided block of what `act` emits and yields. -/
def captureBlock (act : Gen Expr) : Gen Block := do
  let (stmts, result) ← capture act
  return Block.elide ⟨stmts, result⟩

def emit (s : Stmt) : Gen Unit := updateDraft (·.emit s)

/-- A new binding. -/
def alloc (requested : String) : Gen Local := do
  let (x, d) := (← draft).alloc requested
  updateDraft fun _ => d
  return x

/-- A parameter, which has a fixed name. -/
def param (name : String) : Gen Local := do
  let (x, d) := (← draft).fresh name
  updateDraft fun _ => d
  return x

/-- Binds the result of `init`, whose own statements come right before. -/
def declare (requested : String) (init : Gen Expr) : Gen Local := do
  let (scope, e) ← inScope init
  updateDraft (·.join scope)
  let x ← alloc requested
  emit (.bind x false (some e))
  return x

/-- A mutable binding. -/
def declareMut (requested : String) (init : Expr) : Gen Local := do
  let x ← alloc requested
  emit (.bind x true (some init))
  return x

/-- A binding that is set later. -/
def declareDeferred (requested : String) : Gen Local := do
  let x ← alloc requested
  emit (.bind x false none)
  return x

/-- Runs `act` with another innermost hint. -/
def withHint {α : Type} (hint : String) (act : Gen α) : Gen α :=
  between (fun s => { s with draft.hints := hint :: s.draft.hints })
    (fun s => { s with draft.hints := s.draft.hints.tail }) act

/-- The innermost hint, or `fallback`. -/
def lastHint (fallback : String) : Gen String := return (← draft).hints.headD fallback

def hintName (fallback : String) : Gen String := return (← draft).hintName fallback

def pushGroup (group : Nat) (raw : Option Expr) : Gen Unit :=
  updateDraft fun d => { d with groups := ⟨group, raw⟩ :: d.groups }

def popGroup : Gen Unit := updateDraft fun d => { d with groups := d.groups.tail }

/-- Runs `act` while the struct of a bit group is being generated. -/
def withGroup {α : Type} (group : Nat) (raw : Option Expr) (act : Gen α) : Gen α :=
  between (fun s => { s with draft.groups := ⟨group, raw⟩ :: s.draft.groups })
    (fun s => { s with draft.groups := s.draft.groups.tail }) act

def activeGroup? (group : Nat) : Gen (Option ActiveGroup) := return (← draft).activeGroup? group

/-- Runs `act` on a draft of its own, named after `hint`; the draft at hand is kept aside. -/
def nested {α : Type} (hint : String) (act : Gen α) : Gen α := do
  let outer ← draft
  between (fun s => { s with draft := Draft.named hint }) (fun s => { s with draft := outer }) act

/-! ### The registry -/

def aliasOf? (signature : String) : Gen (Option String) :=
  return (← registry).aliases.lookup signature

/-- Names a signature, unless it has a name; gives the name that counts. -/
def registerAlias (signature name : String) : Gen String := do
  let (name, r) := (← registry).addAlias signature name
  updateRegistry fun _ => r
  return name

def registerFunction (path : String) (f : HostFunction) : Gen Unit :=
  updateRegistry (·.addFunction path f)

/-- Declares `name`, unless it is declared or being declared. -/
def registerGlobal (name : String) (define : Gen Decl) : Gen String := do
  if (← registry).isDeclared name then return name
  updateRegistry (·.reserve name)
  let d ← define
  updateRegistry (·.fill name d)
  return name

/-- Declares the constant with a key, unless it is declared or being declared; its name is `desired`
as far as that is free. -/
def registerConstant (key desired : String) (define : String → Gen Decl) : Gen String := do
  match (← registry).constants.lookup key with
  | some name => return name
  | none =>
    let name := (← registry).freeName desired
    updateRegistry fun r => (r.addConstant key name).reserve name
    let d ← define name
    updateRegistry (·.fill name d)
    return name

/-! ### Shapes -/

def canonicalName (s : Shape) : Gen String := return s.canonicalName (← refs)

def resolved (s : Shape) : Gen Shape := do ofExcept (s.resolved (← refs))

def storedFields (s : Shape) : Gen (List Field) := do ofExcept (s.storedFields (← refs))

end Gen

end WireSchema
