import WireSchema.Machine.Interpreter

/-!
# Runs that say where they fail

A probe runs code like the machine, but its errors also say whether they are faults: failures of a
part of an expression that is no effect. Reads, ids of enumerations, codecs and host functions are
effects, and so is what a statement does with the values of its expressions. Without the mark a
probe is the run itself.
-/

namespace WireSchema

open Ir

/-- Why a probe stops. -/
structure Stop where
  cause : RunError
  /-- Whether a part of an expression failed that is no effect. -/
  fault : Bool
  deriving DecidableEq, Repr

/-- A run whose errors are marked. -/
abbrev Probe := StateT Machine (Except Stop)

namespace Probe

/-- A step of a run whose failure gets a mark. -/
def marked {α : Type} (fault : Bool) (act : Run α) : Probe α := fun m =>
  match act m with
  | .ok out => .ok out
  | .error cause => .error ⟨cause, fault⟩

/-- A step that may fail as an effect. -/
def effect {α : Type} (act : Run α) : Probe α := marked false act

/-- A step that may fail as a fault. -/
def part {α : Type} (act : Run α) : Probe α := marked true act

/-- The run that a probe marks. -/
def unmarked {α : Type} (act : Probe α) : Run α := fun m =>
  match act m with
  | .ok out => .ok out
  | .error stop => .error stop.cause

/-- Runs `act` the given number of times. -/
def times (act : Probe Unit) : Nat → Probe Unit
  | 0 => return
  | count + 1 => do
    act
    times act count

/-- Runs `act` on each item in turn. -/
def forEach {α : Type} (act : α → Probe Unit) : List α → Probe Unit
  | [] => return
  | item :: rest => do
    act item
    forEach act rest

mutual

/-- The value of an expression. -/
def eval (p : Program) : Expr → Probe Value
  | .lit l => return .ofLiteral l
  | .var x => part (Run.valueOf x)
  | .deref e | .borrow e | .present e => eval p e
  | .read prim => effect (Run.read p.order prim)
  | .field e name => do
    let v ← eval p e
    part (Run.fieldOf v name)
  | .struct _ fields => do
    let values ← evalFields p fields
    return .ofFields values
  | .variant _ name payload => do
    let v ← evalOption p payload
    return .variant name v
  | .enumValue _ name => return .enum name
  | .fromId type e => do
    let v ← eval p e
    effect (Run.nameOfId p.code type v)
  | .toId type e => do
    let v ← eval p e
    part (Run.idOfName p.code type v)
  | .binary op a b => do
    let v ← eval p a
    part (Run.leftOperand op v)
    let w ← eval p b
    part (Run.binary op v w)
  | .cast e kind => do
    let v ← eval p e
    let (n, _) ← part (Run.asInteger v)
    return .ofInt kind n
  | .cond test yes no => do
    let v ← eval p test
    if ← part (Run.asTruth v) then eval p yes else eval p no
  | .absent => return .null
  | .isPresent e => do
    let v ← eval p e
    return .bool (!v.isNull)
  | .len e => do
    let v ← eval p e
    let n ← part (Run.lengthOf v)
    return .ofInt .usize n
  | .newList => return .list []
  | .newMap => return .map []
  | .pair a b => do
    let v ← eval p a
    let w ← eval p b
    return .list [v, w]
  | .callDecode codec => effect (p.calls.decode codec)
  | .call path args fallible => do
    let values ← evalList p args
    effect (Run.callHost p.code path values fallible)

def evalOption (p : Program) : Option Expr → Probe (Option Value)
  | none => return none
  | some e => do
    let v ← eval p e
    return some v

def evalList (p : Program) : List Expr → Probe (List Value)
  | [] => return []
  | e :: rest => do
    let v ← eval p e
    let values ← evalList p rest
    return v :: values

def evalFields (p : Program) : List (String × Expr) → Probe (List (String × Value))
  | [] => return []
  | (name, e) :: rest => do
    let v ← eval p e
    let values ← evalFields p rest
    return (name, v) :: values

end

/-- The error that a failure raises. -/
def errorOf (p : Program) : Failure → Probe RunError
  | .unknownTag type tag => do
    let v ← eval p tag
    return .decode (.unknownTag type v.describe)
  | .literalMismatch expected found => do
    let v ← eval p found
    return .decode (.literalMismatch expected.text v.describe)
  | .unmatchedVariant type => return .encode (.unmatchedVariant type)

/-- Raises a failure. -/
def raise (p : Program) (f : Failure) : Probe Unit := do
  let e ← errorOf p f
  effect (throw e)

mutual

/-- Runs a statement. -/
def exec (p : Program) : Stmt → Probe Unit
  | .bind x _ none => effect (Run.bind x .null)
  | .bind x _ (some e) | .assign x e => do
    let v ← eval p e
    effect (Run.bind x v)
  | .eval e => do
    let _ ← eval p e
  | .write prim e => do
    let v ← eval p e
    effect (Run.write p.order prim v)
  | .writeCodec codec e => do
    let v ← eval p e
    effect (p.calls.encode codec v)
  | .branch test yes no => do
    let v ← eval p test
    if ← effect (Run.asTruth v) then execBlock p yes else execBlock p no
  | .ifPresent x e body => do
    let v ← eval p e
    if v.isNull then return
    effect (Run.bind x v)
    execBlock p body
  | .times count body => do
    let v ← eval p count
    let n ← effect (Run.rounds v)
    times (execBlock p body) n
  | .forEach x source body => do
    let v ← eval p source
    let items ← effect (Run.asItems v)
    forEach (fun item => do effect (Run.bind x item); execBlock p body) items
  | .forEachPair key value source body => do
    let v ← eval p source
    let entries ← effect (Run.asEntries v)
    forEach (fun (k, w) => do
      effect (Run.bind key k); effect (Run.bind value w); execBlock p body) entries
  | .push x e => do
    let v ← eval p e
    effect (Run.push x v)
  | .select e arms fallback => do
    let v ← eval p e
    execArms p v fallback arms
  | .fail f => raise p f

/-- Runs statements in order. -/
def execBlock (p : Program) : List Stmt → Probe Unit
  | [] => return
  | s :: rest => do
    exec p s
    execBlock p rest

/-- Runs the first arm that matches `v`, or else the fallback. -/
def execArms (p : Program) (v : Value) (fallback : Option Failure) :
    List (Pattern × List Stmt) → Probe Unit
  | [] =>
    match fallback with
    | some f => raise p f
    | none => effect (throw (.misfit "a matching arm" v))
  | (pattern, body) :: rest =>
    match Run.matchBindings v pattern with
    | some bindings => do
      forEach (fun (x, w) => effect (Run.bind x w)) bindings
      execBlock p body
    | none => execArms p v fallback rest

end

/-- The value of a body. -/
def evalBlock (p : Program) (b : Block) : Probe Value := do
  execBlock p b.stmts
  eval p b.result

/-! ### A probe without its marks is the run -/

@[simp]
theorem unmarked_pure {α : Type} (a : α) : unmarked (pure a : Probe α) = pure a := rfl

@[simp]
theorem unmarked_marked {α : Type} (fault : Bool) (act : Run α) :
    unmarked (marked fault act) = act := by
  funext m
  simp only [unmarked, marked]
  cases act m <;> rfl

@[simp]
theorem unmarked_effect {α : Type} (act : Run α) : unmarked (effect act) = act :=
  unmarked_marked false act

@[simp]
theorem unmarked_part {α : Type} (act : Run α) : unmarked (part act) = act :=
  unmarked_marked true act

@[simp]
theorem unmarked_bind {α β : Type} (act : Probe α) (next : α → Probe β) :
    unmarked (act >>= next) = unmarked act >>= fun a => unmarked (next a) := by
  funext m
  change unmarked (act >>= next) m = (unmarked act m).bind fun out => unmarked (next out.1) out.2
  simp only [unmarked, bind, StateT.bind, Except.bind]
  cases act m <;> rfl

@[simp]
theorem unmarked_map {α β : Type} (f : α → β) (act : Probe α) :
    unmarked (f <$> act) = f <$> unmarked act := by
  simp only [map_eq_pure_bind, unmarked_bind, unmarked_pure]

@[simp]
theorem unmarked_ite {α : Type} (c : Prop) [Decidable c] (yes no : Probe α) :
    unmarked (if c then yes else no) = if c then unmarked yes else unmarked no := by
  split <;> rfl

mutual

theorem unmarked_eval (p : Program) : ∀ e : Expr, unmarked (eval p e) = Run.eval p e
  | .lit _ | .var _ | .read _ | .enumValue _ _ | .absent | .newList | .newMap | .callDecode _ => by
    simp [eval, Run.eval]
  | .deref e | .borrow e | .present e => by
    simpa [eval, Run.eval] using unmarked_eval p e
  | .field e _ | .fromId _ e | .toId _ e | .cast e _ | .isPresent e | .len e => by
    simp [eval, Run.eval, unmarked_eval p e]
  | .struct _ fields => by simp [eval, Run.eval, unmarked_evalFields p fields]
  | .variant _ _ payload => by simp [eval, Run.eval, unmarked_evalOption p payload]
  | .binary _ a b | .pair a b => by
    simp [eval, Run.eval, unmarked_eval p a, unmarked_eval p b]
  | .cond c t o => by
    simp [eval, Run.eval, unmarked_eval p c, unmarked_eval p t, unmarked_eval p o]
  | .call _ args _ => by simp [eval, Run.eval, unmarked_evalList p args]

theorem unmarked_evalOption (p : Program) :
    ∀ e : Option Expr, unmarked (evalOption p e) = Run.evalOption p e
  | none => by simp [evalOption, Run.evalOption]
  | some e => by simp [evalOption, Run.evalOption, unmarked_eval p e]

theorem unmarked_evalList (p : Program) :
    ∀ es : List Expr, unmarked (evalList p es) = Run.evalList p es
  | [] => by simp [evalList, Run.evalList]
  | e :: rest => by
    simp [evalList, Run.evalList, unmarked_eval p e, unmarked_evalList p rest]

theorem unmarked_evalFields (p : Program) :
    ∀ fields : List (String × Expr), unmarked (evalFields p fields) = Run.evalFields p fields
  | [] => by simp [evalFields, Run.evalFields]
  | (_, e) :: rest => by
    simp [evalFields, Run.evalFields, unmarked_eval p e, unmarked_evalFields p rest]

end

theorem unmarked_times (act : Probe Unit) (n : Nat) :
    unmarked (times act n) = Run.times (unmarked act) n := by
  induction n with
  | zero => rfl
  | succ n ih => simp [times, Run.times, ih]

theorem unmarked_forEach {α : Type} (act : α → Probe Unit) (items : List α) :
    unmarked (forEach act items) = Run.forEach (fun a => unmarked (act a)) items := by
  induction items with
  | nil => rfl
  | cons item rest ih => simp [forEach, Run.forEach, ih]

theorem unmarked_raise (p : Program) (f : Failure) : unmarked (raise p f) = Run.raise p f := by
  cases f <;> simp [raise, Run.raise, errorOf, Run.errorOf, unmarked_eval]

mutual

theorem unmarked_exec (p : Program) : ∀ s : Stmt, unmarked (exec p s) = Run.exec p s
  | .bind _ _ none => by simp [exec, Run.exec]
  | .bind _ _ (some e) | .assign _ e | .eval e | .write _ e | .writeCodec _ e | .push _ e => by
    simp [exec, Run.exec, unmarked_eval p e]
  | .branch e yes no => by
    simp [exec, Run.exec, unmarked_eval p e, unmarked_execBlock p yes, unmarked_execBlock p no]
  | .ifPresent _ e body => by
    simp [exec, Run.exec, unmarked_eval p e, unmarked_execBlock p body]
  | .times e body => by
    simp [exec, Run.exec, unmarked_eval p e, unmarked_times, unmarked_execBlock p body]
  | .forEach _ e body => by
    simp [exec, Run.exec, unmarked_eval p e, unmarked_forEach, unmarked_execBlock p body]
  | .forEachPair _ _ e body => by
    simp [exec, Run.exec, unmarked_eval p e, unmarked_forEach, unmarked_execBlock p body]
  | .select e arms fallback => by
    simp [exec, Run.exec, unmarked_eval p e, unmarked_execArms p _ fallback arms]
  | .fail f => by simp [exec, Run.exec, unmarked_raise]

theorem unmarked_execBlock (p : Program) :
    ∀ stmts : List Stmt, unmarked (execBlock p stmts) = Run.execBlock p stmts
  | [] => by simp [execBlock, Run.execBlock]
  | s :: rest => by
    simp [execBlock, Run.execBlock, unmarked_exec p s, unmarked_execBlock p rest]

theorem unmarked_execArms (p : Program) (v : Value) (fallback : Option Failure) :
    ∀ arms : List (Pattern × List Stmt),
      unmarked (execArms p v fallback arms) = Run.execArms p v fallback arms
  | [] => by cases fallback <;> simp [execArms, Run.execArms, unmarked_raise]
  | (pattern, body) :: rest => by
    simp only [execArms, Run.execArms]
    cases Run.matchBindings v pattern with
    | none => exact unmarked_execArms p v fallback rest
    | some bindings => simp [unmarked_forEach, unmarked_execBlock p body]

end

/-- A probe of a body goes like its run. -/
theorem unmarked_evalBlock (p : Program) (b : Block) :
    unmarked (evalBlock p b) = Run.evalBlock p b := by
  simp [evalBlock, Run.evalBlock, unmarked_execBlock, unmarked_eval]

end Probe

end WireSchema
