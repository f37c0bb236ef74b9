import WireSchema.Ir.Stmt

/-!
# Elision of bindings

A body is generated with one binding for each field. Elision turns it into what one would write by
hand. It drops bindings that nothing uses, keeping the effects of their initial values; it moves an
initial value without effects to its only use, unless a binding that it reads is set in between; and
it moves the last initial values into the result, as long as the effects keep their order and none
of them comes to depend on a condition.
-/

namespace WireSchema.Ir

/-- The binding and the initial value of an immutable binding. -/
def Stmt.initialised? : Stmt → Option (Local × Expr)
  | .bind x false (some init) => some (x, init)
  | _ => none

/-- The uses in a body, one entry for each. -/
def Block.uses (b : Block) : List Nat := Stmt.uses b.stmts ++ b.result.locals

/-! ### Unused bindings -/

/-- What is left of a statement when only the bindings of `used` are used. -/
def Stmt.dropUnused (used : List Nat) (s : Stmt) : List Stmt :=
  match s.initialised? with
  | some (x, init) =>
    if used.contains x.id then [s] else if init.hasEffect then [.eval init] else []
  | none => [s]

/-- Whether a statement only initialises a binding that is not in `used`. -/
def Stmt.isUnused (used : List Nat) (s : Stmt) : Bool :=
  match s.initialised? with
  | some (x, _) => !used.contains x.id
  | none => false

/-- The body without its unused bindings, after at most `fuel` rounds. Each round drops a binding,
so there are no more rounds than statements. -/
def Block.dropRounds : Nat → Block → Block
  | 0, b => b
  | fuel + 1, b =>
    let used := b.uses
    if b.stmts.any (·.isUnused used) then
      dropRounds fuel { b with stmts := b.stmts.flatMap (·.dropUnused used) }
    else b

/-- The body without its unused bindings. -/
def Block.dropUnused (b : Block) : Block := b.dropRounds b.stmts.length

/-! ### Bindings without effects -/

/-- The statements before the first that mentions `x`, that statement, and those after it. -/
def splitAtMention (x : Nat) : List Stmt → List Stmt × Option (Stmt × List Stmt)
  | [] => ([], none)
  | s :: rest =>
    if s.mentions x then ([], some (s, rest))
    else
      let (before, found) := splitAtMention x rest
      (s :: before, found)

/-- The statements after a binding and the result, with the initial value in place of the only use,
unless a binding that the initial value reads is set up to there. -/
def forwardInto (x : Local) (init : Expr) (b : Block) : Option Block :=
  let reads := init.locals
  match splitAtMention x.id b.stmts with
  | (before, some (s, after)) =>
    if (Stmt.assigned (before ++ [s])).any reads.contains then none
    else (s.substFirst ⟨x.id, init⟩).map fun s => { b with stmts := before ++ s :: after }
  | (_, none) =>
    if (Stmt.assigned b.stmts).any reads.contains then none
    else (b.result.substFirst ⟨x.id, init⟩).map fun result => { b with result }

/-- Forwarding for the statements `before`, last first, ahead of the finished body `b`. -/
def forwardFrom : List Stmt → Block → Block
  | [], b => b
  | s :: before, b =>
    let kept : Block := { b with stmts := s :: b.stmts }
    match s.initialised? with
    | some (x, init) =>
      let uses := Stmt.uses before.reverse ++ kept.uses
      if !init.hasEffect && uses.count x.id == 1 then
        forwardFrom before ((forwardInto x init b).getD kept)
      else forwardFrom before kept
    | none => forwardFrom before kept

/-- The body with every initial value without effects moved to its only use. -/
def Block.forward (b : Block) : Block :=
  forwardFrom b.stmts.reverse { b with stmts := [] }

/-! ### Trailing bindings -/

/-- The search for a binding in an expression, in the order of evaluation. -/
inductive Search where
  /-- Found; says whether an effect comes before it or a condition decides on it. -/
  | found (late : Bool)
  /-- Not found; says whether there was an effect. -/
  | passed (effect : Bool)

/-- Goes on with what comes next, if nothing was found. -/
def Search.andThen (s : Search) (next : Bool → Search) : Search :=
  match s with
  | .found late => .found late
  | .passed effect => next effect

namespace Expr

mutual

/-- The search for the binding `x`; `seen` says whether there was an effect before. -/
def search (x : Nat) (seen : Bool) : Expr → Search
  | .var y => if y.id = x then .found seen else .passed seen
  | .lit _ | .enumValue _ _ | .absent | .newList | .newMap => .passed seen
  | .read _ | .callDecode _ => .passed true
  | .deref e | .borrow e | .field e _ | .cast e _ => search x seen e
  | .present e | .isPresent e | .len e | .toId _ e => search x seen e
  | .fromId _ e => (search x seen e).andThen fun _ => .passed true
  | .struct _ fields => searchFields x seen fields
  | .variant _ _ payload => searchOption x seen payload
  | .binary _ a b | .pair a b => (search x seen a).andThen fun seen => search x seen b
  | .cond c t o =>
    (search x seen c).andThen fun seen =>
      if t.mentions x || o.mentions x then .found true
      else .passed (seen || t.hasEffect || o.hasEffect)
  | .call _ args _ => (searchList x seen args).andThen fun _ => .passed true

def searchOption (x : Nat) (seen : Bool) : Option Expr → Search
  | none => .passed seen
  | some e => search x seen e

def searchList (x : Nat) (seen : Bool) : List Expr → Search
  | [] => .passed seen
  | e :: rest => (search x seen e).andThen fun seen => searchList x seen rest

def searchFields (x : Nat) (seen : Bool) : List (String × Expr) → Search
  | [] => .passed seen
  | (_, e) :: rest => (search x seen e).andThen fun seen => searchFields x seen rest

end

/-- Whether an effect at the place of the binding `x` would come after another effect, or only under
a condition. -/
def effectPrecedes (e : Expr) (x : Nat) : Bool :=
  match e.search x false with
  | .found late => late
  | .passed _ => true

end Expr

/-- Inlining of the statements `before`, last first, into the result; `uses` are the uses of the
whole body. -/
def inlineFrom (uses : List Nat) : List Stmt → Expr → Block
  | [], result => ⟨[], result⟩
  | s :: before, result =>
    match s.initialised? with
    | some (x, init) =>
      if uses.count x.id == 1 && result.mentions x.id &&
          !(init.hasEffect && result.effectPrecedes x.id) then
        inlineFrom uses before ((result.substFirst ⟨x.id, init⟩).getD result)
      else ⟨(s :: before).reverse, result⟩
    | none => ⟨(s :: before).reverse, result⟩

/-- The body with its last bindings moved into the result. -/
def Block.inlineTrailing (b : Block) : Block :=
  inlineFrom b.uses b.stmts.reverse b.result

/-- The body that is printed and run. -/
def Block.elide (b : Block) : Block := b.dropUnused.forward.inlineTrailing

end WireSchema.Ir
