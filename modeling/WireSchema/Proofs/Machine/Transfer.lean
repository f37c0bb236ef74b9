import WireSchema.Proofs.Decoding.Fragments
import WireSchema.Proofs.Elision.Hygiene
import WireSchema.Proofs.Elision.Meaning

/-!
# What code reads and writes

Code is judged by what it does to the stream: a body reads a value from the bytes at hand, whatever
follows them; statements write bytes for the value that an expression denotes. Code that introduces
and sets only bindings of its own leaves all others alone, so pieces of code can be put one after
another.
-/

namespace WireSchema

open Ir

/-! ### Bindings -/

/-- Bindings below `low` hold the same. -/
def Env.Agrees (low : Nat) (env env' : Env) : Prop := ∀ x < low, env'.get? x = env.get? x

namespace Env.Agrees

variable {low low' : Nat} {env env' env'' : Env}

theorem refl (low : Nat) (env : Env) : env.Agrees low env := fun _ _ => rfl

theorem trans (first : env.Agrees low env') (second : env'.Agrees low env'') :
    env.Agrees low env'' := fun x below => (second x below).trans (first x below)

theorem mono (agrees : env.Agrees low env') (le : low' ≤ low) : env.Agrees low' env' :=
  fun x below => agrees x (Nat.lt_of_lt_of_le below le)

end Env.Agrees

namespace Ir

/-- The statements introduce and set bindings from `low` to `high`, and are fit for elision. -/
structure Stmt.Owns (low high : Nat) (stmts : List Stmt) : Prop where
  le : low ≤ high
  bound : ∀ x ∈ Stmt.bound stmts, low ≤ x ∧ x < high
  assigned : ∀ x ∈ Stmt.assigned stmts, low ≤ x ∧ x < high
  tidy : Stmt.Tidy stmts

theorem Stmt.bound_eq_introduced (stmts : List Stmt) :
    Stmt.bound stmts = (Stmt.introduced stmts).map (·.var.id) := by
  rw [Stmt.bound, Stmt.introduced, List.map_flatMap]
  refine congrArg (List.flatMap · _) (funext fun s => ?_)
  cases s with
  | select e arms fallback =>
    simp only [Stmt.binders, Stmt.introduces, Stmt.opened, Stmt.inner, List.nil_append,
      List.flatMap_map, List.map_flatMap]
    refine congrArg (List.flatMap · arms) (funext fun arm => ?_)
    cases arm.1.binding? <;> rfl
  | _ => rfl

/-- Scoped statements with bindings of their own are fit for elision. -/
theorem Stmt.Scoped.tidy {visible : List Binder} {stmts : List Stmt}
    (holds : Stmt.Scoped Binder.Among visible stmts) (apart : Stmt.Apart visible stmts) :
    Stmt.Tidy stmts := by
  induction holds with
  | nil => trivial
  | @cons visible s rest exprs target inner later ihInner ihLater =>
    have whole : Stmt.Scoped Binder.Among visible (s :: rest) := .cons exprs target inner later
    have distinct := apart.distinct
    rw [← Stmt.bound_eq_introduced, Stmt.bound_cons, List.nodup_append] at distinct
    obtain ⟨_, others, differ⟩ := distinct
    have mine (c : Binder) (opened : c ∈ s.opened) : c.var.id ∈ s.binds := by
      cases s with
      | bind x mutable init =>
        cases List.mem_singleton.mp opened
        simp [Stmt.binds, Stmt.binders]
      | _ => cases opened
    have tail (c : Binder) (member : c ∈ Stmt.introduced rest) :
        c ∈ Stmt.introduced (s :: rest) := by
      simp [Stmt.introduced_cons, member]
    refine ⟨fun y here after => differ y here y after rfl, fun x init found => ⟨?_, ?_⟩, ?_⟩
    · -- The binding keeps its value: nothing in the whole sets it.
      cases Stmt.eq_bind_of_initialised found
      have unset := whole.unset apart (x := x) (by simp [Stmt.introduced_cons, Stmt.introduces,
        Stmt.opened, Binder.fixed])
      rw [Stmt.assigned_cons, List.mem_append, not_or] at unset
      exact unset.2
    · intro y read after
      have own : init ∈ s.exprs := by
        cases Stmt.eq_bind_of_initialised found
        simp [Stmt.exprs]
      rw [Expr.locals_eq_vars] at read
      obtain ⟨z, used, rfl⟩ := List.mem_map.mp read
      obtain ⟨settable, among⟩ := exprs init own z used
      rw [Stmt.bound_eq_introduced] at after
      obtain ⟨c, member, same⟩ := List.mem_map.mp after
      exact apart.fresh _ among c (tail c member) same.symm
    · refine ihLater ⟨by rwa [← Stmt.bound_eq_introduced], fun b member c new same => ?_⟩
      rcases List.mem_append.mp member with opened | old
      · refine differ _ (mine b opened) _ ?_ same
        rw [Stmt.bound_eq_introduced]
        exact List.mem_map_of_mem new
      · exact apart.fresh b old c (tail c new) same

/-- Elided code owns no more. -/
theorem Stmt.Owns.elide {low high : Nat} {b : Block} (owns : Stmt.Owns low high b.stmts) :
    Stmt.Owns low high b.elide.stmts := by
  obtain ⟨refines, tidy⟩ := Probe.refines_elide Decoding.isolated_idle b owns.tidy
  exact ⟨owns.le, fun x member => owns.bound x (refines.bound x member),
    fun x member => owns.assigned x (refines.assigned x member), tidy⟩

end Ir

/-! ### Runs -/

/-- A probe succeeds where the run does. -/
theorem Probe.ok_of_unmarked {α : Type} {act : Probe α} {m : Machine} {out : α × Machine}
    (ran : unmarked act m = .ok out) : act m = .ok out := by
  rw [unmarked] at ran
  cases probed : act m with
  | ok out' =>
    rw [probed] at ran
    cases ran
    rfl
  | error stop =>
    rw [probed] at ran
    cases ran

namespace Run

variable {p : Program} {m m' : Machine}

theorem execBlock_cons (s : Stmt) (rest : List Stmt) :
    execBlock p (s :: rest) m = (exec p s m).bind fun out => execBlock p rest out.2 := rfl

theorem execBlock_append (front back : List Stmt) :
    execBlock p (front ++ back) m = (execBlock p front m).bind fun out => execBlock p back out.2 := by
  induction front generalizing m with
  | nil => rfl
  | cons s rest ih =>
    rw [List.cons_append, execBlock_cons, execBlock_cons]
    cases exec p s m with
    | error e => rfl
    | ok out => exact ih

theorem execBlock_single (s : Stmt) : execBlock p [s] m = exec p s m := by
  rw [execBlock_cons]
  cases exec p s m <;> rfl

theorem evalBlock_apply (b : Block) :
    evalBlock p b m = (execBlock p b.stmts m).bind fun out => eval p b.result out.2 := rfl

theorem exec_bind (x : Local) (mutable : Bool) (e : Expr) : exec p (.bind x mutable (some e)) m =
    (eval p e m).bind fun out => .ok ((), { out.2 with env := out.2.env.set x.id out.1 }) := rfl

/-- A body and the binding of its result. -/
theorem execBlock_declare (stmts : List Stmt) (x : Local) (e : Expr) :
    execBlock p (stmts ++ [.bind x false (some e)]) m = (evalBlock p ⟨stmts, e⟩ m).bind fun out =>
      .ok ((), { out.2 with env := out.2.env.set x.id out.1 }) := by
  rw [execBlock_append, evalBlock_apply]
  cases execBlock p stmts m with
  | error e => rfl
  | ok out => exact (execBlock_single _).trans (exec_bind x false e)

theorem eval_var {x : Local} {v : Value} (known : m.env.get? x.id = some v) :
    eval p (.var x) m = .ok (v, m) := by
  simp only [eval, valueOf, bind_apply, get, getThe, MonadStateOf.get, StateT.get, pure,
    Except.pure, Except.bind, known]
  rfl

/-- Code leaves the bindings before its own alone. -/
theorem agrees_execBlock (isolated : p.Isolated) {low high : Nat} {stmts : List Stmt}
    (owns : Stmt.Owns low high stmts) (ran : execBlock p stmts m = .ok ((), m')) :
    m.env.Agrees low m'.env := by
  have ran' : Probe.execBlock p stmts m = .ok ((), m') :=
    Probe.ok_of_unmarked (by rwa [Probe.unmarked_execBlock])
  intro x below
  have outside (y : Nat) (own : low ≤ y ∧ y < high) : x ≠ y := by omega
  rw [Env.get?, Env.get?, Probe.cell?_execBlock isolated
    (fun member => outside x (owns.bound x member) rfl)
    (fun member => outside x (owns.assigned x member) rfl) ran']

/-- Evaluation leaves all bindings alone. -/
theorem agrees_eval (isolated : p.Isolated) {e : Expr} {v : Value}
    (ran : eval p e m = .ok (v, m')) : m'.env = m.env := by
  rw [← Probe.unmarked_eval] at ran
  exact Probe.env_of_eval isolated (Probe.ok_of_unmarked ran)

theorem agrees_evalBlock (isolated : p.Isolated) {low high : Nat} {b : Block} {v : Value}
    (owns : Stmt.Owns low high b.stmts) (ran : evalBlock p b m = .ok (v, m')) :
    m.env.Agrees low m'.env := by
  rw [evalBlock_apply] at ran
  cases first : execBlock p b.stmts m with
  | error e =>
    rw [first] at ran
    cases ran
  | ok out =>
    rw [first] at ran
    rw [agrees_eval isolated ran]
    exact agrees_execBlock isolated owns first

end Run

namespace Ir

/-- As long as the bindings below `low` hold what they hold in `env`, the expression yields `v` and
does nothing else. -/
def Expr.Denotes (p : Program) (low : Nat) (env : Env) (e : Expr) (v : Value) : Prop :=
  ∀ m : Machine, env.Agrees low m.env → Run.eval p e m = .ok (v, m)

/-- Where `src` denotes `v`, the statements write the bytes. -/
def Stmt.Writes (p : Program) (low : Nat) (src : Expr) (v : Value) (stmts : List Stmt)
    (bytes : List UInt8) : Prop :=
  ∀ m latest, src.Denotes p low m.env v → m.stream = .output latest →
    ∃ m', Run.execBlock p stmts m = .ok ((), m') ∧ m'.stream = .output (bytes.reverse ++ latest)

/-- The body reads the value from the bytes, whatever follows them. -/
def Block.Reads (p : Program) (b : Block) (bytes : List UInt8) (v : Value) : Prop :=
  ∀ m rest position, m.stream = .input ⟨bytes ++ rest, position⟩ →
    ∃ m', Run.evalBlock p b m = .ok (v, m') ∧
      m'.stream = .input ⟨rest, position + bytes.length⟩

/-- Where `pre` holds of the bindings, the body reads the value from the bytes. -/
def Block.ReadsWhere (p : Program) (pre : Env → Prop) (b : Block) (bytes : List UInt8)
    (v : Value) : Prop :=
  ∀ m rest position, pre m.env → m.stream = .input ⟨bytes ++ rest, position⟩ →
    ∃ m', Run.evalBlock p b m = .ok (v, m') ∧
      m'.stream = .input ⟨rest, position + bytes.length⟩

/-- Where `pre` holds of the bindings, the statements take the bytes, and `post` holds then. -/
def Stmt.Reads (p : Program) (pre : Env → Prop) (stmts : List Stmt) (bytes : List UInt8)
    (post : Env → Prop) : Prop :=
  ∀ m rest position, pre m.env → m.stream = .input ⟨bytes ++ rest, position⟩ →
    ∃ m', Run.execBlock p stmts m = .ok ((), m') ∧
      m'.stream = .input ⟨rest, position + bytes.length⟩ ∧ post m'.env

section Reads

variable {p : Program} {pre mid post : Env → Prop} {bytes bytes' : List UInt8} {v : Value}

theorem Stmt.reads_nil : Stmt.Reads p pre [] [] pre :=
  fun m _ _ holds stream => ⟨m, rfl, stream, holds⟩

theorem Stmt.Reads.append {front back : List Stmt} (first : Stmt.Reads p pre front bytes mid)
    (second : Stmt.Reads p mid back bytes' post) :
    Stmt.Reads p pre (front ++ back) (bytes ++ bytes') post := by
  intro m rest position holds stream
  rw [List.append_assoc] at stream
  obtain ⟨m₁, ran₁, left₁, holds₁⟩ := first m _ position holds stream
  obtain ⟨m₂, ran₂, left₂, holds₂⟩ := second m₁ rest _ holds₁ left₁
  refine ⟨m₂, ?_, ?_, holds₂⟩
  · rw [Run.execBlock_append, ran₁]
    exact ran₂
  · rw [left₂, List.length_append, Nat.add_assoc]

theorem Stmt.Reads.weaken {pre' post' : Env → Prop} {stmts : List Stmt}
    (reads : Stmt.Reads p pre stmts bytes post) (stronger : ∀ env, pre' env → pre env)
    (weaker : ∀ env, post env → post' env) : Stmt.Reads p pre' stmts bytes post' := by
  intro m rest position holds stream
  obtain ⟨m', ran, left, holds'⟩ := reads m rest position (stronger _ holds) stream
  exact ⟨m', ran, left, weaker _ holds'⟩

/-- What holds of earlier bindings goes on to hold. -/
theorem Stmt.Reads.frame (isolated : p.Isolated) {low high : Nat} {stmts : List Stmt}
    (owns : Stmt.Owns low high stmts) {kept : Env → Prop}
    (earlier : ∀ env env', env.Agrees low env' → kept env → kept env')
    (reads : Stmt.Reads p pre stmts bytes post) :
    Stmt.Reads p (fun env => pre env ∧ kept env) stmts bytes fun env => post env ∧ kept env := by
  rintro m rest position ⟨holds, old⟩ stream
  obtain ⟨m', ran, left, holds'⟩ := reads m rest position holds stream
  exact ⟨m', ran, left, holds', earlier _ _ (Run.agrees_execBlock isolated owns ran) old⟩

theorem Block.Reads.everywhere {b : Block} (reads : b.Reads p bytes v) :
    b.ReadsWhere p pre bytes v := fun m rest position _ => reads m rest position

/-- A body and the binding of its result. -/
theorem Block.ReadsWhere.declare {b : Block} (reads : b.ReadsWhere p pre bytes v) (x : Local) :
    Stmt.Reads p pre (b.stmts ++ [.bind x false (some b.result)]) bytes
      fun env => env.get? x.id = some v := by
  intro m rest position holds stream
  obtain ⟨m', ran, left⟩ := reads m rest position holds stream
  refine ⟨{ m' with env := m'.env.set x.id v }, ?_, left, ?_⟩
  · rw [Run.execBlock_declare, ran]
    rfl
  · exact (Env.get?_set _ _ _ _).trans (if_pos rfl)

/-- Statements and an expression that needs no more bytes. -/
theorem Stmt.Reads.block {stmts : List Stmt} (reads : Stmt.Reads p pre stmts bytes post) {e : Expr}
    (result : ∀ m, post m.env → Run.eval p e m = .ok (v, m)) :
    Block.ReadsWhere p pre ⟨stmts, e⟩ bytes v := by
  intro m rest position holds stream
  obtain ⟨m', ran, left, holds'⟩ := reads m rest position holds stream
  refine ⟨m', ?_, left⟩
  rw [Run.evalBlock_apply, ran]
  exact result m' holds'

end Reads

/-- Elision keeps what a body reads. -/
theorem Block.Reads.elide {p : Program} (isolated : p.Isolated) {b : Block} {bytes : List UInt8}
    {v : Value} (reads : b.Reads p bytes v) (tidy : Stmt.Tidy b.stmts) : b.elide.Reads p bytes v := by
  intro m rest position stream
  obtain ⟨m', ran, left⟩ := reads m rest position stream
  have refines := (Probe.refines_elide isolated b tidy).1
  obtain ⟨n, ran', step⟩ := refines.value m v m' (Probe.ok_of_evalBlock.mp ran)
  exact ⟨n, Probe.ok_of_evalBlock.mpr ran', step.stream.trans left⟩

namespace Expr

variable {p : Program} {low low' : Nat} {env env' : Env} {e : Expr} {v : Value}

theorem Denotes.mono (denotes : e.Denotes p low env v) (agrees : env.Agrees low env')
    (le : low ≤ low') : e.Denotes p low' env' v :=
  fun m same => denotes m (agrees.trans (same.mono le))

theorem denotes_var {x : Local} (known : env.get? x.id = some v) (below : x.id < low) :
    (Expr.var x).Denotes p low env v :=
  fun _ same => Run.eval_var ((same _ below).trans known)

theorem denotes_place {x : Local} (known : env.get? x.id = some v) (below : x.id < low) :
    (Expr.place x).Denotes p low env v := fun m same => denotes_var (p := p) known below m same

theorem denotes_lit (l : Literal) : (Expr.lit l).Denotes p low env (.ofLiteral l) := fun _ _ => rfl

theorem Denotes.field {fields : List (String × Value)} (denotes : e.Denotes p low env (.struct fields))
    (name : String) :
    (Expr.field e name).Denotes p low env ((Value.getField? name fields).getD .null) := by
  intro m same
  rw [Run.eval, Run.bind_apply, denotes m same]
  rfl

theorem Denotes.isPresent (denotes : e.Denotes p low env v) :
    (Expr.isPresent e).Denotes p low env (.bool !v.isNull) := by
  intro m same
  rw [Run.eval, Run.bind_apply, denotes m same]
  rfl

theorem Denotes.binary {op : BinOp} {e' : Expr} {kind count : IntKind} {a : BitVec kind.bits}
    {b : BitVec count.bits} {c : Value} (left : e.Denotes p low env (.int kind a))
    (right : e'.Denotes p low env (.int count b))
    (result : Run.binary op (.int kind a) (.int count b) = pure c) :
    (Expr.binary op e e').Denotes p low env c := by
  intro m same
  have usable : Run.leftOperand op (.int kind a) m = .ok ((), m) := by cases op <;> rfl
  rw [Run.eval, Run.bind_apply, left m same]
  change (Run.leftOperand op (.int kind a) m).bind _ = _
  rw [usable]
  change (Run.eval p e' m).bind _ = _
  rw [right m same]
  change Run.binary op (.int kind a) (.int count b) m = _
  rw [result]
  rfl

theorem Denotes.cond {yes no : Expr} {test : Bool} {w : Value}
    (denotes : e.Denotes p low env (.bool test)) (left : yes.Denotes p low env v)
    (right : no.Denotes p low env w) :
    (Expr.cond e yes no).Denotes p low env (if test then v else w) := by
  intro m same
  rw [Run.eval, Run.bind_apply, denotes m same]
  cases test with
  | true => exact left m same
  | false => exact right m same

end Expr

end Ir

end WireSchema
