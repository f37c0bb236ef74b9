import WireSchema.Proofs.Ir.Uses
import WireSchema.Proofs.Machine.Probe

/-!
# Relations between probes

A relation between probes that sequencing keeps holds between the probes of two pieces of code as
soon as it holds between their steps: the uses of bindings, the effects, and what statements do to
bindings and streams. The second piece may have a binding replaced. All facts about whole runs that
follow the structure of the code are instances.
-/

namespace WireSchema

open Ir

/-! ### Steps that do not look at the machine -/

/-- A step that yields a value or fails, whatever the machine. -/
inductive Run.Settled {α : Type} : Run α → Prop where
  | value (a : α) : Settled (pure a)
  | failure (e : RunError) : Settled (throw e)

namespace Run

theorem Settled.bind {α β : Type} {act : Run α} {next : α → Run β} (first : Settled act)
    (second : ∀ a, Settled (next a)) : Settled (act >>= next) := by
  cases first with
  | value a => simpa using second a
  | failure e => exact .failure e

theorem settled_fieldOf (v : Value) (name : String) : Settled (fieldOf v name) := by
  cases v <;> first | exact .value _ | exact .failure _

theorem settled_asInteger (v : Value) : Settled (asInteger v) := by
  unfold asInteger
  split
  · exact .value _
  · exact .failure _

theorem settled_asTruth (v : Value) : Settled (asTruth v) := by
  unfold asTruth
  split
  · exact .value _
  · exact .failure _

theorem settled_lengthOf (v : Value) : Settled (lengthOf v) := by
  cases v <;> first | exact .value _ | exact .failure _

theorem settled_rounds (v : Value) : Settled (rounds v) := by
  unfold rounds
  split
  · exact .value _
  · exact .failure _

theorem settled_asItems (v : Value) : Settled (asItems v) := by
  cases v <;> first | exact .value _ | exact .failure _

theorem settled_asEntries (v : Value) : Settled (asEntries v) := by
  cases v <;> first | exact .value _ | exact .failure _

theorem settled_leftOperand (op : BinOp) (v : Value) : Settled (leftOperand op v) := by
  have integer : Settled (do let _ ← asInteger v : Run Unit) :=
    (settled_asInteger v).bind fun _ => .value ()
  cases op <;> first | exact integer | exact .value ()

theorem settled_binary (op : BinOp) (v w : Value) : Settled (binary op v w) := by
  cases op <;> first
    | exact (settled_asInteger v).bind fun _ => (settled_asInteger w).bind fun _ => .value _
    | exact .value _

theorem settled_enumeration (g : Generated) (fuel : Nat) (type : String) :
    Settled (enumeration g fuel type) := by
  induction fuel generalizing type with
  | zero => exact .failure _
  | succ fuel ih =>
    unfold enumeration
    split
    · exact .value _
    · exact ih _
    · exact .failure _

theorem settled_nameOfId (g : Generated) (type : String) (v : Value) :
    Settled (nameOfId g type v) := by
  refine (settled_asInteger v).bind fun _ => (settled_enumeration g _ type).bind fun _ => ?_
  split
  · exact .value _
  · exact .failure _

theorem settled_idOfName (g : Generated) (type : String) (v : Value) :
    Settled (idOfName g type v) := by
  unfold idOfName
  split
  · refine (settled_enumeration g _ type).bind fun _ => ?_
    split
    · exact .value _
    · exact .failure _
  · exact .failure _

/-- A pattern only sets the binding it names. -/
theorem binding_of_matchBindings {v : Value} {pattern : Pattern} {bindings : List (Local × Value)}
    (matched : matchBindings v pattern = some bindings) :
    ∀ entry ∈ bindings, pattern.binding? = some entry.1 := by
  intro entry member
  cases pattern with
  | lit l =>
    simp only [matchBindings] at matched
    split at matched <;> simp_all
  | enum type name =>
    simp only [matchBindings] at matched
    split at matched
    · split at matched <;> simp_all
    · cases matched
  | variant type name binding =>
    simp only [matchBindings] at matched
    split at matched
    · split at matched
      · cases matched
        cases binding with
        | none => simp at member
        | some x =>
          simp only [Option.toList_some, List.map_cons, List.map_nil, List.mem_singleton] at member
          rw [member, Pattern.binding?]
      · cases matched
    · cases matched

end Run

/-! ### Compatible relations -/

namespace Probe

/-- A relation between probes of one type of result. -/
abbrev Relation := ∀ α : Type, Probe α → Probe α → Prop

/-- Sequencing keeps the relation, and faults are related to themselves. -/
structure Compatible (R : Relation) : Prop where
  pure : ∀ {α : Type} (a : α), R α (pure a) (pure a)
  fault : ∀ {α : Type} (e : RunError), R α (throw ⟨e, true⟩) (throw ⟨e, true⟩)
  bind : ∀ {α β : Type} {x y : Probe α} {f g : α → Probe β}, R α x y → (∀ a, R β (f a) (g a)) →
    R β (x >>= f) (y >>= g)

theorem Compatible.part {R : Relation} (c : Compatible R) {α : Type} {act : Run α}
    (settled : Run.Settled act) : R α (part act) (part act) := by
  cases settled with
  | value a => exact c.pure a
  | failure e => exact c.fault e

/-- What has to hold of the steps of two programs, the second with `r` replaced. The nodes of the
expressions are known to satisfy `good`. -/
structure Steps (R : Relation) (p q : Program) (r : Expr.Replacement) (good : Expr → Prop) : Prop
    extends Compatible R where
  code : q.code = p.code
  order : q.order = p.order
  var : ∀ x : Local, good (.var x) → R _ (part (Run.valueOf x)) (eval q ((Expr.var x).subst r))
  read : ∀ prim : Primitive, good (.read prim) →
    R _ (effect (Run.read p.order prim)) (effect (Run.read p.order prim))
  fromId : ∀ (type : String) (e : Expr), good (.fromId type e) → ∀ v : Value,
    R _ (effect (Run.nameOfId p.code type v)) (effect (Run.nameOfId p.code type v))
  decode : ∀ codec : String, good (.callDecode codec) →
    R _ (effect (p.calls.decode codec)) (effect (q.calls.decode codec))
  call : ∀ (path : String) (args : List Expr) (fallible : Bool), good (.call path args fallible) →
    ∀ values : List Value, R _ (effect (Run.callHost p.code path values fallible))
      (effect (Run.callHost p.code path values fallible))

section Expressions

variable {R : Relation} {p q : Program} {r : Expr.Replacement} {good : Expr → Prop}

mutual

/-- The probes of an expression are related if the steps are. -/
theorem Steps.eval (c : Steps R p q r good) : ∀ e : Expr, (∀ n ∈ e.nodes, good n) →
    R _ (eval p e) (eval q (e.subst r))
  | .lit _ | .enumValue _ _ | .absent | .newList | .newMap => by
    intro _
    simp only [Probe.eval, Expr.subst]
    exact c.pure _
  | .var x => by
    intro fits
    rw [Probe.eval]
    exact c.var x (fits _ (by simp [Expr.nodes]))
  | .deref e | .borrow e | .present e => by
    intro fits
    simp only [Probe.eval, Expr.subst]
    exact c.eval e fun n member => fits n (by simp [Expr.nodes, member])
  | .read prim => by
    intro fits
    simp only [Probe.eval, Expr.subst, c.order]
    exact c.read prim (fits _ (by simp [Expr.nodes]))
  | .field e name => by
    intro fits
    simp only [Probe.eval, Expr.subst]
    exact c.bind (c.eval e fun n member => fits n (by simp [Expr.nodes, member]))
      fun v => c.part (Run.settled_fieldOf v name)
  | .struct _ fields => by
    intro fits
    simp only [Probe.eval, Expr.subst]
    exact c.bind (c.evalFields fields fun n member => fits n (by simp [Expr.nodes, member]))
      fun _ => c.pure _
  | .variant _ _ payload => by
    intro fits
    simp only [Probe.eval, Expr.subst]
    exact c.bind (c.evalOption payload fun n member => fits n (by simp [Expr.nodes, member]))
      fun _ => c.pure _
  | .fromId type e => by
    intro fits
    simp only [Probe.eval, Expr.subst, c.code]
    exact c.bind (c.eval e fun n member => fits n (by simp [Expr.nodes, member]))
      fun v => c.fromId type e (fits _ (by simp [Expr.nodes])) v
  | .toId type e => by
    intro fits
    simp only [Probe.eval, Expr.subst, c.code]
    exact c.bind (c.eval e fun n member => fits n (by simp [Expr.nodes, member]))
      fun v => c.part (Run.settled_idOfName p.code type v)
  | .binary op a b => by
    intro fits
    simp only [Probe.eval, Expr.subst]
    refine c.bind (c.eval a fun n member => fits n (by simp [Expr.nodes, member])) fun v =>
      c.bind (c.part (Run.settled_leftOperand op v)) fun _ => ?_
    exact c.bind (c.eval b fun n member => fits n (by simp [Expr.nodes, member]))
      fun w => c.part (Run.settled_binary op v w)
  | .cast e kind => by
    intro fits
    simp only [Probe.eval, Expr.subst]
    exact c.bind (c.eval e fun n member => fits n (by simp [Expr.nodes, member]))
      fun v => c.bind (c.part (Run.settled_asInteger v)) fun _ => c.pure _
  | .cond test yes no => by
    intro fits
    simp only [Probe.eval, Expr.subst]
    refine c.bind (c.eval test fun n member => fits n (by simp [Expr.nodes, member])) fun v =>
      c.bind (c.part (Run.settled_asTruth v)) fun truth => ?_
    cases truth with
    | true => exact c.eval yes fun n member => fits n (by simp [Expr.nodes, member])
    | false => exact c.eval no fun n member => fits n (by simp [Expr.nodes, member])
  | .isPresent e => by
    intro fits
    simp only [Probe.eval, Expr.subst]
    exact c.bind (c.eval e fun n member => fits n (by simp [Expr.nodes, member]))
      fun _ => c.pure _
  | .len e => by
    intro fits
    simp only [Probe.eval, Expr.subst]
    exact c.bind (c.eval e fun n member => fits n (by simp [Expr.nodes, member]))
      fun v => c.bind (c.part (Run.settled_lengthOf v)) fun _ => c.pure _
  | .pair a b => by
    intro fits
    simp only [Probe.eval, Expr.subst]
    exact c.bind (c.eval a fun n member => fits n (by simp [Expr.nodes, member])) fun _ =>
      c.bind (c.eval b fun n member => fits n (by simp [Expr.nodes, member])) fun _ => c.pure _
  | .callDecode codec => by
    intro fits
    simp only [Probe.eval, Expr.subst]
    exact c.decode codec (fits _ (by simp [Expr.nodes]))
  | .call path args fallible => by
    intro fits
    simp only [Probe.eval, Expr.subst, c.code]
    exact c.bind (c.evalList args fun n member => fits n (by simp [Expr.nodes, member]))
      fun values => c.call path args fallible (fits _ (by simp [Expr.nodes])) values

theorem Steps.evalOption (c : Steps R p q r good) :
    ∀ e : Option Expr, (∀ n ∈ Expr.nodesOption e, good n) →
      R _ (evalOption p e) (evalOption q (Expr.substOption r e))
  | none => fun _ => c.pure _
  | some e => by
    intro fits
    simp only [Probe.evalOption, Expr.substOption]
    exact c.bind (c.eval e fits) fun _ => c.pure _

theorem Steps.evalList (c : Steps R p q r good) :
    ∀ es : List Expr, (∀ n ∈ Expr.nodesList es, good n) →
      R _ (evalList p es) (evalList q (Expr.substList r es))
  | [] => fun _ => c.pure _
  | e :: rest => by
    intro fits
    simp only [Probe.evalList, Expr.substList]
    exact c.bind (c.eval e fun n member => fits n (by simp [Expr.nodesList, member])) fun _ =>
      c.bind (c.evalList rest fun n member => fits n (by simp [Expr.nodesList, member]))
        fun _ => c.pure _

theorem Steps.evalFields (c : Steps R p q r good) :
    ∀ fields : List (String × Expr), (∀ n ∈ Expr.nodesFields fields, good n) →
      R _ (evalFields p fields) (evalFields q (Expr.substFields r fields))
  | [] => fun _ => c.pure _
  | (_, e) :: rest => by
    intro fits
    simp only [Probe.evalFields, Expr.substFields]
    exact c.bind (c.eval e fun n member => fits n (by simp [Expr.nodesFields, member])) fun _ =>
      c.bind (c.evalFields rest fun n member => fits n (by simp [Expr.nodesFields, member]))
        fun _ => c.pure _

end

end Expressions

/-! ### Statements -/

/-- What a statement is known to satisfy by itself: the nodes of its expressions, the bindings that
it introduces or sets, and the codec that it writes with. -/
structure Fits (good : Expr → Prop) (writable : Nat → Prop) (writer : String → Prop) (s : Stmt) :
    Prop where
  nodes : ∀ e ∈ s.exprs, ∀ n ∈ e.nodes, good n
  binder : ∀ x ∈ s.binders, writable x
  target : ∀ x ∈ s.target?, writable x
  codec : ∀ (c : String) (e : Expr), s = .writeCodec c e → writer c

/-- What has to hold of the steps of two programs besides those of expressions. -/
structure StmtSteps (R : Relation) (p q : Program) (r : Expr.Replacement) (good : Expr → Prop)
    (writable : Nat → Prop) (writer : String → Prop) : Prop extends Steps R p q r good where
  failure : ∀ {α : Type} (e : RunError), R α (throw ⟨e, false⟩) (throw ⟨e, false⟩)
  set : ∀ x : Local, writable x.id → ∀ v : Value,
    R _ (effect (Run.bind x v)) (effect (Run.bind x v))
  push : ∀ x : Local, writable x.id → ∀ v : Value,
    R _ (effect (Run.push x v)) (effect (Run.push x v))
  write : ∀ (prim : Primitive) (v : Value),
    R _ (effect (Run.write p.order prim v)) (effect (Run.write p.order prim v))
  encode : ∀ codec : String, writer codec → ∀ v : Value,
    R _ (effect (p.calls.encode codec v)) (effect (q.calls.encode codec v))

section Statements

variable {R : Relation} {p q : Program} {r : Expr.Replacement} {good : Expr → Prop}
  {writable : Nat → Prop} {writer : String → Prop}

theorem StmtSteps.settled (c : StmtSteps R p q r good writable writer) {α : Type} {act : Run α}
    (settled : Run.Settled act) : R α (effect act) (effect act) := by
  cases settled with
  | value a => exact c.pure a
  | failure e => exact c.failure e

theorem Compatible.times (c : Compatible R) {x y : Probe Unit} (related : R _ x y) (n : Nat) :
    R _ (times x n) (times y n) := by
  induction n with
  | zero => exact c.pure ()
  | succ n ih => exact c.bind related fun _ => ih

theorem Compatible.forEach (c : Compatible R) {α : Type} {f g : α → Probe Unit} (items : List α)
    (related : ∀ a ∈ items, R _ (f a) (g a)) : R _ (forEach f items) (forEach g items) := by
  induction items with
  | nil => exact c.pure ()
  | cons item rest ih =>
    refine c.bind (related item (by simp)) fun _ => ih fun a member => ?_
    exact related a (by simp [member])

theorem StmtSteps.raise (c : StmtSteps R p q r good writable writer) (f : Failure)
    (fits : ∀ e ∈ f.exprs, ∀ n ∈ e.nodes, good n) : R _ (raise p f) (raise q (f.subst r)) := by
  have thrown (e : RunError) : R Unit (effect (throw e)) (effect (throw e)) := c.failure e
  cases f with
  | unknownTag type tag =>
    exact c.bind (c.bind (c.eval tag (fits tag (by simp [Failure.exprs]))) fun _ => c.pure _) thrown
  | literalMismatch l found =>
    exact c.bind (c.bind (c.eval found (fits found (by simp [Failure.exprs]))) fun _ => c.pure _)
      thrown
  | unmatchedVariant type => exact c.bind (c.pure _) thrown

theorem fits_tail {s : Stmt} {rest : List Stmt} {P : Stmt → Prop}
    (fits : ∀ t ∈ Stmt.flattenBlock (s :: rest), P t) : ∀ t ∈ Stmt.flattenBlock rest, P t :=
  fun t member => fits t (by simp [Stmt.flattenBlock_cons, member])

theorem fits_self {s : Stmt} {P : Stmt → Prop} (fits : ∀ t ∈ s.flatten, P t) : P s :=
  fits s (by simp [Stmt.flatten_eq])

mutual

/-- The probes of a statement are related if the steps are. -/
theorem StmtSteps.exec (c : StmtSteps R p q r good writable writer) : ∀ s : Stmt,
    (∀ t ∈ s.flatten, Fits good writable writer t) → R _ (exec p s) (exec q (s.subst r))
  | .bind x _ none => by
    intro fits
    simp only [Probe.exec, Stmt.subst]
    exact c.set x ((fits_self fits).binder x.id (by simp [Stmt.binders])) _
  | .bind x _ (some e) => by
    intro fits
    have own := fits_self fits
    simp only [Probe.exec, Stmt.subst]
    exact c.bind (c.eval e (own.nodes e (by simp [Stmt.exprs])))
      fun v => c.set x (own.binder x.id (by simp [Stmt.binders])) v
  | .assign x e => by
    intro fits
    have own := fits_self fits
    simp only [Probe.exec, Stmt.subst]
    exact c.bind (c.eval e (own.nodes e (by simp [Stmt.exprs])))
      fun v => c.set x (own.target x.id (by simp [Stmt.target?])) v
  | .eval e => by
    intro fits
    simp only [Probe.exec, Stmt.subst]
    exact c.bind (c.eval e ((fits_self fits).nodes e (by simp [Stmt.exprs]))) fun _ => c.pure _
  | .write prim e => by
    intro fits
    simp only [Probe.exec, Stmt.subst, c.order]
    exact c.bind (c.eval e ((fits_self fits).nodes e (by simp [Stmt.exprs])))
      fun v => c.write prim v
  | .writeCodec codec e => by
    intro fits
    have own := fits_self fits
    simp only [Probe.exec, Stmt.subst]
    exact c.bind (c.eval e (own.nodes e (by simp [Stmt.exprs])))
      fun v => c.encode codec (own.codec codec e rfl) v
  | .branch e yes no => by
    intro fits
    simp only [Probe.exec, Stmt.subst]
    refine c.bind (c.eval e ((fits_self fits).nodes e (by simp [Stmt.exprs]))) fun v =>
      c.bind (c.settled (Run.settled_asTruth v)) fun truth => ?_
    cases truth with
    | true => exact c.execBlock yes fun t member => fits t (by simp [Stmt.flatten, member])
    | false => exact c.execBlock no fun t member => fits t (by simp [Stmt.flatten, member])
  | .ifPresent x e body => by
    intro fits
    have own := fits_self fits
    simp only [Probe.exec, Stmt.subst]
    refine c.bind (c.eval e (own.nodes e (by simp [Stmt.exprs]))) fun v => ?_
    split
    · exact c.pure _
    · exact c.bind (c.set x (own.binder x.id (by simp [Stmt.binders])) v) fun _ =>
        c.execBlock body fun t member => fits t (by simp [Stmt.flatten, member])
  | .times e body => by
    intro fits
    simp only [Probe.exec, Stmt.subst]
    refine c.bind (c.eval e ((fits_self fits).nodes e (by simp [Stmt.exprs]))) fun v =>
      c.bind (c.settled (Run.settled_rounds v)) fun n => ?_
    exact c.times (c.execBlock body fun t member => fits t (by simp [Stmt.flatten, member])) n
  | .forEach x e body => by
    intro fits
    have own := fits_self fits
    simp only [Probe.exec, Stmt.subst]
    refine c.bind (c.eval e (own.nodes e (by simp [Stmt.exprs]))) fun v =>
      c.bind (c.settled (Run.settled_asItems v)) fun items => c.forEach items fun item _ => ?_
    exact c.bind (c.set x (own.binder x.id (by simp [Stmt.binders])) item) fun _ =>
      c.execBlock body fun t member => fits t (by simp [Stmt.flatten, member])
  | .forEachPair key value e body => by
    intro fits
    have own := fits_self fits
    simp only [Probe.exec, Stmt.subst]
    refine c.bind (c.eval e (own.nodes e (by simp [Stmt.exprs]))) fun v =>
      c.bind (c.settled (Run.settled_asEntries v)) fun entries => c.forEach entries fun entry _ => ?_
    exact c.bind (c.set key (own.binder key.id (by simp [Stmt.binders])) entry.1) fun _ =>
      c.bind (c.set value (own.binder value.id (by simp [Stmt.binders])) entry.2) fun _ =>
        c.execBlock body fun t member => fits t (by simp [Stmt.flatten, member])
  | .push x e => by
    intro fits
    have own := fits_self fits
    simp only [Probe.exec, Stmt.subst]
    exact c.bind (c.eval e (own.nodes e (by simp [Stmt.exprs])))
      fun v => c.push x (own.target x.id (by simp [Stmt.target?])) v
  | .select e arms fallback => by
    intro fits
    have own := fits_self fits
    simp only [Probe.exec, Stmt.subst]
    refine c.bind (c.eval e (own.nodes e (by simp [Stmt.exprs]))) fun v => ?_
    refine c.execArms v fallback arms ?_ ?_ ?_
    · intro f found e member
      refine own.nodes e ?_
      simp only [Stmt.exprs, List.mem_cons, List.mem_flatMap]
      exact .inr ⟨f, by simpa using found, member⟩
    · intro arm member x bound
      refine own.binder x.id ?_
      simp only [Stmt.binders, List.mem_flatMap]
      exact ⟨arm, member, by simp [Option.mem_def.mp bound]⟩
    · exact fun t member => fits t (by simp [Stmt.flatten, member])
  | .fail f => by
    intro fits
    simp only [Probe.exec, Stmt.subst]
    exact c.raise f fun e member => (fits_self fits).nodes e (by simpa [Stmt.exprs] using member)

theorem StmtSteps.execBlock (c : StmtSteps R p q r good writable writer) : ∀ stmts : List Stmt,
    (∀ t ∈ Stmt.flattenBlock stmts, Fits good writable writer t) →
    R _ (execBlock p stmts) (execBlock q (Stmt.substBlock r stmts))
  | [] => fun _ => c.pure ()
  | s :: rest => by
    intro fits
    simp only [Probe.execBlock, Stmt.substBlock]
    exact c.bind (c.exec s fun t member => fits t (by simp [Stmt.flattenBlock, member])) fun _ =>
      c.execBlock rest (fits_tail fits)

theorem StmtSteps.execArms (c : StmtSteps R p q r good writable writer) (v : Value)
    (fallback : Option Failure) : ∀ arms : List (Pattern × List Stmt),
    (∀ f ∈ fallback, ∀ e ∈ f.exprs, ∀ n ∈ e.nodes, good n) →
    (∀ arm ∈ arms, ∀ x ∈ arm.1.binding?, writable x.id) →
    (∀ t ∈ Stmt.flattenArms arms, Fits good writable writer t) →
    R _ (execArms p v fallback arms)
      (execArms q v (fallback.map (Failure.subst r)) (Stmt.substArms r arms))
  | [] => by
    intro failures _ _
    cases fallback with
    | none => exact c.failure _
    | some f => exact c.raise f (failures f rfl)
  | (pattern, body) :: rest => by
    intro failures binders fits
    simp only [Probe.execArms, Stmt.substArms]
    cases matched : Run.matchBindings v pattern with
    | none =>
      exact c.execArms v fallback rest failures
        (fun arm member => binders arm (by simp [member]))
        (fun t member => fits t (by simp [Stmt.flattenArms, member]))
    | some bindings =>
      refine c.bind (c.forEach bindings fun entry member => ?_) fun _ => ?_
      · exact c.set entry.1 (binders (pattern, body) (by simp) entry.1
          (Run.binding_of_matchBindings matched entry member)) entry.2
      · exact c.execBlock body fun t member => fits t (by simp [Stmt.flattenArms, member])

end

/-- The probes of a body are related if the steps are. -/
theorem StmtSteps.evalBlock (c : StmtSteps R p q r good writable writer) (b : Block)
    (fits : ∀ t ∈ Stmt.flattenBlock b.stmts, Fits good writable writer t)
    (result : ∀ n ∈ b.result.nodes, good n) :
    R _ (evalBlock p b) (evalBlock q ⟨Stmt.substBlock r b.stmts, b.result.subst r⟩) :=
  c.bind (c.execBlock b.stmts fits) fun _ => c.eval b.result result

end Statements

end Probe

end WireSchema
