import WireSchema.Proofs.Machine.Isolation

/-!
# Frames

An expression without effects depends on the bindings it refers to and on nothing else. Code that
does not refer to a binding goes the same whatever the binding holds, and code in which an
expression without effects stands for a binding goes the same as long as the expression still has
the value of the binding.
-/

namespace WireSchema

open Ir

theorem Ir.Expr.mem_locals {e n : Expr} {x : Nat} (node : n ∈ e.nodes)
    (here : n.localId? = some x) : x ∈ e.locals :=
  List.mem_filterMap.mpr ⟨n, node, here⟩

namespace Probe

/-! ### Expressions without effects -/

/-- The two probes give the same value or the same fault and change nothing, on any two machines
whose bindings agree on `names`. -/
def PureOn (names : List Nat) : Relation := fun α x y =>
  ∀ m n : Machine, (∀ y ∈ names, n.env.get? y = m.env.get? y) →
    (∃ a : α, x m = .ok (a, m) ∧ y n = .ok (a, n)) ∨
      ∃ e, x m = .error ⟨e, true⟩ ∧ y n = .error ⟨e, true⟩

theorem compatible_pureOn (names : List Nat) : Compatible (PureOn names) where
  pure a := fun _ _ _ => .inl ⟨a, rfl, rfl⟩
  fault e := fun _ _ _ => .inr ⟨e, rfl, rfl⟩
  bind := by
    intro α β x y f g first second m n agree
    rw [bind_apply, bind_apply]
    rcases first m n agree with ⟨a, left, right⟩ | ⟨e, left, right⟩
    · rw [left, right]
      exact second a m n agree
    · rw [left, right]
      exact .inr ⟨e, rfl, rfl⟩

theorem part_valueOf (x : Local) (m : Machine) :
    part (Run.valueOf x) m = match m.env.get? x.id with
      | some v => .ok (v, m)
      | none => .error ⟨.unbound x.name, true⟩ := by
  simp only [part, marked, Run.valueOf, Run.bind_apply, get, getThe, MonadStateOf.get, StateT.get,
    pure, Except.pure, Except.bind]
  cases m.env.get? x.id <;> rfl

theorem exists_fresh (names : List Nat) : ∃ x, x ∉ names := by
  refine ⟨names.max?.getD 0 + 1, fun member => ?_⟩
  have bounded := List.le_max?_getD_of_mem (k := 0) member
  omega

/-- An expression without effects only depends on its bindings, changes nothing and can only stop
with a fault. -/
theorem pureOn_eval (p : Program) {e : Expr} {names : List Nat} (noEffect : e.hasEffect = false)
    (within : ∀ x ∈ e.locals, x ∈ names) : PureOn names _ (eval p e) (eval p e) := by
  obtain ⟨fresh, absent⟩ := exists_fresh e.locals
  have steps : Steps (PureOn names) p p ⟨fresh, .absent⟩
      (fun n => n.isEffect = false ∧ ∀ x ∈ n.localId?, x ∈ names ∧ x ≠ fresh) :=
    { compatible_pureOn names with
      code := rfl
      order := rfl
      var := by
        intro x ⟨_, known⟩ m n agree
        obtain ⟨member, other⟩ := known x.id rfl
        simp only [Expr.subst, if_neg other, eval, part_valueOf, agree x.id member]
        cases m.env.get? x.id with
        | none => exact .inr ⟨_, rfl, rfl⟩
        | some v => exact .inl ⟨v, rfl, rfl⟩
      read := fun _ good => nomatch good.1
      fromId := fun _ _ good => nomatch good.1
      decode := fun _ good => nomatch good.1
      call := fun _ _ _ good => nomatch good.1 }
  have related := steps.eval e fun n node => by
    refine ⟨by simpa using (List.any_eq_false.mp noEffect) n node, fun x here => ?_⟩
    have used := Expr.mem_locals node here
    exact ⟨within x used, fun same => absent (same ▸ used)⟩
  rwa [e.subst_of_not_mem _ absent] at related

/-- Expressions change no bindings. -/
theorem env_of_eval {p : Program} (isolated : p.Isolated) {e : Expr} {m m' : Machine} {v : Value}
    (ran : eval p e m = .ok (v, m')) : m'.env = m.env := by
  obtain ⟨fresh, absent⟩ := exists_fresh e.locals
  let still (env₁ env₂ : Env) : Prop := env₁ = m.env ∧ env₂ = m.env
  have steps : Steps (KeepsStep still) p p ⟨fresh, .absent⟩ (fun n => n.localId? ≠ some fresh) := by
    refine steps_keepsStep isolated fun y other => ?_
    have other : y.id ≠ fresh := fun same => other (congrArg some same)
    simp only [Expr.subst, if_neg other, eval]
    intro a b inStep
    simp only [part_valueOf, inStep.env.1, inStep.env.2]
    cases m.env.get? y.id with
    | none => rfl
    | some w => exact ⟨rfl, inStep⟩
  have related := steps.eval e (fun n node here => absent (Expr.mem_locals node here)) m m
    ⟨rfl, rfl, rfl, rfl⟩
  rw [e.subst_of_not_mem _ absent, ran] at related
  exact related.2.env.1

/-! ### Code that does not refer to a binding -/

/-- The bindings other than `x` have the same cells. -/
def SameBut (x : Nat) (env₁ env₂ : Env) : Prop :=
  ∀ y, y ≠ x → env₂.cell? y = env₁.cell? y

theorem SameBut.get?_eq {x y : Nat} {env₁ env₂ : Env} (same : SameBut x env₁ env₂) (other : y ≠ x) :
    env₂.get? y = env₁.get? y := by
  rw [Env.get?, same y other, Env.get?]

theorem SameBut.put {x : Nat} {env₁ env₂ : Env} (same : SameBut x env₁ env₂) (y : Nat) (c : Cell) :
    SameBut x (env₁.put y c) (env₂.put y c) := by
  intro z other
  rw [Env.cell?_put, Env.cell?_put, same z other]

theorem sameBut_set (x : Nat) (env : Env) (v : Value) : SameBut x (env.set x v) env := by
  intro y other
  rw [Env.set, Env.cell?_put, if_neg other]

theorem keepsStep_valueOf {E : Env → Env → Prop} (x : Local)
    (same : ∀ env₁ env₂, E env₁ env₂ → env₂.get? x.id = env₁.get? x.id) :
    KeepsStep E _ (part (Run.valueOf x)) (part (Run.valueOf x)) := by
  intro m n inStep
  simp only [part_valueOf, same _ _ inStep.env]
  cases m.env.get? x.id with
  | none => rfl
  | some v => exact ⟨rfl, inStep⟩

/-- The nodes and the statements that do not refer to `x` and only write to `writable`. -/
theorem fits_of_not_mem {x : Nat} {writable : Nat → Prop} {stmts : List Stmt}
    (unused : x ∉ Stmt.uses stmts) (binders : ∀ y ∈ Stmt.bound stmts, writable y)
    (targets : ∀ y ∈ Stmt.assigned stmts, writable y) :
    ∀ t ∈ Stmt.flattenBlock stmts,
      Fits (fun n => n.localId? ≠ some x) writable (fun _ => True) t := by
  intro t member
  constructor
  · intro e expr n node here
    refine unused (List.mem_flatMap.mpr ⟨t, member, ?_⟩)
    exact List.mem_append_left _ (List.mem_flatMap.mpr ⟨e, expr, Expr.mem_locals node here⟩)
  · exact fun y bound => binders y (List.mem_flatMap.mpr ⟨t, member, bound⟩)
  · exact fun y target => targets y (List.mem_filterMap.mpr ⟨t, member, target⟩)
  · exact fun _ _ _ => trivial

section SameBut

variable {p : Program} {x : Nat}

theorem stmtSteps_sameBut (isolated : p.Isolated) :
    StmtSteps (KeepsStep (SameBut x)) p p ⟨x, .absent⟩ (fun n => n.localId? ≠ some x) (· ≠ x)
      (fun _ => True) := by
  refine stmtSteps_keepsStep isolated ?_ ?_ ?_
  · intro y other
    have other : y.id ≠ x := fun same => other (congrArg some same)
    simp only [Expr.subst, if_neg other, eval]
    exact keepsStep_valueOf y fun _ _ same => same.get?_eq other
  · exact fun y _ env₁ env₂ same c => same.put y c
  · exact fun y other env₁ env₂ same => same y other

/-- Expressions that do not refer to `x` go the same. -/
theorem keepsStep_eval (isolated : p.Isolated) {e : Expr} (unused : x ∉ e.locals) :
    KeepsStep (SameBut x) _ (eval p e) (eval p e) := by
  have related := (stmtSteps_sameBut (x := x) isolated).eval e fun n node here =>
    unused (Expr.mem_locals node here)
  rwa [e.subst_of_not_mem _ unused] at related

theorem keepsStep_evalList (isolated : p.Isolated) {es : List Expr}
    (unused : x ∉ Expr.localsList es) :
    KeepsStep (SameBut x) _ (evalList p es) (evalList p es) := by
  have related := (stmtSteps_sameBut (x := x) isolated).evalList es fun n node here =>
    unused (List.mem_filterMap.mpr ⟨n, node, here⟩)
  rwa [Expr.substList_of_not_mem _ es unused] at related

theorem keepsStep_evalFields (isolated : p.Isolated) {fields : List (String × Expr)}
    (unused : x ∉ Expr.localsFields fields) :
    KeepsStep (SameBut x) _ (evalFields p fields) (evalFields p fields) := by
  have related := (stmtSteps_sameBut (x := x) isolated).evalFields fields fun n node here =>
    unused (List.mem_filterMap.mpr ⟨n, node, here⟩)
  rwa [Expr.substFields_of_not_mem _ fields unused] at related

/-- Statements that neither refer to `x` nor set it go the same. -/
theorem keepsStep_execBlock (isolated : p.Isolated) {stmts : List Stmt}
    (unused : x ∉ Stmt.uses stmts) (unbound : x ∉ Stmt.bound stmts)
    (unset : x ∉ Stmt.assigned stmts) :
    KeepsStep (SameBut x) _ (execBlock p stmts) (execBlock p stmts) := by
  have related := (stmtSteps_sameBut (x := x) isolated).execBlock stmts
    (fits_of_not_mem unused (fun y bound same => unbound (same ▸ bound))
      fun y target same => unset (same ▸ target))
  rwa [Stmt.substBlock_of_not_mem _ stmts unused] at related

end SameBut

/-! ### An expression in the place of a binding -/

/-- The bindings other than `x` have the same cells, `x` holds `v` on the left, and `init` has the
value `v` on the right. -/
structure Stands (p : Program) (x : Nat) (init : Expr) (v : Value) (env₁ env₂ : Env) : Prop where
  same : SameBut x env₁ env₂
  left : env₁.get? x = some v
  right : ∀ m : Machine, m.env = env₂ → eval p init m = .ok (v, m)

section Stands

variable {p : Program} {x : Nat} {init : Expr} {v : Value}

theorem Stands.put (noEffect : init.hasEffect = false) {env₁ env₂ : Env}
    (stands : Stands p x init v env₁ env₂) {y : Nat} (other : y ≠ x) (unread : y ∉ init.locals)
    (c : Cell) : Stands p x init v (env₁.put y c) (env₂.put y c) := by
  refine ⟨stands.same.put y c, ?_, ?_⟩
  · rw [Env.get?_put, if_neg (Ne.symm other), stands.left]
  · intro m here
    have agree : ∀ z ∈ init.locals, m.env.get? z = ({ m with env := env₂ } : Machine).env.get? z := by
      intro z read
      have differ : z ≠ y := fun same => unread (same ▸ read)
      rw [here, Env.get?_put, if_neg differ]
    have before := stands.right { m with env := env₂ } rfl
    rcases pureOn_eval p noEffect (fun _ member => member) _ m agree with
      ⟨w, left, right⟩ | ⟨e, left, right⟩
    · rw [left] at before
      cases before
      exact right
    · rw [left] at before
      cases before

/-- Where `init` stands for `x`, uses of `x` go like `init`. -/
theorem keepsStep_var (y : Local) : KeepsStep (Stands p x init v) _ (part (Run.valueOf y))
    (eval p ((Expr.var y).subst ⟨x, init⟩)) := by
  by_cases here : y.id = x
  · intro m n inStep
    simp only [Expr.subst, if_pos here, part_valueOf]
    rw [here, inStep.env.left, inStep.env.right n rfl]
    exact ⟨rfl, inStep⟩
  · simp only [Expr.subst, if_neg here, eval]
    exact keepsStep_valueOf y fun _ _ stands => stands.same.get?_eq here

theorem stmtSteps_stands (isolated : p.Isolated) (noEffect : init.hasEffect = false) :
    StmtSteps (KeepsStep (Stands p x init v)) p p ⟨x, init⟩ (fun _ => True)
      (fun y => y ≠ x ∧ y ∉ init.locals) (fun _ => True) := by
  refine stmtSteps_keepsStep isolated (fun y _ => keepsStep_var y) ?_ ?_
  · exact fun y ⟨other, unread⟩ env₁ env₂ stands c => stands.put noEffect other unread c
  · exact fun y ⟨other, _⟩ env₁ env₂ stands => stands.same y other

/-- Statements with `init` in the place of `x` go the same, if they set nothing that `init` reads. -/
theorem keepsStep_substBlock (isolated : p.Isolated) (noEffect : init.hasEffect = false)
    {stmts : List Stmt} (binders : ∀ y ∈ Stmt.bound stmts, y ≠ x ∧ y ∉ init.locals)
    (targets : ∀ y ∈ Stmt.assigned stmts, y ≠ x ∧ y ∉ init.locals) :
    KeepsStep (Stands p x init v) _ (execBlock p stmts)
      (execBlock p (Stmt.substBlock ⟨x, init⟩ stmts)) := by
  refine (stmtSteps_stands isolated noEffect).execBlock stmts fun t member => ⟨?_, ?_, ?_, ?_⟩
  · exact fun _ _ _ _ => trivial
  · exact fun y bound => binders y (List.mem_flatMap.mpr ⟨t, member, bound⟩)
  · exact fun y target => targets y (List.mem_filterMap.mpr ⟨t, member, target⟩)
  · exact fun _ _ _ => trivial

/-- An expression with `init` in the place of `x` goes the same. -/
theorem keepsStep_subst (isolated : p.Isolated) (noEffect : init.hasEffect = false) (e : Expr) :
    KeepsStep (Stands p x init v) _ (eval p e) (eval p (e.subst ⟨x, init⟩)) :=
  (stmtSteps_stands isolated noEffect).eval e fun _ _ => trivial

end Stands

end Probe

end WireSchema
