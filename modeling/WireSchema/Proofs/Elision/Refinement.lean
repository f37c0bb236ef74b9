import WireSchema.Proofs.Elision.Inlining
import WireSchema.Proofs.Elision.Scoping

/-!
# Refinement of bodies

One body refines another if it succeeds whenever the other does, with the same outcome up to the
bindings that are gone, and stops as an effect whenever the other does, unless its result stops with
a fault before. Elision is a chain of five kinds of steps, and each refines.
-/

namespace WireSchema

open Ir

namespace Probe

/-- The bindings that are not `gone` have the same cells. -/
def SameExcept (gone : Nat → Prop) (env₁ env₂ : Env) : Prop :=
  ∀ y, ¬ gone y → env₂.cell? y = env₁.cell? y

/-- The bindings that the first body introduces and the second does not. -/
def Removed (b b' : Block) (x : Nat) : Prop :=
  x ∈ Stmt.bound b.stmts ∧ x ∉ Stmt.bound b'.stmts

/-- The statements of a body succeed, and then its result stops with a fault. -/
def LateFault (p : Program) (b : Block) (m : Machine) : Prop :=
  ∃ m' e, execBlock p b.stmts m = .ok ((), m') ∧ eval p b.result m' = .error ⟨e, true⟩

/-- The second body can stand for the first. -/
structure Refines (p : Program) (b b' : Block) : Prop where
  bound : ∀ x ∈ Stmt.bound b'.stmts, x ∈ Stmt.bound b.stmts
  assigned : ∀ x ∈ Stmt.assigned b'.stmts, x ∈ Stmt.assigned b.stmts
  sorted : ∀ Γ : Sorts, (∀ x, Removed b b' x → x ∉ Γ.ints) → b.WellSorted Γ → b'.WellSorted Γ
  value : ∀ m v n, evalBlock p b m = .ok (v, n) →
    ∃ n', evalBlock p b' m = .ok (v, n') ∧ InStep (SameExcept (Removed b b')) n n'
  stop : ∀ m e, evalBlock p b m = .error ⟨e, false⟩ →
    evalBlock p b' m = .error ⟨e, false⟩ ∨ LateFault p b' m
  late : ∀ m, LateFault p b m → LateFault p b' m

variable {p : Program}

theorem Refines.refl (b : Block) : Refines p b b where
  bound _ member := member
  assigned _ member := member
  sorted _ _ sorted := sorted
  value _ _ n ran := ⟨n, ran, rfl, rfl, fun _ _ => rfl⟩
  stop _ _ stopped := .inl stopped
  late _ fault := fault

theorem Refines.trans {a b c : Block} (first : Refines p a b) (second : Refines p b c) :
    Refines p a c where
  bound x member := first.bound x (second.bound x member)
  assigned x member := first.assigned x (second.assigned x member)
  sorted Γ new sorted := by
    refine second.sorted Γ (fun x removed => ?_) (first.sorted Γ (fun x removed => ?_) sorted)
    · exact new x ⟨first.bound x removed.1, removed.2⟩
    · exact new x ⟨removed.1, fun later => removed.2 (second.bound x later)⟩
  value m v n ran := by
    obtain ⟨n₁, ran₁, step₁⟩ := first.value m v n ran
    obtain ⟨n₂, ran₂, step₂⟩ := second.value m v n₁ ran₁
    refine ⟨n₂, ran₂, step₂.stream.trans step₁.stream, step₂.events.trans step₁.events, ?_⟩
    intro y kept
    have kept₁ : ¬ Removed a b y := fun ⟨here, gone⟩ =>
      kept ⟨here, fun later => gone (second.bound y later)⟩
    have kept₂ : ¬ Removed b c y := fun ⟨here, gone⟩ => kept ⟨first.bound y here, gone⟩
    rw [step₂.env y kept₂, step₁.env y kept₁]
  stop m e stopped := by
    rcases first.stop m e stopped with same | fault
    · exact second.stop m e same
    · exact .inr (second.late m fault)
  late m fault := second.late m (first.late m fault)

/-! ### Statements in front -/

theorem execBlock_append (front back : List Stmt) :
    execBlock p (front ++ back) = execBlock p front >>= fun _ => execBlock p back := by
  induction front with
  | nil => simp [execBlock]
  | cons s rest ih => simp [execBlock, ih]

theorem evalBlock_append (front back : List Stmt) (result : Expr) :
    evalBlock p ⟨front ++ back, result⟩ =
      execBlock p front >>= fun _ => evalBlock p ⟨back, result⟩ := by
  simp [evalBlock, execBlock_append]

/-- Refinement holds behind the same statements, unless they introduce what is gone. -/
theorem Refines.prepend (front : List Stmt) {back back' : List Stmt} {result result' : Expr}
    (refines : Refines p ⟨back, result⟩ ⟨back', result'⟩)
    (apart : ∀ x ∈ Stmt.bound front, ¬ Removed ⟨back, result⟩ ⟨back', result'⟩ x) :
    Refines p ⟨front ++ back, result⟩ ⟨front ++ back', result'⟩ where
  bound x member := by
    simp only [Stmt.bound_append, List.mem_append] at member ⊢
    exact member.imp_right (refines.bound x)
  assigned x member := by
    simp only [Stmt.assigned_append, List.mem_append] at member ⊢
    exact member.imp_right (refines.assigned x)
  sorted Γ new sorted := by
    obtain ⟨stmts, last⟩ := sorted
    simp only [Block.WellSorted, Stmt.wellSorted_append, Stmt.sortsAfter_append] at stmts last ⊢
    have inner := refines.sorted (Stmt.sortsAfter Γ front) ?_ ⟨stmts.2, last⟩
    · exact ⟨⟨stmts.1, inner.1⟩, inner.2⟩
    · intro x removed known
      rcases Stmt.ints_sortsAfter known with early | opened
      · refine new x ⟨by simp [removed.1], fun member => ?_⟩ early
        rcases List.mem_append.mp (Stmt.bound_append _ _ ▸ member) with opened | later
        · exact apart x opened removed
        · exact removed.2 later
      · exact apart x opened removed
  value m v n ran := by
    rw [evalBlock_append, bind_apply] at ran ⊢
    cases start : execBlock p front m with
    | error s =>
      rw [start] at ran
      cases ran
    | ok out =>
      rw [start] at ran
      obtain ⟨n', ran', step⟩ := refines.value out.2 v n ran
      refine ⟨n', ran', step.stream, step.events, fun y kept => step.env y fun removed => ?_⟩
      refine kept ⟨by simp [removed.1], fun member => ?_⟩
      rcases List.mem_append.mp (Stmt.bound_append _ _ ▸ member) with early | later
      · exact apart y early removed
      · exact removed.2 later
  stop m e stopped := by
    rw [evalBlock_append, bind_apply] at stopped ⊢
    cases start : execBlock p front m with
    | error s =>
      rw [start] at stopped
      exact .inl stopped
    | ok out =>
      rw [start] at stopped
      rcases refines.stop out.2 e stopped with same | ⟨m', e', ran, fault⟩
      · exact .inl same
      · refine .inr ⟨m', e', ?_, fault⟩
        rw [execBlock_append, bind_apply, start]
        exact ran
  late m fault := by
    obtain ⟨m', e, ran, fault⟩ := fault
    rw [execBlock_append, bind_apply] at ran
    cases start : execBlock p front m with
    | error s =>
      rw [start] at ran
      cases ran
    | ok out =>
      rw [start] at ran
      obtain ⟨n, e', ran', fault'⟩ := refines.late out.2 ⟨m', e, ran, fault⟩
      refine ⟨n, e', ?_, fault'⟩
      rw [execBlock_append, bind_apply, start]
      exact ran'

/-! ### Bodies that go alike -/

/-- Unless its statements stop with a fault, the second body goes like the first. -/
theorem Refines.of_alike {b b' : Block} (bound : ∀ x ∈ Stmt.bound b'.stmts, x ∈ Stmt.bound b.stmts)
    (assigned : ∀ x ∈ Stmt.assigned b'.stmts, x ∈ Stmt.assigned b.stmts)
    (sorted : ∀ Γ : Sorts, (∀ x, Removed b b' x → x ∉ Γ.ints) → b.WellSorted Γ → b'.WellSorted Γ)
    (alike : ∀ m, (∃ e, execBlock p b.stmts m = .error ⟨e, true⟩) ∨
      ∃ E : Env → Env → Prop, Alike E (execBlock p b.stmts m) (execBlock p b'.stmts m) ∧
        KeepsStep E _ (eval p b.result) (eval p b'.result) ∧
        ∀ env₁ env₂, E env₁ env₂ → SameExcept (Removed b b') env₁ env₂) : Refines p b b' where
  bound := bound
  assigned := assigned
  sorted := sorted
  value m v n ran := by
    rcases alike m with ⟨e, fault⟩ | ⟨E, stmts, result, same⟩
    · rw [evalBlock, bind_apply, fault] at ran
      cases ran
    · have whole := stmts.bind fun _ => result
      rw [evalBlock, bind_apply] at ran ⊢
      rw [ran] at whole
      obtain ⟨n', ran', step⟩ := whole.of_ok
      exact ⟨n', ran', step.stream, step.events, same _ _ step.env⟩
  stop m e stopped := by
    rcases alike m with ⟨e', fault⟩ | ⟨E, stmts, result, same⟩
    · rw [evalBlock, bind_apply, fault] at stopped
      cases stopped
    · have whole := stmts.bind fun _ => result
      rw [evalBlock, bind_apply] at stopped ⊢
      rw [stopped] at whole
      exact .inl whole.of_error
  late m fault := by
    obtain ⟨m', e, ran, fault⟩ := fault
    rcases alike m with ⟨e', fault'⟩ | ⟨E, stmts, result, same⟩
    · rw [ran] at fault'
      cases fault'
    · rw [ran] at stmts
      cases ran' : execBlock p b'.stmts m with
      | error s =>
        rw [ran'] at stmts
        exact stmts.elim
      | ok out =>
        rw [ran'] at stmts
        refine ⟨out.2, e, ran', ?_⟩
        have last := result m' out.2 stmts.2
        rw [fault] at last
        exact last.of_error

theorem execBlock_bind (x : Local) (init : Expr) (rest : List Stmt) (m : Machine) :
    execBlock p (.bind x false (some init) :: rest) m = (eval p init m).bind fun out =>
      execBlock p rest { out.2 with env := out.2.env.set x.id out.1 } := by
  simp only [execBlock, exec, bind_apply]
  cases eval p init m <;> rfl

theorem removed_head {x : Local} {init : Expr} {rest rest' : List Stmt} {result result' : Expr}
    (fresh : x.id ∉ Stmt.bound rest') :
    Removed ⟨.bind x false (some init) :: rest, result⟩ ⟨rest', result'⟩ x.id :=
  ⟨by simp [Stmt.bound_cons, Stmt.binds, Stmt.binders], fresh⟩

theorem SameBut.sameExcept {x : Nat} {gone : Nat → Prop} (removed : gone x) {env₁ env₂ : Env}
    (same : SameBut x env₁ env₂) : SameExcept gone env₁ env₂ :=
  fun y kept => same y fun here => kept (here ▸ removed)

/-- A body stays well sorted when an initial value takes the place of its binding. -/
theorem sorted_subst {x : Local} {init : Expr} {rest : List Stmt} {result : Expr}
    (fresh : x.id ∉ Stmt.bound rest) (Γ : Sorts) (new : x.id ∉ Γ.ints)
    (sorted : Block.WellSorted Γ ⟨.bind x false (some init) :: rest, result⟩) :
    Block.WellSorted Γ ⟨Stmt.substBlock ⟨x.id, init⟩ rest, result.subst ⟨x.id, init⟩⟩ := by
  obtain ⟨⟨first, others⟩, last⟩ := sorted
  have stands := Stmt.stands_bind (first x init rfl) new
  exact ⟨others.subst stands fresh, last.subst (Stmt.stands_sortsAfter stands fresh)⟩

/-- A binding that nothing uses tells nothing. -/
theorem sorted_unused {x : Local} {init : Expr} {rest : List Stmt} {result : Expr}
    (unused : x.id ∉ Stmt.uses rest ++ result.locals) (fresh : x.id ∉ Stmt.bound rest) (Γ : Sorts)
    (new : x.id ∉ Γ.ints)
    (sorted : Block.WellSorted Γ ⟨.bind x false (some init) :: rest, result⟩) :
    Block.WellSorted Γ ⟨rest, result⟩ := by
  rw [List.mem_append, not_or] at unused
  have replaced := sorted_subst fresh Γ new sorted
  rwa [Stmt.substBlock_of_not_mem ⟨x.id, init⟩ rest unused.1,
    result.subst_of_not_mem ⟨x.id, init⟩ unused.2] at replaced

section Steps

variable {x : Local} {init : Expr} {rest : List Stmt} {result : Expr}

/-- A binding without uses and effects can be dropped. -/
theorem refines_drop (isolated : p.Isolated) (noEffect : init.hasEffect = false)
    (unused : x.id ∉ Stmt.uses rest ++ result.locals) (fresh : x.id ∉ Stmt.bound rest)
    (unset : x.id ∉ Stmt.assigned rest) :
    Refines p ⟨.bind x false (some init) :: rest, result⟩ ⟨rest, result⟩ := by
  have removed : Removed ⟨.bind x false (some init) :: rest, result⟩ ⟨rest, result⟩ x.id :=
    removed_head fresh
  refine .of_alike (fun y member => by simp [Stmt.bound_cons, member])
    (fun y member => by simp [Stmt.assigned_cons, member])
    (fun Γ new => sorted_unused unused fresh Γ (new x.id removed)) fun m => ?_
  rw [List.mem_append, not_or] at unused
  rw [execBlock_bind]
  rcases pureOn_eval p noEffect (fun _ member => member) m m fun _ _ => rfl with
    ⟨v, ran, -⟩ | ⟨e, fault, -⟩
  · refine .inr ⟨SameBut x.id, ?_, keepsStep_eval isolated unused.2, fun _ _ same =>
      same.sameExcept (removed_head fresh)⟩
    rw [ran]
    exact keepsStep_execBlock isolated unused.1 fresh unset _ _ ⟨rfl, rfl, sameBut_set _ _ _⟩
  · exact .inl ⟨e, by rw [fault]; rfl⟩

/-- Of a binding without uses, only the effects need to stay. -/
theorem refines_evalOnly (isolated : p.Isolated)
    (unused : x.id ∉ Stmt.uses rest ++ result.locals) (fresh : x.id ∉ Stmt.bound rest)
    (unset : x.id ∉ Stmt.assigned rest) :
    Refines p ⟨.bind x false (some init) :: rest, result⟩ ⟨.eval init :: rest, result⟩ := by
  have unused' := unused
  rw [List.mem_append, not_or] at unused'
  have bound : Stmt.bound (.eval init :: rest) = Stmt.bound rest := by
    simp [Stmt.bound_cons, Stmt.binds, Stmt.binders, Stmt.blocks]
  have assigned : Stmt.assigned (.eval init :: rest) = Stmt.assigned rest := by
    simp [Stmt.assigned_cons, Stmt.sets, Stmt.target?, Stmt.blocks]
  have removed : Removed ⟨.bind x false (some init) :: rest, result⟩
      ⟨.eval init :: rest, result⟩ x.id := removed_head (by rwa [bound])
  refine .of_alike (fun y member => ?_) (fun y member => ?_) (fun Γ new sorted => ?_)
    fun m => .inr ⟨SameBut x.id, ?_, keepsStep_eval isolated unused'.2, fun _ _ same =>
      same.sameExcept removed⟩
  · rw [bound] at member
    simp [Stmt.bound_cons, member]
  · rw [assigned] at member
    simp [Stmt.assigned_cons, member]
  · obtain ⟨others, last⟩ := sorted_unused unused fresh Γ (new x.id removed) sorted
    refine ⟨⟨?_, others⟩, last⟩
    intro _ _ found
    cases found
  · have evaluated : execBlock p (.eval init :: rest) m = (eval p init m).bind fun out =>
        execBlock p rest out.2 := by
      simp only [execBlock, exec, bind_apply]
      cases eval p init m <;> rfl
    rw [execBlock_bind, evaluated]
    cases eval p init m with
    | error s => rfl
    | ok out =>
      exact keepsStep_execBlock isolated unused'.1 fresh unset _ _ ⟨rfl, rfl, sameBut_set _ _ _⟩

/-- After the binding, the initial value stands for it. -/
theorem stands_start (noEffect : init.hasEffect = false) {v : Value} {m : Machine}
    (ran : eval p init m = .ok (v, m)) : Stands p x.id init v (m.env.set x.id v) m.env := by
  refine ⟨sameBut_set _ _ _, by rw [Env.get?_set, if_pos rfl], fun n here => ?_⟩
  rcases pureOn_eval p noEffect (fun _ member => member) m n (fun _ _ => by rw [here]) with
    ⟨w, left, right⟩ | ⟨e, left, _⟩
  · rw [ran] at left
    cases left
    exact right
  · rw [ran] at left
    cases left

/-- The statements after a binding go alike with the initial value in its place, up to where they
set a binding that it reads. -/
theorem alike_forward (isolated : p.Isolated) (noEffect : init.hasEffect = false)
    (fresh : x.id ∉ Stmt.bound rest) (unset : x.id ∉ Stmt.assigned rest)
    (unbound : ∀ y ∈ init.locals, y ∉ Stmt.bound rest)
    (unassigned : ∀ y ∈ init.locals, y ∉ Stmt.assigned rest) {v : Value} {m : Machine}
    (ran : eval p init m = .ok (v, m)) :
    Alike (Stands p x.id init v) (execBlock p rest { m with env := m.env.set x.id v })
      (execBlock p (Stmt.substBlock ⟨x.id, init⟩ rest) m) := by
  refine keepsStep_substBlock isolated noEffect ?_ ?_ _ _ ⟨rfl, rfl, stands_start noEffect ran⟩
  · exact fun y member => ⟨fun same => fresh (same ▸ member), fun read => unbound y read member⟩
  · exact fun y member => ⟨fun same => unset (same ▸ member), fun read => unassigned y read member⟩

/-- An initial value without effects can move into the statements that follow, up to where a binding
that it reads is set. -/
theorem refines_forward (isolated : p.Isolated) (noEffect : init.hasEffect = false)
    {after : List Stmt} (unused : x.id ∉ Stmt.uses after ++ result.locals)
    (fresh : x.id ∉ Stmt.bound (rest ++ after)) (unset : x.id ∉ Stmt.assigned (rest ++ after))
    (unbound : ∀ y ∈ init.locals, y ∉ Stmt.bound rest)
    (unassigned : ∀ y ∈ init.locals, y ∉ Stmt.assigned rest) :
    Refines p ⟨.bind x false (some init) :: (rest ++ after), result⟩
      ⟨Stmt.substBlock ⟨x.id, init⟩ rest ++ after, result⟩ := by
  have whole := fresh
  simp only [Stmt.bound_append, Stmt.assigned_append, List.mem_append, not_or] at unused fresh unset
  refine .of_alike (fun y member => ?_) (fun y member => ?_) (fun Γ new sorted => ?_) fun m => ?_
  · simp only [Stmt.bound_append, Stmt.bound_substBlock] at member
    simp only [Stmt.bound_cons, Stmt.bound_append]
    exact List.mem_append_right _ member
  · simp only [Stmt.assigned_append, Stmt.assigned_substBlock] at member
    simp only [Stmt.assigned_cons, Stmt.assigned_append]
    exact List.mem_append_right _ member
  · have replaced := sorted_subst whole Γ (new x.id (removed_head (by simp [fresh]))) sorted
    rwa [Stmt.substBlock_append, Stmt.substBlock_of_not_mem ⟨x.id, init⟩ after unused.1,
      result.subst_of_not_mem ⟨x.id, init⟩ unused.2] at replaced
  · rw [execBlock_bind]
    rcases pureOn_eval p noEffect (fun _ member => member) m m fun _ _ => rfl with
      ⟨v, ran, -⟩ | ⟨e, fault, -⟩
    · refine .inr ⟨SameBut x.id, ?_, keepsStep_eval isolated unused.2, fun _ _ same =>
        same.sameExcept (removed_head (by simp [fresh]))⟩
      have front := alike_forward isolated noEffect fresh.1 unset.1 unbound unassigned ran
      rw [ran, execBlock_append, execBlock_append]
      exact (front.mono fun _ _ stands => stands.same).bind fun _ =>
        keepsStep_execBlock isolated unused.1 fresh.2 unset.2
    · exact .inl ⟨e, by rw [fault]; rfl⟩

/-- An initial value without effects can move into the result, if no binding that it reads is set in
between. -/
theorem refines_forward_result (isolated : p.Isolated) (noEffect : init.hasEffect = false)
    (unused : x.id ∉ Stmt.uses rest) (fresh : x.id ∉ Stmt.bound rest)
    (unset : x.id ∉ Stmt.assigned rest) (unbound : ∀ y ∈ init.locals, y ∉ Stmt.bound rest)
    (unassigned : ∀ y ∈ init.locals, y ∉ Stmt.assigned rest) :
    Refines p ⟨.bind x false (some init) :: rest, result⟩
      ⟨rest, result.subst ⟨x.id, init⟩⟩ := by
  refine .of_alike (fun y member => by simp [Stmt.bound_cons, member])
    (fun y member => by simp [Stmt.assigned_cons, member]) (fun Γ new sorted => ?_) fun m => ?_
  · have replaced := sorted_subst fresh Γ (new x.id (removed_head fresh)) sorted
    rwa [Stmt.substBlock_of_not_mem ⟨x.id, init⟩ rest unused] at replaced
  rw [execBlock_bind]
  rcases pureOn_eval p noEffect (fun _ member => member) m m fun _ _ => rfl with
    ⟨v, ran, -⟩ | ⟨e, fault, -⟩
  · refine .inr ⟨Stands p x.id init v, ?_, keepsStep_subst isolated noEffect result,
      fun _ _ stands => stands.same.sameExcept (removed_head fresh)⟩
    have front := alike_forward isolated noEffect fresh unset unbound unassigned ran
    rw [Stmt.substBlock_of_not_mem _ rest unused] at front
    rw [ran]
    exact front
  · exact .inl ⟨e, by rw [fault]; rfl⟩

/-- A last initial value can move to the place of the binding in the result, if the search finds the
binding early. -/
theorem refines_inline (isolated : p.Isolated) (early : result.search x.id false = .found false)
    (once : result.locals.count x.id ≤ 1) :
    Refines p ⟨[.bind x false (some init)], result⟩ ⟨[], result.subst ⟨x.id, init⟩⟩ := by
  have moves : Moves p x.id init _ (eval p result) (eval p (result.subst ⟨x.id, init⟩)) :=
    moves_eval isolated result early once
  have before (m : Machine) : evalBlock p ⟨[.bind x false (some init)], result⟩ m =
      (eval p init m).bind fun out =>
        eval p result { out.2 with env := out.2.env.set x.id out.1 } := by
    rw [evalBlock, bind_apply, execBlock_bind]
    cases eval p init m <;> rfl
  have after (m : Machine) : evalBlock p ⟨[], result.subst ⟨x.id, init⟩⟩ m =
      eval p (result.subst ⟨x.id, init⟩) m := rfl
  refine ⟨fun y member => by simp at member, fun y member => by simp at member,
    fun Γ new sorted => sorted_subst (by simp) Γ (new x.id (removed_head (by simp))) sorted,
    fun m v n ran => ?_, fun m e stopped => ?_, ?_⟩
  · rw [before] at ran
    rw [after]
    cases start : eval p init m with
    | error s =>
      rw [start] at ran
      cases ran
    | ok out =>
      rw [start] at ran
      have alike := (moves m).2 out.1 out.2 start
      rw [show eval p result _ = .ok (v, n) from ran] at alike
      obtain ⟨n', ran', step⟩ := alike.of_ok
      exact ⟨n', ran', step.stream, step.events, step.env.sameExcept (removed_head (by simp))⟩
  · rw [before] at stopped
    rw [after]
    cases start : eval p init m with
    | error s =>
      rw [start] at stopped
      cases stopped
      rcases (moves m).1 _ start with same | ⟨e', fault⟩
      · exact .inl same
      · exact .inr ⟨m, e', rfl, fault⟩
    | ok out =>
      rw [start] at stopped
      have alike := (moves m).2 out.1 out.2 start
      rw [show eval p result _ = .error ⟨e, false⟩ from stopped] at alike
      exact .inl alike.of_error
  · rintro m ⟨m', e, ran, fault⟩
    rw [execBlock_bind] at ran
    cases start : eval p init m with
    | error s =>
      rw [start] at ran
      cases ran
    | ok out =>
      rw [start] at ran
      cases ran
      have alike := (moves m).2 out.1 out.2 start
      rw [fault] at alike
      refine ⟨m, e, rfl, ?_⟩
      exact alike.of_error

end Steps

end Probe

end WireSchema
