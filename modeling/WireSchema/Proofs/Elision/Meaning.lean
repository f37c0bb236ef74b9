import WireSchema.Proofs.Elision.Passes

/-!
# Elision keeps the meaning of bodies

The scoping that code generation gives to its bodies is all that elision needs. The body that it
yields then succeeds whenever the body it was given does, with the same value, the same effects in
the same order and the same bindings. It also fails exactly when the other does, with the same
error, as long as neither run stops in a part of an expression that is no effect.
-/

namespace WireSchema

open Ir

namespace Ir

/-! ### Scoping -/

/-- Of the bindings `names`, those that the body has binders for are in `seen`. -/
def covered (own seen names : List Nat) : Bool :=
  names.all fun x => !own.contains x || seen.contains x

namespace Stmt

mutual

/-- The uses in a statement come after their binders, if those of `seen` came before. -/
def inScope (own seen : List Nat) : Stmt → Bool
  | .branch e yes no =>
    covered own seen e.locals && inScopeBlock own seen yes && inScopeBlock own seen no
  | .ifPresent x e body | .forEach x e body =>
    covered own seen e.locals && inScopeBlock own (x.id :: seen) body
  | .times e body => covered own seen e.locals && inScopeBlock own seen body
  | .forEachPair key value e body =>
    covered own seen e.locals && inScopeBlock own (key.id :: value.id :: seen) body
  | .select e arms fallback =>
    covered own seen (e.locals ++ Failure.localsOption fallback) && inScopeArms own seen arms
  | s => covered own seen s.ownUses

def inScopeBlock (own seen : List Nat) : List Stmt → Bool
  | [] => true
  | s :: rest => inScope own seen s && inScopeBlock own (s.opens ++ seen) rest

def inScopeArms (own seen : List Nat) : List (Pattern × List Stmt) → Bool
  | [] => true
  | (pattern, body) :: rest =>
    inScopeBlock own ((pattern.binding?.map (·.id)).toList ++ seen) body &&
      inScopeArms own seen rest

end

end Stmt

/-- Every binding has at most one binder, which comes before its uses, in the same block or around
it; and a binding with a fixed initial value is never set. -/
structure Block.WellScoped (b : Block) : Prop where
  once : (Stmt.bound b.stmts).Nodup
  stmts : Stmt.inScopeBlock (Stmt.bound b.stmts) [] b.stmts = true
  result : covered (Stmt.bound b.stmts) (b.stmts.flatMap Stmt.opens) b.result.locals = true
  fixed : ∀ x ∈ Stmt.constants b.stmts, x ∉ Stmt.assigned b.stmts

theorem mem_of_covered {own seen names : List Nat} (all : covered own seen names = true) {x : Nat}
    (used : x ∈ names) (bound : x ∈ own) : x ∈ seen := by
  have entry := List.all_eq_true.mp all x used
  simpa [bound] using entry

namespace Stmt

theorem covered_of_initialised {own seen : List Nat} {s : Stmt} {x : Local} {init : Expr}
    (inScope : s.inScope own seen = true) (found : s.initialised? = some (x, init)) :
    covered own seen init.locals = true := by
  cases eq_bind_of_initialised found
  simpa [Stmt.inScope, ownUses, exprs, pushed?] using inScope

/-- What came before is not introduced again. -/
theorem tidy_of_inScope (own : List Nat) (stmts : List Stmt) (seen : List Nat)
    (once : (bound stmts).Nodup) (within : ∀ x ∈ bound stmts, x ∈ own)
    (earlier : ∀ x ∈ seen, x ∉ bound stmts) (inScope : inScopeBlock own seen stmts = true)
    (fixed : ∀ x ∈ constants stmts, x ∉ assigned stmts) : Tidy stmts := by
  induction stmts generalizing seen with
  | nil => trivial
  | cons s rest ih =>
    rw [bound_cons, List.nodup_append] at once
    obtain ⟨_, later, disjoint⟩ := once
    simp only [inScopeBlock, Bool.and_eq_true] at inScope
    have binders : ∀ y ∈ s.binds, y ∉ bound rest := fun y here after => disjoint y here y after rfl
    refine ⟨binders, fun x init found => ⟨?_, ?_⟩, ?_⟩
    · have constant : x.id ∈ constants (s :: rest) := by
        simp [constants_cons, found]
      have unset := fixed x.id constant
      rw [assigned_cons, List.mem_append, not_or] at unset
      exact unset.2
    · intro y read after
      have own : y ∈ own := within y (by simp [bound_cons, after])
      have before := mem_of_covered (covered_of_initialised inScope.1 found) read own
      exact earlier y before (by simp [bound_cons, after])
    · refine ih (s.opens ++ seen) later ?_ ?_ inScope.2 ?_
      · exact fun x after => within x (by simp [bound_cons, after])
      · intro x before after
        rcases List.mem_append.mp before with opened | seen
        · exact binders x (s.opens_subset x opened) after
        · exact earlier x seen (by simp [bound_cons, after])
      · intro x constant set
        exact fixed x (by simp [constants_cons, constant]) (by simp [assigned_cons, set])

end Stmt

theorem Block.WellScoped.tidy {b : Block} (wellScoped : b.WellScoped) : Stmt.Tidy b.stmts :=
  Stmt.tidy_of_inScope _ b.stmts [] wellScoped.once (fun _ member => member) (by simp)
    wellScoped.stmts wellScoped.fixed

end Ir

/-! ### Meaning -/

/-- A run of the body does not stop in a part of an expression, except at its effects. -/
def Probe.NoFault (p : Program) (b : Block) (m : Machine) : Prop :=
  ∀ e, Probe.evalBlock p b m ≠ .error ⟨e, true⟩

namespace Probe

theorem ok_of_evalBlock {p : Program} {b : Block} {m n : Machine} {v : Value} :
    Run.evalBlock p b m = .ok (v, n) ↔ evalBlock p b m = .ok (v, n) := by
  rw [← unmarked_evalBlock, unmarked]
  cases evalBlock p b m <;> simp

theorem error_of_evalBlock {p : Program} {b : Block} {m : Machine} (noFault : NoFault p b m)
    {e : RunError} : Run.evalBlock p b m = .error e ↔ evalBlock p b m = .error ⟨e, false⟩ := by
  rw [← unmarked_evalBlock, unmarked]
  have safe := noFault
  unfold NoFault at safe
  cases ran : evalBlock p b m with
  | ok out => simp
  | error stop =>
    obtain ⟨cause, fault⟩ := stop
    cases fault with
    | true => exact absurd ran (safe cause)
    | false => simp

theorem fault_of_late {p : Program} {b : Block} {m : Machine} (late : LateFault p b m) :
    ¬ NoFault p b m := by
  obtain ⟨m', e, ran, fault⟩ := late
  intro noFault
  refine noFault e ?_
  rw [evalBlock, bind_apply, ran]
  exact fault

/-- A body that refines another fails when the other fails, with the same error. -/
theorem Refines.error_iff {p : Program} {b b' : Block} (refines : Refines p b b') {m : Machine}
    (noFault : NoFault p b m) (noFault' : NoFault p b' m) (e : RunError) :
    Run.evalBlock p b' m = .error e ↔ Run.evalBlock p b m = .error e := by
  have forth (e : RunError) (stopped : evalBlock p b m = .error ⟨e, false⟩) :
      evalBlock p b' m = .error ⟨e, false⟩ := by
    rcases refines.stop m e stopped with same | late
    · exact same
    · exact absurd noFault' (fault_of_late late)
  rw [error_of_evalBlock noFault, error_of_evalBlock noFault']
  refine ⟨fun stopped => ?_, forth e⟩
  cases ran : evalBlock p b m with
  | ok out =>
    obtain ⟨n', ran', _⟩ := refines.value m out.1 out.2 ran
    rw [stopped] at ran'
    cases ran'
  | error stop =>
    obtain ⟨cause, fault⟩ := stop
    cases fault with
    | true => exact absurd ran (noFault cause)
    | false =>
      have same := forth cause ran
      rw [stopped] at same
      cases same
      rfl

end Probe

/-- Elision keeps the meaning of a well-scoped body. -/
theorem elide_preserves_meaning (g : Generated) (order : Wire.ByteOrder) (size fuel depth : Nat)
    (b : Block) (wellScoped : b.WellScoped) (m : Machine) :
    (∀ v n, Run.evalBlock (g.programAt order size fuel depth) b m = .ok (v, n) →
      ∃ n', Run.evalBlock (g.programAt order size fuel depth) b.elide m = .ok (v, n') ∧
        n'.events = n.events ∧ n'.stream = n.stream ∧
        ∀ x, ¬ Probe.Removed b b.elide x → n'.env.get? x = n.env.get? x) ∧
    (Probe.NoFault (g.programAt order size fuel depth) b m →
      Probe.NoFault (g.programAt order size fuel depth) b.elide m → ∀ e,
      Run.evalBlock (g.programAt order size fuel depth) b.elide m = .error e ↔
        Run.evalBlock (g.programAt order size fuel depth) b m = .error e) := by
  have isolated : (g.programAt order size fuel depth).Isolated := Calls.isolated_nested g order size fuel depth
  have refines := (Probe.refines_elide isolated b wellScoped.tidy).1
  refine ⟨fun v n ran => ?_, refines.error_iff⟩
  obtain ⟨n', ran', step⟩ := refines.value m v n (Probe.ok_of_evalBlock.mp ran)
  refine ⟨n', Probe.ok_of_evalBlock.mpr ran', step.events, step.stream, fun x kept => ?_⟩
  rw [Env.get?, step.env x kept, Env.get?]

/-- A body with a binding of each kind: one stays, one is unused, one is forwarded and one moves into
the result. -/
def wideningBody : Block :=
  { stmts :=
      [.bind ⟨0, "raw"⟩ false (some (.read .u8)), .bind ⟨1, "skipped"⟩ false (some (.read .u8)),
        .bind ⟨2, "wide"⟩ false (some (.cast (.var ⟨0, "raw"⟩) .i32)),
        .bind ⟨3, "flag"⟩ false (some (.read .bool))]
    result := .struct "Sample" [("wide", .var ⟨2, "wide"⟩), ("flag", .var ⟨3, "flag"⟩)] }

/-- On one byte, the body fails in the binding that is unused, with and without elision. -/
theorem elide_preserves_meaning_widening :
    wideningBody.WellScoped ∧
    Run.evalBlock (Generated.programAt ⟨[], [], []⟩ .big 0 1 0) wideningBody.elide
      ⟨[], .input (.ofBytes [7]), []⟩ = .error (.decode .unexpectedEnd) := by
  have wellScoped : wideningBody.WellScoped := ⟨by decide, by decide, by decide, by decide⟩
  have kept := elide_preserves_meaning ⟨[], [], []⟩ .big 0 1 0 wideningBody wellScoped
    ⟨[], .input (.ofBytes [7]), []⟩
  refine ⟨wellScoped, (kept.2 ?_ ?_ _).mpr rfl⟩
  · rintro e stopped
    cases stopped
  · rintro e stopped
    cases stopped

end WireSchema
