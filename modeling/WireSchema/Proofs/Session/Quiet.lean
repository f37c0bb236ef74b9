import WireSchema.Proofs.Session.Runs

/-!
# Computations that leave the draft alone

A computation that declares works on drafts of its own. What the session emits in the meantime is
not changed by it.
-/

namespace WireSchema

open Ir

/-- The computation leaves the draft as it was. -/
def Gen.Quiet {α : Type} (act : Gen α) : Prop :=
  ∀ s a t, Runs act s a t → t.draft = s.draft

namespace Gen

variable {α β : Type}

theorem quiet_pure (a : α) : Quiet (pure a) := by
  intro s b t ran
  obtain ⟨_, rfl⟩ := runs_pure.mp ran
  rfl

theorem quiet_throw (e : SchemaError) : Quiet (throw e : Gen α) :=
  fun _ _ _ ran => (runs_throw.mp ran).elim

theorem Quiet.bind {act : Gen α} {next : α → Gen β} (first : Quiet act)
    (second : ∀ a, Quiet (next a)) : Quiet (act >>= next) := by
  intro s b t ran
  obtain ⟨a, u, ran₁, ran₂⟩ := runs_bind.mp ran
  rw [second a u b t ran₂, first s a u ran₁]

theorem Quiet.discard {act : Gen α} (quiet : Quiet act) : Quiet (discard act) := by
  intro s u t ran
  obtain ⟨a, ran⟩ := runs_discard.mp ran
  exact quiet s a t ran

/-- A computation that only looks at the session. -/
theorem quiet_look {act : Gen α} (looks : ∀ s a t, Runs act s a t → t = s) : Quiet act := by
  intro s a t ran
  rw [looks s a t ran]

theorem quiet_ofExcept (result : Except SchemaError α) : Quiet (ofExcept result) :=
  quiet_look fun _ _ _ ran => (runs_ofExcept.mp ran).2

theorem quiet_refs : Quiet refs := quiet_look fun _ _ _ ran => (runs_refs.mp ran).2

theorem quiet_registry : Quiet registry := quiet_look fun _ _ _ ran => (runs_registry.mp ran).2

theorem quiet_canonicalName (s : Shape) : Quiet (canonicalName s) :=
  quiet_look fun _ _ _ ran => (runs_canonicalName.mp ran).2

theorem quiet_resolved (s : Shape) : Quiet (resolved s) :=
  quiet_look fun _ _ _ ran => (runs_resolved.mp ran).2

theorem quiet_storedFields (s : Shape) : Quiet (storedFields s) :=
  quiet_look fun _ _ _ ran => (runs_storedFields.mp ran).2

theorem quiet_aliasOf? (signature : String) : Quiet (aliasOf? signature) :=
  quiet_look fun _ _ _ ran => (runs_aliasOf?.mp ran).2

theorem quiet_hintName (fallback : String) : Quiet (hintName fallback) :=
  quiet_look fun _ _ _ ran => (runs_hintName.mp ran).2

theorem quiet_lastHint (fallback : String) : Quiet (lastHint fallback) :=
  quiet_look fun _ _ _ ran => (runs_lastHint.mp ran).2

theorem Quiet.withHint {hint : String} {act : Gen α} (quiet : Quiet act) :
    Quiet (withHint hint act) := by
  intro s a t ran
  obtain ⟨u, inner, rfl⟩ := runs_withHint.mp ran
  simp only [quiet _ _ _ inner, List.tail_cons]

theorem quiet_nested (hint : String) (act : Gen α) : Quiet (nested hint act) := by
  intro s a t ran
  obtain ⟨u, _, rfl⟩ := runs_nested.mp ran
  rfl

theorem quiet_forM {f : α → Gen Unit} (each : ∀ a, Quiet (f a)) (items : List α) :
    Quiet (items.forM f) := by
  induction items with
  | nil => exact quiet_pure ()
  | cons first rest ih => exact (each first).bind fun _ => ih

theorem quiet_registerAlias (signature name : String) : Quiet (registerAlias signature name) := by
  intro s a t ran
  obtain ⟨_, rfl⟩ := runs_registerAlias.mp ran
  rfl

theorem quiet_registerFunction (path : String) (f : HostFunction) :
    Quiet (registerFunction path f) := by
  intro s a t ran
  cases runs_updateRegistry.mp ran
  rfl

theorem quiet_registerGlobal (name : String) {define : Gen Decl} (quiet : Quiet define) :
    Quiet (registerGlobal name define) := by
  intro s a t ran
  obtain ⟨_, ⟨_, rfl⟩ | ⟨_, d, u, defined, rfl⟩⟩ := runs_registerGlobal.mp ran
  · rfl
  · have same := quiet _ _ _ defined
    exact same

theorem quiet_registerConstant (key desired : String) {define : String → Gen Decl}
    (quiet : ∀ name, Quiet (define name)) : Quiet (registerConstant key desired define) := by
  intro s a t ran
  rcases runs_registerConstant.mp ran with ⟨_, rfl⟩ | ⟨_, _, d, u, defined, rfl⟩
  · rfl
  · have same := quiet _ _ _ _ defined
    exact same

end Gen

end WireSchema
