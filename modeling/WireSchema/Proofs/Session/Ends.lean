import WireSchema.Proofs.Session.Runs
import WireSchema.Proofs.Shape.Settled

/-!
# Generation that comes to an end

A computation ends if it never goes down too deep and never comes upon a reference that leads nowhere,
whatever session it starts in; it may fail for other reasons. The rules follow the operations of a
session.
-/

namespace WireSchema

open Ir

namespace Gen

/-- In every session with the table of references the computation succeeds with a value of which `Q`
holds, or fails for a finite reason; the table stays. -/
def Ends (types : Refs) {α : Type} (act : Gen α) (Q : α → Prop) : Prop :=
  ∀ s, s.refs = types → (act.start s).2.refs = types ∧
    (∀ a, (act.start s).1 = .ok a → Q a) ∧ FailsOnly SchemaError.IsFinite (act.start s).1

variable {types : Refs} {α β : Type}

theorem ends_pure {a : α} {Q : α → Prop} (holds : Q a) : Ends types (pure a) Q := by
  intro s refs
  refine ⟨refs, fun b same => ?_, failsOnly_ok a⟩
  rw [← Except.ok.inj same]
  exact holds

theorem ends_throw {e : SchemaError} {Q : α → Prop} (finite : e.IsFinite) :
    Ends types (throw e) Q :=
  fun _ refs => ⟨refs, nofun, failsOnly_error finite⟩

theorem Ends.bind {act : Gen α} {next : α → Gen β} {Q : α → Prop} {Q' : β → Prop}
    (first : Ends types act Q) (second : ∀ a, Q a → Ends types (next a) Q') :
    Ends types (act >>= next) Q' := by
  intro s refs
  obtain ⟨kept, holds, finite⟩ := first s refs
  rw [start_bind]
  cases ran : act.start s with
  | mk result s₁ =>
    rw [ran] at kept holds finite
    cases result with
    -- The rest starts in the session that is left, with the same references.
    | ok a => exact second a (holds a rfl) s₁ kept
    | error e => exact ⟨kept, nofun, failsOnly_error (finite e rfl)⟩

theorem Ends.weaken {act : Gen α} {Q Q' : α → Prop} (ends : Ends types act Q)
    (weaker : ∀ a, Q a → Q' a) : Ends types act Q' := by
  intro s refs
  obtain ⟨kept, holds, finite⟩ := ends s refs
  exact ⟨kept, fun a same => weaker a (holds a same), finite⟩

theorem Ends.forget {act : Gen α} {Q : α → Prop} (ends : Ends types act Q) :
    Ends types act fun _ => True := ends.weaken fun _ _ => trivial

theorem Ends.map {act : Gen α} {Q : α → Prop} (ends : Ends types act Q) (f : α → β) :
    Ends types (f <$> act) fun _ => True := by
  rw [map_eq_pure_bind]
  exact ends.bind fun _ _ => ends_pure trivial

theorem Ends.discard {act : Gen α} {Q : α → Prop} (ends : Ends types act Q) :
    Ends types (discard act) fun _ => True := ends.map _

theorem ends_ofExcept {result : Except SchemaError α} (finite : FailsOnly SchemaError.IsFinite result) :
    Ends types (ofExcept result) fun a => result = .ok a := by
  cases result with
  | ok a => exact ends_pure rfl
  | error e => exact ends_throw (finite e rfl)

/-- A check that may fail, and what comes after it. -/
theorem ends_guard {c : Prop} [Decidable c] {failure : Gen PUnit} {next : PUnit → Gen β}
    {Q : β → Prop} (fails : Ends types failure fun _ => True) (success : Ends types (next ⟨⟩) Q) :
    Ends types (if c then failure >>= next else next ⟨⟩) Q := by
  split
  · exact fails.bind fun _ _ => success
  · exact success

/-! ### The session -/

/-- A computation that only looks at the session. -/
theorem ends_look {act : Gen α} {Q : α → Prop}
    (looks : ∀ s, s.refs = types → ∃ a, act.start s = (.ok a, s) ∧ Q a) : Ends types act Q := by
  intro s refs
  obtain ⟨a, ran, holds⟩ := looks s refs
  rw [ran]
  refine ⟨refs, fun b same => ?_, failsOnly_ok a⟩
  rw [← Except.ok.inj same]
  exact holds

theorem ends_refs : Ends types refs (· = types) := ends_look fun s same => ⟨s.refs, rfl, same⟩

theorem ends_registry : Ends types registry fun _ => True :=
  ends_look fun s _ => ⟨s.registry, rfl, trivial⟩

theorem ends_canonicalName (s : Shape) : Ends types (canonicalName s) fun _ => True :=
  ends_refs.bind fun _ _ => ends_pure trivial

theorem ends_aliasOf? (signature : String) : Ends types (aliasOf? signature) fun _ => True :=
  ends_registry.bind fun _ _ => ends_pure trivial

theorem ends_draft : Ends types draft fun _ => True :=
  ends_look fun s _ => ⟨s.draft, rfl, trivial⟩

theorem ends_lastHint (fallback : String) : Ends types (lastHint fallback) fun _ => True :=
  ends_draft.bind fun _ _ => ends_pure trivial

theorem ends_hintName (fallback : String) : Ends types (hintName fallback) fun _ => True :=
  ends_draft.bind fun _ _ => ends_pure trivial

theorem ends_activeGroup? (group : Nat) : Ends types (activeGroup? group) fun _ => True :=
  ends_draft.bind fun _ _ => ends_pure trivial

theorem ends_updateDraft (f : Draft → Draft) : Ends types (updateDraft f) fun _ => True :=
  fun _ refs => ⟨refs, fun _ _ => trivial, failsOnly_ok ()⟩

theorem ends_updateRegistry (f : Registry → Registry) :
    Ends types (updateRegistry f) fun _ => True :=
  fun _ refs => ⟨refs, fun _ _ => trivial, failsOnly_ok ()⟩

theorem Ends.between {enter leave : Session → Session} {act : Gen α} {Q : α → Prop}
    (ends : Ends types act Q) (entered : ∀ s, (enter s).refs = s.refs)
    (left : ∀ s, (leave s).refs = s.refs) : Ends types (between enter leave act) Q := by
  intro s refs
  obtain ⟨kept, holds, finite⟩ := ends (enter s) ((entered s).trans refs)
  rw [start_between]
  exact ⟨(left _).trans kept, holds, finite⟩

/-! ### The draft -/

theorem Ends.withHint {act : Gen α} {Q : α → Prop} (ends : Ends types act Q) (hint : String) :
    Ends types (withHint hint act) Q := ends.between (fun _ => rfl) fun _ => rfl

theorem Ends.withGroup {act : Gen α} {Q : α → Prop} (ends : Ends types act Q) (group : Nat)
    (raw : Option Expr) : Ends types (withGroup group raw act) Q :=
  ends.between (fun _ => rfl) fun _ => rfl

theorem Ends.nested {act : Gen α} {Q : α → Prop} (ends : Ends types act Q) (hint : String) :
    Ends types (nested hint act) Q :=
  ends_draft.bind fun _ _ => ends.between (fun _ => rfl) fun _ => rfl

theorem Ends.inScope {act : Gen α} {Q : α → Prop} (ends : Ends types act Q) :
    Ends types (inScope act) fun out => Q out.2 := by
  intro s refs
  obtain ⟨kept, holds, finite⟩ := ends (mapDraft Draft.pushScope s) refs
  rw [start_inScope]
  cases ran : act.start (mapDraft Draft.pushScope s) with
  | mk result s₁ =>
    rw [ran] at kept holds finite
    cases result with
    | ok a =>
      refine ⟨kept, fun out same => ?_, failsOnly_ok _⟩
      rw [← Except.ok.inj same]
      exact holds a rfl
    | error e => exact ⟨kept, nofun, failsOnly_error (finite e rfl)⟩

theorem Ends.capture {act : Gen α} {Q : α → Prop} (ends : Ends types act Q) :
    Ends types (capture act) fun out => Q out.2 :=
  ends.inScope.bind fun _ holds => ends_pure holds

theorem Ends.captureBlock {act : Gen Expr} {Q : Expr → Prop} (ends : Ends types act Q) :
    Ends types (captureBlock act) fun _ => True :=
  ends.capture.bind fun _ _ => ends_pure trivial

theorem ends_emit (st : Stmt) : Ends types (emit st) fun _ => True := ends_updateDraft _

theorem ends_alloc (requested : String) : Ends types (alloc requested) fun _ => True :=
  ends_draft.bind fun _ _ => (ends_updateDraft _).bind fun _ _ => ends_pure trivial

theorem ends_param (name : String) : Ends types (param name) fun _ => True :=
  ends_draft.bind fun _ _ => (ends_updateDraft _).bind fun _ _ => ends_pure trivial

theorem Ends.declare {init : Gen Expr} {Q : Expr → Prop} (ends : Ends types init Q)
    (requested : String) : Ends types (declare requested init) fun _ => True :=
  ends.inScope.bind fun _ _ => (ends_updateDraft _).bind fun _ _ =>
    (ends_alloc requested).bind fun _ _ => (ends_emit _).bind fun _ _ => ends_pure trivial

theorem ends_declareMut (requested : String) (init : Expr) :
    Ends types (declareMut requested init) fun _ => True :=
  (ends_alloc requested).bind fun _ _ => (ends_emit _).bind fun _ _ => ends_pure trivial

theorem ends_declareDeferred (requested : String) :
    Ends types (declareDeferred requested) fun _ => True :=
  (ends_alloc requested).bind fun _ _ => (ends_emit _).bind fun _ _ => ends_pure trivial

/-! ### The registry -/

theorem ends_registerAlias (signature name : String) :
    Ends types (registerAlias signature name) fun _ => True :=
  ends_registry.bind fun _ _ => (ends_updateRegistry _).bind fun _ _ => ends_pure trivial

theorem ends_registerFunction (path : String) (f : HostFunction) :
    Ends types (registerFunction path f) fun _ => True := ends_updateRegistry _

theorem Ends.registerGlobal {define : Gen Decl} {Q : Decl → Prop} (ends : Ends types define Q)
    (name : String) : Ends types (registerGlobal name define) fun _ => True := by
  refine ends_registry.bind fun r _ => ?_
  split
  · exact ends_pure trivial
  -- The name is taken before its declaration is made, so a type may mention itself.
  · refine (ends_updateRegistry _).bind fun _ _ => ends.bind fun d _ => ?_
    exact (ends_updateRegistry _).bind fun _ _ => ends_pure trivial

theorem ends_registerConstant {define : String → Gen Decl}
    (ends : ∀ name, Ends types (define name) fun _ => True) (key desired : String) :
    Ends types (registerConstant key desired define) fun _ => True := by
  refine ends_registry.bind fun r _ => ?_
  split
  · exact ends_pure trivial
  · refine ends_registry.bind fun r _ => (ends_updateRegistry _).bind fun _ _ => ?_
    refine (ends _).bind fun d _ => ?_
    exact (ends_updateRegistry _).bind fun _ _ => ends_pure trivial

/-! ### Shapes -/

variable {rank : String → Nat} {n : Nat} {s : Shape}

theorem ends_resolved (ranked : types.Ranked rank) (grounded : s.Grounded types n) :
    Ends types (resolved s) fun t => s.resolved types = .ok t := by
  refine ends_refs.bind fun table same => ?_
  subst same
  obtain ⟨t, found⟩ := grounded.resolves ranked
  refine ends_ofExcept ?_
  rw [found]
  exact failsOnly_ok t

theorem ends_storedFields (ranked : types.Ranked rank) (grounded : s.Grounded types n) :
    Ends types (storedFields s) fun fields => s.storedFields types = .ok fields := by
  refine ends_refs.bind fun table same => ?_
  subst same
  exact ends_ofExcept (grounded.finite_storedFields ranked)

/-! ### Lists -/

theorem ends_mapM {f : α → Gen β} {items : List α}
    (each : ∀ a ∈ items, Ends types (f a) fun _ => True) :
    Ends types (items.mapM f) fun _ => True := by
  induction items with
  | nil =>
    rw [List.mapM_nil]
    exact ends_pure trivial
  | cons first rest ih =>
    rw [List.mapM_cons]
    obtain ⟨here, later⟩ := List.forall_mem_cons.mp each
    exact here.bind fun _ _ => (ih later).bind fun _ _ => ends_pure trivial

theorem ends_forM {f : α → Gen Unit} {items : List α}
    (each : ∀ a ∈ items, Ends types (f a) fun _ => True) :
    Ends types (items.forM f) fun _ => True := by
  induction items with
  | nil => exact ends_pure trivial
  | cons first rest ih =>
    obtain ⟨here, later⟩ := List.forall_mem_cons.mp each
    exact here.bind fun _ _ => ih later

end Gen

end WireSchema
