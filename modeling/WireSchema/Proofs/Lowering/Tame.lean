import WireSchema.Proofs.Session.Growth

/-!
# Computations that keep registries sound

A computation is tame if the session goes on: the references stay, the registry grows and stays
sound. Tame computations are closed under all that generation is put together of.
-/

namespace WireSchema.Lowering

open Ir

/-- A session goes on: the references stay, the registry grows and stays sound. -/
structure Advances (hooks : Hooks) (types : Refs) (s s' : Session) : Prop where
  refs : s'.refs = types
  grows : s.registry.Grows s'.registry
  sound : s.registry.Sound hooks types → s'.registry.Sound hooks types

/-- The computation makes sessions go on, and `Q` holds of what it yields. -/
def Tame (hooks : Hooks) (types : Refs) {α : Type} (act : Gen α) (Q : α → Prop) : Prop :=
  ∀ s a s', Gen.Runs act s a s' → s.refs = types → Advances hooks types s s' ∧ Q a

variable {hooks : Hooks} {types : Refs} {rank : String → Nat} {α β : Type}

theorem Advances.trans {s s' s'' : Session} (first : Advances hooks types s s')
    (second : Advances hooks types s' s'') : Advances hooks types s s'' :=
  ⟨second.refs, first.grows.trans second.grows, fun sound => second.sound (first.sound sound)⟩

/-- A change of the draft alone. -/
theorem advances_draft {s s' : Session} (refs : s.refs = types) (same : s'.refs = s.refs)
    (registry : s'.registry = s.registry) : Advances hooks types s s' := by
  refine ⟨same.trans refs, ?_, ?_⟩
  · rw [registry]
    exact .refl _
  · rw [registry]
    exact id

theorem tame_pure {a : α} {Q : α → Prop} (holds : Q a) : Tame hooks types (pure a) Q := by
  intro s b s' ran refs
  obtain ⟨rfl, rfl⟩ := Gen.runs_pure.mp ran
  exact ⟨advances_draft refs rfl rfl, holds⟩

theorem tame_throw {e : SchemaError} {Q : α → Prop} : Tame hooks types (throw e) Q :=
  fun _ _ _ ran => (Gen.runs_throw.mp ran).elim

theorem Tame.bind {act : Gen α} {next : α → Gen β} {Q : α → Prop} {Q' : β → Prop}
    (first : Tame hooks types act Q) (second : ∀ a, Q a → Tame hooks types (next a) Q') :
    Tame hooks types (act >>= next) Q' := by
  intro s b s' ran refs
  obtain ⟨a, s₁, ran₁, ran₂⟩ := Gen.runs_bind.mp ran
  obtain ⟨step, holds⟩ := first s a s₁ ran₁ refs
  obtain ⟨step', holds'⟩ := second a holds s₁ b s' ran₂ step.refs
  exact ⟨step.trans step', holds'⟩

theorem Tame.weaken {act : Gen α} {Q Q' : α → Prop} (tame : Tame hooks types act Q)
    (weaker : ∀ a, Q a → Q' a) : Tame hooks types act Q' := by
  intro s a s' ran refs
  obtain ⟨step, holds⟩ := tame s a s' ran refs
  exact ⟨step, weaker a holds⟩

theorem Tame.forget {act : Gen α} {Q : α → Prop} (tame : Tame hooks types act Q) :
    Tame hooks types act fun _ => True := tame.weaken fun _ _ => trivial

theorem Tame.map {act : Gen α} {f : α → β} {Q : β → Prop} (tame : Tame hooks types act (Q ∘ f)) :
    Tame hooks types (f <$> act) Q := by
  rw [map_eq_pure_bind]
  exact tame.bind fun _ holds => tame_pure holds

theorem Tame.discard {act : Gen α} {Q : α → Prop} (tame : Tame hooks types act Q) :
    Tame hooks types (discard act) fun _ => True := by
  intro s u s' ran refs
  obtain ⟨a, ran⟩ := Gen.runs_discard.mp ran
  exact ⟨(tame s a s' ran refs).1, trivial⟩

theorem tame_ofExcept {result : Except SchemaError α} :
    Tame hooks types (Gen.ofExcept result) fun a => result = .ok a := by
  intro s a s' ran refs
  obtain ⟨same, rfl⟩ := Gen.runs_ofExcept.mp ran
  exact ⟨advances_draft refs rfl rfl, same⟩

/-! ### The draft -/

/-- What happens between two changes of the draft. -/
theorem Tame.between {enter leave : Session → Session} {act : Gen α} {Q : α → Prop}
    (tame : Tame hooks types act Q)
    (entered : ∀ s, (enter s).refs = s.refs ∧ (enter s).registry = s.registry)
    (left : ∀ s, (leave s).refs = s.refs ∧ (leave s).registry = s.registry) :
    Tame hooks types (Gen.between enter leave act) Q := by
  intro s a s' ran refs
  obtain ⟨s₁, within, rfl⟩ := Gen.runs_between.mp ran
  have before : Advances hooks types s (enter s) :=
    advances_draft refs (entered s).1 (entered s).2
  obtain ⟨step, holds⟩ := tame _ _ _ within before.refs
  exact ⟨(before.trans step).trans (advances_draft step.refs (left s₁).1 (left s₁).2), holds⟩

theorem Tame.withHint {hint : String} {act : Gen α} {Q : α → Prop} (tame : Tame hooks types act Q) :
    Tame hooks types (Gen.withHint hint act) Q :=
  tame.between (fun _ => ⟨rfl, rfl⟩) (fun _ => ⟨rfl, rfl⟩)

theorem Tame.withGroup {group : Nat} {raw : Option Expr} {act : Gen α} {Q : α → Prop}
    (tame : Tame hooks types act Q) : Tame hooks types (Gen.withGroup group raw act) Q :=
  tame.between (fun _ => ⟨rfl, rfl⟩) (fun _ => ⟨rfl, rfl⟩)

theorem Tame.nested {hint : String} {act : Gen α} {Q : α → Prop} (tame : Tame hooks types act Q) :
    Tame hooks types (Gen.nested hint act) Q := by
  intro s a s' ran refs
  obtain ⟨s₁, within, rfl⟩ := Gen.runs_nested.mp ran
  obtain ⟨step, holds⟩ := tame _ _ _ within refs
  exact ⟨⟨step.refs, step.grows, step.sound⟩, holds⟩

theorem Tame.inScope {act : Gen α} {Q : α → Prop} (tame : Tame hooks types act Q) :
    Tame hooks types (Gen.inScope act) fun out => Q out.2 := by
  intro s out s' ran refs
  obtain ⟨s₁, within, _, rfl⟩ := Gen.runs_inScope.mp ran
  obtain ⟨step, holds⟩ := tame _ _ _ within refs
  exact ⟨⟨step.refs, step.grows, step.sound⟩, holds⟩

theorem Tame.capture {act : Gen α} {Q : α → Prop} (tame : Tame hooks types act Q) :
    Tame hooks types (Gen.capture act) fun out => Q out.2 :=
  tame.inScope.bind fun _ holds => tame_pure holds

theorem Tame.captureBlock {act : Gen Expr} {Q : Expr → Prop} (tame : Tame hooks types act Q) :
    Tame hooks types (Gen.captureBlock act) fun _ => True :=
  tame.capture.bind fun _ _ => tame_pure trivial

theorem tame_updateDraft {f : Draft → Draft} :
    Tame hooks types (Gen.updateDraft f) fun _ => True := by
  intro s u s' ran refs
  cases Gen.runs_updateDraft.mp ran
  exact ⟨advances_draft refs rfl rfl, trivial⟩

theorem tame_emit {st : Stmt} : Tame hooks types (Gen.emit st) fun _ => True := tame_updateDraft

theorem tame_alloc {requested : String} : Tame hooks types (Gen.alloc requested) fun _ => True := by
  intro s x s' ran refs
  obtain ⟨_, rfl⟩ := Gen.runs_alloc.mp ran
  exact ⟨advances_draft refs rfl rfl, trivial⟩

theorem tame_param {name : String} : Tame hooks types (Gen.param name) fun _ => True := by
  intro s x s' ran refs
  obtain ⟨_, rfl⟩ := Gen.runs_param.mp ran
  exact ⟨advances_draft refs rfl rfl, trivial⟩

theorem Tame.declare {requested : String} {init : Gen Expr} {Q : Expr → Prop}
    (tame : Tame hooks types init Q) :
    Tame hooks types (Gen.declare requested init) fun _ => True :=
  tame.inScope.bind fun _ _ => tame_updateDraft.bind fun _ _ => tame_alloc.bind fun _ _ =>
    tame_emit.bind fun _ _ => tame_pure trivial

theorem tame_declareMut {requested : String} {init : Expr} :
    Tame hooks types (Gen.declareMut requested init) fun _ => True :=
  tame_alloc.bind fun _ _ => tame_emit.bind fun _ _ => tame_pure trivial

theorem tame_declareDeferred {requested : String} :
    Tame hooks types (Gen.declareDeferred requested) fun _ => True :=
  tame_alloc.bind fun _ _ => tame_emit.bind fun _ _ => tame_pure trivial

theorem tame_lastHint {fallback : String} :
    Tame hooks types (Gen.lastHint fallback) fun _ => True := by
  intro s x s' ran refs
  obtain ⟨_, rfl⟩ := Gen.runs_lastHint.mp ran
  exact ⟨advances_draft refs rfl rfl, trivial⟩

theorem tame_activeGroup? {group : Nat} :
    Tame hooks types (Gen.activeGroup? group) fun _ => True := by
  intro s x s' ran refs
  obtain ⟨_, rfl⟩ := Gen.runs_activeGroup?.mp ran
  exact ⟨advances_draft refs rfl rfl, trivial⟩

/-! ### Shapes -/

theorem tame_refs : Tame hooks types Gen.refs (· = types) := by
  intro s x s' ran refs
  obtain ⟨rfl, rfl⟩ := Gen.runs_refs.mp ran
  exact ⟨advances_draft refs rfl rfl, refs⟩

theorem tame_canonicalName {s : Shape} :
    Tame hooks types (Gen.canonicalName s) (· = s.canonicalName types) := by
  intro σ x σ' ran refs
  obtain ⟨rfl, rfl⟩ := Gen.runs_canonicalName.mp ran
  exact ⟨advances_draft refs rfl rfl, by rw [refs]⟩

theorem tame_resolved {s : Shape} :
    Tame hooks types (Gen.resolved s) fun found => s.resolved types = .ok found := by
  intro σ x σ' ran refs
  obtain ⟨found, rfl⟩ := Gen.runs_resolved.mp ran
  exact ⟨advances_draft refs rfl rfl, by rw [← refs, found]⟩

theorem tame_storedFields {s : Shape} :
    Tame hooks types (Gen.storedFields s) fun fields => s.storedFields types = .ok fields := by
  intro σ x σ' ran refs
  obtain ⟨found, rfl⟩ := Gen.runs_storedFields.mp ran
  exact ⟨advances_draft refs rfl rfl, by rw [← refs, found]⟩

/-! ### Lists -/

theorem tame_mapM {f : α → Gen β} {items : List α}
    (each : ∀ a ∈ items, Tame hooks types (f a) fun _ => True) :
    Tame hooks types (items.mapM f) fun _ => True := by
  induction items with
  | nil =>
    rw [List.mapM_nil]
    exact tame_pure trivial
  | cons first rest ih =>
    rw [List.mapM_cons]
    refine (each first (by simp)).bind fun _ _ => ?_
    exact (ih fun a member => each a (by simp [member])).bind fun _ _ => tame_pure trivial

theorem tame_forM {f : α → Gen Unit} {items : List α}
    (each : ∀ a ∈ items, Tame hooks types (f a) fun _ => True) :
    Tame hooks types (items.forM f) fun _ => True := by
  induction items with
  | nil => exact tame_pure trivial
  | cons first rest ih =>
    refine (each first (by simp)).bind fun _ _ => ?_
    exact ih fun a member => each a (by simp [member])

end WireSchema.Lowering
