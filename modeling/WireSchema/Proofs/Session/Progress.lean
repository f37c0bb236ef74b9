import WireSchema.Proofs.Session.Ownership

/-!
# Generation that succeeds

A computation proceeds if it succeeds in every session in the middle of a function, with given bit
groups at hand, and leaves such a session. The rules follow the operations of a session.
-/

namespace WireSchema

open Ir

namespace Gen

/-- In every session that is ready and has the bit groups at hand the computation succeeds; the
session after it is such a session, and `Q` holds of the value. -/
def Proceeds (types : Refs) (groups : List ActiveGroup) {α : Type} (act : Gen α) (Q : α → Prop) :
    Prop :=
  ∀ σ, σ.Ready types → σ.draft.groups = groups →
    ∃ a τ, Runs act σ a τ ∧ τ.Ready types ∧ τ.draft.groups = groups ∧ Q a

variable {types : Refs} {groups : List ActiveGroup} {α β : Type}

theorem proceeds_pure {a : α} {Q : α → Prop} (holds : Q a) : Proceeds types groups (pure a) Q :=
  fun σ ready same => ⟨a, σ, runs_pure.mpr ⟨rfl, rfl⟩, ready, same, holds⟩

theorem Proceeds.bind {act : Gen α} {next : α → Gen β} {Q : α → Prop} {Q' : β → Prop}
    (first : Proceeds types groups act Q) (second : ∀ a, Q a → Proceeds types groups (next a) Q') :
    Proceeds types groups (act >>= next) Q' := by
  intro σ ready same
  obtain ⟨a, σ₁, ran₁, ready₁, same₁, holds⟩ := first σ ready same
  obtain ⟨b, τ, ran₂, ready₂, same₂, holds'⟩ := second a holds σ₁ ready₁ same₁
  exact ⟨b, τ, runs_bind.mpr ⟨a, σ₁, ran₁, ran₂⟩, ready₂, same₂, holds'⟩

theorem Proceeds.weaken {act : Gen α} {Q Q' : α → Prop} (proceeds : Proceeds types groups act Q)
    (weaker : ∀ a, Q a → Q' a) : Proceeds types groups act Q' := by
  intro σ ready same
  obtain ⟨a, τ, ran, ready', same', holds⟩ := proceeds σ ready same
  exact ⟨a, τ, ran, ready', same', weaker a holds⟩

theorem Proceeds.succeeds {σ : Session} {act : Gen α}
    (proceeds : Proceeds types σ.draft.groups act fun _ => True) (ready : σ.Ready types) :
    ∃ a τ, Runs act σ a τ := by
  obtain ⟨a, τ, ran, _⟩ := proceeds σ ready rfl
  exact ⟨a, τ, ran⟩

/-- A computation that only looks at the session. -/
theorem proceeds_look {act : Gen α} {Q : α → Prop}
    (looks : ∀ σ, σ.Ready types → σ.draft.groups = groups → ∃ a, Runs act σ a σ ∧ Q a) :
    Proceeds types groups act Q := by
  intro σ ready same
  obtain ⟨a, ran, holds⟩ := looks σ ready same
  exact ⟨a, σ, ran, ready, same, holds⟩

theorem proceeds_ofExcept {r : Except SchemaError α} {a : α} (found : r = .ok a) :
    Proceeds types groups (ofExcept r) (· = a) :=
  proceeds_look fun _ _ _ => ⟨a, runs_ofExcept.mpr ⟨found, rfl⟩, rfl⟩

theorem proceeds_refs : Proceeds types groups refs (· = types) :=
  proceeds_look fun σ ready _ => ⟨σ.refs, runs_refs.mpr ⟨rfl, rfl⟩, ready.refs⟩

theorem proceeds_canonicalName (t : Shape) :
    Proceeds types groups (canonicalName t) fun _ => True :=
  proceeds_look fun _ _ _ => ⟨_, runs_canonicalName.mpr ⟨rfl, rfl⟩, trivial⟩

theorem proceeds_lastHint (fallback : String) :
    Proceeds types groups (lastHint fallback) fun _ => True :=
  proceeds_look fun _ _ _ => ⟨_, runs_lastHint.mpr ⟨rfl, rfl⟩, trivial⟩

theorem proceeds_hintName (fallback : String) :
    Proceeds types groups (hintName fallback) fun _ => True :=
  proceeds_look fun _ _ _ => ⟨_, runs_hintName.mpr ⟨rfl, rfl⟩, trivial⟩

theorem proceeds_aliasOf? (signature : String) :
    Proceeds types groups (aliasOf? signature) fun _ => True :=
  proceeds_look fun _ _ _ => ⟨_, runs_aliasOf?.mpr ⟨rfl, rfl⟩, trivial⟩

theorem proceeds_activeGroup? (group : Nat) :
    Proceeds types groups (activeGroup? group) (· = groups.find? (·.group == group)) := by
  refine proceeds_look fun σ _ same => ⟨_, runs_activeGroup?.mpr ⟨rfl, rfl⟩, ?_⟩
  rw [Draft.activeGroup?, same]

theorem proceeds_storedFields {t : Shape} {fields : List Field}
    (found : t.storedFields types = .ok fields) :
    Proceeds types groups (storedFields t) (· = fields) := by
  refine proceeds_look fun σ ready _ => ⟨fields, runs_storedFields.mpr ⟨?_, rfl⟩, rfl⟩
  rw [ready.refs]
  exact found

/-- A computation that leaves the draft alone and the registry hygienic. -/
theorem proceeds_of_quiet {act : Gen α} (succeeds : ∀ σ, σ.Ready types → ∃ a τ, Runs act σ a τ)
    (keeps : Keeps types act fun _ => True) (quiet : Quiet act) :
    Proceeds types groups act fun _ => True := by
  intro σ ready same
  obtain ⟨a, τ, ran⟩ := succeeds σ ready
  have draft : τ.draft = σ.draft := quiet σ a τ ran
  refine ⟨a, τ, ran, ⟨(keeps σ a τ ran ready.toFits).1, ?_, ?_⟩, ?_, trivial⟩
  all_goals rw [draft]
  exacts [ready.opened, ready.groups, same]

theorem Proceeds.withHint {act : Gen α} {Q : α → Prop} (proceeds : Proceeds types groups act Q)
    (hint : String) : Proceeds types groups (withHint hint act) Q := by
  intro σ ready same
  obtain ⟨a, τ, ran, ready', same', holds⟩ := proceeds _ (ready.withHints (hint :: σ.draft.hints)) same
  exact ⟨a, _, runs_withHint.mpr ⟨τ, ran, rfl⟩, ready'.withHints _, same', holds⟩

/-- The bit group is at hand for as long as the computation lasts. -/
theorem Proceeds.withGroup {group : Nat} {raw : Option Expr} {act : Gen α} {Q : α → Prop}
    (proceeds : Proceeds types (⟨group, raw⟩ :: groups) act Q) {σ : Session} (ready : σ.Ready types)
    (same : σ.draft.groups = groups)
    (known : ∀ e, raw = some e → ∀ x ∈ e.locals, x < σ.draft.nextLocal) :
    ∃ a τ, Runs (withGroup group raw act) σ a τ ∧ Q a := by
  obtain ⟨a, τ, ran, _, _, holds⟩ := proceeds _ (ready.withGroup known) (congrArg (_ :: ·) same)
  exact ⟨a, _, runs_withGroup.mpr ⟨τ, ran, rfl⟩, holds⟩

theorem proceeds_emit (s : Stmt) : Proceeds types groups (emit s) fun _ => True := by
  intro σ ready same
  have grows := σ.draft.grows_emit s
  exact ⟨(), _, runs_emit.mpr rfl, ready.grow ⟨ready.refs, ready.codecs⟩ grows,
    grows.groups.trans same, trivial⟩

theorem proceeds_alloc (requested : String) :
    Proceeds types groups (alloc requested) fun _ => True := by
  intro σ ready same
  have grows := σ.draft.grows_alloc requested
  exact ⟨_, _, runs_alloc.mpr ⟨rfl, rfl⟩, ready.grow ⟨ready.refs, ready.codecs⟩ grows,
    grows.groups.trans same, trivial⟩

/-- A binding can be allocated, and stands before those to come. -/
theorem succeeds_alloc {σ : Session} (requested : String) (ready : σ.Ready types) :
    ∃ x τ, Runs (alloc requested) σ x τ ∧ τ.Ready types ∧ σ.draft.nextLocal ≤ x.id ∧
      x.id < τ.draft.nextLocal := by
  obtain ⟨x, τ, ran⟩ : ∃ x τ, Runs (alloc requested) σ x τ := ⟨_, _, runs_alloc.mpr ⟨rfl, rfl⟩⟩
  obtain ⟨ready', _, own, next⟩ := ready_alloc ran ready
  exact ⟨x, τ, ran, ready', by omega, by omega⟩

theorem proceeds_declareMut (requested : String) (init : Expr) :
    Proceeds types groups (declareMut requested init) fun _ => True :=
  (proceeds_alloc requested).bind fun _ _ => (proceeds_emit _).bind fun _ _ => proceeds_pure trivial

theorem Proceeds.declare {requested : String} {init : Gen Expr} {Q : Expr → Prop}
    (proceeds : Proceeds types groups init Q)
    (builds : ∀ visible, Builds types visible [] init Yields) :
    Proceeds types groups (declare requested init) fun _ => True := by
  intro σ ready same
  obtain ⟨e, σ₁, ran, _⟩ := proceeds _ ready.pushScope same
  obtain ⟨x, τ, declared⟩ : ∃ x τ, Runs (Gen.declare requested init) σ x τ :=
    ⟨_, _, runs_declare.mpr ⟨e, σ₁, _, ran, rfl, rfl, rfl⟩⟩
  obtain ⟨_, _, _, _, _, _, emits, _⟩ := emits_declare declared ready builds
  obtain ⟨_, grows⟩ := emits.grows
  exact ⟨x, τ, declared, emits.ready, grows.groups.trans same, trivial⟩

theorem Proceeds.captureBlock {act : Gen Expr} {Q : Expr → Prop}
    (proceeds : Proceeds types groups act Q)
    (builds : ∀ visible, Builds types visible [] act Yields) :
    Proceeds types groups (captureBlock act) fun _ => True := by
  intro σ ready same
  obtain ⟨e, σ₁, ran, _⟩ := proceeds _ ready.pushScope same
  obtain ⟨b, τ, captured⟩ : ∃ b τ, Runs (Gen.captureBlock act) σ b τ :=
    ⟨_, _, runs_captureBlock.mpr ⟨e, σ₁, ran, rfl, rfl⟩⟩
  obtain ⟨_, _, _, _, _, _, _, ready', _, grows⟩ := emits_captureBlock captured ready builds
  exact ⟨b, τ, captured, ready', grows.groups.trans same, trivial⟩

theorem proceeds_mapM {f : α → Gen β} {items : List α}
    (each : ∀ a ∈ items, Proceeds types groups (f a) fun _ => True) :
    Proceeds types groups (items.mapM f) fun _ => True := by
  induction items with
  | nil =>
    rw [List.mapM_nil]
    exact proceeds_pure trivial
  | cons first rest ih =>
    rw [List.mapM_cons]
    obtain ⟨here, later⟩ := List.forall_mem_cons.mp each
    exact here.bind fun _ _ => (ih later).bind fun _ _ => proceeds_pure trivial

end Gen

end WireSchema
