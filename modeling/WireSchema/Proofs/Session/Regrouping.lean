import WireSchema.Proofs.Session.Runs
import WireSchema.Proofs.Shape.Regrouping

/-!
# Generation under other numbers of groups

Two computations are run side by side, the second on a session whose bit groups are numbered anew.
They regroup if they end alike: both with related results, in sessions that again differ in the
numbers of groups only, or both with the same error.
-/

namespace WireSchema

open Ir

/-! ### Sessions -/

/-- The struct at hand, with another number for its group. -/
def ActiveGroup.regroup (ρ : Nat → Nat) (g : ActiveGroup) : ActiveGroup :=
  { g with group := ρ g.group }

/-- The draft with other numbers for its groups. -/
def Draft.regroup (ρ : Nat → Nat) (d : Draft) : Draft :=
  { d with groups := d.groups.map (ActiveGroup.regroup ρ) }

/-- The session with other numbers for its groups. -/
def Session.regroup (ρ : Nat → Nat) (s : Session) : Session :=
  { s with draft := s.draft.regroup ρ, refs := s.refs.regroup ρ, nextGroup := ρ s.nextGroup }

namespace Draft

variable {ρ : Nat → Nat} (d : Draft)

theorem updateScope_regroup (f : Scope → Scope) :
    (d.regroup ρ).updateScope f = (d.updateScope f).regroup ρ := by
  obtain ⟨scopes, _, _, _, _⟩ := d
  cases scopes <;> rfl

theorem popScope_regroup : (d.regroup ρ).popScope = (d.popScope.1, d.popScope.2.regroup ρ) := by
  obtain ⟨scopes, _, _, _, _⟩ := d
  cases scopes <;> rfl

theorem alloc_regroup (requested : String) : (d.regroup ρ).alloc requested =
    ((d.alloc requested).1, (d.alloc requested).2.regroup ρ) := by
  have named := updateScope_regroup (ρ := ρ) (d.fresh (d.freeName requested)).2
  exact congrArg (Prod.mk _) (named _)

/-- The group at hand, found under its new number. -/
theorem activeGroup?_regroup (injective : Function.Injective ρ) (group : Nat) :
    (d.regroup ρ).activeGroup? (ρ group) = (d.activeGroup? group).map (ActiveGroup.regroup ρ) := by
  -- Only here are numbers compared: two groups must not get one number.
  have same : (fun g : ActiveGroup => g.group == ρ group) ∘ ActiveGroup.regroup ρ =
      fun g => g.group == group := by
    funext g
    simp only [Function.comp_apply, ActiveGroup.regroup, beq_eq_beq, injective.eq_iff]
  rw [activeGroup?, activeGroup?, regroup, List.find?_map, same]

end Draft

/-! ### Side by side -/

section

variable (ρ : Nat → Nat) (types : Refs) (γ : List ActiveGroup)

/-- Two outcomes are related results in sessions that differ in the numbers of groups, or one error.
-/
inductive Regrouped {α β : Type} (Q : α → β → Prop) :
    Except SchemaError α × Session → Except SchemaError β × Session → Prop where
  | ok {a : α} {b : β} {t : Session} (refs : t.refs = types) (groups : t.draft.groups = γ)
      (holds : Q a b) : Regrouped Q (.ok a, t) (.ok b, t.regroup ρ)
  | error (e : SchemaError) (t t' : Session) : Regrouped Q (.error e, t) (.error e, t')

/-- The computations end alike, the second where the groups are numbered anew. -/
def Regroups {α β : Type} (act : Gen α) (act' : Gen β) (Q : α → β → Prop) : Prop :=
  ∀ s : Session, s.refs = types → s.draft.groups = γ →
    Regrouped ρ types γ Q (act.start s) (act'.start (s.regroup ρ))

/-- The computations end alike, and with the same result. -/
abbrev SameRun {α : Type} (act act' : Gen α) : Prop :=
  Regroups ρ types γ act act' fun a b => b = a

end

variable {ρ : Nat → Nat} {types : Refs} {γ δ : List ActiveGroup} {α β α' β' : Type}
  {Q : α → β → Prop} {Q' : α' → β' → Prop}

theorem regroups_pure {a : α} {b : β} (holds : Q a b) : Regroups ρ types γ (pure a) (pure b) Q :=
  fun _ refs groups => .ok refs groups holds

theorem regroups_throw (e : SchemaError) : Regroups ρ types γ (throw e) (throw e) Q :=
  fun _ _ _ => .error ..

namespace Regroups

theorem bind {act : Gen α} {act' : Gen β} {next : α → Gen α'} {next' : β → Gen β'}
    (first : Regroups ρ types γ act act' Q)
    (second : ∀ a b, Q a b → Regroups ρ types γ (next a) (next' b) Q') :
    Regroups ρ types γ (act >>= next) (act' >>= next') Q' := by
  intro s refs groups
  have outcome := first s refs groups
  rw [Gen.start_bind, Gen.start_bind]
  generalize act.start s = out, act'.start (s.regroup ρ) = out' at outcome
  cases outcome with
  | ok refs groups holds => exact second _ _ holds _ refs groups
  | error e t t' => exact .error e t t'

theorem weaken {R : α → β → Prop} {act : Gen α} {act' : Gen β}
    (regroups : Regroups ρ types γ act act' Q) (weaker : ∀ a b, Q a b → R a b) :
    Regroups ρ types γ act act' R := by
  intro s refs groups
  have outcome := regroups s refs groups
  generalize act.start s = out, act'.start (s.regroup ρ) = out' at outcome
  cases outcome with
  | ok refs groups holds => exact .ok refs groups (weaker _ _ holds)
  | error e t t' => exact .error e t t'

theorem map {act : Gen α} {act' : Gen β} {f : α → α'} {g : β → β'}
    (regroups : Regroups ρ types γ act act' fun a b => Q' (f a) (g b)) :
    Regroups ρ types γ (f <$> act) (g <$> act') Q' := by
  rw [map_eq_pure_bind, map_eq_pure_bind]
  exact regroups.bind fun _ _ holds => regroups_pure holds

theorem discard {act : Gen α} {act' : Gen β} (regroups : Regroups ρ types γ act act' Q) :
    SameRun ρ types γ (discard act) (discard act') :=
  Regroups.map (regroups.weaken fun _ _ _ => rfl)

/-- Results that are the same go on alike. -/
theorem step {act act' : Gen α} {next : α → Gen α'} {next' : α → Gen β'}
    (first : SameRun ρ types γ act act')
    (second : ∀ a, Regroups ρ types γ (next a) (next' a) Q') :
    Regroups ρ types γ (act >>= next) (act' >>= next') Q' := by
  refine Regroups.bind first fun a b same => ?_
  cases same
  exact second a

end Regroups

theorem sameRun_ofExcept (x : Except SchemaError α) :
    SameRun ρ types γ (Gen.ofExcept x) (Gen.ofExcept x) := by
  cases x with
  | ok a => exact regroups_pure rfl
  | error e => exact regroups_throw e

theorem regroups_ofExcept {x : Except SchemaError α} {y : Except SchemaError β} {f : α → β}
    (same : y = x.map f) :
    Regroups ρ types γ (Gen.ofExcept x) (Gen.ofExcept y) fun a b => x = .ok a ∧ b = f a := by
  cases same
  cases x with
  | ok a => exact regroups_pure ⟨rfl, rfl⟩
  | error e => exact regroups_throw e

/-! ### Questions -/

/-- What goes on from the references. -/
theorem regroups_refs {next : Refs → Gen α} {next' : Refs → Gen β}
    (second : Regroups ρ types γ (next types) (next' (types.regroup ρ)) Q) :
    Regroups ρ types γ (Gen.refs >>= next) (Gen.refs >>= next') Q := by
  have known : Regroups ρ types γ Gen.refs Gen.refs fun refs refs' =>
      refs = types ∧ refs' = types.regroup ρ :=
    fun _ refs groups => .ok refs groups ⟨refs, congrArg (Refs.regroup ρ) refs⟩
  refine known.bind fun refs refs' both => ?_
  rw [both.1, both.2]
  exact second

theorem sameRun_registry : SameRun ρ types γ Gen.registry Gen.registry :=
  fun _ refs groups => .ok refs groups rfl

theorem regroups_draft : Regroups ρ types γ Gen.draft Gen.draft fun d d' =>
    d.groups = γ ∧ d' = d.regroup ρ :=
  fun _ refs groups => .ok refs groups ⟨groups, rfl⟩

theorem sameRun_lastHint (fallback : String) :
    SameRun ρ types γ (Gen.lastHint fallback) (Gen.lastHint fallback) :=
  fun _ refs groups => .ok refs groups rfl

theorem sameRun_hintName (fallback : String) :
    SameRun ρ types γ (Gen.hintName fallback) (Gen.hintName fallback) :=
  fun _ refs groups => .ok refs groups rfl

theorem sameRun_aliasOf? (signature : String) :
    SameRun ρ types γ (Gen.aliasOf? signature) (Gen.aliasOf? signature) :=
  fun _ refs groups => .ok refs groups rfl

theorem regroups_activeGroup? (injective : Function.Injective ρ) (group : Nat) :
    Regroups ρ types γ (Gen.activeGroup? group) (Gen.activeGroup? (ρ group)) fun found found' =>
      found = γ.find? (·.group == group) ∧ found' = found.map (ActiveGroup.regroup ρ) := by
  refine regroups_draft.bind fun d d' both => regroups_pure ?_
  obtain ⟨rfl, rfl⟩ := both
  exact ⟨rfl, Draft.activeGroup?_regroup d injective group⟩

theorem sameRun_canonicalName (s : Shape) :
    SameRun ρ types γ (Gen.canonicalName s) (Gen.canonicalName (s.regroup ρ)) :=
  regroups_refs (regroups_pure (Shape.canonicalName_regroup s))

theorem regroups_resolved (s : Shape) :
    Regroups ρ types γ (Gen.resolved s) (Gen.resolved (s.regroup ρ)) fun found found' =>
      s.resolved types = .ok found ∧ found' = found.regroup ρ :=
  regroups_refs (regroups_ofExcept (Shape.resolved_regroup s))

theorem regroups_storedFields (s : Shape) :
    Regroups ρ types γ (Gen.storedFields s) (Gen.storedFields (s.regroup ρ))
      fun fields fields' => s.storedFields types = .ok fields ∧
        fields' = fields.map (Member.regroup ρ) :=
  regroups_refs (regroups_ofExcept (Shape.storedFields_regroup s))

/-! ### Drafts -/

theorem sameRun_updateDraft {f f' : Draft → Draft} (groups : ∀ d, (f d).groups = d.groups)
    (commutes : ∀ d : Draft, f' (d.regroup ρ) = (f d).regroup ρ) :
    SameRun ρ types γ (Gen.updateDraft f) (Gen.updateDraft f') := by
  intro s refs known
  have after : (Gen.updateDraft f').start (s.regroup ρ) =
      (.ok (), Session.regroup ρ { s with draft := f s.draft }) := by
    change (Except.ok (), { s.regroup ρ with draft := f' (s.draft.regroup ρ) }) = _
    rw [commutes]
    rfl
  rw [after]
  exact .ok refs ((groups s.draft).trans known) rfl

theorem sameRun_emit (st : Stmt) : SameRun ρ types γ (Gen.emit st) (Gen.emit st) :=
  sameRun_updateDraft (fun d => d.groups_updateScope _) fun d => d.updateScope_regroup _

theorem sameRun_join (inner : Scope) :
    SameRun ρ types γ (Gen.updateDraft (·.join inner)) (Gen.updateDraft (·.join inner)) :=
  sameRun_updateDraft (fun d => d.groups_updateScope _) fun d => d.updateScope_regroup _

theorem sameRun_alloc (requested : String) :
    SameRun ρ types γ (Gen.alloc requested) (Gen.alloc requested) := by
  refine regroups_draft.bind fun d d' both => ?_
  obtain ⟨known, rfl⟩ := both
  rw [Draft.alloc_regroup]
  intro s refs groups
  exact .ok refs ((Draft.groups_updateScope _ _).trans known) rfl

theorem sameRun_param (name : String) : SameRun ρ types γ (Gen.param name) (Gen.param name) :=
  fun _ refs groups => .ok refs groups rfl

theorem sameRun_beginFunction : SameRun ρ types [] Gen.beginFunction Gen.beginFunction :=
  fun _ refs _ => .ok refs rfl rfl

theorem sameRun_newDraft : SameRun ρ types [] (Gen.updateDraft fun _ => {})
    (Gen.updateDraft fun _ => {}) :=
  fun _ refs _ => .ok refs rfl rfl

namespace Regroups

/-- What happens between two changes of the session. -/
theorem between {enter leave enter' leave' : Session → Session} {act : Gen α} {act' : Gen β}
    (inner : Regroups ρ types δ act act' Q)
    (entered : ∀ s : Session, s.refs = types → s.draft.groups = γ →
      (enter s).refs = types ∧ (enter s).draft.groups = δ ∧
        enter' (s.regroup ρ) = (enter s).regroup ρ)
    (left : ∀ t : Session, t.refs = types → t.draft.groups = δ →
      (leave t).refs = types ∧ (leave t).draft.groups = γ ∧
        leave' (t.regroup ρ) = (leave t).regroup ρ) :
    Regroups ρ types γ (Gen.between enter leave act) (Gen.between enter' leave' act') Q := by
  intro s refs groups
  obtain ⟨refs₁, groups₁, same⟩ := entered s refs groups
  have outcome := inner (enter s) refs₁ groups₁
  rw [Gen.start_between, Gen.start_between, same]
  generalize act.start (enter s) = out, act'.start ((enter s).regroup ρ) = out' at outcome
  cases outcome with
  | ok refs₂ groups₂ holds =>
    obtain ⟨refs₃, groups₃, same'⟩ := left _ refs₂ groups₂
    rw [same']
    exact .ok refs₃ groups₃ holds
  | error e t t' => exact .error e _ _

theorem withHint {hint : String} {act : Gen α} {act' : Gen β}
    (regroups : Regroups ρ types γ act act' Q) :
    Regroups ρ types γ (Gen.withHint hint act) (Gen.withHint hint act') Q :=
  regroups.between (fun _ refs groups => ⟨refs, groups, rfl⟩)
    fun _ refs groups => ⟨refs, groups, rfl⟩

theorem withGroup {group : Nat} {raw : Option Expr} {act : Gen α} {act' : Gen β}
    (regroups : Regroups ρ types (⟨group, raw⟩ :: γ) act act' Q) :
    Regroups ρ types γ (Gen.withGroup group raw act) (Gen.withGroup (ρ group) raw act') Q := by
  refine regroups.between (fun s refs groups => ⟨refs, ?_, rfl⟩) fun t refs groups => ⟨refs, ?_, ?_⟩
  · exact congrArg (⟨group, raw⟩ :: ·) groups
  · exact congrArg List.tail groups
  · simp only [Session.regroup, Draft.regroup, List.map_tail]

theorem nested {hint : String} {act : Gen α} {act' : Gen β}
    (regroups : Regroups ρ types [] act act' Q) :
    Regroups ρ types γ (Gen.nested hint act) (Gen.nested hint act') Q := by
  refine regroups_draft.bind fun d d' both => ?_
  obtain ⟨groups, rfl⟩ := both
  exact regroups.between (fun _ refs _ => ⟨refs, rfl, rfl⟩) fun _ refs _ => ⟨refs, groups, rfl⟩

theorem inScope {act act' : Gen α} (same : SameRun ρ types γ act act') :
    SameRun ρ types γ (Gen.inScope act) (Gen.inScope act') := by
  intro s refs groups
  -- A new scope has no groups of its own, so it does not matter when the numbers are changed.
  have outcome := same (Gen.mapDraft Draft.pushScope s) refs groups
  change Regrouped ρ types γ _ _
    (act'.start (Gen.mapDraft Draft.pushScope (s.regroup ρ))) at outcome
  rw [Gen.start_inScope, Gen.start_inScope]
  generalize act.start (Gen.mapDraft Draft.pushScope s) = out,
    act'.start (Gen.mapDraft Draft.pushScope (s.regroup ρ)) = out' at outcome
  cases outcome with
  | @ok a b t refs groups equal =>
    have popped : (t.regroup ρ).draft.popScope =
        (t.draft.popScope.1, t.draft.popScope.2.regroup ρ) := t.draft.popScope_regroup
    simp only [Gen.mapDraft, popped, equal]
    exact .ok refs (t.draft.groups_popScope.trans groups) rfl
  | error e t t' => exact .error e _ _

theorem capture {act act' : Gen α} (same : SameRun ρ types γ act act') :
    SameRun ρ types γ (Gen.capture act) (Gen.capture act') :=
  same.inScope.step fun _ => regroups_pure rfl

theorem captureBlock {act act' : Gen Expr} (same : SameRun ρ types γ act act') :
    SameRun ρ types γ (Gen.captureBlock act) (Gen.captureBlock act') :=
  same.capture.step fun _ => regroups_pure rfl

theorem declare {requested : String} {init init' : Gen Expr} (same : SameRun ρ types γ init init') :
    SameRun ρ types γ (Gen.declare requested init) (Gen.declare requested init') :=
  same.inScope.step fun out => (sameRun_join out.1).step fun _ =>
    (sameRun_alloc requested).step fun _ => (sameRun_emit _).step fun _ => regroups_pure rfl

end Regroups

theorem sameRun_declareMut (requested : String) (init : Expr) :
    SameRun ρ types γ (Gen.declareMut requested init) (Gen.declareMut requested init) :=
  (sameRun_alloc requested).step fun _ => (sameRun_emit _).step fun _ => regroups_pure rfl

theorem sameRun_declareDeferred (requested : String) :
    SameRun ρ types γ (Gen.declareDeferred requested) (Gen.declareDeferred requested) :=
  (sameRun_alloc requested).step fun _ => (sameRun_emit _).step fun _ => regroups_pure rfl

/-! ### The registry -/

theorem sameRun_updateRegistry (f : Registry → Registry) :
    SameRun ρ types γ (Gen.updateRegistry f) (Gen.updateRegistry f) :=
  fun _ refs groups => .ok refs groups rfl

theorem sameRun_registerAlias (signature name : String) :
    SameRun ρ types γ (Gen.registerAlias signature name) (Gen.registerAlias signature name) :=
  sameRun_registry.step fun _ => (sameRun_updateRegistry _).step fun _ => regroups_pure rfl

theorem sameRun_registerGlobal {name : String} {define define' : Gen Decl}
    (defines : SameRun ρ types γ define define') :
    SameRun ρ types γ (Gen.registerGlobal name define) (Gen.registerGlobal name define') := by
  refine sameRun_registry.step fun r => ?_
  split
  · exact regroups_pure rfl
  · exact (sameRun_updateRegistry _).step fun _ => defines.step fun d =>
      (sameRun_updateRegistry _).step fun _ => regroups_pure rfl

theorem sameRun_registerConstant {key desired : String} {define define' : String → Gen Decl}
    (defines : ∀ name, SameRun ρ types γ (define name) (define' name)) :
    SameRun ρ types γ (Gen.registerConstant key desired define)
      (Gen.registerConstant key desired define') := by
  refine sameRun_registry.step fun r => ?_
  split
  · exact regroups_pure rfl
  · refine sameRun_registry.step fun r' => (sameRun_updateRegistry _).step fun _ => ?_
    exact (defines _).step fun d => (sameRun_updateRegistry _).step fun _ => regroups_pure rfl

/-! ### Lists -/

theorem regroups_mapM {f : α → Gen α'} {f' : α → Gen β'} {h : α' → β'} {items : List α}
    (each : ∀ a ∈ items, Regroups ρ types γ (f a) (f' a) fun x y => y = h x) :
    Regroups ρ types γ (items.mapM f) (items.mapM f') fun xs ys => ys = xs.map h := by
  induction items with
  | nil =>
    rw [List.mapM_nil, List.mapM_nil]
    exact regroups_pure rfl
  | cons first rest ih =>
    rw [List.mapM_cons, List.mapM_cons]
    refine (each first (List.mem_cons_self ..)).bind fun x y same => ?_
    refine (ih fun a later => each a (List.mem_cons_of_mem _ later)).bind fun xs ys others => ?_
    exact regroups_pure (by rw [same, others, List.map_cons])

theorem sameRun_mapM {f f' : α → Gen α'} {items : List α}
    (each : ∀ a ∈ items, SameRun ρ types γ (f a) (f' a)) :
    SameRun ρ types γ (items.mapM f) (items.mapM f') :=
  (regroups_mapM each).weaken fun xs _ same => same.trans (List.map_id xs)

theorem sameRun_mapM_map {f : α → Gen α'} {f' : β → Gen α'} {g : α → β} {items : List α}
    (each : ∀ a ∈ items, SameRun ρ types γ (f a) (f' (g a))) :
    SameRun ρ types γ (items.mapM f) ((items.map g).mapM f') := by
  rw [List.mapM_map]
  exact sameRun_mapM each

theorem sameRun_forM_map {f : α → Gen Unit} {f' : β → Gen Unit} {g : α → β} {items : List α}
    (each : ∀ a ∈ items, SameRun ρ types γ (f a) (f' (g a))) :
    SameRun ρ types γ (items.forM f) ((items.map g).forM f') := by
  induction items with
  | nil => exact regroups_pure rfl
  | cons first rest ih =>
    refine (each first (List.mem_cons_self ..)).step fun _ => ?_
    exact ih fun a later => each a (List.mem_cons_of_mem _ later)

end WireSchema
