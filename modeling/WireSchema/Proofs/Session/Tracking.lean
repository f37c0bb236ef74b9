import WireSchema.Proofs.Session.Hygiene
import WireSchema.Proofs.Session.Provenance

/-!
# What bodies are made of

A property of the parts of code is watched while code is emitted: if it held of what the body had so
far, it holds of what is emitted. The registry stays faithful meanwhile. The rules follow the
operations of a session.
-/

namespace WireSchema

open Ir

/-- A property of the parts of code that more constants do not change. -/
structure Watch where
  holds : Registry → Expr → Prop
  mono : ∀ {r r' : Registry} {n : Expr}, r.Keeps r' → holds r n → holds r' n

namespace Watch

/-- The expression is made of parts that satisfy the property. -/
abbrev Each (w : Watch) (r : Registry) (e : Expr) : Prop := e.Each (w.holds r)

/-- The body is made of parts that satisfy the property. -/
abbrev All (w : Watch) (r : Registry) (stmts : List Stmt) : Prop := Stmt.Each (w.holds r) stmts

variable {w : Watch} {r r' : Registry}

theorem Each.mono {e : Expr} (each : w.Each r e) (keeps : r.Keeps r') : w.Each r' e :=
  each.imp fun _ => w.mono keeps

theorem All.mono {stmts : List Stmt} (all : w.All r stmts) (keeps : r.Keeps r') : w.All r' stmts :=
  all.imp fun _ => w.mono keeps

end Watch

variable {types : Refs} {rank : String → Nat} {w : Watch}

variable (types rank) in
/-- Watches that structs have their types from the registry. -/
def Watch.structs : Watch := ⟨Registry.Knows types rank, fun keeps knows => knows.mono keeps⟩

namespace Session

variable {σ τ υ : Session}

/-- The session has the given references, and the integers of the bit groups at hand are bindings. -/
structure Tracks (types : Refs) (σ : Session) : Prop where
  refs : σ.refs = types
  raws : ∀ g ∈ σ.draft.groups, ∀ raw, g.raw = some raw → ∃ x, raw = .var x

variable (types rank) in
/-- The first session leads to the second: the registry goes on and stays faithful, and what is begun
in between is finished. -/
structure Evolves (σ τ : Session) : Prop where
  refs : τ.refs = σ.refs
  grows : σ.registry.Extends τ.registry
  unfinished : ∀ name, (name, none) ∈ τ.registry.slots → (name, none) ∈ σ.registry.slots
  faithful : σ.registry.Faithful types rank → τ.registry.Faithful types rank

theorem Evolves.refl (σ : Session) : σ.Evolves types rank σ := ⟨rfl, .refl _, fun _ => id, id⟩

theorem Evolves.trans (first : σ.Evolves types rank τ) (second : τ.Evolves types rank υ) :
    σ.Evolves types rank υ :=
  ⟨second.refs.trans first.refs, first.grows.trans second.grows,
    fun name begun => first.unfinished name (second.unfinished name begun),
    fun faithful => second.faithful (first.faithful faithful)⟩

/-- A change of the draft alone. -/
theorem Evolves.redraft (evolves : σ.Evolves types rank τ) (d d' : Draft) :
    { σ with draft := d }.Evolves types rank { τ with draft := d' } :=
  ⟨evolves.refs, evolves.grows, evolves.unfinished, evolves.faithful⟩

variable (w types rank) in
/-- Moreover what is added to the body has the property that is watched. -/
structure Adds (σ τ : Session) : Prop extends Evolves types rank σ τ where
  next : σ.draft.nextLocal ≤ τ.draft.nextLocal
  groups : τ.draft.groups = σ.draft.groups
  scopes : ∀ scope outer, σ.draft.scopes = scope :: outer → w.All σ.registry scope.stmts →
    ∃ inner, τ.draft.scopes = inner :: outer ∧ w.All τ.registry inner.stmts

theorem Adds.refl (σ : Session) : σ.Adds types rank w σ where
  toEvolves := .refl σ
  next := Nat.le_refl _
  groups := rfl
  scopes scope _ same all := ⟨scope, same, all⟩

theorem Adds.trans (first : σ.Adds types rank w τ) (second : τ.Adds types rank w υ) :
    σ.Adds types rank w υ where
  toEvolves := first.toEvolves.trans second.toEvolves
  next := first.next.trans second.next
  groups := second.groups.trans first.groups
  scopes scope outer same all := by
    obtain ⟨inner, same', all'⟩ := first.scopes scope outer same all
    exact second.scopes inner outer same' all'

theorem Adds.keeps (adds : σ.Adds types rank w τ) : σ.registry.Keeps τ.registry :=
  adds.grows.keeps

theorem Tracks.adds (tracks : σ.Tracks types) (adds : σ.Adds types rank w τ) : τ.Tracks types where
  refs := adds.refs.trans tracks.refs
  raws := adds.groups ▸ tracks.raws

theorem Tracks.registry (tracks : σ.Tracks types) (r : Registry) :
    { σ with registry := r }.Tracks types :=
  ⟨tracks.refs, tracks.raws⟩

/-- The draft at hand is not changed by what the session goes through. -/
theorem Evolves.adds (evolves : σ.Evolves types rank τ) (same : τ.draft = σ.draft) :
    σ.Adds types rank w τ where
  toEvolves := evolves
  next := by rw [same]
  groups := by rw [same]
  scopes scope outer here all := ⟨scope, same ▸ here, all.mono evolves.grows.keeps⟩

/-- The registry changes in what is neither a slot nor a constant. -/
theorem adds_registry {r : Registry} (slots : r.slots = σ.registry.slots)
    (constants : r.constants = σ.registry.constants) :
    σ.Adds types rank w { σ with registry := r } :=
  Evolves.adds ⟨rfl, Registry.extends_of_same constants (by rw [slots]),
    fun name begun => by rwa [slots] at begun, fun faithful => faithful.congr slots constants⟩ rfl

/-- What happens in a scope of its own. -/
theorem Adds.pop (adds : { σ with draft := σ.draft.pushScope }.Adds types rank w τ) :
    w.All τ.registry τ.draft.popScope.1.stmts ∧
      σ.Adds types rank w { τ with draft := τ.draft.popScope.2 } := by
  obtain ⟨inner, same, all⟩ := adds.scopes {} σ.draft.scopes rfl Stmt.each_nil
  have popped : τ.draft.popScope = (inner, { τ.draft with scopes := σ.draft.scopes }) := by
    simp [Draft.popScope, same]
  rw [popped]
  refine ⟨all, adds.toEvolves.redraft _ _, adds.next, adds.groups, ?_⟩
  exact fun scope _ there all => ⟨scope, there, all.mono adds.keeps⟩

/-- What happens in a scope of its own, which is joined to the one around it. -/
theorem Adds.join (adds : { σ with draft := σ.draft.pushScope }.Adds types rank w τ) :
    σ.Adds types rank w { τ with draft := τ.draft.popScope.2.join τ.draft.popScope.1 } := by
  obtain ⟨added, popped⟩ := adds.pop
  refine ⟨popped.toEvolves.redraft _ _, ?_, ?_, fun scope outer same all => ?_⟩
  · exact popped.next.trans (Draft.nextLocal_updateScope _ _).ge
  · exact (Draft.groups_updateScope _ _).trans popped.groups
  · obtain ⟨inner, same', all'⟩ := popped.scopes scope outer same all
    exact ⟨_, Draft.scopes_updateScope same' _, Stmt.each_append.mpr ⟨all', added⟩⟩

/-- A declaration is begun and, after what its parts need, finished. -/
theorem Adds.finish {r : Registry} {name : String} {d : Decl} (grows : σ.registry.Extends r)
    (begun : ∀ other, (other, none) ∈ r.slots → other = name ∨ (other, none) ∈ σ.registry.slots)
    (adds : { σ with registry := r }.Adds types rank w τ)
    (faithful : σ.registry.Faithful types rank →
      (τ.registry.fill name d).Faithful types rank) :
    σ.Adds types rank w { τ with registry := τ.registry.fill name d } where
  refs := adds.refs
  grows := grows.trans (adds.grows.trans (Registry.extends_fill name d))
  unfinished other left := by
    rcases Registry.mem_fill.mp left with ⟨differs, early⟩ | ⟨same, _⟩
    · exact (begun other (adds.unfinished other early)).resolve_left differs
    · cases same
  faithful := faithful
  next := adds.next
  groups := adds.groups
  scopes scope outer same all := by
    obtain ⟨inner, same', all'⟩ := adds.scopes scope outer same (all.mono grows.keeps)
    exact ⟨inner, same', all'.mono (Registry.extends_fill name d).keeps⟩

/-- The name that is reserved is the only one that is begun. -/
theorem begun_reserve {r : Registry} {name : String} : ∀ other, (other, none) ∈ (r.reserve name).slots →
    other = name ∨ (other, none) ∈ r.slots := by
  intro other member
  rcases List.mem_append.mp member with early | here
  · exact .inr early
  · cases List.mem_singleton.mp here
    exact .inl rfl

end Session

namespace Gen

open Session

variable {α β : Type} {σ : Session}

variable (w types rank) in
/-- From the session on the computation emits code with the property that is watched, and `Q` holds
of its value in the registry that it leads to. -/
def Leads (σ : Session) (act : Gen α) (Q : α → Registry → Prop) : Prop :=
  σ.Tracks types → ∀ a τ, Runs act σ a τ → σ.Adds types rank w τ ∧ Q a τ.registry

variable {Q : α → Registry → Prop} {Q' : β → Registry → Prop} {act : Gen α}

theorem leads_pure {a : α} (holds : Q a σ.registry) : Leads types rank w σ (pure a) Q := by
  intro tracks b τ ran
  obtain ⟨rfl, rfl⟩ := runs_pure.mp ran
  exact ⟨.refl _, holds⟩

theorem leads_throw {e : SchemaError} : Leads types rank w σ (throw e : Gen α) Q :=
  fun _ _ _ ran => (runs_throw.mp ran).elim

theorem Leads.bind {next : α → Gen β} (first : Leads types rank w σ act Q)
    (second : ∀ a τ, σ.Adds types rank w τ → Q a τ.registry → Leads types rank w τ (next a) Q') :
    Leads types rank w σ (act >>= next) Q' := by
  intro tracks b υ ran
  obtain ⟨a, τ, ran₁, ran₂⟩ := runs_bind.mp ran
  obtain ⟨step, holds⟩ := first tracks a τ ran₁
  obtain ⟨step', holds'⟩ := second a τ step holds (tracks.adds step) b υ ran₂
  exact ⟨step.trans step', holds'⟩

theorem Leads.weaken {Q' : α → Registry → Prop} (leads : Leads types rank w σ act Q)
    (weaker : ∀ a r, Q a r → Q' a r) : Leads types rank w σ act Q' := by
  intro tracks a τ ran
  obtain ⟨step, holds⟩ := leads tracks a τ ran
  exact ⟨step, weaker a _ holds⟩

theorem Leads.discard (leads : Leads types rank w σ act Q) :
    Leads types rank w σ (discard act) fun _ r => ∃ a, Q a r := by
  intro tracks u τ ran
  obtain ⟨a, ran⟩ := runs_discard.mp ran
  obtain ⟨step, holds⟩ := leads tracks a τ ran
  exact ⟨step, a, holds⟩

theorem Leads.map {f : α → β} (leads : Leads types rank w σ act fun a => Q' (f a)) :
    Leads types rank w σ (f <$> act) Q' := by
  rw [map_eq_pure_bind]
  exact leads.bind fun a τ _ holds => leads_pure holds

/-- A computation that only looks at the session. -/
theorem leads_look (looks : σ.Tracks types → ∀ a τ, Runs act σ a τ → τ = σ ∧ Q a σ.registry) :
    Leads types rank w σ act Q := by
  intro tracks a τ ran
  obtain ⟨rfl, holds⟩ := looks tracks a τ ran
  exact ⟨.refl _, holds⟩

theorem leads_ofExcept {result : Except SchemaError α} :
    Leads types rank w σ (ofExcept result) fun a _ => result = .ok a :=
  leads_look fun _ _ _ ran => (runs_ofExcept.mp ran).symm

theorem leads_refs : Leads types rank w σ refs fun found _ => found = types := by
  refine leads_look fun tracks found τ ran => ?_
  obtain ⟨rfl, rfl⟩ := runs_refs.mp ran
  exact ⟨rfl, tracks.refs⟩

theorem leads_registry : Leads types rank w σ registry fun _ _ => True :=
  leads_look fun _ _ _ ran => ⟨(runs_registry.mp ran).2, trivial⟩

theorem leads_canonicalName {s : Shape} :
    Leads types rank w σ (canonicalName s) fun name _ => name = s.canonicalName types := by
  refine leads_look fun tracks name τ ran => ?_
  obtain ⟨rfl, rfl⟩ := runs_canonicalName.mp ran
  exact ⟨rfl, tracks.refs ▸ rfl⟩

theorem leads_resolved {s : Shape} :
    Leads types rank w σ (resolved s) fun found _ => s.resolved types = .ok found := by
  refine leads_look fun tracks found τ ran => ?_
  obtain ⟨ok, rfl⟩ := runs_resolved.mp ran
  exact ⟨rfl, tracks.refs ▸ ok⟩

theorem leads_storedFields {s : Shape} :
    Leads types rank w σ (storedFields s) fun fields _ => s.storedFields types = .ok fields := by
  refine leads_look fun tracks found τ ran => ?_
  obtain ⟨ok, rfl⟩ := runs_storedFields.mp ran
  exact ⟨rfl, tracks.refs ▸ ok⟩

theorem leads_aliasOf? {signature : String} :
    Leads types rank w σ (aliasOf? signature) fun _ _ => True :=
  leads_look fun _ _ _ ran => ⟨(runs_aliasOf?.mp ran).2, trivial⟩

theorem leads_hintName {fallback : String} :
    Leads types rank w σ (hintName fallback) fun _ _ => True :=
  leads_look fun _ _ _ ran => ⟨(runs_hintName.mp ran).2, trivial⟩

theorem leads_lastHint {fallback : String} :
    Leads types rank w σ (lastHint fallback) fun _ _ => True :=
  leads_look fun _ _ _ ran => ⟨(runs_lastHint.mp ran).2, trivial⟩

/-- The integer of a bit group is a binding. -/
theorem leads_activeGroup? {group : Nat} : Leads types rank w σ (activeGroup? group) fun found _ =>
    ∀ g, found = some g → ∀ raw, g.raw = some raw → ∃ x, raw = .var x := by
  refine leads_look fun tracks found τ ran => ?_
  obtain ⟨rfl, rfl⟩ := runs_activeGroup?.mp ran
  exact ⟨rfl, fun g here => tracks.raws g (List.mem_of_find?_eq_some here)⟩

/-! ### The draft -/

theorem Leads.withHint {hint : String}
    (leads : Leads types rank w { σ with draft.hints := hint :: σ.draft.hints } act Q) :
    Leads types rank w σ (withHint hint act) Q := by
  intro tracks a τ ran
  obtain ⟨υ, inner, rfl⟩ := runs_withHint.mp ran
  obtain ⟨step, holds⟩ := leads ⟨tracks.refs, tracks.raws⟩ a υ inner
  exact ⟨⟨step.toEvolves.redraft _ _, step.next, step.groups, step.scopes⟩, holds⟩

/-- The integer of a bit group that is decoded is a binding. -/
theorem Leads.withGroup {group : Nat} {raw : Option Expr} (plain : ∀ e ∈ raw, ∃ x, e = .var x)
    (leads : Leads types rank w { σ with draft.groups := ⟨group, raw⟩ :: σ.draft.groups } act Q) :
    Leads types rank w σ (withGroup group raw act) Q := by
  intro tracks a τ ran
  obtain ⟨υ, inner, rfl⟩ := runs_withGroup.mp ran
  have tracks' : Tracks types { σ with draft.groups := ⟨group, raw⟩ :: σ.draft.groups } :=
    ⟨tracks.refs, List.forall_mem_cons.mpr ⟨fun e same => plain e same, tracks.raws⟩⟩
  obtain ⟨step, holds⟩ := leads tracks' a υ inner
  refine ⟨⟨step.toEvolves.redraft _ _, step.next, ?_, step.scopes⟩, holds⟩
  exact congrArg List.tail step.groups

/-- On a draft of its own another property may be watched. -/
theorem Leads.nested {v : Watch} {hint : String}
    (leads : Leads types rank v { σ with draft := Draft.named hint } act Q) :
    Leads types rank w σ (nested hint act) Q := by
  intro tracks a τ ran
  obtain ⟨υ, inner, rfl⟩ := runs_nested.mp ran
  obtain ⟨step, holds⟩ := leads ⟨tracks.refs, nofun⟩ a υ inner
  exact ⟨(step.toEvolves.redraft _ _).adds rfl, holds⟩

theorem Leads.capture
    (leads : Leads types rank w { σ with draft := σ.draft.pushScope } act Q) :
    Leads types rank w σ (capture act) fun out r => w.All r out.1 ∧ Q out.2 r := by
  intro tracks out τ ran
  obtain ⟨υ, inner, same, rfl⟩ := runs_capture.mp ran
  obtain ⟨step, holds⟩ := leads ⟨tracks.refs, tracks.raws⟩ _ υ inner
  obtain ⟨all, step'⟩ := step.pop
  exact ⟨step', same ▸ all, holds⟩

/-- Elision keeps the structs of a block. -/
theorem Leads.captureBlock {act : Gen Expr} {G : Registry → Expr → Prop}
    (survives : ∀ r : Registry, Block.Survives (r.Builds types rank) (G r))
    (leads : Leads types rank (.structs types rank) { σ with draft := σ.draft.pushScope } act
      fun e r => G r e) :
    Leads types rank (.structs types rank) σ (captureBlock act) fun b r =>
      (Watch.structs types rank).All r b.stmts ∧ G r b.result := by
  refine leads.capture.bind fun out τ _ holds => leads_pure ?_
  exact Block.each_elide (survives _) holds.1 holds.2

theorem leads_emit {s : Stmt} (own : ∀ e ∈ s.exprs, w.Each σ.registry e)
    (inner : ∀ block ∈ s.blocks, w.All σ.registry block) :
    Leads types rank w σ (emit s) fun _ _ => True := by
  intro tracks u τ ran
  cases runs_emit.mp ran
  refine ⟨⟨(Evolves.refl σ).redraft _ _, ?_, Draft.groups_updateScope _ _, ?_⟩, trivial⟩
  · exact (Draft.nextLocal_updateScope _ _).ge
  · intro scope outer same before
    exact ⟨_, Draft.scopes_updateScope same _,
      Stmt.each_append.mpr ⟨before, Stmt.each_single.mpr ⟨own, inner⟩⟩⟩

/-- A new binding is none that is in use. -/
theorem leads_alloc {requested : String} :
    Leads types rank w σ (alloc requested) fun x _ => σ.draft.nextLocal ≤ x.id := by
  intro tracks x τ ran
  obtain ⟨rfl, rfl⟩ := runs_alloc.mp ran
  have grows := σ.draft.grows_alloc requested
  refine ⟨⟨(Evolves.refl σ).redraft _ _, grows.mono, grows.groups, fun scope outer same all => ?_⟩,
    Nat.le_refl _⟩
  obtain ⟨names, same'⟩ := grows.scopes scope outer same
  exact ⟨_, same', by rw [List.append_nil]; exact all⟩

/-- A binding of the result of a computation. -/
theorem Leads.declare {requested : String} {init : Gen Expr}
    (leads : Leads types rank w { σ with draft := σ.draft.pushScope } init fun e r => w.Each r e) :
    Leads types rank w σ (declare requested init) fun x _ => σ.draft.nextLocal ≤ x.id := by
  intro tracks x τ ran
  obtain ⟨⟨scope, e⟩, _, opened, ran⟩ := runs_bind.mp ran
  obtain ⟨υ, inner, rfl, rfl⟩ := runs_inScope.mp opened
  obtain ⟨_, _, updated, later⟩ := runs_bind.mp ran
  cases runs_updateDraft.mp updated
  obtain ⟨step, each⟩ := leads ⟨tracks.refs, tracks.raws⟩ e υ inner
  -- What the computation emitted is joined to the scope around it before the binding is emitted.
  have joined := step.join
  have binds : Leads types rank w { υ with draft := υ.draft.popScope.2.join υ.draft.popScope.1 } (do
      let x ← alloc requested
      emit (.bind x false (some e))
      return x) fun x _ => σ.draft.nextLocal ≤ x.id := by
    refine leads_alloc.bind fun y _ given fresh => ?_
    refine Leads.bind (leads_emit ?_ nofun) fun _ _ _ _ => leads_pure (joined.next.trans fresh)
    exact List.forall_mem_singleton.mpr (each.mono given.keeps)
  obtain ⟨bound, fresh⟩ := binds (tracks.adds joined) x τ later
  exact ⟨joined.trans bound, fresh⟩

theorem leads_declareMut {requested : String} {init : Expr} (each : w.Each σ.registry init) :
    Leads types rank w σ (declareMut requested init) fun _ _ => True := by
  refine leads_alloc.bind fun x τ step _ => ?_
  refine Leads.bind (leads_emit ?_ nofun) fun _ _ _ _ => leads_pure trivial
  exact List.forall_mem_singleton.mpr (each.mono step.keeps)

theorem leads_declareDeferred {requested : String} :
    Leads types rank w σ (declareDeferred requested) fun _ _ => True := by
  refine leads_alloc.bind fun x τ step _ => ?_
  exact Leads.bind (leads_emit nofun nofun) fun _ _ _ _ => leads_pure trivial

/-! ### The registry -/

theorem leads_registerAlias {signature name : String} :
    Leads types rank w σ (registerAlias signature name) fun _ _ => True := by
  intro tracks u τ ran
  obtain ⟨_, rfl⟩ := runs_registerAlias.mp ran
  have slots : (σ.registry.addAlias signature name).2.slots = σ.registry.slots ∧
      (σ.registry.addAlias signature name).2.constants = σ.registry.constants := by
    unfold Registry.addAlias
    split <;> exact ⟨rfl, rfl⟩
  exact ⟨adds_registry slots.1 slots.2, trivial⟩

/-- A declaration without a key. -/
theorem leads_registerGlobal {name : String} {define : Gen Decl}
    (defines : ∀ τ, Leads types rank w τ define fun d r => r.Suits types rank name d) :
    Leads types rank w σ (registerGlobal name define) fun _ _ => True := by
  intro tracks out τ ran
  obtain ⟨_, ⟨_, rfl⟩ | ⟨free, d, υ, defined, rfl⟩⟩ := runs_registerGlobal.mp ran
  · exact ⟨.refl _, trivial⟩
  · obtain ⟨step, suits⟩ := defines _ (tracks.registry _) d υ defined
    refine ⟨step.finish (Registry.extends_reserve name) begun_reserve fun faithful => ?_, trivial⟩
    refine (step.faithful (faithful.reserve free)).fill suits fun key known => ?_
    -- The name was free before, and is given to no key since.
    rcases step.grows.fresh key name known with early | absent
    · exact absurd (faithful.declared key name early) (Bool.eq_false_iff.mp free)
    · exact absurd Registry.isDeclared_reserve (Bool.eq_false_iff.mp absent)

theorem leads_registerConstant {key desired : String} {define : String → Gen Decl}
    (defines : ∀ name τ, Leads types rank w τ (define name) fun d r =>
      r.Suits types rank name d ∧ Registry.Describes types rank key d) :
    Leads types rank w σ (registerConstant key desired define) fun name r =>
      r.constants.lookup key = some name := by
  intro tracks name τ ran
  rcases runs_registerConstant.mp ran with ⟨known, rfl⟩ | ⟨new, rfl, d, υ, defined, rfl⟩
  · exact ⟨.refl _, known⟩
  · have free := σ.registry.freeName_free desired
    let name := σ.registry.freeName desired
    obtain ⟨step, suits, describes⟩ := defines _ _ (tracks.registry _) d υ defined
    refine ⟨step.finish (Registry.extends_constant free) begun_reserve fun faithful => ?_, ?_⟩
    · refine (step.faithful (faithful.constant free)).fill suits fun other known => ?_
      -- A key with this name has it from before its parts were declared, and so is this key.
      rcases step.grows.fresh other _ known with early | absent
      · rcases Registry.lookup_addConstant early with early | ⟨rfl, _⟩
        · exact absurd (faithful.declared other _ early) (Bool.eq_false_iff.mp free)
        · exact describes
      · exact absurd Registry.isDeclared_reserve (Bool.eq_false_iff.mp absent)
    · refine step.keeps _ _ ?_
      change (σ.registry.addConstant key _).constants.lookup key = _
      rw [Registry.addConstant, lookup_append, new, Option.none_or, List.lookup_cons,
        beq_self_eq_true]

/-! ### Lists -/

theorem leads_mapM {f : α → Gen β} {items : List α} {Q : α → β → Prop}
    (each : ∀ a ∈ items, ∀ τ, σ.Adds types rank w τ → Leads types rank w τ (f a) fun b _ => Q a b) :
    Leads types rank w σ (items.mapM f) fun bs _ => List.Forall₂ Q items bs := by
  induction items generalizing σ with
  | nil =>
    rw [List.mapM_nil]
    exact leads_pure .nil
  | cons first rest ih =>
    rw [List.mapM_cons]
    refine (each first List.mem_cons_self σ (.refl σ)).bind fun b τ step holds => ?_
    refine (ih fun a member υ step' => each a (List.mem_cons_of_mem _ member) υ
      (step.trans step')).bind fun bs _ _ others => leads_pure (.cons holds others)

theorem leads_forM {f : α → Gen Unit} {items : List α} {Q : α → Prop}
    (each : ∀ a ∈ items, ∀ τ, σ.Adds types rank w τ → Leads types rank w τ (f a) fun _ _ => Q a) :
    Leads types rank w σ (items.forM f) fun _ _ => ∀ a ∈ items, Q a := by
  induction items generalizing σ with
  | nil => exact leads_pure nofun
  | cons first rest ih =>
    refine (each first List.mem_cons_self σ (.refl σ)).bind fun _ τ step holds => ?_
    refine (ih fun a member υ step' => each a (List.mem_cons_of_mem _ member) υ
      (step.trans step')).weaken fun _ _ others => List.forall_mem_cons.mpr ⟨holds, others⟩

/-! ### Units of code -/

variable (types rank) in
/-- The computation carries the session on to where `Q` holds of its value. -/
def Carries (act : Gen α) (Q : α → Registry → Prop) : Prop :=
  ∀ σ a τ, Runs act σ a τ → σ.Tracks types →
    σ.Evolves types rank τ ∧ τ.Tracks types ∧ Q a τ.registry

theorem carries_of_leads (leads : ∀ σ, Leads types rank w σ act Q) : Carries types rank act Q := by
  intro σ a τ ran tracks
  obtain ⟨step, holds⟩ := leads σ tracks a τ ran
  exact ⟨step.toEvolves, tracks.adds step, holds⟩

/-- What holds of each value still holds in the end. -/
theorem carries_mapM {f : α → Gen β} {items : List α} {Q : β → Registry → Prop}
    (mono : ∀ b r r', r.Keeps r' → Q b r → Q b r')
    (each : ∀ a ∈ items, Carries types rank (f a) Q) :
    Carries types rank (items.mapM f) fun bs r => ∀ b ∈ bs, Q b r := by
  induction items with
  | nil =>
    intro σ bs τ ran tracks
    obtain ⟨rfl, rfl⟩ := runs_mapM_nil.mp ran
    exact ⟨.refl _, tracks, nofun⟩
  | cons first rest ih =>
    intro σ bs τ ran tracks
    obtain ⟨own, others⟩ := List.forall_mem_cons.mp each
    obtain ⟨b, σ₁, bs, now, later, rfl⟩ := runs_mapM_cons.mp ran
    obtain ⟨step, tracks, holds⟩ := own _ _ _ now tracks
    obtain ⟨step', tracks, all⟩ := ih others _ _ _ later tracks
    exact ⟨step.trans step', tracks,
      List.forall_mem_cons.mpr ⟨mono _ _ _ step'.grows.keeps holds, all⟩⟩

end Gen

end WireSchema
