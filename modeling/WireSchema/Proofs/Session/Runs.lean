import WireSchema.Session.Gen

/-!
# Successful runs of generation

A run that succeeds is taken apart step by step: each operation of a session says which runs of its
parts a successful run of it consists of.
-/

namespace WireSchema

open Ir

namespace Gen

/-- The computation succeeds on the first session with the given value, and leads to the second. -/
def Runs {α : Type} (act : Gen α) (s : Session) (a : α) (s' : Session) : Prop :=
  act.start s = (.ok a, s')

variable {α β : Type} {s s' : Session}

@[simp]
theorem runs_pure {a b : α} : Runs (pure a : Gen α) s b s' ↔ b = a ∧ s' = s := by
  constructor
  · intro ran
    cases ran
    exact ⟨rfl, rfl⟩
  · rintro ⟨rfl, rfl⟩
    rfl

@[simp]
theorem runs_throw {e : SchemaError} {a : α} : Runs (throw e : Gen α) s a s' ↔ False :=
  ⟨fun ran => (nomatch (Prod.mk.inj ran).1), False.elim⟩

theorem start_bind (act : Gen α) (next : α → Gen β) (s : Session) :
    (act >>= next).start s = match act.start s with
      | (.ok a, s₁) => (next a).start s₁
      | (.error e, s₁) => (.error e, s₁) := by
  simp only [start, bind, ExceptT.bind, ExceptT.run, ExceptT.mk, StateT.bind, ExceptT.bindCont,
    StateT.run]
  cases act s with
  | mk result s₁ => cases result <;> rfl

@[simp]
theorem runs_bind {act : Gen α} {next : α → Gen β} {b : β} :
    Runs (act >>= next) s b s' ↔ ∃ a s₁, Runs act s a s₁ ∧ Runs (next a) s₁ b s' := by
  unfold Runs
  rw [start_bind]
  constructor
  · intro ran
    split at ran
    case h_1 a s₁ first => exact ⟨a, s₁, first, ran⟩
    case h_2 => cases ran
  · rintro ⟨a, s₁, first, second⟩
    rw [first]
    exact second

@[simp]
theorem runs_map {f : α → β} {act : Gen α} {b : β} :
    Runs (f <$> act) s b s' ↔ ∃ a, Runs act s a s' ∧ b = f a := by
  rw [map_eq_pure_bind, runs_bind]
  constructor
  · rintro ⟨a, s₁, first, second⟩
    obtain ⟨rfl, rfl⟩ := runs_pure.mp second
    exact ⟨a, first, rfl⟩
  · rintro ⟨a, first, rfl⟩
    exact ⟨a, s', first, runs_pure.mpr ⟨rfl, rfl⟩⟩

@[simp]
theorem runs_discard {act : Gen α} {u : Unit} :
    Runs (discard act) s u s' ↔ ∃ a, Runs act s a s' := by
  change Runs ((fun _ => ()) <$> act) s u s' ↔ _
  simp

@[simp]
theorem runs_ofExcept {r : Except SchemaError α} {a : α} :
    Runs (ofExcept r) s a s' ↔ r = .ok a ∧ s' = s := by
  cases r with
  | error e => simp [ofExcept]
  | ok b => simp only [ofExcept, runs_pure, Except.ok.injEq, eq_comm]

/-! ### The session -/

@[simp]
theorem runs_registry {r : Registry} : Runs registry s r s' ↔ r = s.registry ∧ s' = s := by
  constructor
  · intro ran
    cases ran
    exact ⟨rfl, rfl⟩
  · rintro ⟨rfl, rfl⟩
    rfl

@[simp]
theorem runs_draft {d : Draft} : Runs draft s d s' ↔ d = s.draft ∧ s' = s := by
  constructor
  · intro ran
    cases ran
    exact ⟨rfl, rfl⟩
  · rintro ⟨rfl, rfl⟩
    rfl

@[simp]
theorem runs_updateRegistry {f : Registry → Registry} {u : Unit} :
    Runs (updateRegistry f) s u s' ↔ s' = { s with registry := f s.registry } := by
  constructor
  · intro ran
    cases ran
    rfl
  · rintro rfl
    rfl

@[simp]
theorem runs_refs {r : Refs} : Runs refs s r s' ↔ r = s.refs ∧ s' = s := by
  constructor
  · intro ran
    cases ran
    exact ⟨rfl, rfl⟩
  · rintro ⟨rfl, rfl⟩
    rfl

@[simp]
theorem runs_updateDraft {f : Draft → Draft} {u : Unit} :
    Runs (updateDraft f) s u s' ↔ s' = { s with draft := f s.draft } := by
  constructor
  · intro ran
    cases ran
    rfl
  · rintro rfl
    rfl

theorem start_between (enter leave : Session → Session) (act : Gen α) (s : Session) :
    (between enter leave act).start s =
      ((act.start (enter s)).1, leave (act.start (enter s)).2) := rfl

@[simp]
theorem runs_between {enter leave : Session → Session} {act : Gen α} {a : α} :
    Runs (between enter leave act) s a s' ↔ ∃ s₁, Runs act (enter s) a s₁ ∧ s' = leave s₁ := by
  unfold Runs
  rw [start_between]
  constructor
  · intro ran
    refine ⟨(act.start (enter s)).2, ?_, ?_⟩
    · rw [← (Prod.mk.inj ran).1]
    · exact (Prod.mk.inj ran).2.symm
  · rintro ⟨s₁, ran, rfl⟩
    rw [ran]

/-! ### The draft -/

/-- The draft of a session changed. -/
abbrev mapDraft (f : Draft → Draft) (s : Session) : Session := { s with draft := f s.draft }

theorem start_inScope (act : Gen α) (s : Session) :
    (inScope act).start s = match act.start (mapDraft Draft.pushScope s) with
      | (.ok a, s₁) => (.ok (s₁.draft.popScope.1, a), mapDraft (·.popScope.2) s₁)
      | (.error e, s₁) => (.error e, mapDraft (·.popScope.2) s₁) := by
  have pushed : start (updateDraft Draft.pushScope) s = (.ok (), mapDraft Draft.pushScope s) := rfl
  have lifted (s₁ : Session) : start (ExceptT.lift act.run) s₁ =
      (.ok (act.start s₁).1, (act.start s₁).2) := rfl
  simp only [inScope, start_bind, pushed, lifted]
  cases act.start (mapDraft Draft.pushScope s) with
  | mk result s₁ => cases result <;> rfl

theorem runs_inScope {act : Gen α} {out : Scope × α} :
    Runs (inScope act) s out s' ↔ ∃ s₁, Runs act (mapDraft Draft.pushScope s) out.2 s₁ ∧
      out.1 = s₁.draft.popScope.1 ∧ s' = mapDraft (·.popScope.2) s₁ := by
  unfold Runs
  rw [start_inScope]
  constructor
  · intro ran
    split at ran
    case h_1 a s₁ first =>
      cases ran
      exact ⟨s₁, first, rfl, rfl⟩
    case h_2 => cases ran
  · obtain ⟨scope, a⟩ := out
    rintro ⟨s₁, first, opened, rfl⟩
    cases opened
    rw [first]

theorem runs_capture {act : Gen α} {stmts : List Stmt} {a : α} :
    Runs (capture act) s (stmts, a) s' ↔ ∃ s₁, Runs act (mapDraft Draft.pushScope s) a s₁ ∧
      stmts = s₁.draft.popScope.1.stmts ∧ s' = mapDraft (·.popScope.2) s₁ := by
  simp only [capture, runs_bind, runs_inScope, runs_pure, Prod.mk.injEq]
  constructor
  · rintro ⟨⟨scope, b⟩, _, ⟨s₁, ran, rfl, rfl⟩, ⟨rfl, rfl⟩, rfl⟩
    exact ⟨s₁, ran, rfl, rfl⟩
  · rintro ⟨s₁, ran, rfl, rfl⟩
    exact ⟨(s₁.draft.popScope.1, a), _, ⟨s₁, ran, rfl, rfl⟩, ⟨rfl, rfl⟩, rfl⟩

theorem runs_captureBlock {act : Gen Expr} {b : Block} :
    Runs (captureBlock act) s b s' ↔ ∃ e s₁, Runs act (mapDraft Draft.pushScope s) e s₁ ∧
      b = Block.elide ⟨s₁.draft.popScope.1.stmts, e⟩ ∧ s' = mapDraft (·.popScope.2) s₁ := by
  simp only [captureBlock, runs_bind, runs_pure]
  constructor
  · rintro ⟨⟨stmts, e⟩, _, captured, rfl, rfl⟩
    obtain ⟨s₁, ran, rfl, rfl⟩ := runs_capture.mp captured
    exact ⟨e, s₁, ran, rfl, rfl⟩
  · rintro ⟨e, s₁, ran, rfl, rfl⟩
    exact ⟨(_, e), _, runs_capture.mpr ⟨s₁, ran, rfl, rfl⟩, rfl, rfl⟩

@[simp]
theorem runs_beginFunction {u : Unit} :
    Runs beginFunction s u s' ↔ s' = mapDraft Draft.beginFunction s := runs_updateDraft

@[simp]
theorem runs_emit {st : Stmt} {u : Unit} : Runs (emit st) s u s' ↔ s' = mapDraft (·.emit st) s :=
  runs_updateDraft

@[simp]
theorem runs_alloc {requested : String} {x : Local} :
    Runs (alloc requested) s x s' ↔
      x = (s.draft.alloc requested).1 ∧ s' = mapDraft (fun d => (d.alloc requested).2) s := by
  constructor
  · intro ran
    cases ran
    exact ⟨rfl, rfl⟩
  · rintro ⟨rfl, rfl⟩
    rfl

@[simp]
theorem runs_param {name : String} {x : Local} :
    Runs (param name) s x s' ↔
      x = (s.draft.fresh name).1 ∧ s' = mapDraft (fun d => (d.fresh name).2) s := by
  constructor
  · intro ran
    cases ran
    exact ⟨rfl, rfl⟩
  · rintro ⟨rfl, rfl⟩
    rfl

/-- A declaration: its initial value in a scope of its own, then the binding. -/
theorem runs_declare {requested : String} {init : Gen Expr} {x : Local} :
    Runs (declare requested init) s x s' ↔ ∃ e s₁ d, Runs init (mapDraft Draft.pushScope s) e s₁ ∧
      d = s₁.draft.popScope.2.join s₁.draft.popScope.1 ∧ x = (d.alloc requested).1 ∧
      s' = { s₁ with draft := (d.alloc requested).2.emit (.bind x false (some e)) } := by
  simp only [declare, runs_bind, runs_inScope, runs_updateDraft, runs_alloc, runs_emit, runs_pure]
  constructor
  · rintro ⟨⟨scope, e⟩, _, ⟨s₁, ran, rfl, rfl⟩, _, _, rfl, x, _, ⟨rfl, rfl⟩, _, _, rfl, rfl, rfl⟩
    exact ⟨e, s₁, _, ran, rfl, rfl, rfl⟩
  · rintro ⟨e, s₁, d, ran, rfl, rfl, rfl⟩
    exact ⟨(s₁.draft.popScope.1, e), _, ⟨s₁, ran, rfl, rfl⟩, (), _, rfl, _, _, ⟨rfl, rfl⟩, (), _,
      rfl, rfl, rfl⟩

theorem runs_declareMut {requested : String} {init : Expr} {x : Local} :
    Runs (declareMut requested init) s x s' ↔ x = (s.draft.alloc requested).1 ∧
      s' = mapDraft (fun d => (d.alloc requested).2.emit (.bind x true (some init))) s := by
  simp only [declareMut, runs_bind, runs_alloc, runs_emit, runs_pure]
  constructor
  · rintro ⟨_, _, ⟨rfl, rfl⟩, _, _, rfl, rfl, rfl⟩
    exact ⟨rfl, rfl⟩
  · rintro ⟨rfl, rfl⟩
    exact ⟨_, _, ⟨rfl, rfl⟩, (), _, rfl, rfl, rfl⟩

@[simp]
theorem runs_withHint {hint : String} {act : Gen α} {a : α} :
    Runs (withHint hint act) s a s' ↔ ∃ s₁,
      Runs act { s with draft.hints := hint :: s.draft.hints } a s₁ ∧
      s' = { s₁ with draft.hints := s₁.draft.hints.tail } := runs_between

@[simp]
theorem runs_withGroup {group : Nat} {raw : Option Expr} {act : Gen α} {a : α} :
    Runs (withGroup group raw act) s a s' ↔ ∃ s₁,
      Runs act { s with draft.groups := ⟨group, raw⟩ :: s.draft.groups } a s₁ ∧
      s' = { s₁ with draft.groups := s₁.draft.groups.tail } := runs_between

@[simp]
theorem runs_nested {hint : String} {act : Gen α} {a : α} :
    Runs (nested hint act) s a s' ↔ ∃ s₁,
      Runs act { s with draft := Draft.named hint } a s₁ ∧
      s' = { s₁ with draft := s.draft } := by
  simp only [nested, runs_bind, runs_draft, runs_between]
  constructor
  · rintro ⟨_, _, ⟨rfl, rfl⟩, s₁, ran, rfl⟩
    exact ⟨s₁, ran, rfl⟩
  · rintro ⟨s₁, ran, rfl⟩
    exact ⟨s.draft, s, ⟨rfl, rfl⟩, s₁, ran, rfl⟩

@[simp]
theorem runs_lastHint {fallback hint : String} :
    Runs (lastHint fallback) s hint s' ↔ hint = s.draft.hints.headD fallback ∧ s' = s := by
  simp only [lastHint, runs_bind, runs_draft, runs_pure]
  constructor
  · rintro ⟨_, _, ⟨rfl, rfl⟩, rfl, rfl⟩
    exact ⟨rfl, rfl⟩
  · rintro ⟨rfl, rfl⟩
    exact ⟨_, _, ⟨rfl, rfl⟩, rfl, rfl⟩

@[simp]
theorem runs_hintName {fallback name : String} :
    Runs (hintName fallback) s name s' ↔ name = s.draft.hintName fallback ∧ s' = s := by
  simp only [hintName, runs_bind, runs_draft, runs_pure]
  constructor
  · rintro ⟨_, _, ⟨rfl, rfl⟩, rfl, rfl⟩
    exact ⟨rfl, rfl⟩
  · rintro ⟨rfl, rfl⟩
    exact ⟨_, _, ⟨rfl, rfl⟩, rfl, rfl⟩

@[simp]
theorem runs_activeGroup? {group : Nat} {found : Option ActiveGroup} :
    Runs (activeGroup? group) s found s' ↔ found = s.draft.activeGroup? group ∧ s' = s := by
  simp only [activeGroup?, runs_bind, runs_draft, runs_pure]
  constructor
  · rintro ⟨_, _, ⟨rfl, rfl⟩, rfl, rfl⟩
    exact ⟨rfl, rfl⟩
  · rintro ⟨rfl, rfl⟩
    exact ⟨_, _, ⟨rfl, rfl⟩, rfl, rfl⟩

/-! ### The registry -/

@[simp]
theorem runs_aliasOf? {signature : String} {found : Option String} :
    Runs (aliasOf? signature) s found s' ↔ found = s.registry.aliases.lookup signature ∧ s' = s := by
  simp only [aliasOf?, runs_bind, runs_registry, runs_pure]
  constructor
  · rintro ⟨_, _, ⟨rfl, rfl⟩, rfl, rfl⟩
    exact ⟨rfl, rfl⟩
  · rintro ⟨rfl, rfl⟩
    exact ⟨_, _, ⟨rfl, rfl⟩, rfl, rfl⟩

@[simp]
theorem runs_registerAlias {signature name found : String} :
    Runs (registerAlias signature name) s found s' ↔
      found = (s.registry.addAlias signature name).1 ∧
      s' = { s with registry := (s.registry.addAlias signature name).2 } := by
  constructor
  · intro ran
    cases ran
    exact ⟨rfl, rfl⟩
  · rintro ⟨rfl, rfl⟩
    rfl

/-- A global that is new is reserved, defined and filled in. -/
theorem runs_registerGlobal {name out : String} {define : Gen Decl} :
    Runs (registerGlobal name define) s out s' ↔ out = name ∧
      (s.registry.isDeclared name = true ∧ s' = s ∨
        s.registry.isDeclared name = false ∧ ∃ d s₁,
          Runs define { s with registry := s.registry.reserve name } d s₁ ∧
          s' = { s₁ with registry := s₁.registry.fill name d }) := by
  simp only [registerGlobal, runs_bind, runs_registry]
  cases declared : s.registry.isDeclared name with
  | true =>
    constructor
    · rintro ⟨_, _, ⟨rfl, rfl⟩, ran⟩
      rw [if_pos declared, runs_pure] at ran
      exact ⟨ran.1, .inl ⟨rfl, ran.2⟩⟩
    · rintro ⟨rfl, ⟨_, rfl⟩ | ⟨other, _⟩⟩
      · refine ⟨_, _, ⟨rfl, rfl⟩, ?_⟩
        rw [if_pos declared, runs_pure]
        exact ⟨rfl, rfl⟩
      · cases other
  | false =>
    have fresh : ¬ s.registry.isDeclared name = true := by simp [declared]
    constructor
    · rintro ⟨_, _, ⟨rfl, rfl⟩, ran⟩
      rw [if_neg fresh] at ran
      simp only [runs_bind, runs_pure, runs_updateRegistry] at ran
      obtain ⟨_, _, rfl, d, s₁, defined, _, _, rfl, rfl, rfl⟩ := ran
      exact ⟨rfl, .inr ⟨rfl, d, s₁, defined, rfl⟩⟩
    · rintro ⟨rfl, ⟨other, _⟩ | ⟨_, d, s₁, defined, rfl⟩⟩
      · cases other
      · refine ⟨_, _, ⟨rfl, rfl⟩, ?_⟩
        rw [if_neg fresh]
        simp only [runs_bind, runs_pure, runs_updateRegistry]
        exact ⟨(), _, rfl, d, s₁, defined, (), _, rfl, trivial, rfl⟩

/-- A constant that is new gets a free name, and is reserved, defined and filled in. -/
theorem runs_registerConstant {key desired name : String} {define : String → Gen Decl} :
    Runs (registerConstant key desired define) s name s' ↔
      s.registry.constants.lookup key = some name ∧ s' = s ∨
      s.registry.constants.lookup key = none ∧ name = s.registry.freeName desired ∧ ∃ d s₁,
        Runs (define name)
          { s with registry := (s.registry.addConstant key name).reserve name } d s₁ ∧
        s' = { s₁ with registry := s₁.registry.fill name d } := by
  simp only [registerConstant, runs_bind, runs_registry]
  cases known : s.registry.constants.lookup key with
  | some found =>
    constructor
    · rintro ⟨_, _, ⟨rfl, rfl⟩, ran⟩
      simp only [known, runs_pure] at ran
      exact .inl ⟨by rw [ran.1], ran.2⟩
    · rintro (⟨same, rfl⟩ | ⟨other, _⟩)
      · cases same
        refine ⟨_, _, ⟨rfl, rfl⟩, ?_⟩
        simp only [known, runs_pure]
        exact ⟨trivial, trivial⟩
      · cases other
  | none =>
    constructor
    · rintro ⟨_, _, ⟨rfl, rfl⟩, ran⟩
      simp only [known, runs_bind, runs_registry, runs_pure, runs_updateRegistry] at ran
      obtain ⟨_, _, ⟨rfl, rfl⟩, _, _, rfl, d, s₁, defined, _, _, rfl, rfl, rfl⟩ := ran
      exact .inr ⟨rfl, rfl, d, s₁, defined, rfl⟩
    · rintro (⟨other, _⟩ | ⟨_, rfl, d, s₁, defined, rfl⟩)
      · cases other
      · refine ⟨_, _, ⟨rfl, rfl⟩, ?_⟩
        simp only [known, runs_bind, runs_registry, runs_pure, runs_updateRegistry]
        exact ⟨_, _, ⟨rfl, rfl⟩, (), _, rfl, d, s₁, defined, (), _, rfl, rfl, rfl⟩

/-! ### Shapes -/

@[simp]
theorem runs_canonicalName {shape : Shape} {name : String} :
    Runs (canonicalName shape) s name s' ↔ name = shape.canonicalName s.refs ∧ s' = s := by
  simp only [canonicalName, runs_bind, runs_refs, runs_pure]
  constructor
  · rintro ⟨_, _, ⟨rfl, rfl⟩, rfl, rfl⟩
    exact ⟨rfl, rfl⟩
  · rintro ⟨rfl, rfl⟩
    exact ⟨_, _, ⟨rfl, rfl⟩, rfl, rfl⟩

@[simp]
theorem runs_resolved {shape found : Shape} :
    Runs (resolved shape) s found s' ↔ shape.resolved s.refs = .ok found ∧ s' = s := by
  simp only [resolved, runs_bind, runs_refs, runs_ofExcept]
  constructor
  · rintro ⟨_, _, ⟨rfl, rfl⟩, found, rfl⟩
    exact ⟨found, rfl⟩
  · rintro ⟨found, rfl⟩
    exact ⟨_, _, ⟨rfl, rfl⟩, found, rfl⟩

@[simp]
theorem runs_storedFields {shape : Shape} {fields : List Field} :
    Runs (storedFields shape) s fields s' ↔ shape.storedFields s.refs = .ok fields ∧ s' = s := by
  simp only [storedFields, runs_bind, runs_refs, runs_ofExcept]
  constructor
  · rintro ⟨_, _, ⟨rfl, rfl⟩, found, rfl⟩
    exact ⟨found, rfl⟩
  · rintro ⟨found, rfl⟩
    exact ⟨_, _, ⟨rfl, rfl⟩, found, rfl⟩

/-! ### Lists -/

@[simp]
theorem runs_mapM_nil {f : α → Gen β} {bs : List β} :
    Runs ([].mapM f) s bs s' ↔ bs = [] ∧ s' = s := by
  rw [List.mapM_nil, runs_pure]

@[simp]
theorem runs_mapM_cons {f : α → Gen β} {a : α} {rest : List α} {bs : List β} :
    Runs ((a :: rest).mapM f) s bs s' ↔ ∃ b s₁ others, Runs (f a) s b s₁ ∧
      Runs (rest.mapM f) s₁ others s' ∧ bs = b :: others := by
  rw [List.mapM_cons]
  simp only [runs_bind, runs_pure]
  constructor
  · rintro ⟨b, s₁, first, others, _, later, rfl, rfl⟩
    exact ⟨b, s₁, others, first, later, rfl⟩
  · rintro ⟨b, s₁, others, first, later, rfl⟩
    exact ⟨b, s₁, first, others, s', later, rfl, rfl⟩

@[simp]
theorem runs_forM_nil {f : α → Gen Unit} {u : Unit} :
    Runs ([].forM f) s u s' ↔ s' = s := by
  change Runs (pure ()) s u s' ↔ _
  simp

@[simp]
theorem runs_forM_cons {f : α → Gen Unit} {a : α} {rest : List α} {u : Unit} :
    Runs ((a :: rest).forM f) s u s' ↔ ∃ s₁, Runs (f a) s () s₁ ∧ Runs (rest.forM f) s₁ () s' := by
  change Runs (f a >>= fun _ => rest.forM f) s u s' ↔ _
  rw [runs_bind]
  constructor
  · rintro ⟨_, s₁, first, later⟩
    exact ⟨s₁, first, later⟩
  · rintro ⟨s₁, first, later⟩
    exact ⟨(), s₁, first, later⟩

end Gen

end WireSchema
