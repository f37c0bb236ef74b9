import WireSchema.Proofs.Session.Runs
import WireSchema.Proofs.Shape.HookFree

/-!
# Balanced computations

A computation is balanced if it hands the stacks of the draft back as it found them, whether it
succeeds or fails. Hints and bit groups are as before, and so are all scopes but the innermost one,
to which statements and names were only added. The rules follow the operations of a session; those
that open something close it again also after a failure.
-/

namespace WireSchema

open Ir

/-- The second draft is the first one with statements and names added to the innermost scope. Names
are kept last first, so what is added to them stands in front. -/
structure Draft.Grown (d d' : Draft) : Prop where
  hints : d'.hints = d.hints
  groups : d'.groups = d.groups
  scopes : ∃ scope outer stmts names, d.scopes = scope :: outer ∧
    d'.scopes = { stmts := scope.stmts ++ stmts, names := names ++ scope.names } :: outer
  taken : d.taken <:+ d'.taken
  nextLocal : d.nextLocal ≤ d'.nextLocal

namespace Draft

variable {d d' d'' : Draft}

theorem Grown.isOpen (grown : d.Grown d') : d'.scopes ≠ [] := by
  obtain ⟨scope, outer, stmts, names, -, after⟩ := grown.scopes
  rw [after]
  exact List.cons_ne_nil _ _

/-- A scope that something is added to, in a draft that is otherwise as before. -/
theorem grown_of_scopes (hints : d'.hints = d.hints) (groups : d'.groups = d.groups)
    (taken : d.taken <:+ d'.taken) (nextLocal : d.nextLocal ≤ d'.nextLocal) {scope : Scope}
    {outer : List Scope} (opened : d.scopes = scope :: outer) (stmts : List Stmt)
    (names : List (String × Local))
    (added : d'.scopes =
      { stmts := scope.stmts ++ stmts, names := names ++ scope.names } :: outer) : d.Grown d' :=
  ⟨hints, groups, ⟨scope, outer, stmts, names, opened, added⟩, taken, nextLocal⟩

theorem exists_scope (isOpen : d.scopes ≠ []) : ∃ scope outer, d.scopes = scope :: outer :=
  List.exists_cons_of_ne_nil isOpen

theorem grown_refl (isOpen : d.scopes ≠ []) : d.Grown d := by
  obtain ⟨scope, outer, opened⟩ := exists_scope isOpen
  refine grown_of_scopes rfl rfl (List.suffix_refl _) (Nat.le_refl _) opened [] [] ?_
  rw [opened, List.append_nil, List.nil_append]

theorem Grown.trans (first : d.Grown d') (second : d'.Grown d'') : d.Grown d'' := by
  obtain ⟨scope, outer, stmts, names, before, between⟩ := first.scopes
  obtain ⟨scope', outer', stmts', names', between', after⟩ := second.scopes
  rw [between] at between'
  obtain ⟨rfl, rfl⟩ := List.cons.inj between'
  refine grown_of_scopes (second.hints.trans first.hints) (second.groups.trans first.groups)
    (first.taken.trans second.taken) (Nat.le_trans first.nextLocal second.nextLocal) before
    (stmts ++ stmts') (names' ++ names) ?_
  rw [after, List.append_assoc, List.append_assoc]

/-- Something is added to the innermost scope. -/
theorem grown_updateScope (isOpen : d.scopes ≠ []) (f : Scope → Scope) (stmts : List Stmt)
    (names : List (String × Local))
    (adds : ∀ scope, f scope = { stmts := scope.stmts ++ stmts, names := names ++ scope.names }) :
    d.Grown (d.updateScope f) := by
  obtain ⟨scope, outer, opened⟩ := exists_scope isOpen
  have updated : d.updateScope f = { d with scopes := f scope :: outer } := by
    unfold updateScope
    rw [opened]
  rw [updated]
  refine grown_of_scopes rfl rfl (List.suffix_refl _) (Nat.le_refl _) opened stmts names ?_
  rw [adds]

theorem grown_emit (isOpen : d.scopes ≠ []) (s : Stmt) : d.Grown (d.emit s) :=
  grown_updateScope isOpen _ [s] [] fun _ => rfl

theorem grown_join (isOpen : d.scopes ≠ []) (inner : Scope) : d.Grown (d.join inner) :=
  grown_updateScope isOpen _ inner.stmts inner.names fun _ => rfl

theorem grown_fresh (isOpen : d.scopes ≠ []) (name : String) : d.Grown (d.fresh name).2 := by
  obtain ⟨scope, outer, opened⟩ := exists_scope isOpen
  refine grown_of_scopes rfl rfl (List.suffix_cons _ _) (Nat.le_succ _) opened [] [] ?_
  rw [List.append_nil, List.nil_append]
  exact opened

theorem grown_named (isOpen : d.scopes ≠ []) (entry : String × Local) :
    d.Grown (d.updateScope fun scope => { scope with names := entry :: scope.names }) := by
  refine grown_updateScope isOpen _ [] [entry] fun scope => ?_
  rw [List.append_nil, List.singleton_append]

theorem grown_alloc (isOpen : d.scopes ≠ []) (requested : String) :
    d.Grown (d.alloc requested).2 := by
  have fresh := grown_fresh isOpen (d.freeName requested)
  exact fresh.trans (grown_named fresh.isOpen _)

/-- A scope that was opened is closed: the scopes before it are as they were. -/
theorem Grown.popScope (isOpen : d.scopes ≠ []) (grown : d.pushScope.Grown d') :
    d.Grown d'.popScope.2 := by
  obtain ⟨scope, outer, opened⟩ := exists_scope isOpen
  obtain ⟨inner, below, stmts, names, before, after⟩ := grown.scopes
  have same : d.scopes = below := (List.cons.inj before).2
  have left : d'.popScope.2 = { d' with scopes := d.scopes } := by
    rw [Draft.popScope, after, same]
  rw [left]
  refine grown_of_scopes grown.hints grown.groups grown.taken grown.nextLocal opened [] [] ?_
  rw [List.append_nil, List.nil_append]
  exact opened

end Draft

namespace Gen

/-- From every draft with an open scope the computation leads to one that has grown, with the same
references, whether it succeeds or fails; of what it yields `Q` holds. -/
def Balances (types : Refs) {α : Type} (act : Gen α) (Q : α → Prop) : Prop :=
  ∀ s, s.refs = types → s.draft.scopes ≠ [] → (act.start s).2.refs = types ∧
    s.draft.Grown (act.start s).2.draft ∧ ∀ a, (act.start s).1 = .ok a → Q a

variable {types : Refs} {α β : Type}

theorem balances_pure {a : α} {Q : α → Prop} (holds : Q a) : Balances types (pure a) Q := by
  intro s refs isOpen
  refine ⟨refs, Draft.grown_refl isOpen, fun b same => ?_⟩
  rw [← Except.ok.inj same]
  exact holds

theorem balances_throw (e : SchemaError) {Q : α → Prop} : Balances types (throw e) Q :=
  fun _ refs isOpen => ⟨refs, Draft.grown_refl isOpen, nofun⟩

theorem Balances.bind {act : Gen α} {next : α → Gen β} {Q : α → Prop} {Q' : β → Prop}
    (first : Balances types act Q) (second : ∀ a, Q a → Balances types (next a) Q') :
    Balances types (act >>= next) Q' := by
  intro s refs isOpen
  obtain ⟨kept, grown, holds⟩ := first s refs isOpen
  rw [start_bind]
  cases ran : act.start s with
  | mk result s₁ =>
    rw [ran] at kept grown holds
    cases result with
    | ok a =>
      obtain ⟨kept', grown', holds'⟩ := second a (holds a rfl) s₁ kept grown.isOpen
      exact ⟨kept', grown.trans grown', holds'⟩
    | error e => exact ⟨kept, grown, nofun⟩

theorem Balances.weaken {act : Gen α} {Q Q' : α → Prop} (balances : Balances types act Q)
    (weaker : ∀ a, Q a → Q' a) : Balances types act Q' := by
  intro s refs isOpen
  obtain ⟨kept, grown, holds⟩ := balances s refs isOpen
  exact ⟨kept, grown, fun a same => weaker a (holds a same)⟩

theorem Balances.forget {act : Gen α} {Q : α → Prop} (balances : Balances types act Q) :
    Balances types act fun _ => True := balances.weaken fun _ _ => trivial

theorem Balances.map {act : Gen α} {Q : α → Prop} (balances : Balances types act Q) (f : α → β) :
    Balances types (f <$> act) fun _ => True := by
  rw [map_eq_pure_bind]
  exact balances.bind fun _ _ => balances_pure trivial

theorem Balances.discard {act : Gen α} {Q : α → Prop} (balances : Balances types act Q) :
    Balances types (discard act) fun _ => True := balances.map _

theorem balances_ofExcept (result : Except SchemaError α) :
    Balances types (ofExcept result) fun a => result = .ok a := by
  cases result with
  | ok a => exact balances_pure rfl
  | error e => exact balances_throw e

/-- A check that may fail, and what comes after it. -/
theorem balances_guard {c : Prop} [Decidable c] {failure : Gen PUnit} {next : PUnit → Gen β}
    {Q : β → Prop} (fails : Balances types failure fun _ => True)
    (success : Balances types (next ⟨⟩) Q) :
    Balances types (if c then failure >>= next else next ⟨⟩) Q := by
  split
  · exact fails.bind fun _ _ => success
  · exact success

/-! ### The session -/

/-- A computation that only looks at the session. -/
theorem balances_look {act : Gen α} {Q : α → Prop}
    (looks : ∀ s, s.refs = types → ∃ a, act.start s = (.ok a, s) ∧ Q a) :
    Balances types act Q := by
  intro s refs isOpen
  obtain ⟨a, ran, holds⟩ := looks s refs
  rw [ran]
  refine ⟨refs, Draft.grown_refl isOpen, fun b same => ?_⟩
  rw [← Except.ok.inj same]
  exact holds

theorem balances_refs : Balances types refs (· = types) :=
  balances_look fun s same => ⟨s.refs, rfl, same⟩

theorem balances_registry : Balances types registry fun _ => True :=
  balances_look fun s _ => ⟨s.registry, rfl, trivial⟩

theorem balances_draft : Balances types draft fun _ => True :=
  balances_look fun s _ => ⟨s.draft, rfl, trivial⟩

theorem balances_canonicalName (s : Shape) : Balances types (canonicalName s) fun _ => True :=
  balances_refs.bind fun _ _ => balances_pure trivial

theorem balances_aliasOf? (signature : String) :
    Balances types (aliasOf? signature) fun _ => True :=
  balances_registry.bind fun _ _ => balances_pure trivial

theorem balances_lastHint (fallback : String) : Balances types (lastHint fallback) fun _ => True :=
  balances_draft.bind fun _ _ => balances_pure trivial

theorem balances_hintName (fallback : String) : Balances types (hintName fallback) fun _ => True :=
  balances_draft.bind fun _ _ => balances_pure trivial

theorem balances_activeGroup? (group : Nat) :
    Balances types (activeGroup? group) fun _ => True :=
  balances_draft.bind fun _ _ => balances_pure trivial

theorem balances_updateRegistry (f : Registry → Registry) :
    Balances types (updateRegistry f) fun _ => True :=
  fun _ refs isOpen => ⟨refs, Draft.grown_refl isOpen, fun _ _ => trivial⟩

/-! ### The draft -/

theorem balances_updateDraft {f : Draft → Draft}
    (grows : ∀ d : Draft, d.scopes ≠ [] → d.Grown (f d)) :
    Balances types (updateDraft f) fun _ => True :=
  fun s refs isOpen => ⟨refs, grows s.draft isOpen, fun _ _ => trivial⟩

theorem balances_emit (st : Stmt) : Balances types (emit st) fun _ => True :=
  balances_updateDraft fun _ isOpen => Draft.grown_emit isOpen st

theorem balances_alloc (requested : String) : Balances types (alloc requested) fun _ => True :=
  fun _ refs isOpen => ⟨refs, Draft.grown_alloc isOpen requested, fun _ _ => trivial⟩

theorem balances_param (name : String) : Balances types (param name) fun _ => True :=
  fun _ refs isOpen => ⟨refs, Draft.grown_fresh isOpen name, fun _ _ => trivial⟩

theorem balances_declareMut (requested : String) (init : Expr) :
    Balances types (declareMut requested init) fun _ => True :=
  (balances_alloc requested).bind fun _ _ =>
    (balances_emit _).bind fun _ _ => balances_pure trivial

theorem balances_declareDeferred (requested : String) :
    Balances types (declareDeferred requested) fun _ => True :=
  (balances_alloc requested).bind fun _ _ =>
    (balances_emit _).bind fun _ _ => balances_pure trivial

/-- The hint is taken off again, also after a failure. -/
theorem Balances.withHint {act : Gen α} {Q : α → Prop} (balances : Balances types act Q)
    (hint : String) : Balances types (withHint hint act) Q := by
  intro s refs isOpen
  obtain ⟨kept, grown, holds⟩ :=
    balances { s with draft.hints := hint :: s.draft.hints } refs isOpen
  refine ⟨kept, ⟨?_, grown.groups, grown.scopes, grown.taken, grown.nextLocal⟩, holds⟩
  exact congrArg List.tail grown.hints

/-- The group is taken off again, also after a failure. -/
theorem Balances.withGroup {act : Gen α} {Q : α → Prop} (balances : Balances types act Q)
    (group : Nat) (raw : Option Expr) : Balances types (withGroup group raw act) Q := by
  intro s refs isOpen
  obtain ⟨kept, grown, holds⟩ :=
    balances { s with draft.groups := ⟨group, raw⟩ :: s.draft.groups } refs isOpen
  refine ⟨kept, ⟨grown.hints, ?_, grown.scopes, grown.taken, grown.nextLocal⟩, holds⟩
  exact congrArg List.tail grown.groups

/-- The scope is closed again, also after a failure. -/
theorem Balances.inScope {act : Gen α} {Q : α → Prop} (balances : Balances types act Q) :
    Balances types (inScope act) fun out => Q out.2 := by
  intro s refs isOpen
  have opened : (mapDraft Draft.pushScope s).draft.scopes ≠ [] := List.cons_ne_nil _ _
  obtain ⟨kept, grown, holds⟩ := balances (mapDraft Draft.pushScope s) refs opened
  rw [start_inScope]
  cases ran : act.start (mapDraft Draft.pushScope s) with
  | mk result s₁ =>
    rw [ran] at kept grown holds
    cases result with
    | ok a =>
      refine ⟨kept, Draft.Grown.popScope isOpen grown, fun out same => ?_⟩
      rw [← Except.ok.inj same]
      exact holds a rfl
    | error e => exact ⟨kept, Draft.Grown.popScope isOpen grown, nofun⟩

theorem Balances.capture {act : Gen α} {Q : α → Prop} (balances : Balances types act Q) :
    Balances types (capture act) fun out => Q out.2 :=
  balances.inScope.bind fun _ holds => balances_pure holds

theorem Balances.captureBlock {act : Gen Expr} {Q : Expr → Prop} (balances : Balances types act Q) :
    Balances types (captureBlock act) fun _ => True :=
  balances.capture.bind fun _ _ => balances_pure trivial

theorem Balances.declare {init : Gen Expr} {Q : Expr → Prop} (balances : Balances types init Q)
    (requested : String) : Balances types (declare requested init) fun _ => True := by
  refine balances.inScope.bind fun out _ => ?_
  -- What the initial value needed moves to the scope around it, at the end.
  have joined : Balances types (updateDraft (·.join out.1)) fun _ => True :=
    balances_updateDraft fun _ isOpen => Draft.grown_join isOpen out.1
  refine joined.bind fun _ _ => (balances_alloc requested).bind fun _ _ => ?_
  exact (balances_emit _).bind fun _ _ => balances_pure trivial

/-- A binding of an expression that needs no statements. -/
theorem balances_declare (requested : String) (e : Expr) :
    Balances types (declare requested (return e)) fun _ => True :=
  Balances.declare (Q := fun _ => True) (balances_pure trivial) requested

/-! ### Drafts of their own -/

/-- The computation keeps the references and leaves a scope open. -/
def StaysOpen (types : Refs) {α : Type} (act : Gen α) : Prop :=
  ∀ s, s.refs = types → s.draft.scopes ≠ [] →
    (act.start s).2.refs = types ∧ (act.start s).2.draft.scopes ≠ []

theorem Balances.staysOpen {act : Gen α} {Q : α → Prop} (balances : Balances types act Q) :
    StaysOpen types act := by
  intro s refs isOpen
  obtain ⟨kept, grown, -⟩ := balances s refs isOpen
  exact ⟨kept, grown.isOpen⟩

theorem StaysOpen.bind {act : Gen α} {next : α → Gen β} (first : StaysOpen types act)
    (second : ∀ a, StaysOpen types (next a)) : StaysOpen types (act >>= next) := by
  intro s refs isOpen
  obtain ⟨kept, opened⟩ := first s refs isOpen
  rw [start_bind]
  cases ran : act.start s with
  | mk result s₁ =>
    rw [ran] at kept opened
    cases result with
    | ok a => exact second a s₁ kept opened
    | error e => exact ⟨kept, opened⟩

theorem staysOpen_beginFunction : StaysOpen types beginFunction :=
  fun _ refs _ => ⟨refs, List.cons_ne_nil _ _⟩

/-- What happens on a draft of its own does not touch the one at hand. -/
theorem StaysOpen.nested {act : Gen α} (stays : StaysOpen types act) (hint : String) :
    Balances types (nested hint act) fun _ => True := by
  intro s refs isOpen
  have kept := (stays { s with draft := Draft.named hint } refs (List.cons_ne_nil _ _)).1
  exact ⟨kept, Draft.grown_refl isOpen, fun _ _ => trivial⟩

theorem Balances.nested {act : Gen α} {Q : α → Prop} (balances : Balances types act Q)
    (hint : String) : Balances types (nested hint act) fun _ => True :=
  balances.staysOpen.nested hint

/-! ### The registry -/

theorem balances_registerAlias (signature name : String) :
    Balances types (registerAlias signature name) fun _ => True :=
  balances_registry.bind fun _ _ =>
    (balances_updateRegistry _).bind fun _ _ => balances_pure trivial

theorem balances_registerFunction (path : String) (f : HostFunction) :
    Balances types (registerFunction path f) fun _ => True := balances_updateRegistry _

theorem Balances.registerGlobal {define : Gen Decl} {Q : Decl → Prop}
    (balances : Balances types define Q) (name : String) :
    Balances types (registerGlobal name define) fun _ => True := by
  refine balances_registry.bind fun r _ => ?_
  split
  · exact balances_pure trivial
  · refine (balances_updateRegistry _).bind fun _ _ => balances.bind fun d _ => ?_
    exact (balances_updateRegistry _).bind fun _ _ => balances_pure trivial

theorem balances_registerConstant {define : String → Gen Decl}
    (balances : ∀ name, Balances types (define name) fun _ => True) (key desired : String) :
    Balances types (registerConstant key desired define) fun _ => True := by
  refine balances_registry.bind fun r _ => ?_
  split
  · exact balances_pure trivial
  · refine balances_registry.bind fun r _ => (balances_updateRegistry _).bind fun _ _ => ?_
    refine (balances _).bind fun d _ => ?_
    exact (balances_updateRegistry _).bind fun _ _ => balances_pure trivial

/-! ### Shapes -/

variable {s : Shape}

theorem balances_resolved (free : s.HookFree types) :
    Balances types (resolved s) fun t => t.HookFree types := by
  refine balances_refs.bind fun table same => ?_
  subst same
  exact (balances_ofExcept _).weaken fun _ found => free.resolved found

theorem balances_storedFields (free : s.HookFree types) :
    Balances types (storedFields s) fun fields => ∀ f ∈ fields, f.shape.HookFree types := by
  refine balances_refs.bind fun table same => ?_
  subst same
  exact (balances_ofExcept _).weaken fun _ found => free.stored found

/-! ### Lists -/

theorem balances_mapM {f : α → Gen β} {items : List α}
    (each : ∀ a ∈ items, Balances types (f a) fun _ => True) :
    Balances types (items.mapM f) fun _ => True := by
  induction items with
  | nil =>
    rw [List.mapM_nil]
    exact balances_pure trivial
  | cons first rest ih =>
    rw [List.mapM_cons]
    obtain ⟨here, later⟩ := List.forall_mem_cons.mp each
    exact here.bind fun _ _ => (ih later).bind fun _ _ => balances_pure trivial

theorem balances_forM {f : α → Gen Unit} {items : List α}
    (each : ∀ a ∈ items, Balances types (f a) fun _ => True) :
    Balances types (items.forM f) fun _ => True := by
  induction items with
  | nil => exact balances_pure trivial
  | cons first rest ih =>
    obtain ⟨here, later⟩ := List.forall_mem_cons.mp each
    exact here.bind fun _ _ => ih later

end Gen

end WireSchema
