import WireSchema.Proofs.Ir.Renaming
import WireSchema.Proofs.Session.Growth

/-!
# Sessions side by side

Two sessions generate the same code up to names, although their registries differ. The names of an
enumeration in the two registries say which names belong together, so what is equal up to names
depends on the registries; it stays equal when they grow. Two computations are coupled if they take
sessions whose drafts are equal up to names to such sessions again, whenever both succeed.
-/

namespace WireSchema

open Ir

/-! ### What is equal up to names -/

/-- The canonical name of an enumeration does not depend on references. -/
theorem Shape.canonicalName_enum (refs : Refs) (backing : Primitive)
    (entries : List (String × Int)) :
    (Shape.enum backing entries).canonicalName refs =
      (Shape.enum backing entries).canonicalName [] := by
  unfold Shape.canonicalName
  cases refs.length <;> rfl

/-- The registries of two sessions. -/
structure World where
  left : Registry
  right : Registry

namespace World

/-- The first registries came earlier in the runs. -/
structure Before (w w' : World) : Prop where
  left : w.left.Keeps w'.left
  right : w.right.Keeps w'.right

variable {w w' w'' : World} {may : String → Prop} {α β γ : Type}

theorem Before.refl (w : World) : w.Before w := ⟨fun _ _ known => known, fun _ _ known => known⟩

theorem Before.trans (first : w.Before w') (second : w'.Before w'') : w.Before w'' :=
  ⟨first.left.trans second.left, first.right.trans second.right⟩

/-- The renamings agree on the codecs that may be called, and on the enumerations that both
registries have. -/
structure Admits (may : String → Prop) (w : World) (ρ ρ' : Renaming) : Prop where
  codecs : ∀ codec, may codec → ρ.codec codec = ρ'.codec codec
  enums : ∀ backing entries signature name name',
    Registry.IsEnumSignature [] backing entries signature →
    w.left.constants.lookup signature = some name →
    w.right.constants.lookup signature = some name' → ρ.enum name = ρ'.enum name'

theorem Admits.earlier {ρ ρ' : Renaming} (admits : w'.Admits may ρ ρ') (before : w.Before w') :
    w.Admits may ρ ρ' where
  codecs := admits.codecs
  enums backing entries signature name name' is known known' :=
    admits.enums backing entries signature name name' is (before.left _ _ known)
      (before.right _ _ known')

/-- Two things are equal under all renamings that the registries admit. -/
def Alike (may : String → Prop) (w : World) (x y : Renaming → α) : Prop :=
  ∀ ρ ρ', w.Admits may ρ ρ' → x ρ = y ρ'

theorem Alike.later {x y : Renaming → α} (alike : w.Alike may x y) (before : w.Before w') :
    w'.Alike may x y := fun ρ ρ' admits => alike ρ ρ' (admits.earlier before)

theorem Alike.refl (a : α) : w.Alike may (fun _ => a) fun _ => a := fun _ _ _ => rfl

theorem Alike.map {x y : Renaming → α} (alike : w.Alike may x y) (f : α → β) :
    w.Alike may (fun ρ => f (x ρ)) fun ρ => f (y ρ) :=
  fun ρ ρ' admits => congrArg f (alike ρ ρ' admits)

theorem Alike.pair {x y : Renaming → α} {x' y' : Renaming → β} (alike : w.Alike may x y)
    (alike' : w.Alike may x' y') (f : α → β → γ) :
    w.Alike may (fun ρ => f (x ρ) (x' ρ)) fun ρ => f (y ρ) (y' ρ) :=
  fun ρ ρ' admits => congrArg₂ f (alike ρ ρ' admits) (alike' ρ ρ' admits)

/-- What does not depend on names is equal. -/
theorem Alike.eq {a b : α} (alike : w.Alike may (fun _ => a) fun _ => b) : a = b := by
  have admits : w.Admits may ⟨fun _ => "", id⟩ ⟨fun _ => "", id⟩ :=
    ⟨fun _ _ => rfl, fun _ _ _ _ _ _ _ _ => rfl⟩
  exact alike _ _ admits

end World

/-- The scope under new names. -/
def Scope.rename (ρ : Renaming) (s : Scope) : Scope :=
  { s with stmts := Stmt.renameBlock ρ s.stmts }

namespace Draft

/-- The draft under new names, without its groups. -/
def rename (ρ : Renaming) (d : Draft) : Draft :=
  { d with scopes := d.scopes.map (Scope.rename ρ), groups := [] }

variable (ρ : Renaming) (d : Draft)

theorem rename_updateScope {f g : Scope → Scope} (commutes : ∀ s, (f s).rename ρ = g (s.rename ρ)) :
    (d.updateScope f).rename ρ = (d.rename ρ).updateScope g := by
  obtain ⟨scopes, _, _, _, _⟩ := d
  cases scopes with
  | nil => rfl
  | cons scope outer => simp only [updateScope, rename, List.map_cons, commutes]

theorem rename_emit (s : Stmt) : (d.emit s).rename ρ = (d.rename ρ).emit (s.rename ρ) := by
  refine rename_updateScope ρ d fun scope => ?_
  simp only [Scope.rename, Stmt.renameBlock_append, Stmt.renameBlock]

theorem rename_popScope : d.popScope.2.rename ρ = (d.rename ρ).popScope.2 := by
  obtain ⟨scopes, _, _, _, _⟩ := d
  cases scopes <;> rfl

theorem rename_scope_popScope : d.popScope.1.rename ρ = (d.rename ρ).popScope.1 := by
  obtain ⟨scopes, _, _, _, _⟩ := d
  cases scopes <;> rfl

theorem rename_join (inner : Scope) : (d.join inner).rename ρ = (d.rename ρ).join (inner.rename ρ) := by
  refine rename_updateScope ρ d fun scope => ?_
  simp only [Scope.rename, Stmt.renameBlock_append]

theorem rename_alloc (requested : String) :
    (d.alloc requested).2.rename ρ = ((d.rename ρ).alloc requested).2 :=
  rename_updateScope ρ _ fun _ => rfl

end Draft

/-! ### Coupled computations -/

section

variable (types types' : Refs) (may : String → Prop)

/-- The sessions have the given references, registries and groups, and drafts that are equal up to
names. -/
structure Matched (w : World) (γ γ' : List ActiveGroup) (s s' : Session) : Prop where
  refs : s.refs = types
  refs' : s'.refs = types'
  registry : s.registry = w.left
  registry' : s'.registry = w.right
  groups : s.draft.groups = γ
  groups' : s'.draft.groups = γ'
  drafts : w.Alike may (fun ρ => s.draft.rename ρ) fun ρ => s'.draft.rename ρ

/-- The computations take matched sessions to matched sessions, and their results are related, if
both succeed. -/
def Couples {α β : Type} (w : World) (γ γ' : List ActiveGroup) (act : Gen α) (act' : Gen β)
    (Q : World → α → β → Prop) : Prop :=
  ∀ ⦃s s' t t' : Session⦄ ⦃a : α⦄ ⦃b : β⦄, Matched types types' may w γ γ' s s' →
    Gen.Runs act s a t → Gen.Runs act' s' b t' →
    ∃ w', w.Before w' ∧ Matched types types' may w' γ γ' t t' ∧ Q w' a b

end

variable {types types' : Refs} {may : String → Prop} {w : World} {γ γ' : List ActiveGroup}
  {α β α' β' : Type} {Q : World → α → β → Prop} {Q' : World → α' → β' → Prop}

theorem couples_pure {a : α} {b : β} (holds : Q w a b) :
    Couples types types' may w γ γ' (pure a) (pure b) Q := by
  intro s s' t t' x y matched ran ran'
  obtain ⟨rfl, rfl⟩ := Gen.runs_pure.mp ran
  obtain ⟨rfl, rfl⟩ := Gen.runs_pure.mp ran'
  exact ⟨w, .refl w, matched, holds⟩

theorem couples_throw {e : SchemaError} {act' : Gen β} :
    Couples types types' may w γ γ' (throw e) act' Q :=
  fun _ _ _ _ _ _ _ ran _ => (Gen.runs_throw.mp ran).elim

theorem couples_throw' {e : SchemaError} {act : Gen α} :
    Couples types types' may w γ γ' act (throw e) Q :=
  fun _ _ _ _ _ _ _ _ ran => (Gen.runs_throw.mp ran).elim

namespace Couples

theorem bind {act : Gen α} {act' : Gen β} {next : α → Gen α'} {next' : β → Gen β'}
    (first : Couples types types' may w γ γ' act act' Q)
    (second : ∀ w', w.Before w' → ∀ a b, Q w' a b →
      Couples types types' may w' γ γ' (next a) (next' b) Q') :
    Couples types types' may w γ γ' (act >>= next) (act' >>= next') Q' := by
  intro s s' t t' c c' matched ran ran'
  obtain ⟨a, u, ran₁, ran₂⟩ := Gen.runs_bind.mp ran
  obtain ⟨b, u', ran₁', ran₂'⟩ := Gen.runs_bind.mp ran'
  obtain ⟨w₁, before, matched₁, related⟩ := first matched ran₁ ran₁'
  obtain ⟨w₂, before', matched₂, holds⟩ := second w₁ before a b related matched₁ ran₂ ran₂'
  exact ⟨w₂, before.trans before', matched₂, holds⟩

theorem weaken {R : World → α → β → Prop} {act : Gen α} {act' : Gen β}
    (couples : Couples types types' may w γ γ' act act' Q)
    (weaker : ∀ w', w.Before w' → ∀ a b, Q w' a b → R w' a b) :
    Couples types types' may w γ γ' act act' R := by
  intro s s' t t' a b matched ran ran'
  obtain ⟨w', before, matched', holds⟩ := couples matched ran ran'
  exact ⟨w', before, matched', weaker w' before a b holds⟩

theorem map {act : Gen α} {act' : Gen β} {f : α → α'} {g : β → β'}
    (couples : Couples types types' may w γ γ' act act' fun w a b => Q' w (f a) (g b)) :
    Couples types types' may w γ γ' (f <$> act) (g <$> act') Q' := by
  rw [map_eq_pure_bind, map_eq_pure_bind]
  exact couples.bind fun _ _ _ _ holds => couples_pure holds

theorem discard {act : Gen α} {act' : Gen β} (couples : Couples types types' may w γ γ' act act' Q) :
    Couples types types' may w γ γ' (discard act) (discard act') fun _ _ _ => True :=
  Couples.map (couples.weaken fun _ _ _ _ _ => trivial)

end Couples

/-! ### Questions -/

/-- Computations that only look at their sessions. -/
theorem couples_look {act : Gen α} {act' : Gen β}
    (looks : ∀ s a t, Gen.Runs act s a t → t = s) (looks' : ∀ s b t, Gen.Runs act' s b t → t = s)
    (holds : ∀ s s' a b, Matched types types' may w γ γ' s s' → Gen.Runs act s a s →
      Gen.Runs act' s' b s' → Q w a b) : Couples types types' may w γ γ' act act' Q := by
  intro s s' t t' a b matched ran ran'
  cases looks _ _ _ ran
  cases looks' _ _ _ ran'
  exact ⟨w, .refl w, matched, holds s s' a b matched ran ran'⟩

theorem couples_ofExcept {x : Except SchemaError α} {y : Except SchemaError β}
    (holds : ∀ a b, x = .ok a → y = .ok b → Q w a b) :
    Couples types types' may w γ γ' (Gen.ofExcept x) (Gen.ofExcept y) Q := by
  refine couples_look (fun s a t ran => (Gen.runs_ofExcept.mp ran).2)
    (fun s b t ran => (Gen.runs_ofExcept.mp ran).2) fun s s' a b _ ran ran' => ?_
  exact holds a b (Gen.runs_ofExcept.mp ran).1 (Gen.runs_ofExcept.mp ran').1

theorem couples_refs : Couples types types' may w γ γ' Gen.refs Gen.refs
    fun _ refs refs' => refs = types ∧ refs' = types' := by
  refine couples_look (fun s a t ran => (Gen.runs_refs.mp ran).2)
    (fun s b t ran => (Gen.runs_refs.mp ran).2) fun s s' a b matched ran ran' => ?_
  exact ⟨(Gen.runs_refs.mp ran).1.trans matched.refs, (Gen.runs_refs.mp ran').1.trans matched.refs'⟩

theorem couples_canonicalName (s s' : Shape) : Couples types types' may w γ γ'
    (Gen.canonicalName s) (Gen.canonicalName s') fun _ _ _ => True :=
  couples_look (fun _ _ _ ran => (Gen.runs_canonicalName.mp ran).2)
    (fun _ _ _ ran => (Gen.runs_canonicalName.mp ran).2) fun _ _ _ _ _ _ _ => trivial

theorem couples_resolved (s s' : Shape) : Couples types types' may w γ γ'
    (Gen.resolved s) (Gen.resolved s')
    fun _ found found' => s.resolved types = .ok found ∧ s'.resolved types' = .ok found' := by
  refine couples_look (fun _ _ _ ran => (Gen.runs_resolved.mp ran).2)
    (fun _ _ _ ran => (Gen.runs_resolved.mp ran).2) fun σ σ' a b matched ran ran' => ?_
  rw [← matched.refs, ← matched.refs']
  exact ⟨(Gen.runs_resolved.mp ran).1, (Gen.runs_resolved.mp ran').1⟩

theorem couples_storedFields (s s' : Shape) : Couples types types' may w γ γ'
    (Gen.storedFields s) (Gen.storedFields s')
    fun _ fields fields' => s.storedFields types = .ok fields ∧
      s'.storedFields types' = .ok fields' := by
  refine couples_look (fun _ _ _ ran => (Gen.runs_storedFields.mp ran).2)
    (fun _ _ _ ran => (Gen.runs_storedFields.mp ran).2) fun σ σ' a b matched ran ran' => ?_
  rw [← matched.refs, ← matched.refs']
  exact ⟨(Gen.runs_storedFields.mp ran).1, (Gen.runs_storedFields.mp ran').1⟩

theorem Matched.hints {s s' : Session} (matched : Matched types types' may w γ γ' s s') :
    s.draft.hints = s'.draft.hints := (matched.drafts.map Draft.hints).eq

theorem couples_lastHint (fallback : String) : Couples types types' may w γ γ'
    (Gen.lastHint fallback) (Gen.lastHint fallback) fun _ hint hint' => hint' = hint := by
  refine couples_look (fun _ _ _ ran => (Gen.runs_lastHint.mp ran).2)
    (fun _ _ _ ran => (Gen.runs_lastHint.mp ran).2) fun s s' a b matched ran ran' => ?_
  rw [(Gen.runs_lastHint.mp ran).1, (Gen.runs_lastHint.mp ran').1, matched.hints]

theorem couples_activeGroup? (group group' : Nat) : Couples types types' may w γ γ'
    (Gen.activeGroup? group) (Gen.activeGroup? group')
    fun _ found found' => found = γ.find? (·.group == group) ∧
      found' = γ'.find? (·.group == group') := by
  refine couples_look (fun _ _ _ ran => (Gen.runs_activeGroup?.mp ran).2)
    (fun _ _ _ ran => (Gen.runs_activeGroup?.mp ran).2) fun s s' a b matched ran ran' => ?_
  rw [(Gen.runs_activeGroup?.mp ran).1, (Gen.runs_activeGroup?.mp ran').1, ← matched.groups,
    ← matched.groups']
  exact ⟨rfl, rfl⟩

/-! ### Drafts -/

/-- The drafts of matched sessions change alike. -/
theorem Matched.redraft {s s' : Session} (matched : Matched types types' may w γ γ' s s')
    (d d' : Draft) {δ δ' : List ActiveGroup} (groups : d.groups = δ) (groups' : d'.groups = δ')
    (drafts : w.Alike may (fun ρ => d.rename ρ) fun ρ => d'.rename ρ) :
    Matched types types' may w δ δ' { s with draft := d } { s' with draft := d' } :=
  ⟨matched.refs, matched.refs', matched.registry, matched.registry', groups, groups', drafts⟩

theorem couples_updateDraft {f f' : Draft → Draft}
    (groups : ∀ d, (f d).groups = d.groups) (groups' : ∀ d, (f' d).groups = d.groups)
    (alike : ∀ d d' : Draft, w.Alike may (fun ρ => d.rename ρ) (fun ρ => d'.rename ρ) →
      w.Alike may (fun ρ => (f d).rename ρ) fun ρ => (f' d').rename ρ) :
    Couples types types' may w γ γ' (Gen.updateDraft f) (Gen.updateDraft f') fun _ _ _ => True := by
  intro s s' t t' a b matched ran ran'
  cases Gen.runs_updateDraft.mp ran
  cases Gen.runs_updateDraft.mp ran'
  refine ⟨w, .refl w, ?_, trivial⟩
  exact matched.redraft _ _ ((groups _).trans matched.groups) ((groups' _).trans matched.groups')
    (alike _ _ matched.drafts)

theorem couples_emit {st st' : Stmt}
    (same : w.Alike may (fun ρ => st.rename ρ) fun ρ => st'.rename ρ) :
    Couples types types' may w γ γ' (Gen.emit st) (Gen.emit st') fun _ _ _ => True := by
  refine couples_updateDraft (fun d => d.groups_updateScope _) (fun d => d.groups_updateScope _) ?_
  intro d d' alike
  simp only [Draft.rename_emit]
  exact alike.pair same Draft.emit

theorem couples_alloc (requested : String) : Couples types types' may w γ γ'
    (Gen.alloc requested) (Gen.alloc requested) fun _ x x' => x' = x := by
  intro s s' t t' a b matched ran ran'
  obtain ⟨rfl, rfl⟩ := Gen.runs_alloc.mp ran
  obtain ⟨rfl, rfl⟩ := Gen.runs_alloc.mp ran'
  refine ⟨w, .refl w, ?_, (matched.drafts.map fun d => (d.alloc requested).1).eq.symm⟩
  refine matched.redraft (s.draft.alloc requested).2 (s'.draft.alloc requested).2
    ((Draft.groups_updateScope _ _).trans matched.groups)
    ((Draft.groups_updateScope _ _).trans matched.groups') ?_
  simp only [Draft.rename_alloc]
  exact matched.drafts.map fun d => (d.alloc requested).2

theorem couples_param (name : String) : Couples types types' may w γ γ'
    (Gen.param name) (Gen.param name) fun _ x x' => x' = x := by
  intro s s' t t' a b matched ran ran'
  obtain ⟨rfl, rfl⟩ := Gen.runs_param.mp ran
  obtain ⟨rfl, rfl⟩ := Gen.runs_param.mp ran'
  refine ⟨w, .refl w, ?_, (matched.drafts.map fun d => (d.fresh name).1).eq.symm⟩
  exact matched.redraft _ _ matched.groups matched.groups'
    (matched.drafts.map fun d => (d.fresh name).2)

theorem couples_beginFunction : Couples types types' may w [] [] Gen.beginFunction Gen.beginFunction
    fun _ _ _ => True := by
  intro s s' t t' a b matched ran ran'
  cases Gen.runs_beginFunction.mp ran
  cases Gen.runs_beginFunction.mp ran'
  refine ⟨w, .refl w, ?_, trivial⟩
  exact matched.redraft _ _ rfl rfl (matched.drafts.map Draft.beginFunction)

namespace Couples

theorem withHint {hint : String} {act : Gen α} {act' : Gen β}
    (couples : Couples types types' may w γ γ' act act' Q) :
    Couples types types' may w γ γ' (Gen.withHint hint act) (Gen.withHint hint act') Q := by
  intro s s' t t' a b matched ran ran'
  obtain ⟨u, inner, rfl⟩ := Gen.runs_withHint.mp ran
  obtain ⟨u', inner', rfl⟩ := Gen.runs_withHint.mp ran'
  have entered := matched.redraft { s.draft with hints := hint :: s.draft.hints }
    { s'.draft with hints := hint :: s'.draft.hints } matched.groups matched.groups'
    (matched.drafts.map fun d => { d with hints := hint :: d.hints })
  obtain ⟨w', before, matched', holds⟩ := couples entered inner inner'
  exact ⟨w', before, matched'.redraft _ _ matched'.groups matched'.groups'
    (matched'.drafts.map fun d => { d with hints := d.hints.tail }), holds⟩

theorem withGroup {group group' : Nat} {raw raw' : Option Expr} {act : Gen α} {act' : Gen β}
    (couples : Couples types types' may w (⟨group, raw⟩ :: γ) (⟨group', raw'⟩ :: γ') act act' Q) :
    Couples types types' may w γ γ' (Gen.withGroup group raw act) (Gen.withGroup group' raw' act')
      Q := by
  intro s s' t t' a b matched ran ran'
  obtain ⟨u, inner, rfl⟩ := Gen.runs_withGroup.mp ran
  obtain ⟨u', inner', rfl⟩ := Gen.runs_withGroup.mp ran'
  have entered := matched.redraft { s.draft with groups := ⟨group, raw⟩ :: s.draft.groups }
    { s'.draft with groups := ⟨group', raw'⟩ :: s'.draft.groups }
    (congrArg (⟨group, raw⟩ :: ·) matched.groups) (congrArg (⟨group', raw'⟩ :: ·) matched.groups')
    matched.drafts
  obtain ⟨w', before, matched', holds⟩ := couples entered inner inner'
  exact ⟨w', before, matched'.redraft _ _ (congrArg List.tail matched'.groups)
    (congrArg List.tail matched'.groups') matched'.drafts, holds⟩

theorem inScope {act : Gen α} {act' : Gen β}
    (couples : Couples types types' may w γ γ' act act' Q) :
    Couples types types' may w γ γ' (Gen.inScope act) (Gen.inScope act') fun w out out' =>
      w.Alike may (fun ρ => out.1.rename ρ) (fun ρ => out'.1.rename ρ) ∧ Q w out.2 out'.2 := by
  intro s s' t t' out out' matched ran ran'
  obtain ⟨u, inner, scope, rfl⟩ := Gen.runs_inScope.mp ran
  obtain ⟨u', inner', scope', rfl⟩ := Gen.runs_inScope.mp ran'
  have entered := matched.redraft s.draft.pushScope s'.draft.pushScope
    matched.groups matched.groups' (matched.drafts.map Draft.pushScope)
  obtain ⟨w', before, matched', holds⟩ := couples entered inner inner'
  refine ⟨w', before, ?_, ?_, holds⟩
  · refine matched'.redraft _ _ ((Draft.groups_popScope _).trans matched'.groups)
      ((Draft.groups_popScope _).trans matched'.groups') ?_
    simp only [Draft.rename_popScope]
    exact matched'.drafts.map fun d => d.popScope.2
  · simp only [scope, scope', Draft.rename_scope_popScope]
    exact matched'.drafts.map fun d => d.popScope.1

theorem capture {act : Gen α} {act' : Gen β}
    (couples : Couples types types' may w γ γ' act act' Q) :
    Couples types types' may w γ γ' (Gen.capture act) (Gen.capture act') fun w out out' =>
      w.Alike may (fun ρ => Stmt.renameBlock ρ out.1) (fun ρ => Stmt.renameBlock ρ out'.1) ∧
        Q w out.2 out'.2 :=
  couples.inScope.bind fun _ _ _ _ holds =>
    couples_pure ⟨holds.1.map Scope.stmts, holds.2⟩

theorem captureBlock {act act' : Gen Expr}
    (couples : Couples types types' may w γ γ' act act' fun w e e' =>
      w.Alike may (fun ρ => e.rename ρ) fun ρ => e'.rename ρ) :
    Couples types types' may w γ γ' (Gen.captureBlock act) (Gen.captureBlock act') fun w b b' =>
      w.Alike may (fun ρ => b.rename ρ) fun ρ => b'.rename ρ := by
  refine couples.capture.bind fun w' _ out out' holds => couples_pure ?_
  simp only [← Block.elide_rename]
  exact (holds.1.pair holds.2 Block.mk).map Block.elide

theorem declare {requested : String} {init init' : Gen Expr}
    (couples : Couples types types' may w γ γ' init init' fun w e e' =>
      w.Alike may (fun ρ => e.rename ρ) fun ρ => e'.rename ρ) :
    Couples types types' may w γ γ' (Gen.declare requested init) (Gen.declare requested init')
      fun _ x x' => x' = x := by
  refine couples.inScope.bind fun w₁ _ out out' holds => ?_
  have joined : Couples types types' may w₁ γ γ' (Gen.updateDraft (·.join out.1))
      (Gen.updateDraft (·.join out'.1)) fun _ _ _ => True := by
    refine couples_updateDraft (fun d => d.groups_updateScope _) (fun d => d.groups_updateScope _) ?_
    intro d d' alike
    simp only [Draft.rename_join]
    exact alike.pair holds.1 Draft.join
  refine joined.bind fun w₂ later _ _ _ => (couples_alloc requested).bind fun w₃ later' x x' same => ?_
  cases same
  refine (couples_emit ?_).bind fun _ _ _ _ _ => couples_pure rfl
  exact ((holds.2.later later).later later').map fun e => Stmt.bind x false (some e)

end Couples

theorem couples_declareMut {requested : String} {init init' : Expr}
    (same : w.Alike may (fun ρ => init.rename ρ) fun ρ => init'.rename ρ) :
    Couples types types' may w γ γ' (Gen.declareMut requested init) (Gen.declareMut requested init')
      fun _ x x' => x' = x := by
  refine (couples_alloc requested).bind fun w' later x x' equal => ?_
  cases equal
  refine (couples_emit ?_).bind fun _ _ _ _ _ => couples_pure rfl
  exact (same.later later).map fun e => Stmt.bind x true (some e)

theorem couples_declareDeferred {requested : String} : Couples types types' may w γ γ'
    (Gen.declareDeferred requested) (Gen.declareDeferred requested) fun _ x x' => x' = x := by
  refine (couples_alloc requested).bind fun w' later x x' equal => ?_
  cases equal
  exact (couples_emit (.refl _)).bind fun _ _ _ _ _ => couples_pure rfl

/-! ### Lists -/

/-- Results that are related in one world stay related in later ones. -/
theorem couples_mapM_later {R : α' → β' → Prop} {P : World → α → β → Prop}
    (lasting : ∀ w w' a b, P w a b → w.Before w' → P w' a b)
    {f : α' → Gen α} {g : β' → Gen β} {items : List α'} {items' : List β'}
    (paired : List.Forall₂ R items items')
    (each : ∀ w', w.Before w' → ∀ a b, R a b → Couples types types' may w' γ γ' (f a) (g b) P) :
    Couples types types' may w γ γ' (items.mapM f) (items'.mapM g) fun w => List.Forall₂ (P w) := by
  induction paired generalizing w with
  | nil =>
    rw [List.mapM_nil, List.mapM_nil]
    exact couples_pure .nil
  | cons first _ ih =>
    rw [List.mapM_cons, List.mapM_cons]
    refine (each w (.refl w) _ _ first).bind fun w₁ later a b holds => ?_
    refine (ih fun w' later' => each w' (later.trans later')).bind fun w₂ later' as bs others => ?_
    exact couples_pure (.cons (lasting _ _ _ _ holds later') others)

theorem couples_mapM {R : α' → β' → Prop} {P : α → β → Prop} {f : α' → Gen α} {g : β' → Gen β}
    {items : List α'} {items' : List β'} (paired : List.Forall₂ R items items')
    (each : ∀ w', w.Before w' → ∀ a b, R a b →
      Couples types types' may w' γ γ' (f a) (g b) fun _ => P) :
    Couples types types' may w γ γ' (items.mapM f) (items'.mapM g) fun _ => List.Forall₂ P :=
  couples_mapM_later (fun _ _ _ _ holds _ => holds) paired each

theorem couples_forM {R : α → β → Prop} {f : α → Gen Unit} {g : β → Gen Unit}
    {items : List α} {items' : List β} (paired : List.Forall₂ R items items')
    (each : ∀ w', w.Before w' → ∀ a b, R a b →
      Couples types types' may w' γ γ' (f a) (g b) fun _ _ _ => True) :
    Couples types types' may w γ γ' (items.forM f) (items'.forM g) fun _ _ _ => True := by
  induction paired generalizing w with
  | nil => exact couples_pure trivial
  | cons first _ ih =>
    refine (each w (.refl w) _ _ first).bind fun w₁ later _ _ _ => ?_
    exact ih fun w' later' => each w' (later.trans later')

end WireSchema
