import WireSchema.Proofs.Lowering.Quiet
import WireSchema.Proofs.Lowering.Orderly
import WireSchema.Proofs.Session.Coupling
import WireSchema.Proofs.Shape.Correspondence

/-!
# Corresponding shapes are generated alike

Decoders and encoders of shapes that stand for the same are equal up to names. One side may be
behind a reference where the other is not, so the depths of the two emitters need not agree.
-/

namespace WireSchema.Lowering

open Ir

/-- The tag without the name of its type. -/
def Tag.plain : Tag → Tag
  | .lit l => .lit l
  | .enum _ name => .enum "" name

/-- Two tables of types side by side. The codecs of the first whose rank is below the bound may be
called. -/
structure Sides where
  target : String → Shape
  types : Refs
  types' : Refs
  rank : String → Nat
  rank' : String → Nat
  bound : Nat
  may : String → Prop
  solves : types.Solves target rank
  solves' : types'.Solves target rank'
  separate : types.Separate
  separate' : types'.Separate
  calls : ∀ name inner, (name, .exported name inner) ∈ types → rank name < bound →
    may (codecBase name)

namespace Sides

variable (S : Sides)

abbrev Couples {α β : Type} (w : World) (γ γ' : List ActiveGroup) (act : Gen α) (act' : Gen β)
    (Q : World → α → β → Prop) : Prop := WireSchema.Couples S.types S.types' S.may w γ γ' act act' Q

abbrev Corresponds (s s' : Shape) : Prop :=
  Shape.Corresponds S.target S.types S.types' S.rank S.rank' S.bound s s'

/-- The expressions are equal up to names. -/
abbrev AlikeExpr (w : World) (e e' : Expr) : Prop :=
  w.Alike S.may (fun ρ => e.rename ρ) fun ρ => e'.rename ρ

/-- The shapes of fields correspond, or are one slot of structs whose integers are at hand. -/
inductive Fields (γ γ' : List ActiveGroup) : Shape → Shape → Prop where
  | shape {s s' : Shape} (corresponds : S.Corresponds s s') : Fields γ γ' s s'
  | slot {group group' index : Nat} {kind : SlotKind} {raw : Local}
      (active : γ.find? (·.group == group) = some ⟨group, some (.var raw)⟩)
      (active' : γ'.find? (·.group == group') = some ⟨group', some (.var raw)⟩) :
      Fields γ γ' (.slot group index kind) (.slot group' index kind)

/-- The emitters generate corresponding shapes alike. -/
structure Coupled (em em' : Emitter) : Prop where
  decodeExpr : ∀ {w : World} {γ γ' : List ActiveGroup} {s s' : Shape}, S.Fields γ γ' s s' →
    S.Couples w γ γ' (em.decodeExpr s) (em'.decodeExpr s') S.AlikeExpr
  decodeBindings : ∀ {w : World} {γ γ' : List ActiveGroup} {s s' : Shape}, S.Corresponds s s' →
    S.Couples w γ γ' (em.decodeBindings s) (em'.decodeBindings s') fun _ bs bs' => bs' = bs
  encode : ∀ {w : World} {γ γ' : List ActiveGroup} {s s' : Shape} {src src' : Expr},
    S.Corresponds s s' → S.AlikeExpr w src src' →
    S.Couples w γ γ' (em.encode s src) (em'.encode s' src') fun _ _ _ => True
  encodeFields : ∀ {w : World} {γ γ' : List ActiveGroup} {s s' : Shape} {src src' : Expr},
    S.Corresponds s s' → S.AlikeExpr w src src' →
    S.Couples w γ γ' (em.encodeFields s src) (em'.encodeFields s' src') fun _ _ _ => True

variable {S} {hooks : Hooks} {w : World} {γ γ' : List ActiveGroup} {α β : Type}
  {Q : World → α → β → Prop} {depth depth' : Nat}

/-! ### Declarations -/

/-- Computations that leave their drafts alone, one on each side. -/
theorem couples_quiet {act : Gen α} {act' : Gen β} {P : α → Prop} {P' : β → Prop}
    (quiet : Gen.Quiet act) (quiet' : Gen.Quiet act') (tame : Tame hooks S.types act P)
    (tame' : Tame hooks S.types' act' P')
    (holds : ∀ s s' t t' a b, s.refs = S.types → s'.refs = S.types' → Gen.Runs act s a t →
      Gen.Runs act' s' b t' → Q ⟨t.registry, t'.registry⟩ a b) :
    S.Couples w γ γ' act act' Q := by
  intro s s' t t' a b matched ran ran'
  obtain ⟨step, _⟩ := tame _ _ _ ran matched.refs
  obtain ⟨step', _⟩ := tame' _ _ _ ran' matched.refs'
  have same := quiet _ _ _ ran
  have same' := quiet' _ _ _ ran'
  have before : w.Before ⟨t.registry, t'.registry⟩ := by
    refine ⟨?_, ?_⟩
    · rw [← matched.registry]
      exact step.grows.keeps
    · rw [← matched.registry']
      exact step'.grows.keeps
  refine ⟨⟨t.registry, t'.registry⟩, before, ?_, ?_⟩
  · constructor
    case refs => exact step.refs
    case refs' => exact step'.refs
    case registry => rfl
    case registry' => rfl
    case groups => rw [same, matched.groups]
    case groups' => rw [same', matched.groups']
    case drafts =>
      rw [same, same']
      exact matched.drafts.later before
  · exact holds s s' t t' a b matched.refs matched.refs' ran ran'

theorem Corresponds.fieldShape {s s' : Shape} (corresponds : S.Corresponds s s') :
    s.IsFieldShape S.types S.rank ∧ s'.IsFieldShape S.types' S.rank' :=
  ⟨.inl ⟨_, corresponds.left⟩, .inl corresponds.right⟩

theorem couples_typeExpr {s s' : Shape} (corresponds : S.Corresponds s s') :
    S.Couples w γ γ' ((emitter hooks depth).typeExpr s) ((emitter hooks depth').typeExpr s')
      fun _ _ _ => True :=
  couples_quiet (quiet_emitter hooks depth s) (quiet_emitter hooks depth' s')
    ((orderly_emitter hooks S.solves.ordered S.separate depth).typeExpr s corresponds.fieldShape.1)
    ((orderly_emitter hooks S.solves'.ordered S.separate' depth').typeExpr s'
      corresponds.fieldShape.2) fun _ _ _ _ _ _ _ _ _ _ => trivial

theorem couples_structName {s s' : Shape} (corresponds : S.Corresponds s s')
    (structLike : s.isStructLike = true) (structLike' : s'.isStructLike = true) :
    S.Couples w γ γ' (structName (emitter hooks depth) s) (structName (emitter hooks depth') s')
      fun _ _ _ => True := by
  have orderly := orderly_emitter hooks S.solves.ordered S.separate depth
  have orderly' := orderly_emitter hooks S.solves'.ordered S.separate' depth'
  obtain ⟨wf, ⟨_, wf'⟩, _⟩ := corresponds
  exact couples_quiet (quiet_structName _ s) (quiet_structName _ s')
    (tame_structName S.solves.ordered S.separate orderly wf structLike)
    (tame_structName S.solves'.ordered S.separate' orderly' wf' structLike')
    fun _ _ _ _ _ _ _ _ _ _ => trivial

theorem couples_unionName {tagField : String} {tag tag' : Shape}
    {variants variants' : List (String × Shape)} {tags : List (String × Literal)}
    (corresponds : S.Corresponds (.union tagField tag variants tags)
      (.union tagField tag' variants' tags)) :
    S.Couples w γ γ' (unionName (emitter hooks depth) tagField tag variants tags)
      (unionName (emitter hooks depth') tagField tag' variants' tags) fun _ _ _ => True := by
  have orderly := orderly_emitter hooks S.solves.ordered S.separate depth
  have orderly' := orderly_emitter hooks S.solves'.ordered S.separate' depth'
  obtain ⟨wf, ⟨_, wf'⟩, _⟩ := corresponds
  exact couples_quiet (quiet_unionName _ _ _ _ _) (quiet_unionName _ _ _ _ _)
    (tame_unionName S.solves.ordered S.separate orderly wf)
    (tame_unionName S.solves'.ordered S.separate' orderly' wf') fun _ _ _ _ _ _ _ _ _ _ => trivial

/-- The names that the two registries give to an enumeration belong together. -/
theorem couples_enumName {backing : Primitive} {entries : List (String × Int)}
    (corresponds : S.Corresponds (.enum backing entries) (.enum backing entries)) :
    S.Couples w γ γ' (enumName backing entries) (enumName backing entries) fun w name name' =>
      w.Alike S.may (fun ρ => ρ.enum name) fun ρ => ρ.enum name' := by
  obtain ⟨wf, ⟨_, wf'⟩, _⟩ := corresponds
  have tame : Tame Hooks.none S.types (enumName backing entries) fun _ => True :=
    tame_enumName S.solves.ordered S.separate wf
  have tame' : Tame Hooks.none S.types' (enumName backing entries) fun _ => True :=
    tame_enumName S.solves'.ordered S.separate' wf'
  refine couples_quiet (quiet_enumName _ _) (quiet_enumName _ _) tame tame' ?_
  intro s s' t t' name name' refs refs' ran ran' ρ ρ' admits
  have both : Advances Hooks.none S.types s t ∧ _ :=
    advances_enumName S.solves.ordered S.separate wf.2 ran refs
  have both' : Advances Hooks.none S.types' s' t' ∧ _ :=
    advances_enumName S.solves'.ordered S.separate' wf'.2 ran' refs'
  obtain ⟨_, int, known⟩ := both
  obtain ⟨_, _, known'⟩ := both'
  rw [Shape.canonicalName_enum] at known known'
  exact admits.enums backing entries _ name name' ⟨int, wf.2, rfl⟩ known known'

/-! ### Failures and references -/

/-- A computation that never succeeds is coupled to any other. -/
theorem couples_never {act : Gen α} {act' : Gen β} (never : ∀ s a t, ¬Gen.Runs act s a t) :
    S.Couples w γ γ' act act' Q := fun _ _ _ _ _ _ _ ran _ => (never _ _ _ ran).elim

theorem couples_never' {act : Gen α} {act' : Gen β} (never : ∀ s b t, ¬Gen.Runs act' s b t) :
    S.Couples w γ γ' act act' Q := fun _ _ _ _ _ _ _ _ ran => (never _ _ _ ran).elim

theorem never_throw {act : Gen β} {e : β → SchemaError} (s : Session) (a : α) (t : Session) :
    ¬Gen.Runs (act >>= fun b => throw (e b)) s a t := by
  intro ran
  obtain ⟨_, _, _, failed⟩ := Gen.runs_bind.mp ran
  exact Gen.runs_throw.mp failed

/-- A check on either side. -/
theorem couples_unless {c c' : Prop} [Decidable c] [Decidable c'] {e e' : SchemaError}
    {act : Gen α} {act' : Gen β} (couples : S.Couples w γ γ' act act' Q) :
    S.Couples w γ γ' (if c then throw e else act) (if c' then throw e' else act') Q := by
  split
  · exact couples_throw
  · split
    · exact couples_throw'
    · exact couples

/-- What is behind a reference is generated in its place. -/
theorem couples_ref {label : String} {t : Shape} {act : Shape → Gen α} {act' : Gen β}
    (found : S.types.lookup label = some t) (couples : S.Couples w γ γ' (act t) act' Q) :
    S.Couples w γ γ' (do
      match (← Gen.refs).lookup label with
      | some target => act target
      | none => throw (.unresolvedReference label)) act' Q := by
  intro s s' u u' a b matched ran ran'
  obtain ⟨refs, _, asked, ran⟩ := Gen.runs_bind.mp ran
  obtain ⟨rfl, rfl⟩ := Gen.runs_refs.mp asked
  rw [matched.refs, found] at ran
  exact couples matched ran ran'

theorem couples_ref' {label : String} {t : Shape} {act : Gen α} {act' : Shape → Gen β}
    (found : S.types'.lookup label = some t) (couples : S.Couples w γ γ' act (act' t) Q) :
    S.Couples w γ γ' act (do
      match (← Gen.refs).lookup label with
      | some target => act' target
      | none => throw (.unresolvedReference label)) Q := by
  intro s s' u u' a b matched ran ran'
  obtain ⟨refs, _, asked, ran'⟩ := Gen.runs_bind.mp ran'
  obtain ⟨rfl, rfl⟩ := Gen.runs_refs.mp asked
  rw [matched.refs', found] at ran'
  exact couples matched ran ran'

/-- What is behind aliases and references is generated in their place. -/
theorem couples_behind {s : Shape} {act : Shape → Gen α} {act' : Gen β}
    (couples : ∀ t, s.resolved S.types = .ok t → S.Couples w γ γ' (act t) act' Q) :
    S.Couples w γ γ' (do act (← Gen.resolved s)) act' Q := by
  intro σ σ' u u' a b matched ran ran'
  obtain ⟨t, v, asked, later⟩ := Gen.runs_bind.mp ran
  obtain ⟨found, same⟩ := Gen.runs_resolved.mp asked
  rw [matched.refs] at found
  rw [same] at later
  exact couples t found matched later ran'

theorem couples_behind' {s' : Shape} {act : Gen α} {act' : Shape → Gen β}
    (couples : ∀ t, s'.resolved S.types' = .ok t → S.Couples w γ γ' act (act' t) Q) :
    S.Couples w γ γ' act (do act' (← Gen.resolved s')) Q := by
  intro σ σ' u u' a b matched ran ran'
  obtain ⟨t, v, asked, later⟩ := Gen.runs_bind.mp ran'
  obtain ⟨found, same⟩ := Gen.runs_resolved.mp asked
  rw [matched.refs'] at found
  rw [same] at later
  exact couples t found matched ran later

/-! ### Fields -/

variable {em em' : Emitter}

/-- The value of a slot mentions no names. -/
theorem rename_slotExpr {raw : Local} {kind : SlotKind} {e : Expr}
    (ran : slotExpr (.var raw) kind = .ok e) (ρ : Renaming) : e.rename ρ = e := by
  cases kind with
  | bits shift width backing =>
    simp only [slotExpr] at ran
    cases found : Shape.backingKind backing with
    | error e =>
      rw [found] at ran
      cases ran
    | ok kind =>
      rw [found] at ran
      dsimp only [bind, Except.bind] at ran
      split at ran <;> split at ran
      all_goals
        cases ran
        split <;> rfl
  | flag mask backing =>
    simp only [slotExpr] at ran
    cases found : Shape.backingKind backing with
    | error e =>
      rw [found] at ran
      cases ran
    | ok kind =>
      rw [found] at ran
      cases ran
      rfl

theorem couples_decodeSlot {group group' index : Nat} {kind : SlotKind} {raw : Local}
    (active : γ.find? (·.group == group) = some ⟨group, some (.var raw)⟩)
    (active' : γ'.find? (·.group == group') = some ⟨group', some (.var raw)⟩) :
    S.Couples w γ γ' (decodeSlot group index kind) (decodeSlot group' index kind) S.AlikeExpr := by
  refine (couples_activeGroup? group group').bind fun w' _ found found' both => ?_
  obtain ⟨rfl, rfl⟩ := both
  rw [active, active']
  refine couples_ofExcept fun e e' ran ran' ρ ρ' _ => ?_
  rw [ran] at ran'
  cases ran'
  exact (rename_slotExpr ran ρ).trans (rename_slotExpr ran ρ').symm

/-- Bindings of corresponding fields. -/
theorem couples_decodeFields (coupled : S.Coupled em em') {fields fields' : List Field}
    (each : List.Forall₂ (fun f f' => f.name = f'.name ∧ f.shape.isStored = f'.shape.isStored ∧
      S.Fields γ γ' f.shape f'.shape) fields fields') :
    S.Couples w γ γ' (decodeFields em fields) (decodeFields em' fields') fun _ bs bs' =>
      bs' = bs := by
  refine Couples.bind (couples_mapM (P := fun b b' => b.1.name = b'.1.name ∧
    b.1.shape.isStored = b'.1.shape.isStored ∧ b'.2 = b.2) each ?_) ?_
  · rintro w' _ f f' ⟨name, stored, shape⟩
    rw [← name]
    refine (coupled.decodeExpr shape).declare.withHint.bind fun w'' _ x x' same => ?_
    exact couples_pure ⟨name, stored, same⟩
  · intro w' _ bs bs' paired
    refine couples_pure ?_
    induction paired with
    | nil => rfl
    | @cons a b _ _ first _ ih =>
      obtain ⟨f, x⟩ := a
      obtain ⟨f', x'⟩ := b
      obtain ⟨name, stored, same⟩ := first
      dsimp only at name stored same
      rw [List.filter_cons, List.filter_cons, ← stored]
      split
      · rw [List.map_cons, List.map_cons, ih, same]
        dsimp only
        rw [name]
      · exact ih

theorem couples_decodeGroup (coupled : S.Coupled em em') {backing : Primitive} {group group' : Nat}
    {fields fields' : List Field}
    (each : List.Forall₂ (Shape.SameSlot group group') fields fields') :
    S.Couples w γ γ' (decodeGroup em backing group fields) (decodeGroup em' backing group' fields')
      fun _ bs bs' => bs' = bs := by
  refine (couples_lastHint "packed").bind fun w₁ _ hint hint' same => ?_
  cases same
  refine Couples.bind (Couples.declare (couples_pure (.refl _))) fun w₂ _ raw raw' same => ?_
  cases same
  refine Couples.withGroup (couples_decodeFields coupled (each.imp ?_))
  rintro f f' ⟨name, index, kind, isSlot, isSlot'⟩
  rw [isSlot, isSlot']
  refine ⟨name, rfl, ?_⟩
  have active (group : Nat) (δ : List ActiveGroup) :
      (⟨group, some (.var raw)⟩ :: δ : List ActiveGroup).find? (·.group == group) =
        some ⟨group, some (.var raw)⟩ := by simp
  exact .slot (active group γ) (active group' γ')

theorem decodeBindings_indirect (em : Emitter) {s : Shape} (indirect : ¬s.IsDirect) :
    decodeBindings em s = (do em.decodeBindings (← Gen.resolved s)) := by
  cases s <;> first | rfl | exact absurd trivial indirect

/-- The parts of a struct are bound alike. -/
theorem couples_decodeBindings_direct (coupled : S.Coupled em em') {s s' : Shape}
    (corresponds : S.Corresponds s s') (direct : s.IsDirect) (direct' : s'.IsDirect) :
    S.Couples w γ γ' (decodeBindings em s) (decodeBindings em' s') fun _ bs bs' => bs' = bs := by
  cases corresponds.layer S.solves S.solves' with
  | left | «alias» | exported => exact direct.elim
  | right => exact direct'.elim
  | struct each =>
    refine couples_decodeFields coupled (each.imp fun f f' both => ⟨both.1, ?_, .shape both.2⟩)
    exact both.2.isStored S.solves S.solves'
  | packed each | flags each => exact couples_decodeGroup coupled each
  | merged each =>
    have parts : S.Couples w γ γ' _ _ fun _ => List.Forall₂ (· = ·) :=
      couples_mapM each fun w' _ part part' inner =>
        (couples_resolved part part').bind fun w'' _ t t' found =>
          (coupled.decodeBindings (inner.resolved S.solves S.solves' found.1 found.2)).weaken
            fun _ _ _ _ same => same.symm
    refine parts.bind fun w' _ bs bs' same => couples_pure ?_
    rw [List.forall₂_eq_eq_eq] at same
    rw [same]
  | prim | optional | list | map | enum | union | literal => exact couples_never never_throw

theorem couples_decodeBindings (both : S.Coupled (emitter hooks depth) (emitter hooks depth'))
    (left : S.Coupled (emitter hooks depth) (emitter hooks (depth' + 1)))
    (right : S.Coupled (emitter hooks (depth + 1)) (emitter hooks depth')) {s s' : Shape}
    (corresponds : S.Corresponds s s') :
    S.Couples w γ γ' (decodeBindings (emitter hooks depth) s)
      (decodeBindings (emitter hooks depth') s') fun _ bs bs' => bs' = bs := by
  by_cases direct : s.IsDirect
  · by_cases direct' : s'.IsDirect
    · exact couples_decodeBindings_direct both corresponds direct direct'
    · rw [decodeBindings_indirect _ direct']
      refine couples_behind' fun t' found => right.decodeBindings ?_
      exact corresponds.resolved_right S.solves' direct found
  · rw [decodeBindings_indirect _ direct]
    by_cases direct' : s'.IsDirect
    · refine couples_behind fun t found => left.decodeBindings ?_
      exact corresponds.resolved_left S.solves found direct'
    · rw [decodeBindings_indirect _ direct']
      refine (couples_resolved s s').bind fun w' _ t t' found => both.decodeBindings ?_
      exact corresponds.resolved S.solves S.solves' found.1 found.2

/-! ### Decoders -/

theorem corresponds_prim (p : Primitive) : S.Corresponds (.prim p) (.prim p) :=
  ⟨trivial, ⟨0, trivial⟩, rfl⟩

theorem isBoolean_bool (refs : Refs) : (Shape.prim .bool).isBoolean refs = true := by
  unfold Shape.isBoolean
  cases refs.length <;> rfl

/-- Blocks that are equal up to names both have statements, or neither has. -/
theorem stmts_isEmpty {b b' : Block}
    (alike : w.Alike S.may (fun ρ => b.rename ρ) fun ρ => b'.rename ρ) :
    b.stmts.isEmpty = b'.stmts.isEmpty := by
  have same := alike.map fun b => b.stmts.isEmpty
  simp only [Block.rename, Stmt.isEmpty_renameBlock] at same
  exact same.eq

/-- Blocks that are equal up to names, followed by a statement that takes their result. -/
theorem alike_snoc {b b' : Block}
    (alike : w.Alike S.may (fun ρ => b.rename ρ) fun ρ => b'.rename ρ) (last : Expr → Stmt)
    (commutes : ∀ ρ e, (last e).rename ρ = last (e.rename ρ)) :
    w.Alike S.may (fun ρ => Stmt.renameBlock ρ (b.stmts ++ [last b.result]))
      fun ρ => Stmt.renameBlock ρ (b'.stmts ++ [last b'.result]) := by
  have same := alike.map fun b => b.stmts ++ [last b.result]
  simp only [Stmt.renameBlock_append, Stmt.renameBlock, commutes]
  exact same

theorem couples_decodeOptional (coupled : S.Coupled em em') {value value' : Shape}
    (inner : S.Corresponds value value') :
    S.Couples w γ γ' (decodeOptional em value (.prim .bool))
      (decodeOptional em' value' (.prim .bool)) S.AlikeExpr := by
  refine couples_refs.bind fun w₁ _ refs refs' _ => ?_
  simp only [isBoolean_bool, Bool.not_true, Bool.false_eq_true, if_false]
  refine (coupled.decodeExpr (.shape (corresponds_prim .bool))).bind fun w₂ _ test test' tests => ?_
  refine (coupled.decodeExpr (.shape inner)).captureBlock.bind fun w₃ later b b' blocks => ?_
  rw [stmts_isEmpty blocks]
  replace tests := tests.later later
  split
  · exact couples_pure
      (tests.pair (blocks.map Block.result) fun t e => Expr.cond t (.present e) .absent)
  · refine (couples_lastHint "present").bind fun w₄ later₄ hint hint' same => ?_
    cases same
    refine (couples_declareMut (.refl _)).bind fun w₅ later₅ x x' same => ?_
    cases same
    refine (couples_emit ?_).bind fun w₆ _ _ _ _ => couples_pure (.refl _)
    have bodies := alike_snoc blocks (fun e => .assign x (.present e)) fun _ _ => rfl
    exact ((tests.pair bodies fun t body => Stmt.branch t body []).later later₄).later later₅

theorem couples_decodeCollection {length : Primitive} {empty : Expr} {item item' : Gen Expr}
    (fixed : ∀ ρ, empty.rename ρ = empty)
    (couples : ∀ w', w.Before w' → S.Couples w' γ γ' item item' S.AlikeExpr) :
    S.Couples w γ γ' (decodeCollection length empty item) (decodeCollection length empty item')
      S.AlikeExpr := by
  refine couples_unless ((couples_lastHint "items").bind fun w₁ later₁ hint hint' same => ?_)
  cases same
  refine (Couples.declare (couples_pure (.refl _))).bind fun w₂ later₂ count count' same => ?_
  cases same
  refine (couples_declareMut fun ρ ρ' _ => (fixed ρ).trans (fixed ρ').symm).bind
    fun w₃ later₃ acc acc' same => ?_
  cases same
  refine (couples w₃ ((later₁.trans later₂).trans later₃)).captureBlock.bind
    fun w₄ _ b b' blocks => ?_
  refine (couples_emit ?_).bind fun w₅ _ _ _ _ => couples_pure (.refl _)
  exact (alike_snoc blocks (fun e => .push acc e) fun _ _ => rfl).map fun body =>
    Stmt.times (.var count) body

theorem couples_unionTag {tag tag' : Shape} {tags : List (String × Literal)} {index : Nat}
    {key : String} (corresponds : S.Corresponds tag tag') :
    S.Couples w γ γ' (unionTag (emitter hooks depth) tag tags index key)
      (unionTag (emitter hooks depth') tag' tags index key) fun _ t t' => t'.plain = t.plain := by
  refine (couples_resolved tag tag').bind fun w₁ _ t t' found => ?_
  have inner := corresponds.resolved S.solves S.solves' found.1 found.2
  have direct := (Shape.resolves_of_resolved found.1).isDirect
  have direct' := (Shape.resolves_of_resolved found.2).isDirect
  cases inner.layer S.solves S.solves' with
  | left | «alias» | exported => exact direct.elim
  | right => exact direct'.elim
  | optional | list | map | struct | merged | union | packed | flags | literal =>
    exact couples_never never_throw
  | enum =>
    refine (couples_typeExpr corresponds).bind fun w₂ _ te te' _ => ?_
    cases te with
    | named type =>
      cases te' with
      | named type' =>
        dsimp only
        split
        · exact couples_pure rfl
        · exact couples_throw
      | _ => exact couples_never' never_throw
    | _ => exact couples_never never_throw
  | prim p =>
    cases p
    case bool =>
      cases tags.lookup key with
      | none => exact couples_pure rfl
      | some l => cases l <;> exact couples_pure rfl
    all_goals first
      | exact couples_pure rfl
      | exact couples_never never_throw
      | cases tags.lookup key with
        | none => exact couples_pure rfl
        | some l => cases l <;> first | exact couples_pure rfl | exact couples_never never_throw

/-- The emitters of two depths are coupled. -/
abbrev CoupledAt (S : Sides) (hooks : Hooks) (depth depth' : Nat) : Prop :=
  S.Coupled (emitter hooks depth) (emitter hooks depth')

theorem couples_stored {payload payload' : Shape} (inner : S.Corresponds payload payload')
    (structs : ∃ fields fields', payload = .struct fields ∧ payload' = .struct fields') :
    S.Couples w γ γ' (Gen.storedFields payload) (Gen.storedFields payload')
      fun _ fields fields' => fields'.isEmpty = fields.isEmpty := by
  refine (couples_storedFields payload payload').weaken fun w' _ stored stored' found => ?_
  obtain ⟨fields, fields', rfl, rfl⟩ := structs
  rw [Shape.storedFields_struct, Shape.storedFields_struct] at found
  cases found.1
  cases found.2
  exact (inner.stored_isEmpty S.solves S.solves').symm

theorem couples_decodePayload (coupled : S.Coupled em em') {key : String}
    {payload payload' : Shape} (inner : S.Corresponds payload payload')
    (structs : ∃ fields fields', payload = .struct fields ∧ payload' = .struct fields') :
    S.Couples w γ γ' (decodePayload em key payload) (decodePayload em' key payload') fun w e e' =>
      w.Alike S.may (fun ρ => Expr.renameOption ρ e) fun ρ => Expr.renameOption ρ e' := by
  refine (couples_stored inner structs).bind fun w₁ _ fields fields' same => ?_
  rw [same]
  split
  · refine (couples_resolved payload payload').bind fun w₂ _ t t' found => ?_
    have resolved := inner.resolved S.solves S.solves' found.1 found.2
    exact (coupled.decodeBindings resolved).discard.bind fun w₃ _ _ _ _ => couples_pure (.refl _)
  · refine (coupled.decodeExpr (.shape inner)).withHint.bind fun w₂ _ e e' alike => ?_
    exact couples_pure (alike.map some)

theorem plain_pattern {t t' : Tag} (same : t'.plain = t.plain) :
    t'.pattern.plain = t.pattern.plain := by
  cases t <;> cases t' <;> cases same <;> rfl

theorem couples_decodeArms (coupled : S.CoupledAt hooks depth depth') {type type' : String}
    {tag tag' : Shape} {tags : List (String × Literal)} {result : Local}
    {variants variants' : List (String × Shape)} (ofTag : S.Corresponds tag tag')
    (each : List.Forall₂ (Shape.SameVariant S.Corresponds) variants variants')
    (seen seen' : List Tag) (index : Nat) :
    S.Couples w γ γ'
      (decodeArms (emitter hooks depth) type tag tags result seen index variants)
      (decodeArms (emitter hooks depth') type' tag' tags result seen' index variants')
      fun w arms arms' =>
        w.Alike S.may (fun ρ => Stmt.renameArms ρ arms) fun ρ => Stmt.renameArms ρ arms' := by
  induction each generalizing w seen seen' index with
  | nil => exact couples_pure (.refl _)
  | @cons v v' _ _ first _ ih =>
    obtain ⟨key, payload⟩ := v
    obtain ⟨key', payload'⟩ := v'
    obtain ⟨rfl, inner, structs⟩ := first
    refine (couples_unionTag ofTag).bind fun w₁ _ value value' plain => couples_unless ?_
    have variant : S.Couples w₁ γ γ' (do
          return Expr.variant type key (← decodePayload (emitter hooks depth) key payload))
        (do return Expr.variant type' key (← decodePayload (emitter hooks depth') key payload'))
        S.AlikeExpr :=
      (couples_decodePayload coupled inner structs).bind fun w₂ _ e e' alike =>
        couples_pure (alike.map fun e => Expr.variant "" key e)
    refine variant.captureBlock.bind fun w₂ _ b b' blocks => ?_
    refine (ih (value :: seen) (value' :: seen') (index + 1)).bind fun w₃ later arms arms' rest => ?_
    have bodies := (alike_snoc blocks (fun e => .assign result e) fun _ _ => rfl).later later
    refine couples_pure ?_
    simp only [Stmt.renameArms, plain_pattern plain]
    exact bodies.pair rest fun body arms => (value.pattern.plain, body) :: arms

/-- What depends only on keys does not tell variants apart that have the same ones. -/
theorem any_variants {R : Shape → Shape → Prop} {variants variants' : List (String × Shape)}
    (each : List.Forall₂ (Shape.SameVariant R) variants variants') {p : String × Shape → Bool}
    (onKeys : ∀ key s s', p (key, s) = p (key, s')) : variants'.any p = variants.any p := by
  induction each with
  | nil => rfl
  | @cons v v' _ _ first _ ih =>
    obtain ⟨key, payload⟩ := v
    obtain ⟨key', payload'⟩ := v'
    obtain ⟨rfl, _⟩ := first
    rw [List.any_cons, List.any_cons, ih, onKeys key payload' payload]

theorem couples_tagIsExhaustive {tag tag' : Shape} {tags : List (String × Literal)}
    {variants variants' : List (String × Shape)} (ofTag : S.Corresponds tag tag')
    (each : List.Forall₂ (Shape.SameVariant S.Corresponds) variants variants') :
    S.Couples w γ γ' (tagIsExhaustive tag variants tags) (tagIsExhaustive tag' variants' tags)
      fun _ full full' => full' = full := by
  refine (couples_resolved tag tag').bind fun w₁ _ t t' found => ?_
  have inner := ofTag.resolved S.solves S.solves' found.1 found.2
  have direct := (Shape.resolves_of_resolved found.1).isDirect
  have direct' := (Shape.resolves_of_resolved found.2).isDirect
  cases inner.layer S.solves S.solves' with
  | left | «alias» | exported => exact direct.elim
  | right => exact direct'.elim
  | prim | optional | list | map | struct | merged | union | packed | flags | literal =>
    exact couples_pure rfl
  | enum =>
    refine couples_pure (congrArg (List.all _) (funext fun entry => ?_))
    exact any_variants each fun _ _ _ => rfl

theorem couples_decodeUnion (coupled : S.CoupledAt hooks depth depth') {tagField : String}
    {tag tag' : Shape} {variants variants' : List (String × Shape)}
    {tags : List (String × Literal)}
    (corresponds : S.Corresponds (.union tagField tag variants tags)
      (.union tagField tag' variants' tags)) (ofTag : S.Corresponds tag tag')
    (each : List.Forall₂ (Shape.SameVariant S.Corresponds) variants variants') :
    S.Couples w γ γ' (decodeUnion (emitter hooks depth) tagField tag variants tags)
      (decodeUnion (emitter hooks depth') tagField tag' variants' tags) S.AlikeExpr := by
  refine (couples_unionName corresponds).bind fun w₁ _ type type' _ => ?_
  refine (coupled.decodeExpr (.shape ofTag)).declare.withHint.bind fun w₂ _ value value' same => ?_
  cases same
  refine (couples_lastHint "variant").bind fun w₃ _ hint hint' same => ?_
  cases same
  refine couples_declareDeferred.bind fun w₄ _ result result' same => ?_
  cases same
  refine (couples_decodeArms coupled ofTag each [] [] 0).bind fun w₅ _ arms arms' bodies => ?_
  refine (couples_tagIsExhaustive ofTag each).bind fun w₆ later full full' same => ?_
  cases same
  refine (couples_emit ?_).bind fun w₇ _ _ _ _ => couples_pure (.refl _)
  replace bodies := bodies.later later
  cases full with
  | true => exact bodies.map fun arms => Stmt.select (.var value) arms none
  | false =>
    exact bodies.map fun arms =>
      Stmt.select (.var value) arms (some (Failure.unknownTag "" (.var value)))

theorem couples_decodeLiteral (value : Literal) (backing : Option Primitive) :
    S.Couples w γ γ' (decodeLiteral value backing) (decodeLiteral value backing) S.AlikeExpr := by
  cases backing with
  | none => exact couples_pure (.refl _)
  | some p =>
    refine (Couples.declare (couples_pure (.refl _))).bind fun w₁ _ found found' same => ?_
    cases same
    exact (couples_emit fun _ _ _ => rfl).bind fun w₂ _ _ _ _ => couples_pure (.refl _)

/-- The struct expression mentions only bindings. -/
theorem rename_structOf (ρ : Renaming) (type : String) (bindings : List (String × Local)) :
    (structOf type bindings).rename ρ = structOf "" bindings := by
  refine congrArg (Expr.struct "") ?_
  induction bindings with
  | nil => rfl
  | cons b rest ih => exact congrArg (_ :: ·) ih

theorem couples_decodeStruct (coupled : S.CoupledAt hooks depth depth') {s s' : Shape}
    (corresponds : S.Corresponds s s') (structLike : s.isStructLike = true)
    (structLike' : s'.isStructLike = true) :
    S.Couples w γ γ' (do
        let type ← structName (emitter hooks depth) s
        return structOf type (← (emitter hooks depth).decodeBindings s))
      (do
        let type ← structName (emitter hooks depth') s'
        return structOf type (← (emitter hooks depth').decodeBindings s')) S.AlikeExpr := by
  refine (couples_structName corresponds structLike structLike').bind fun w₁ _ type type' _ => ?_
  refine (coupled.decodeBindings corresponds).bind fun w₂ _ bs bs' same => couples_pure ?_
  cases same
  exact fun ρ ρ' _ => (rename_structOf ρ type bs).trans (rename_structOf ρ' type' bs).symm

theorem couples_decodeExpr (both : S.CoupledAt hooks depth depth')
    (left : S.CoupledAt hooks depth (depth' + 1)) (right : S.CoupledAt hooks (depth + 1) depth')
    {s s' : Shape} (corresponds : S.Corresponds s s') :
    S.Couples w γ γ' (decodeExpr hooks (emitter hooks depth) s)
      (decodeExpr hooks (emitter hooks depth') s') S.AlikeExpr := by
  cases corresponds.layer S.solves S.solves' with
  | left found inner => exact couples_ref found (left.decodeExpr (.shape inner))
  | right found inner => exact couples_ref' found (right.decodeExpr (.shape inner))
  | prim p => exact couples_pure (.refl _)
  | optional inner => exact couples_decodeOptional both inner
  | list inner =>
    exact couples_decodeCollection (fun _ => rfl) fun w' _ => (both.decodeExpr (.shape inner)).withHint
  | map first second =>
    refine couples_decodeCollection (fun _ => rfl) fun w' _ => ?_
    refine (both.decodeExpr (.shape first)).declare.withHint.bind fun w₁ _ k k' same => ?_
    cases same
    refine (both.decodeExpr (.shape second)).declare.withHint.bind fun w₂ _ v v' same => ?_
    cases same
    exact couples_pure fun _ _ _ => rfl
  | struct | merged | packed | flags => exact couples_decodeStruct both corresponds rfl rfl
  | enum =>
    refine (couples_enumName corresponds).bind fun w₁ _ type type' alike => couples_pure ?_
    exact alike.map fun type => Expr.fromId type (.read _)
  | union ofTag each => exact couples_decodeUnion both corresponds ofTag each
  | «alias» inside =>
    exact (couples_typeExpr corresponds).discard.bind fun w₁ _ _ _ _ =>
      both.decodeExpr (.shape inside)
  | exported member below inside =>
    refine (couples_typeExpr corresponds).discard.bind fun w₁ _ _ _ _ => couples_pure ?_
    exact fun ρ ρ' admits => congrArg Expr.callDecode (admits.codecs _ (S.calls _ _ member below))
  | literal value backing => exact couples_decodeLiteral value backing

end Sides

end WireSchema.Lowering
