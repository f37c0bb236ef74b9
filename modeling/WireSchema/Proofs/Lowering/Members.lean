import WireSchema.Lowering.Tie
import WireSchema.Proofs.Session.Tracking

/-!
# Emitters agree on members

What is declared for a struct, what is constructed for it and what is taken out of it are its stored
fields. For the shapes of a text every rule of generation keeps the registry faithful; decoders
construct structs of the types that the registry knows; and encoders take out of their source what is
stored in it.
-/

namespace WireSchema

open Ir

variable {types : Refs} {rank : String → Nat} {w : Watch} {σ : Session}

/-! ### What is taken out of a source -/

/-- Watches that only fields of the names are taken out of the source. -/
def Watch.members (source : Expr) (names : String → Prop) : Watch where
  holds _ n := ∀ name, n = .field source name → names name
  mono _ holds := holds

/-- However many fields are taken out of the expression, one after another, the source does not come
out. -/
def Ir.Expr.Clear (source e : Expr) : Prop :=
  e.locals ≠ source.locals ∨ source.nodes.length < e.nodes.length

namespace Lowering

open Gen Session

variable (types) in
/-- The shape is one whose values may be tags. -/
def IsTag (s : Shape) : Prop :=
  ∃ t, Shape.Resolves types s t ∧ ((∃ p, t = .prim p) ∨ ∃ backing entries, t = .enum backing entries)

variable (types) in
/-- The expression may be the source of values of the shape: it is not the source that is watched,
unless this is a struct that stores fields of the names. -/
structure Admits (source : Expr) (names : String → Prop) (s : Shape) (e : Expr) : Prop where
  each : ∀ r, (Watch.members source names).Each r e
  clear : source.Clear e ∨ IsTag types s ∨
    e = source ∧ s.isStructLike = true ∧ ∀ f, Shape.Stores types s f → names f.name

/-- A field may be taken out of the expression. -/
structure Takes (source : Expr) (names : String → Prop) (e : Expr) (name : String) : Prop where
  each : ∀ r, (Watch.members source names).Each r (.field e name)
  clear : source.Clear (.field e name)

/-- The bindings of the expression were given out before. -/
def Issued (e : Expr) (σ : Session) : Prop := ∀ i ∈ e.locals, i < σ.draft.nextLocal

variable (types rank) in
/-- What an emitter does for the shapes of a text. -/
structure Emitter.Tracked (em : Emitter) : Prop where
  typeExpr : ∀ (w : Watch) (s : Shape) (σ : Session), s.IsWritten types rank →
    Leads types rank w σ (em.typeExpr s) fun _ _ => True
  prepare : ∀ (w : Watch) (s : Shape) (σ : Session), s.IsWritten types rank →
    Leads types rank w σ (em.prepare s) fun _ _ => True
  /-- The expression constructs structs that the registry knows. -/
  decodeExpr : ∀ (s : Shape) (σ : Session), s.IsWritten types rank →
    Leads types rank (.structs types rank) σ (em.decodeExpr s) fun e r =>
      (Watch.structs types rank).Each r e
  /-- The bindings are those of the stored fields. -/
  decodeBindings : ∀ (s : Shape) (σ : Session), s.IsWritten types rank →
    Leads types rank (.structs types rank) σ (em.decodeBindings s) fun bindings _ =>
      ∃ fields, s.storedFields types = .ok fields ∧ bindings.map (·.1) = fields.map (·.name)
  /-- Only what is stored in the source is taken out of it, and a struct has a name. -/
  encode : ∀ (source : Expr) (names : String → Prop) (s : Shape) (e : Expr) (σ : Session),
    s.IsWritten types rank → (s.isStored = true → Admits types source names s e) →
    Issued source σ → Leads types rank (.members source names) σ (em.encode s e) fun _ r =>
      s.isStructLike = true → (∃ fields, s.storedFields types = .ok fields) ∧
        ∃ type, r.constants.lookup (s.canonicalName types) = some type
  encodeFields : ∀ (source : Expr) (names : String → Prop) (s : Shape) (e : Expr) (σ : Session),
    s.IsWritten types rank → (∀ f, Shape.Stores types s f → Takes source names e f.name) →
    Issued source σ → Leads types rank (.members source names) σ (em.encodeFields s e) fun _ _ =>
      ∃ fields, s.storedFields types = .ok fields

/-! ### Declarations -/

/-- The declaration has the name of the field. -/
def DeclaresField (f : Field) (d : FieldDecl) : Prop := d.name = f.name

theorem leads_desiredName {signature fallback : String} :
    Leads types rank w σ (desiredName signature fallback) fun _ _ => True := by
  refine leads_aliasOf?.bind fun found _ _ _ => ?_
  split
  · exact leads_pure trivial
  · exact leads_hintName

/-- Later declarations of a struct with the same canonical name have the same members. -/
theorem describes_struct (whole : types.Written rank) {s : Shape} (written : s.IsWritten types rank)
    {fields : List Field} (stored : s.storedFields types = .ok fields) {name : String}
    {members : List FieldDecl} (named : List.Forall₂ DeclaresField fields members) :
    Registry.Describes types rank (s.canonicalName types) (.struct name members) := by
  intro t others written' _ same stored'
  rw [written.canonicalName_eq whole, written'.canonicalName_eq whole] at same
  refine ⟨name, members, rfl, ?_⟩
  rw [Shape.storedNames_unique whole written' written same stored' stored]
  exact (map_eq_of_rel named fun _ _ same => Eq.symm same).symm

theorem leads_structName (whole : types.Written rank) {em : Emitter} {s : Shape}
    (written : s.IsWritten types rank)
    (fieldTypes : ∀ fields, s.storedFields types = .ok fields → ∀ f ∈ fields, ∀ σ,
      Leads types rank w σ (em.typeExpr f.shape) fun _ _ => True) :
    Leads types rank w σ (structName em s) fun name r =>
      r.constants.lookup (s.canonicalName types) = some name := by
  refine leads_canonicalName.bind fun signature _ _ same => ?_
  subst same
  refine leads_refs.bind fun refs _ _ _ => leads_desiredName.bind fun desired _ _ _ => ?_
  refine Leads.bind (leads_registerConstant fun name τ => ?_) fun name _ _ known => ?_
  -- The types of the fields may need declarations of their own, on a draft of no interest.
  · refine leads_refs.bind fun _ _ _ _ => leads_ofExcept.bind fun _ _ _ _ => Leads.nested (v := w) ?_
    refine leads_storedFields.bind fun fields _ _ stored => ?_
    refine (leads_mapM (Q := DeclaresField) fun f member υ _ => ?_).bind fun members _ _ named => ?_
    · exact (fieldTypes fields stored f member _).withHint.bind fun _ _ _ _ => leads_pure rfl
    · exact leads_pure ⟨⟨rfl, trivial⟩, describes_struct whole written stored named⟩
  · refine leads_registerAlias.discard.bind fun _ _ step _ => leads_pure ?_
    exact step.keeps _ _ known

theorem Emitter.Tracked.fieldTypes (whole : types.Written rank) {em : Emitter}
    (tracked : em.Tracked types rank) {s : Shape} (written : s.IsWritten types rank) :
    ∀ fields, s.storedFields types = .ok fields → ∀ f ∈ fields, ∀ σ,
      Leads types rank w σ (em.typeExpr f.shape) fun _ _ => True :=
  fun _ stored f member σ => tracked.typeExpr w f.shape σ (written.stored whole stored f member)

/-- Ids that pass the check are different from each other and from those seen before. -/
theorem nodup_of_checkIds {owner : String} {kind : IntKind} {seen : List Int}
    {entries : List (String × Int)} (checked : checkIds owner kind seen entries = .ok ()) :
    (entries.map (·.2)).Nodup ∧ ∀ id ∈ entries.map (·.2), id ∉ seen := by
  induction entries generalizing seen with
  | nil => exact ⟨List.nodup_nil, nofun⟩
  | cons entry rest ih =>
    obtain ⟨variant, id⟩ := entry
    rw [checkIds] at checked
    split at checked
    case isTrue => cases checked
    case isFalse fresh =>
      obtain ⟨distinct, unseen⟩ := ih checked
      simp only [List.contains_eq_mem, decide_eq_true_eq, not_or] at fresh
      constructor
      · exact List.nodup_cons.mpr ⟨fun again => unseen id again List.mem_cons_self, distinct⟩
      · refine List.forall_mem_cons.mpr ⟨fresh.2.2, fun other later early => ?_⟩
        exact unseen other later (List.mem_cons_of_mem id early)

theorem leads_enumName (whole : types.Written rank) {backing : Primitive}
    {entries : List (String × Int)} (written : (Shape.enum backing entries).IsWritten types rank) :
    Leads types rank w σ (enumName backing entries) fun _ _ => True := by
  have names : (entries.map (·.1)).Nodup := by
    rcases written.field with ⟨_, wf⟩ | ⟨_, _, _, same⟩
    · exact wf.1
    · cases same
  refine leads_ofExcept.bind fun _ _ _ _ => leads_canonicalName.bind fun signature _ _ same => ?_
  subst same
  refine leads_desiredName.bind fun _ _ _ _ => leads_ofExcept.bind fun _ _ _ checked => ?_
  refine Leads.bind (leads_registerConstant fun name τ => leads_pure ⟨⟨rfl, names, ?_⟩, ?_⟩)
    fun _ _ _ _ => ?_
  · exact (nodup_of_checkIds checked).1
  · refine Registry.describes_of_head whole (Shape.head_enum types backing entries) fun s => ?_
    cases s <;> simp [Shape.structHead]
  · exact leads_registerAlias.discard.bind fun _ _ _ _ => leads_pure trivial

theorem leads_variantDecl {em : Emitter} (tracked : em.Tracked types rank) {key : String}
    {payload : Shape} (written : payload.IsWritten types rank) :
    Leads types rank w σ (variantDecl em key payload) fun d _ => key = d.name := by
  refine leads_resolved.bind fun found _ _ _ => ?_
  split
  · exact leads_canonicalName.bind fun _ _ _ _ => leads_throw
  · refine leads_storedFields.bind fun fields _ _ _ => ?_
    split
    · exact leads_pure rfl
    · refine (tracked.typeExpr w payload _ written).withHint.bind fun t _ _ _ => ?_
      split
      · exact leads_pure rfl
      · exact leads_canonicalName.bind fun _ _ _ _ => leads_throw

theorem leads_unionName (whole : types.Written rank) {em : Emitter}
    (tracked : em.Tracked types rank) {tagField : String} {tag : Shape}
    {variants : List (String × Shape)} {tags : List (String × Literal)}
    (written : (Shape.union tagField tag variants tags).IsWritten types rank) :
    Leads types rank w σ (unionName em tagField tag variants tags) fun _ _ => True := by
  have keys : (variants.map (·.1)).Nodup := by
    rcases written.field with ⟨_, wf⟩ | ⟨_, _, _, same⟩
    · exact wf.2.1
    · cases same
  refine leads_canonicalName.bind fun signature _ _ same => ?_
  subst same
  refine leads_desiredName.bind fun desired _ _ _ => ?_
  dsimp only
  split
  · exact Leads.bind (leads_throw (Q := fun _ _ => False)) fun _ _ _ never => never.elim
  split
  · exact Leads.bind (leads_throw (Q := fun _ _ => False)) fun _ _ _ never => never.elim
  refine Leads.bind (leads_registerConstant fun name τ => Leads.nested (v := w) ?_) fun _ _ _ _ => ?_
  · have ofTag := written.part whole List.mem_cons_self
    refine (tracked.typeExpr w tag _ ofTag).withHint.discard.bind fun _ _ _ _ => ?_
    refine (leads_mapM (Q := fun variant d => variant.1 = d.name)
      fun variant member _ _ => ?_).bind fun decls _ _ named => ?_
    · have among := List.mem_cons_of_mem tag (List.mem_map_of_mem (f := (·.2)) member)
      exact leads_variantDecl tracked (written.part whole among)
    · rw [map_eq_of_rel named fun _ _ => id] at keys
      refine leads_pure ⟨⟨rfl, keys⟩, ?_⟩
      refine Registry.describes_of_head whole
        (Shape.head_union types tagField tag variants tags) fun s => ?_
      cases s <;> simp [Shape.structHead]
  · exact leads_registerAlias.discard.bind fun _ _ _ _ => leads_pure trivial

theorem leads_declareAlias {em : Emitter} (tracked : em.Tracked types rank) {name : String}
    {inner : Shape} (written : inner.IsWritten types rank) :
    Leads types rank w σ (declareAlias em name inner) fun _ _ => True := by
  have aliased (t : TypeExpr) (σ : Session) : Leads types rank w σ
      (Gen.registerGlobal name (return .alias name t)) fun _ _ => True :=
    leads_registerGlobal fun _ => leads_pure ⟨rfl, trivial⟩
  refine leads_canonicalName.bind fun signature _ _ _ => leads_resolved.bind fun found _ _ _ => ?_
  split
  · refine leads_registerAlias.discard.bind fun _ _ _ _ => ?_
    refine (tracked.typeExpr w inner _ written).bind fun actual _ _ _ => ?_
    split
    · exact (aliased actual _).discard.bind fun _ _ _ _ => leads_pure trivial
    · exact leads_pure trivial
  · refine leads_registry.bind fun r _ _ _ => ?_
    split
    · exact leads_pure trivial
    · refine (tracked.typeExpr w inner _ written).bind fun target _ _ _ => ?_
      refine (aliased target _).discard.bind fun _ _ _ _ => ?_
      exact leads_registerAlias.discard.bind fun _ _ _ _ => leads_pure trivial

/-- A block constructs the structs that its statements and its result construct. -/
theorem leads_block {act : Gen Expr}
    (leads : Leads types rank (.structs types rank) { σ with draft := σ.draft.pushScope } act
      fun e r => (Watch.structs types rank).Each r e) :
    Leads types rank (.structs types rank) σ (captureBlock act) fun b r =>
      (Watch.structs types rank).All r b.stmts ∧ (Watch.structs types rank).Each r b.result := by
  refine Leads.captureBlock (G := (Watch.structs types rank).Each) (fun r => ?_) leads
  exact fun image each found => Expr.each_substFirst image each found

/-- An encoder whose source is not watched. -/
theorem leads_encoded {em : Emitter} (tracked : em.Tracked types rank) {s : Shape}
    (written : s.IsWritten types rank) (σ : Session) (x : Local) :
    Leads types rank (.members .absent fun _ => True) σ (capture (em.encode s (.place x)))
      fun _ _ => True := by
  have none : Expr.absent.locals = [] := rfl
  have clear : Expr.absent.Clear (.place x) := .inl (List.cons_ne_nil x.id [])
  exact (tracked.encode .absent _ s _ _ written (fun _ => ⟨fun _ _ _ _ _ => trivial, .inl clear⟩)
    (by simp [Issued, none])).capture.weaken fun _ _ _ => trivial

/-- Both functions of a codec are generated on a draft of their own. -/
theorem leads_declareCodec {em : Emitter} (tracked : em.Tracked types rank) {name : String}
    {inner : Shape} (written : inner.IsWritten types rank) :
    Leads types rank w σ (declareCodec em name inner) fun _ _ => True := by
  refine Leads.discard (Q := fun _ _ => True) (leads_registerGlobal fun τ tracks d υ defined => ?_)
    |>.weaken fun _ _ _ => trivial
  obtain ⟨υ, within, rfl⟩ := runs_nested.mp defined
  simp only [runs_bind, runs_beginFunction, runs_pure, runs_param] at within
  obtain ⟨decode, σ₁, decoder, _, _, rfl, value, _, ⟨rfl, rfl⟩, ⟨encode, u⟩, σ₂, encoder, rfl, rfl⟩ :=
    within
  have decodes (σ : Session) := leads_block (σ := σ) (tracked.decodeExpr inner _ written)
  obtain ⟨step, all, result⟩ := decodes { τ with draft := Draft.named name }
    ⟨tracks.refs, by simp [Draft.named]⟩ decode σ₁ decoder
  -- The encoder is watched for nothing.
  have encodes := leads_encoded tracked written (mapDraft (fun d => (d.fresh "value").2)
    (mapDraft Draft.beginFunction σ₁)) (σ₁.draft.beginFunction.fresh "value").1
  have begun : (mapDraft (fun d => (d.fresh "value").2) (mapDraft Draft.beginFunction σ₁)).Tracks
      types := ⟨step.refs.trans tracks.refs, by simp [Draft.fresh, Draft.beginFunction]⟩
  obtain ⟨step', -⟩ := encodes begun (encode, u) υ encoder
  have whole := (step.toEvolves.redraft τ.draft τ.draft).trans (step'.toEvolves.redraft _ τ.draft)
  exact ⟨whole.adds rfl, all.mono step'.keeps, result.mono step'.keeps⟩

theorem leads_aliasedOr {s : Shape} {build : Gen TypeExpr}
    (leads : ∀ σ, Leads types rank w σ build fun _ _ => True) :
    Leads types rank w σ (aliasedOr s build) fun _ _ => True := by
  refine leads_canonicalName.bind fun signature _ _ _ => leads_aliasOf?.bind fun found _ _ _ => ?_
  split
  · exact leads_pure trivial
  · exact leads _

theorem leads_typeExpr (whole : types.Written rank) {em : Emitter}
    (tracked : em.Tracked types rank) {s : Shape} (written : s.IsWritten types rank) :
    Leads types rank w σ (typeExpr em s) fun _ _ => True := by
  cases s with
  | prim | custom | transformed => exact leads_pure trivial
  | optional value presence =>
    refine leads_aliasedOr fun σ => ?_
    exact (tracked.typeExpr w value σ (written.part whole List.mem_cons_self)).bind fun _ _ _ _ =>
      leads_pure trivial
  | list item length =>
    refine leads_aliasedOr fun σ => ?_
    exact (tracked.typeExpr w item _ (written.part whole List.mem_cons_self)).withHint.bind
      fun _ _ _ _ => leads_pure trivial
  | map key value length =>
    refine leads_aliasedOr fun σ => ?_
    refine (tracked.typeExpr w key _ (written.part whole List.mem_cons_self)).withHint.bind
      fun _ _ _ _ => ?_
    refine (tracked.typeExpr w value _ (written.part whole ?_)).withHint.bind
      fun _ _ _ _ => leads_pure trivial
    exact List.mem_cons_of_mem _ List.mem_cons_self
  | struct | merged | packed | flags =>
    exact (leads_structName whole written (tracked.fieldTypes whole written)).bind fun _ _ _ _ =>
      leads_pure trivial
  | enum => exact (leads_enumName whole written).bind fun _ _ _ _ => leads_pure trivial
  | union tagField tag variants tags =>
    exact (leads_unionName whole tracked written).bind fun _ _ _ _ => leads_pure trivial
  | slot group index kind => cases kind <;> exact leads_pure trivial
  | «alias» name inner =>
    exact (leads_declareAlias tracked (written.part whole List.mem_cons_self)).bind fun _ _ _ _ =>
      leads_pure trivial
  | exported name inner =>
    have written := written.part whole List.mem_cons_self
    refine (leads_declareAlias tracked written).bind fun _ _ _ _ => ?_
    exact (leads_declareCodec tracked written).bind fun _ _ _ _ => leads_pure trivial
  | ref label =>
    refine leads_refs.bind fun found _ _ same => ?_
    cases same
    split
    case h_1 target known =>
      exact tracked.typeExpr w target _ (written.part whole (Option.mem_toList.mpr known))
    case h_2 => exact leads_throw
  | literal value backing =>
    cases backing with
    | some p => exact leads_pure trivial
    | none => cases value <;> exact leads_pure trivial

theorem leads_prepare (whole : types.Written rank) {em : Emitter}
    (tracked : em.Tracked types rank) {s : Shape} (written : s.IsWritten types rank) :
    Leads types rank w σ (prepare em s) fun _ _ => True := by
  unfold prepare
  split
  · exact leads_pure trivial
  · exact leads_pure trivial
  · exact (tracked.typeExpr w _ _ written).discard.weaken fun _ _ _ => trivial
  · refine (tracked.typeExpr w _ _ written).discard.bind fun _ _ _ _ => ?_
    refine leads_refs.bind fun found _ _ same => ?_
    cases same
    refine (leads_forM (Q := fun _ => True) fun part member υ _ => ?_).weaken fun _ _ _ => trivial
    exact tracked.prepare w part υ (written.part whole member)

theorem leads_unionTag {em : Emitter} (tracked : em.Tracked types rank) {tag : Shape}
    {tags : List (String × Literal)} {index : Nat} {key : String}
    (written : tag.IsWritten types rank) :
    Leads types rank w σ (unionTag em tag tags index key) fun _ _ => IsTag types tag := by
  refine leads_resolved.bind fun found _ _ resolved => ?_
  have resolves := Shape.resolves_of_resolved resolved
  split
  · refine (tracked.typeExpr w tag _ written).bind fun t _ _ _ => ?_
    split
    · dsimp only
      split
      · exact leads_pure ⟨_, resolves, .inr ⟨_, _, rfl⟩⟩
      · exact leads_throw
    · exact leads_canonicalName.bind fun _ _ _ _ => leads_throw
  · exact leads_pure ⟨_, resolves, .inl ⟨_, rfl⟩⟩
  · split <;> exact leads_pure ⟨_, resolves, .inl ⟨_, rfl⟩⟩
  · split
    · split
      · exact leads_pure ⟨_, resolves, .inl ⟨_, rfl⟩⟩
      · exact leads_canonicalName.bind fun _ _ _ _ => leads_throw
      · exact leads_pure ⟨_, resolves, .inl ⟨_, rfl⟩⟩
    · exact leads_canonicalName.bind fun _ _ _ _ => leads_throw
  · exact leads_canonicalName.bind fun _ _ _ _ => leads_throw

theorem leads_tagIsExhaustive {tag : Shape} {variants : List (String × Shape)}
    {tags : List (String × Literal)} :
    Leads types rank w σ (tagIsExhaustive tag variants tags) fun _ _ => True := by
  refine leads_resolved.bind fun found _ _ _ => ?_
  split <;> exact leads_pure trivial

end Lowering

end WireSchema
