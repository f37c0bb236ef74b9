import WireSchema.Proofs.Lowering.Orderly
import WireSchema.Proofs.Session.Regrouping

/-!
# Code under other numbers of groups

The code of a shape that a text describes does not show the numbers of its bit groups: an emitter
generates the same for the shape whose groups are numbered anew. Slots are only met where the struct
of their group is at hand, so no message names a group.
-/

namespace WireSchema.Lowering

open Ir

/-- The shape is one that a text describes, or a slot of a struct whose integer is at hand. -/
inductive Placed (types : Refs) (rank : String → Nat) (γ : List ActiveGroup) : Shape → Prop where
  | shape {bound : Nat} {s : Shape} (wf : s.WellFormed types rank bound) : Placed types rank γ s
  | slot {group index : Nat} {kind : SlotKind} {raw : Expr}
      (active : γ.find? (·.group == group) = some ⟨group, some raw⟩) :
      Placed types rank γ (.slot group index kind)

/-- The emitter generates the same when groups are numbered anew. -/
structure Emitter.Stable (ρ : Nat → Nat) (types : Refs) (rank : String → Nat) (em : Emitter) :
    Prop where
  typeExpr : ∀ {γ : List ActiveGroup} {s : Shape}, s.IsFieldShape types rank →
    SameRun ρ types γ (em.typeExpr s) (em.typeExpr (s.regroup ρ))
  prepare : ∀ {γ : List ActiveGroup} {s : Shape}, s.IsFieldShape types rank →
    SameRun ρ types γ (em.prepare s) (em.prepare (s.regroup ρ))
  decodeExpr : ∀ {γ : List ActiveGroup} {s : Shape}, Placed types rank γ s →
    SameRun ρ types γ (em.decodeExpr s) (em.decodeExpr (s.regroup ρ))
  decodeBindings : ∀ {γ : List ActiveGroup} {bound : Nat} {s : Shape},
    s.WellFormed types rank bound →
    SameRun ρ types γ (em.decodeBindings s) (em.decodeBindings (s.regroup ρ))
  encode : ∀ {γ : List ActiveGroup} {bound : Nat} {s : Shape} (src : Expr),
    s.WellFormed types rank bound →
    SameRun ρ types γ (em.encode s src) (em.encode (s.regroup ρ) src)
  encodeFields : ∀ {γ : List ActiveGroup} {bound : Nat} {s : Shape} (src : Expr),
    s.WellFormed types rank bound →
    SameRun ρ types γ (em.encodeFields s src) (em.encodeFields (s.regroup ρ) src)

variable {ρ : Nat → Nat} {types : Refs} {rank : String → Nat} {γ : List ActiveGroup} {em : Emitter}
  {bound : Nat}

/-! ### Declarations -/

theorem sameRun_desiredName (signature fallback : String) :
    SameRun ρ types γ (desiredName signature fallback) (desiredName signature fallback) := by
  refine (sameRun_aliasOf? signature).step fun found => ?_
  split
  · exact regroups_pure rfl
  · exact sameRun_hintName fallback

theorem sameRun_structName (injective : Function.Injective ρ) (ordered : types.Ordered rank)
    (stable : em.Stable ρ types rank) {s : Shape} (wf : s.WellFormed types rank bound) :
    SameRun ρ types γ (structName em s) (structName em (s.regroup ρ)) := by
  refine (sameRun_canonicalName s).step fun signature => regroups_refs ?_
  rw [Shape.safeName_regroup]
  refine (sameRun_desiredName _ _).step fun desired => ?_
  refine Regroups.step (sameRun_registerConstant fun name => regroups_refs ?_) fun name => ?_
  · rw [Shape.slotsValid_regroup injective]
    refine (sameRun_ofExcept _).step fun _ => Regroups.nested ?_
    refine (regroups_storedFields s).bind fun fields fields' both => ?_
    obtain ⟨stored, rfl⟩ := both
    refine Regroups.step (sameRun_mapM_map fun f member => ?_) fun _ => regroups_pure rfl
    have shape := Shape.fieldShapes_of_storedFields ordered wf stored f member
    exact (stable.typeExpr shape).withHint.step fun _ => regroups_pure rfl
  · exact (sameRun_registerAlias _ _).discard.step fun _ => regroups_pure rfl

theorem sameRun_enumName (backing : Primitive) (entries : List (String × Int)) :
    SameRun ρ types γ (enumName backing entries) (enumName backing entries) := by
  refine (sameRun_ofExcept _).step fun kind => ?_
  refine Regroups.step (sameRun_canonicalName (.enum backing entries)) fun signature => ?_
  refine (sameRun_desiredName _ _).step fun desired => (sameRun_ofExcept _).step fun _ => ?_
  refine Regroups.step (sameRun_registerConstant fun _ => regroups_pure rfl) fun name => ?_
  exact (sameRun_registerAlias _ _).discard.step fun _ => regroups_pure rfl

/-- The complaint about a shape names no group. -/
theorem sameRun_refuse {α : Type} (s : Shape) (e : String → SchemaError) :
    SameRun ρ types γ (do throw (e (← Gen.canonicalName s)) : Gen α)
      (do throw (e (← Gen.canonicalName (s.regroup ρ)))) :=
  (sameRun_canonicalName s).step fun _ => regroups_throw _

theorem sameRun_variantDecl (stable : em.Stable ρ types rank) (key : String) {payload : Shape}
    (wf : payload.WellFormed types rank bound) :
    SameRun ρ types γ (variantDecl em key payload) (variantDecl em key (payload.regroup ρ)) := by
  refine (regroups_resolved payload).bind fun found found' both => ?_
  obtain ⟨_, rfl⟩ := both
  rw [Shape.isStructLike_regroup]
  split
  · exact sameRun_refuse payload .notAStruct
  refine (regroups_storedFields payload).bind fun fields fields' both => ?_
  obtain ⟨_, rfl⟩ := both
  rw [List.isEmpty_map]
  split
  · exact regroups_pure rfl
  refine (stable.typeExpr (.inl ⟨bound, wf⟩)).withHint.step fun t => ?_
  split
  · exact regroups_pure rfl
  · exact sameRun_refuse payload .notAStruct

theorem sameRun_unionName (stable : em.Stable ρ types rank) {tagField : String} {tag : Shape}
    {variants : List (String × Shape)} {tags : List (String × Literal)}
    (wf : (Shape.union tagField tag variants tags).WellFormed types rank bound) :
    SameRun ρ types γ (unionName em tagField tag variants tags)
      (unionName em tagField (tag.regroup ρ) (Shape.regroupVariants ρ variants) tags) := by
  have named : SameRun ρ types γ (Gen.canonicalName (.union tagField tag variants tags))
      (Gen.canonicalName
        (.union tagField (tag.regroup ρ) (Shape.regroupVariants ρ variants) tags)) :=
    sameRun_canonicalName _
  refine named.step fun signature => (sameRun_desiredName _ _).step fun desired => ?_
  simp only [Shape.regroupVariants_eq, List.isEmpty_map, List.any_map, Function.comp_def]
  split
  · exact regroups_throw _
  split
  · exact regroups_throw _
  refine Regroups.step (sameRun_registerConstant fun name => Regroups.nested ?_) fun name => ?_
  · refine (stable.typeExpr (.inl ⟨bound, wf.1⟩)).withHint.discard.step fun _ => ?_
    refine Regroups.step (sameRun_mapM_map fun variant member => ?_) fun _ => regroups_pure rfl
    exact sameRun_variantDecl stable _ (Shape.mem_wellFormedVariants wf.2.2 member).2
  · exact (sameRun_registerAlias _ _).discard.step fun _ => regroups_pure rfl

theorem sameRun_declareAlias (stable : em.Stable ρ types rank) (name : String) {inner : Shape}
    (wf : inner.WellFormed types rank bound) :
    SameRun ρ types γ (declareAlias em name inner) (declareAlias em name (inner.regroup ρ)) := by
  have typed : SameRun ρ types γ (em.typeExpr inner) (em.typeExpr (inner.regroup ρ)) :=
    stable.typeExpr (.inl ⟨bound, wf⟩)
  have aliased (t : TypeExpr) : SameRun ρ types γ
      (Gen.registerGlobal name (return .alias name t))
      (Gen.registerGlobal name (return .alias name t)) :=
    sameRun_registerGlobal (regroups_pure rfl)
  refine (sameRun_canonicalName inner).step fun signature => ?_
  refine (regroups_resolved inner).bind fun found found' both => ?_
  obtain ⟨_, rfl⟩ := both
  rw [Shape.isNominal_regroup]
  split
  · refine (sameRun_registerAlias _ _).discard.step fun _ => typed.step fun actual => ?_
    split
    · exact (aliased actual).discard.step fun _ => regroups_pure rfl
    · exact regroups_pure rfl
  · refine sameRun_registry.step fun r => ?_
    split
    · exact regroups_pure rfl
    · refine typed.step fun target => (aliased target).discard.step fun _ => ?_
      exact (sameRun_registerAlias _ _).discard.step fun _ => regroups_pure rfl

theorem sameRun_declareCodec (stable : em.Stable ρ types rank) (name : String) {inner : Shape}
    (wf : inner.WellFormed types rank bound) :
    SameRun ρ types γ (declareCodec em name inner) (declareCodec em name (inner.regroup ρ)) := by
  refine Regroups.discard (sameRun_registerGlobal (Regroups.nested ?_))
  refine (stable.decodeExpr (.shape wf)).captureBlock.step fun decode => ?_
  refine sameRun_beginFunction.step fun _ => (sameRun_param _).step fun value => ?_
  exact (stable.encode _ wf).capture.step fun _ => regroups_pure rfl

theorem sameRun_aliasedOr (s : Shape) {build build' : Gen TypeExpr}
    (builds : SameRun ρ types γ build build') :
    SameRun ρ types γ (aliasedOr s build) (aliasedOr (s.regroup ρ) build') := by
  refine (sameRun_canonicalName s).step fun signature => (sameRun_aliasOf? _).step fun found => ?_
  split
  · exact regroups_pure rfl
  · exact builds

/-- What is behind a reference is generated in its place. -/
theorem sameRun_ref {α : Type} (ordered : types.Ordered rank) {label : String} {act : Shape → Gen α}
    (behind : ∀ target : Shape, target.WellFormed types rank (rank label + 1) →
      SameRun ρ types γ (act target) (act (target.regroup ρ))) :
    SameRun ρ types γ
      (do
        match (← Gen.refs).lookup label with
        | some target => act target
        | none => throw (.unresolvedReference label))
      (do
        match (← Gen.refs).lookup label with
        | some target => act target
        | none => throw (.unresolvedReference label)) := by
  refine regroups_refs ?_
  rw [Shape.lookup_regroup]
  cases known : types.lookup label with
  | none => exact regroups_throw _
  | some target => exact behind target (ordered.wellFormed_target known)

theorem sameRun_typeExpr (injective : Function.Injective ρ) (ordered : types.Ordered rank)
    (stable : em.Stable ρ types rank) {s : Shape} (shape : s.IsFieldShape types rank) :
    SameRun ρ types γ (typeExpr em s) (typeExpr em (s.regroup ρ)) := by
  rcases shape with ⟨bound, wf⟩ | ⟨group, index, kind, rfl⟩
  · cases s with
    | prim p => exact regroups_pure rfl
    | optional value presence =>
      refine sameRun_aliasedOr (.optional value presence) ?_
      exact (stable.typeExpr (.inl ⟨bound, wf.2⟩)).step fun _ => regroups_pure rfl
    | list item length =>
      have inside : item.WellFormed types rank bound := wf
      refine sameRun_aliasedOr (.list item length) ?_
      exact (stable.typeExpr (.inl ⟨bound, inside⟩)).withHint.step fun _ => regroups_pure rfl
    | map key value length =>
      refine sameRun_aliasedOr (.map key value length) ?_
      refine (stable.typeExpr (.inl ⟨bound, wf.1⟩)).withHint.step fun _ => ?_
      exact (stable.typeExpr (.inl ⟨bound, wf.2⟩)).withHint.step fun _ => regroups_pure rfl
    | struct | merged | packed | flags =>
      exact (sameRun_structName injective ordered stable wf).step fun _ => regroups_pure rfl
    | enum backing entries => exact (sameRun_enumName _ _).step fun _ => regroups_pure rfl
    | union tagField tag variants tags =>
      exact (sameRun_unionName stable wf).step fun _ => regroups_pure rfl
    | «alias» name inner =>
      exact (sameRun_declareAlias stable name (ordered.inner_alias wf.1)).step fun _ =>
        regroups_pure rfl
    | exported name inner =>
      have inside := ordered.inner_exported wf.1
      refine (sameRun_declareAlias stable name inside).step fun name => ?_
      exact (sameRun_declareCodec stable name inside).step fun _ => regroups_pure rfl
    | ref label => exact sameRun_ref ordered fun _ wf => stable.typeExpr (.inl ⟨_, wf⟩)
    | literal value backing =>
      cases backing with
      | some p => exact regroups_pure rfl
      | none => cases value <;> exact regroups_pure rfl
    | slot | custom | transformed => exact wf.elim
  · cases kind <;> exact regroups_pure rfl

theorem sameRun_prepare (ordered : types.Ordered rank) (stable : em.Stable ρ types rank) {s : Shape}
    (shape : s.IsFieldShape types rank) :
    SameRun ρ types γ (prepare em s) (prepare em (s.regroup ρ)) := by
  have typed : SameRun ρ types γ (em.typeExpr s) (em.typeExpr (s.regroup ρ)) :=
    stable.typeExpr shape
  have whole : SameRun ρ types γ
      (do
        discard <| em.typeExpr s
        (s.subshapes (← Gen.refs)).forM em.prepare)
      (do
        discard <| em.typeExpr (s.regroup ρ)
        ((s.regroup ρ).subshapes (← Gen.refs)).forM em.prepare) := by
    refine typed.discard.step fun _ => regroups_refs ?_
    rw [Shape.subshapes_regroup]
    exact sameRun_forM_map fun part member =>
      stable.prepare (fieldShape_subshapes ordered shape member)
  cases s with
  | ref | slot => exact regroups_pure rfl
  | exported => exact typed.discard
  | _ => exact whole

/-! ### Decoders -/

theorem sameRun_decodeSlot (injective : Function.Injective ρ) {group index : Nat} {kind : SlotKind}
    {raw : Expr} (active : γ.find? (·.group == group) = some ⟨group, some raw⟩) :
    SameRun ρ types γ (decodeSlot group index kind) (decodeSlot (ρ group) index kind) := by
  refine (regroups_activeGroup? injective group).bind fun found found' both => ?_
  obtain ⟨known, rfl⟩ := both
  -- The integer is at hand, so the message that would name the group is not reached.
  rw [known, active]
  exact sameRun_ofExcept _

theorem sameRun_decodeFields (stable : em.Stable ρ types rank) {fields : List Field}
    (placed : ∀ f ∈ fields, Placed types rank γ f.shape) :
    SameRun ρ types γ (decodeFields em fields)
      (decodeFields em (fields.map (Member.regroup ρ))) := by
  have each (f : Field) (member : f ∈ fields) : Regroups ρ types γ
      (do
        let x ← Gen.withHint f.name (Gen.declare f.name (em.decodeExpr f.shape))
        return (f, x))
      (do
        let x ← Gen.withHint f.name (Gen.declare f.name (em.decodeExpr (f.shape.regroup ρ)))
        return (f.regroup ρ, x)) fun x y => y = (x.1.regroup ρ, x.2) :=
    (stable.decodeExpr (placed f member)).declare.withHint.step fun _ => regroups_pure rfl
  unfold decodeFields
  rw [List.mapM_map]
  refine (regroups_mapM each).bind fun bindings bindings' same => regroups_pure ?_
  rw [same, List.filter_map, List.map_map]
  congr 1
  exact List.filter_congr fun binding _ => Shape.isStored_regroup binding.1.shape

theorem sameRun_decodeGroup (stable : em.Stable ρ types rank) (backing : Primitive) {group : Nat}
    {fields : List Field}
    (slots : ∀ f ∈ fields, ∃ index kind, f.shape = .slot group index kind) :
    SameRun ρ types γ (decodeGroup em backing group fields)
      (decodeGroup em backing (ρ group) (fields.map (Member.regroup ρ))) := by
  refine (sameRun_lastHint "packed").step fun hint => ?_
  refine Regroups.step (Regroups.declare (regroups_pure rfl)) fun raw => ?_
  refine Regroups.withGroup (sameRun_decodeFields stable fun f member => ?_)
  -- Every field is a slot of the group that was just opened.
  obtain ⟨index, kind, isSlot⟩ := slots f member
  have active : (⟨group, some (.var raw)⟩ :: γ : List ActiveGroup).find? (·.group == group) =
      some ⟨group, some (.var raw)⟩ := by simp
  rw [isSlot]
  exact .slot active

/-- Behind aliases and references the numbers are other ones as well. -/
theorem sameRun_behind {α : Type} (ordered : types.Ordered rank) {s : Shape}
    (wf : s.WellFormed types rank bound) {act : Shape → Gen α}
    (behind : ∀ found : Shape, found.WellFormed types rank bound →
      SameRun ρ types γ (act found) (act (found.regroup ρ))) :
    SameRun ρ types γ (do act (← Gen.resolved s)) (do act (← Gen.resolved (s.regroup ρ))) := by
  refine (regroups_resolved s).bind fun found found' both => ?_
  obtain ⟨resolved, rfl⟩ := both
  exact behind found ((Shape.resolves_of_resolved resolved).wellFormed ordered wf)

theorem sameRun_decodeBindings (ordered : types.Ordered rank) (stable : em.Stable ρ types rank)
    {s : Shape} (wf : s.WellFormed types rank bound) :
    SameRun ρ types γ (decodeBindings em s) (decodeBindings em (s.regroup ρ)) := by
  have behind : SameRun ρ types γ (do em.decodeBindings (← Gen.resolved s))
      (do em.decodeBindings (← Gen.resolved (s.regroup ρ))) :=
    sameRun_behind ordered wf fun _ => stable.decodeBindings
  have fails : SameRun ρ types γ
      (do throw (.notAStruct (← Gen.canonicalName s)) : Gen (List (String × Local)))
      (do throw (.notAStruct (← Gen.canonicalName (s.regroup ρ)))) := sameRun_refuse s .notAStruct
  cases s with
  | struct fields =>
    simp only [Shape.regroup, Shape.regroupFields_eq]
    exact sameRun_decodeFields stable fun f member => .shape (Shape.mem_wellFormedFields wf member)
  | merged parts =>
    simp only [Shape.regroup, Shape.regroupParts_eq]
    refine Regroups.step (sameRun_mapM_map fun part member => ?_) fun _ => regroups_pure rfl
    exact sameRun_behind ordered (Shape.mem_wellFormedParts wf member) fun _ =>
      stable.decodeBindings
  | packed backing widths fields group =>
    simp only [Shape.regroup, Shape.regroupFields_eq]
    refine sameRun_decodeGroup stable backing fun f member => ?_
    obtain ⟨index, width, _, isSlot⟩ := wf.2.2 f member
    exact ⟨_, _, isSlot⟩
  | flags backing masks fields group =>
    simp only [Shape.regroup, Shape.regroupFields_eq]
    refine sameRun_decodeGroup stable backing fun f member => ?_
    obtain ⟨index, mask, _, isSlot⟩ := wf.2 f member
    exact ⟨_, _, isSlot⟩
  | «alias» | exported | ref => exact behind
  | _ => exact fails

theorem wellFormed_presence {value presence : Shape}
    (wf : (Shape.optional value presence).WellFormed types rank bound) :
    presence.WellFormed types rank bound := by
  rw [wf.1]
  trivial

theorem sameRun_decodeOptional (stable : em.Stable ρ types rank) {value presence : Shape}
    (wf : (Shape.optional value presence).WellFormed types rank bound) :
    SameRun ρ types γ (decodeOptional em value presence)
      (decodeOptional em (value.regroup ρ) (presence.regroup ρ)) := by
  refine regroups_refs ?_
  rw [Shape.isBoolean_regroup]
  split
  · exact sameRun_refuse presence .nonBooleanPresence
  refine (stable.decodeExpr (.shape (wellFormed_presence wf))).step fun test => ?_
  refine (stable.decodeExpr (.shape wf.2)).captureBlock.step fun block => ?_
  split
  · exact regroups_pure rfl
  · exact (sameRun_lastHint _).step fun _ => (sameRun_declareMut _ _).step fun _ =>
      (sameRun_emit _).step fun _ => regroups_pure rfl

theorem sameRun_decodeCollection (length : Primitive) (empty : Expr) {item item' : Gen Expr}
    (items : SameRun ρ types γ item item') :
    SameRun ρ types γ (decodeCollection length empty item)
      (decodeCollection length empty item') := by
  unfold decodeCollection
  split
  · exact regroups_throw _
  refine (sameRun_lastHint _).step fun name => ?_
  refine Regroups.step (Regroups.declare (regroups_pure rfl)) fun count => ?_
  exact (sameRun_declareMut _ _).step fun _ => items.captureBlock.step fun _ =>
    (sameRun_emit _).step fun _ => regroups_pure rfl

theorem sameRun_unionTag (stable : em.Stable ρ types rank) {tag : Shape}
    (wf : tag.WellFormed types rank bound) (tags : List (String × Literal)) (index : Nat)
    (key : String) :
    SameRun ρ types γ (unionTag em tag tags index key)
      (unionTag em (tag.regroup ρ) tags index key) := by
  refine (regroups_resolved tag).bind fun found found' both => ?_
  obtain ⟨_, rfl⟩ := both
  have fails : SameRun ρ types γ (do throw (.invalidBacking (← Gen.canonicalName found)) : Gen Tag)
      (do throw (.invalidBacking (← Gen.canonicalName (found.regroup ρ)))) :=
    sameRun_refuse found .invalidBacking
  cases found with
  | enum backing entries =>
    refine (stable.typeExpr (.inl ⟨bound, wf⟩)).step fun t => ?_
    split
    · dsimp only
      split
      · exact regroups_pure rfl
      · exact regroups_throw _
    · exact sameRun_refuse tag .invalidBacking
  | prim p =>
    simp only [Shape.regroup] at fails ⊢
    split
    case h_1 other => cases other
    case h_2 => exact regroups_pure rfl
    case h_3 => split <;> exact regroups_pure rfl
    case h_4 same =>
      cases same
      split
      · split
        · exact regroups_pure rfl
        · exact sameRun_refuse tag fun name => .unknownTagVariant name _
        · exact regroups_pure rfl
      · exact fails
    case h_5 other => exact (other p rfl).elim
  | _ => exact fails

theorem sameRun_decodePayload (ordered : types.Ordered rank) (stable : em.Stable ρ types rank)
    (key : String) {payload : Shape} (wf : payload.WellFormed types rank bound) :
    SameRun ρ types γ (decodePayload em key payload)
      (decodePayload em key (payload.regroup ρ)) := by
  refine (regroups_storedFields payload).bind fun fields fields' both => ?_
  obtain ⟨_, rfl⟩ := both
  rw [List.isEmpty_map]
  split
  · exact sameRun_behind ordered wf fun _ inside =>
      (stable.decodeBindings inside).discard.step fun _ => regroups_pure rfl
  · exact (stable.decodeExpr (.shape wf)).withHint.step fun _ => regroups_pure rfl

theorem sameRun_decodeArms (ordered : types.Ordered rank) (stable : em.Stable ρ types rank)
    (type : String) {tag : Shape} (ofTag : tag.WellFormed types rank bound)
    (tags : List (String × Literal)) (result : Local) {variants : List (String × Shape)}
    (wf : Shape.WellFormedVariants types rank bound variants) (seen : List Tag) (index : Nat) :
    SameRun ρ types γ (decodeArms em type tag tags result seen index variants)
      (decodeArms em type (tag.regroup ρ) tags result seen index
        (Shape.regroupVariants ρ variants)) := by
  induction variants generalizing seen index with
  | nil => exact regroups_pure rfl
  | cons first rest ih =>
    refine (sameRun_unionTag stable ofTag tags index first.1).step fun value => ?_
    split
    · exact regroups_throw _
    refine Regroups.step (Regroups.captureBlock ?_) fun block => ?_
    · exact (sameRun_decodePayload ordered stable _ wf.2.1).step fun _ => regroups_pure rfl
    · exact (ih wf.2.2 _ _).step fun _ => regroups_pure rfl

theorem sameRun_tagIsExhaustive (tag : Shape) (variants : List (String × Shape))
    (tags : List (String × Literal)) :
    SameRun ρ types γ (tagIsExhaustive tag variants tags)
      (tagIsExhaustive (tag.regroup ρ) (Shape.regroupVariants ρ variants) tags) := by
  refine (regroups_resolved tag).bind fun found found' both => ?_
  obtain ⟨_, rfl⟩ := both
  cases found with
  | enum backing entries =>
    simp only [Shape.regroup, Shape.regroupVariants_eq, List.any_map, Function.comp_def]
    exact regroups_pure rfl
  | _ => exact regroups_pure rfl

theorem sameRun_decodeUnion (ordered : types.Ordered rank) (stable : em.Stable ρ types rank)
    {tagField : String} {tag : Shape} {variants : List (String × Shape)}
    {tags : List (String × Literal)}
    (wf : (Shape.union tagField tag variants tags).WellFormed types rank bound) :
    SameRun ρ types γ (decodeUnion em tagField tag variants tags)
      (decodeUnion em tagField (tag.regroup ρ) (Shape.regroupVariants ρ variants) tags) := by
  refine (sameRun_unionName stable wf).step fun type => ?_
  refine (stable.decodeExpr (.shape wf.1)).declare.withHint.step fun value => ?_
  refine (sameRun_lastHint _).step fun hint => (sameRun_declareDeferred _).step fun result => ?_
  refine (sameRun_decodeArms ordered stable type wf.1 tags result wf.2.2 [] 0).step fun arms => ?_
  exact (sameRun_tagIsExhaustive tag variants tags).step fun _ =>
    (sameRun_emit _).step fun _ => regroups_pure rfl

theorem sameRun_decodeExpr (hooks : Hooks) (injective : Function.Injective ρ)
    (ordered : types.Ordered rank) (stable : em.Stable ρ types rank) {s : Shape}
    (placed : Placed types rank γ s) :
    SameRun ρ types γ (decodeExpr hooks em s) (decodeExpr hooks em (s.regroup ρ)) := by
  cases placed with
  | slot active => exact sameRun_decodeSlot injective active
  | @shape bound _ wf =>
    have typed : SameRun ρ types γ (em.typeExpr s) (em.typeExpr (s.regroup ρ)) :=
      stable.typeExpr (.inl ⟨bound, wf⟩)
    cases s with
    | prim p => exact regroups_pure rfl
    | optional value presence => exact sameRun_decodeOptional stable wf
    | list item length =>
      have inside : item.WellFormed types rank bound := wf
      exact sameRun_decodeCollection length _ (stable.decodeExpr (.shape inside)).withHint
    | map key value length =>
      refine sameRun_decodeCollection length _ ?_
      refine (stable.decodeExpr (.shape wf.1)).declare.withHint.step fun k => ?_
      exact (stable.decodeExpr (.shape wf.2)).declare.withHint.step fun v => regroups_pure rfl
    | struct | merged | packed | flags =>
      refine (sameRun_structName injective ordered stable wf).step fun type => ?_
      exact (stable.decodeBindings wf).step fun _ => regroups_pure rfl
    | enum backing entries => exact (sameRun_enumName _ _).step fun _ => regroups_pure rfl
    | union tagField tag variants tags => exact sameRun_decodeUnion ordered stable wf
    | «alias» name inner =>
      exact typed.discard.step fun _ => stable.decodeExpr (.shape (ordered.inner_alias wf.1))
    | exported name inner => exact typed.discard.step fun _ => regroups_pure rfl
    | ref label => exact sameRun_ref ordered fun _ wf => stable.decodeExpr (.shape wf)
    | literal value backing =>
      cases backing with
      | none => exact regroups_pure rfl
      | some p =>
        refine Regroups.step (Regroups.declare (regroups_pure rfl)) fun found => ?_
        exact (sameRun_emit _).step fun _ => regroups_pure rfl
    | slot | custom | transformed => exact wf.elim

/-! ### Encoders -/

theorem packedTerms_regroup (owner : String) (kind : IntKind) (src : Expr) (fields : List Field) :
    (fields.map (Member.regroup ρ)).mapM (packedTerm owner kind src) =
      fields.mapM (packedTerm owner kind src) := by
  have each (f : Field) :
      packedTerm owner kind src (f.regroup ρ) = packedTerm owner kind src f := by
    obtain ⟨name, s, doc⟩ := f
    cases s with
    | slot group index kind => cases kind <;> rfl
    | _ => rfl
  rw [List.mapM_map]
  congr 1
  exact funext each

theorem flagTerms_regroup (injective : Function.Injective ρ) (kind : IntKind) (group : Nat)
    (src : Expr) (fields : List Field) :
    (fields.map (Member.regroup ρ)).filterMap (flagTerm kind (ρ group) src) =
      fields.filterMap (flagTerm kind group src) := by
  have each (f : Field) :
      flagTerm kind (ρ group) src (f.regroup ρ) = flagTerm kind group src f := by
    obtain ⟨name, s, doc⟩ := f
    cases s with
    | optional value presence =>
      simp only [flagTerm, Member.regroup, Shape.regroup, Shape.slotOf?_regroup injective]
    | slot g index kind =>
      simp only [flagTerm, Member.regroup, Shape.regroup, Shape.slotOf?, injective.eq_iff]
    | _ => rfl
  rw [List.filterMap_map]
  exact List.filterMap_congr fun f _ => each f

theorem filter_followsFlags_regroup (fields : List Field) :
    (fields.map (Member.regroup ρ)).filter followsFlags =
      (fields.filter followsFlags).map (Member.regroup ρ) := by
  have each (f : Field) : followsFlags (f.regroup ρ) = followsFlags f := by
    obtain ⟨name, s, doc⟩ := f
    cases s <;> rfl
  rw [List.filter_map]
  congr 1
  exact List.filter_congr fun f _ => each f

theorem sameRun_writeLength (length : Primitive) (src : Expr) :
    SameRun ρ types γ (writeLength length src) (writeLength length src) :=
  (sameRun_ofExcept _).step fun _ => sameRun_emit _

theorem sameRun_encodeInOrder (stable : em.Stable ρ types rank) (src : Expr) {fields : List Field}
    (wf : ∀ f ∈ fields, f.shape.WellFormed types rank bound) :
    SameRun ρ types γ (encodeInOrder em src fields)
      (encodeInOrder em src (fields.map (Member.regroup ρ))) :=
  sameRun_forM_map fun f member => (stable.encode _ (wf f member)).withHint

theorem sameRun_encodeFields (injective : Function.Injective ρ) (ordered : types.Ordered rank)
    (stable : em.Stable ρ types rank) {s : Shape} (src : Expr)
    (wf : s.WellFormed types rank bound) :
    SameRun ρ types γ (encodeFields em s src) (encodeFields em (s.regroup ρ) src) := by
  have behind : SameRun ρ types γ (do em.encodeFields (← Gen.resolved s) src)
      (do em.encodeFields (← Gen.resolved (s.regroup ρ)) src) :=
    sameRun_behind ordered wf fun _ => stable.encodeFields src
  have fails : SameRun ρ types γ (do throw (.notAStruct (← Gen.canonicalName s)) : Gen Unit)
      (do throw (.notAStruct (← Gen.canonicalName (s.regroup ρ)))) := sameRun_refuse s .notAStruct
  have named : SameRun ρ types γ (Gen.canonicalName s) (Gen.canonicalName (s.regroup ρ)) :=
    sameRun_canonicalName s
  cases s with
  | struct fields =>
    simp only [Shape.regroup, Shape.regroupFields_eq]
    exact sameRun_encodeInOrder stable src fun f member => Shape.mem_wellFormedFields wf member
  | merged parts =>
    simp only [Shape.regroup, Shape.regroupParts_eq]
    refine sameRun_forM_map fun part member => ?_
    exact sameRun_behind ordered (Shape.mem_wellFormedParts wf member) fun _ =>
      stable.encodeFields src
  | packed backing widths fields group =>
    simp only [Shape.regroup, Shape.regroupFields_eq] at named ⊢
    refine (sameRun_ofExcept _).step fun kind => named.step fun owner => ?_
    rw [packedTerms_regroup]
    exact (sameRun_ofExcept _).step fun terms => sameRun_emit _
  | flags backing masks fields group =>
    simp only [Shape.regroup, Shape.regroupFields_eq]
    refine (sameRun_ofExcept _).step fun kind => ?_
    rw [flagTerms_regroup injective]
    -- The fields are slots, and slots are not written after the flags.
    have followers : ∀ f ∈ fields.filter followsFlags, f.shape.WellFormed types rank bound := by
      intro f member
      obtain ⟨inside, follows⟩ := List.mem_filter.mp member
      obtain ⟨index, mask, _, isSlot⟩ := wf.2 f inside
      rw [followsFlags, isSlot] at follows
      cases follows
    rw [filter_followsFlags_regroup]
    exact (sameRun_emit _).step fun _ => (sameRun_encodeInOrder stable src followers).withGroup
  | «alias» | exported | ref => exact behind
  | _ => exact fails

theorem sameRun_encodeOptional (stable : em.Stable ρ types rank) {value presence : Shape}
    (src : Expr) (wf : (Shape.optional value presence).WellFormed types rank bound) :
    SameRun ρ types γ (encodeOptional em value presence src)
      (encodeOptional em (value.regroup ρ) (presence.regroup ρ) src) := by
  refine regroups_refs ?_
  rw [Shape.isBoolean_regroup]
  split
  · exact sameRun_refuse presence .nonBooleanPresence
  refine (stable.encode _ (wellFormed_presence wf)).step fun _ => ?_
  refine (sameRun_lastHint _).step fun hint => (sameRun_alloc hint).step fun x => ?_
  refine (stable.encode _ wf.2).capture.step fun out => ?_
  dsimp only
  split
  · exact sameRun_emit _
  · exact regroups_pure rfl

theorem sameRun_encodeArms (ordered : types.Ordered rank) (stable : em.Stable ρ types rank)
    (type tagField : String) {tag : Shape} (ofTag : tag.WellFormed types rank bound)
    (tags : List (String × Literal)) {variants : List (String × Shape)}
    (wf : Shape.WellFormedVariants types rank bound variants) (index : Nat) :
    SameRun ρ types γ (encodeArms em type tagField tag tags index variants)
      (encodeArms em type tagField (tag.regroup ρ) tags index
        (Shape.regroupVariants ρ variants)) := by
  induction variants generalizing index with
  | nil => exact regroups_pure rfl
  | cons first rest ih =>
    refine (sameRun_unionTag stable ofTag tags index first.1).step fun value => ?_
    refine (regroups_storedFields first.2).bind fun fields fields' both => ?_
    obtain ⟨_, rfl⟩ := both
    rw [List.isEmpty_map]
    have body (source : Expr) : SameRun ρ types γ
        (do
          Gen.withHint tagField (em.encode tag value.expr)
          Gen.withHint first.1 do em.encodeFields (← Gen.resolved first.2) source)
        (do
          Gen.withHint tagField (em.encode (tag.regroup ρ) value.expr)
          Gen.withHint first.1 do
            em.encodeFields (← Gen.resolved (first.2.regroup ρ)) source) := by
      refine (stable.encode _ ofTag).withHint.step fun _ => Regroups.withHint ?_
      exact sameRun_behind ordered wf.2.1 fun _ => stable.encodeFields source
    split
    · refine Regroups.step (regroups_pure rfl) fun binding => (body _).capture.step fun _ => ?_
      exact (ih wf.2.2 _).step fun _ => regroups_pure rfl
    · refine Regroups.step (Regroups.map ?_) fun binding => (body _).capture.step fun _ => ?_
      · exact (sameRun_alloc _).weaken fun _ _ same => congrArg some same
      · exact (ih wf.2.2 _).step fun _ => regroups_pure rfl

theorem sameRun_encodeUnion (ordered : types.Ordered rank) (stable : em.Stable ρ types rank)
    {tagField : String} {tag : Shape} {variants : List (String × Shape)}
    {tags : List (String × Literal)} (src : Expr)
    (wf : (Shape.union tagField tag variants tags).WellFormed types rank bound) :
    SameRun ρ types γ (encodeUnion em tagField tag variants tags src)
      (encodeUnion em tagField (tag.regroup ρ) (Shape.regroupVariants ρ variants) tags src) := by
  refine (sameRun_unionName stable wf).step fun type => ?_
  exact (sameRun_encodeArms ordered stable type tagField wf.1 tags wf.2.2 0).step fun arms =>
    sameRun_emit _

theorem sameRun_encode (hooks : Hooks) (injective : Function.Injective ρ)
    (ordered : types.Ordered rank) (stable : em.Stable ρ types rank) {s : Shape} (src : Expr)
    (wf : s.WellFormed types rank bound) :
    SameRun ρ types γ (encode hooks em s src) (encode hooks em (s.regroup ρ) src) := by
  have typed : SameRun ρ types γ (em.typeExpr s) (em.typeExpr (s.regroup ρ)) :=
    stable.typeExpr (.inl ⟨bound, wf⟩)
  cases s with
  | prim p => exact sameRun_emit _
  | optional value presence => exact sameRun_encodeOptional stable src wf
  | list item length =>
    have inside : item.WellFormed types rank bound := wf
    refine (sameRun_writeLength length src).step fun _ => (sameRun_alloc _).step fun x => ?_
    exact (stable.encode _ inside).withHint.capture.step fun out => sameRun_emit _
  | map key value length =>
    refine (sameRun_writeLength length src).step fun _ => ?_
    refine (sameRun_alloc _).step fun k => (sameRun_alloc _).step fun v => ?_
    refine Regroups.step (Regroups.capture ?_) fun out => sameRun_emit _
    exact (stable.encode _ wf.1).withHint.step fun _ => (stable.encode _ wf.2).withHint
  | struct | merged | packed | flags =>
    refine (sameRun_structName injective ordered stable wf).discard.step fun _ => ?_
    exact stable.encodeFields src wf
  | enum backing entries => exact (sameRun_enumName _ _).step fun type => sameRun_emit _
  | union tagField tag variants tags => exact sameRun_encodeUnion ordered stable src wf
  | «alias» name inner =>
    exact typed.discard.step fun _ => stable.encode src (ordered.inner_alias wf.1)
  | exported name inner => exact typed.discard.step fun _ => sameRun_emit _
  | ref label => exact sameRun_ref ordered fun _ wf => stable.encode src wf
  | literal value backing =>
    cases backing with
    | none => exact regroups_pure rfl
    | some p => exact sameRun_emit _
  | slot | custom | transformed => exact wf.elim

/-! ### The tie -/

/-- Emitters of every depth generate the same when groups are numbered anew. -/
theorem stable_emitter (hooks : Hooks) (injective : Function.Injective ρ)
    (ordered : types.Ordered rank) (depth : Nat) : (emitter hooks depth).Stable ρ types rank := by
  -- The rules of one level only use the emitter of the level below.
  induction depth with
  | zero =>
    constructor
    all_goals intros; exact regroups_throw _
  | succ depth ih =>
    constructor
    case typeExpr => exact fun shape => sameRun_typeExpr injective ordered ih shape
    case prepare => exact fun shape => sameRun_prepare ordered ih shape
    case decodeExpr => exact fun placed => sameRun_decodeExpr hooks injective ordered ih placed
    case decodeBindings => exact fun wf => sameRun_decodeBindings ordered ih wf
    case encode => exact fun src wf => sameRun_encode hooks injective ordered ih src wf
    case encodeFields => exact fun src wf => sameRun_encodeFields injective ordered ih src wf

end WireSchema.Lowering
