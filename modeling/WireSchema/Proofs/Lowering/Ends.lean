import WireSchema.Lowering.Tie
import WireSchema.Proofs.Session.Ends

/-!
# Lowering comes to an end

The rules for a shape call the emitter for shapes below it, and at most once more for the shape itself:
to declare it, or to open it as a struct. So an emitter whose depth is twice the height of a grounded
shape comes to an end at it.

## Main results

* `ends_emitter`: a depth that is enough for all shapes of a height.
-/

namespace WireSchema.Lowering

open Ir Gen

variable {hooks : Hooks} {types : Refs} {rank : String → Nat} {n : Nat} {em : Emitter} {s : Shape}
  {α : Type}

/-- The emitter comes to an end where it declares shapes of the height, and where it opens them as
structs. -/
structure Emitter.Opens (em : Emitter) (types : Refs) (n : Nat) : Prop where
  typeExpr : ∀ s, s.Grounded types n → Ends types (em.typeExpr s) fun _ => True
  decodeBindings : ∀ s, s.Grounded types n → Ends types (em.decodeBindings s) fun _ => True
  encodeFields : ∀ s src, s.Grounded types n → Ends types (em.encodeFields s src) fun _ => True

/-- The emitter comes to an end at all shapes of the height. -/
structure Emitter.Ends (em : Emitter) (types : Refs) (n : Nat) : Prop
    extends em.Opens types n where
  prepare : ∀ s, s.Grounded types n → Gen.Ends types (em.prepare s) fun _ => True
  decodeExpr : ∀ s, s.Grounded types n → Gen.Ends types (em.decodeExpr s) fun _ => True
  encode : ∀ s src, s.Grounded types n → Gen.Ends types (em.encode s src) fun _ => True

theorem ends_notAStruct (s : Shape) {Q : α → Prop} :
    Gen.Ends types (do throw (.notAStruct (← canonicalName s))) Q :=
  (ends_canonicalName s).bind fun _ _ => ends_throw trivial

theorem ends_invalidBacking (s : Shape) {Q : α → Prop} :
    Gen.Ends types (do throw (.invalidBacking (← canonicalName s))) Q :=
  (ends_canonicalName s).bind fun _ _ => ends_throw trivial

theorem finite_backingKind (p : Primitive) :
    FailsOnly SchemaError.IsFinite (Shape.backingKind p) := by
  unfold Shape.backingKind
  split
  · exact failsOnly_ok _
  · exact failsOnly_error trivial

/-- What is behind a reference is generated in its place. -/
theorem ends_ref {label : String} (grounded : (Shape.ref label).Grounded types (n + 1))
    {act : Shape → Gen α} (ends : ∀ s, s.Grounded types n → Gen.Ends types (act s) fun _ => True) :
    Gen.Ends types (do
      match (← Gen.refs).lookup label with
      | some target => act target
      | none => throw (.unresolvedReference label)) fun _ => True := by
  refine ends_refs.bind fun table same => ?_
  subst same
  obtain ⟨target, found⟩ := grounded.known
  rw [found]
  exact ends target (grounded.part (Option.mem_toList.mpr found))

/-! ### Declarations -/

theorem ends_desiredName (signature fallback : String) :
    Gen.Ends types (desiredName signature fallback) fun _ => True := by
  refine (ends_aliasOf? signature).bind fun found _ => ?_
  split
  · exact ends_pure trivial
  · exact ends_hintName fallback

theorem ends_structName (ranked : types.Ranked rank) (ends : em.Ends types n)
    (grounded : s.Grounded types (n + 1)) : Gen.Ends types (structName em s) fun _ => True := by
  refine (ends_canonicalName s).bind fun signature _ => ends_refs.bind fun _ _ => ?_
  refine (ends_desiredName _ _).bind fun desired _ => ?_
  refine (ends_registerConstant (fun name => ?_) _ _).bind fun name _ => ?_
  · refine ends_refs.bind fun table same => ?_
    subst same
    refine (ends_ofExcept (grounded.finite_slotsValid ranked name)).bind fun _ _ => Gen.Ends.nested ?_ _
    refine (ends_storedFields ranked grounded).bind fun fields stored => ?_
    refine (ends_mapM fun f member => ?_).bind fun _ _ => ends_pure trivial
    -- A stored field of a merged struct is that of a part, so it is further below.
    have below := grounded.stored stored f member
    exact ((ends.typeExpr f.shape below).withHint f.name).bind fun _ _ => ends_pure trivial
  · exact (ends_registerAlias _ _).discard.bind fun _ _ => ends_pure trivial

theorem finite_checkIds (owner : String) (kind : IntKind) (seen : List Int)
    (entries : List (String × Int)) :
    FailsOnly SchemaError.IsFinite (checkIds owner kind seen entries) := by
  induction entries generalizing seen with
  | nil => exact failsOnly_ok ()
  | cons entry rest ih =>
    obtain ⟨variant, id⟩ := entry
    rw [checkIds]
    split
    · exact failsOnly_error trivial
    · exact ih _

theorem ends_enumName (backing : Primitive) (entries : List (String × Int)) :
    Gen.Ends types (enumName backing entries) fun _ => True := by
  refine (ends_ofExcept (finite_backingKind backing)).bind fun kind _ => ?_
  refine (ends_canonicalName _).bind fun signature _ => (ends_desiredName _ _).bind fun desired _ => ?_
  refine (ends_ofExcept (finite_checkIds desired kind [] entries)).bind fun _ _ => ?_
  refine (ends_registerConstant (fun name => ends_pure trivial) _ _).bind fun name _ => ?_
  exact (ends_registerAlias _ _).discard.bind fun _ _ => ends_pure trivial

theorem ends_variantDecl (ranked : types.Ranked rank) (ends : em.Ends types n) (key : String)
    {payload : Shape} (grounded : payload.Grounded types n) :
    Gen.Ends types (variantDecl em key payload) fun _ => True := by
  refine (ends_resolved ranked grounded).bind fun found _ => ?_
  split
  · exact ends_notAStruct payload
  · refine (ends_storedFields ranked grounded).bind fun fields _ => ?_
    split
    · exact ends_pure trivial
    · refine ((ends.typeExpr payload grounded).withHint key).bind fun type _ => ?_
      split
      · exact ends_pure trivial
      · exact ends_notAStruct payload

theorem ends_unionName (ranked : types.Ranked rank) (ends : em.Ends types n) {tagField : String}
    {tag : Shape} {variants : List (String × Shape)} {tags : List (String × Literal)}
    (grounded : (Shape.union tagField tag variants tags).Grounded types (n + 1)) :
    Gen.Ends types (unionName em tagField tag variants tags) fun _ => True := by
  refine (ends_canonicalName _).bind fun signature _ => (ends_desiredName _ _).bind fun desired _ => ?_
  refine ends_guard (ends_throw trivial) ?_
  dsimp only
  split
  · exact ends_throw trivial
  · refine (ends_registerConstant (fun name => Gen.Ends.nested ?_ _) _ _).bind fun name _ => ?_
    · have ofTag := grounded.part List.mem_cons_self
      refine ((ends.typeExpr tag ofTag).withHint tagField).discard.bind fun _ _ => ?_
      refine (ends_mapM fun v member => ?_).bind fun _ _ => ends_pure trivial
      have payload := grounded.part (List.mem_cons_of_mem _ (List.mem_map_of_mem member))
      exact ends_variantDecl ranked ends v.1 payload
    · exact (ends_registerAlias _ _).discard.bind fun _ _ => ends_pure trivial

theorem ends_declareAlias (ranked : types.Ranked rank) (ends : em.Ends types n) (name : String)
    (grounded : s.Grounded types n) : Gen.Ends types (declareAlias em name s) fun _ => True := by
  refine (ends_canonicalName s).bind fun signature _ => ?_
  refine (ends_resolved ranked grounded).bind fun found _ => ?_
  have aliased (target : TypeExpr) :
      Gen.Ends types (Gen.registerGlobal name (return .alias name target)) fun _ => True :=
    Gen.Ends.registerGlobal (Q := fun _ => True) (ends_pure trivial) name
  split
  · refine (ends_registerAlias _ _).discard.bind fun _ _ => ?_
    refine (ends.typeExpr s grounded).bind fun actual _ => ?_
    exact ends_guard (aliased actual).discard (ends_pure trivial)
  · refine ends_registry.bind fun r _ => ?_
    split
    · exact ends_pure trivial
    · refine (ends.typeExpr s grounded).bind fun target _ => (aliased target).discard.bind fun _ _ => ?_
      exact (ends_registerAlias _ _).discard.bind fun _ _ => ends_pure trivial

theorem ends_declareCodec (ends : em.Ends types n) (name : String) (grounded : s.Grounded types n) :
    Gen.Ends types (declareCodec em name s) fun _ => True := by
  refine (Gen.Ends.registerGlobal (Q := fun _ => True) (Gen.Ends.nested ?_ name) _).discard
  refine (ends.decodeExpr s grounded).captureBlock.bind fun decode _ => ?_
  refine (ends_updateDraft _).bind fun _ _ => (ends_param _).bind fun value _ => ?_
  exact (ends.encode s _ grounded).capture.bind fun _ _ => ends_pure trivial

theorem ends_aliasedOr (s : Shape) {build : Gen TypeExpr}
    (ends : Gen.Ends types build fun _ => True) :
    Gen.Ends types (aliasedOr s build) fun _ => True := by
  refine (ends_canonicalName s).bind fun signature _ => (ends_aliasOf? signature).bind fun found _ => ?_
  split
  · exact ends_pure trivial
  · exact ends

theorem ends_typeExpr (ranked : types.Ranked rank) (ends : em.Ends types n)
    (grounded : s.Grounded types (n + 1)) :
    Gen.Ends types (typeExpr em s) fun _ => True := by
  have part (t : Shape) (member : t ∈ s.subshapes types) := ends.typeExpr t (grounded.part member)
  cases s with
  | prim | custom | transformed => exact ends_pure trivial
  | optional value presence =>
    refine ends_aliasedOr _ ?_
    exact (part value (by simp [Shape.subshapes])).bind fun _ _ => ends_pure trivial
  | list item length =>
    refine ends_aliasedOr _ ?_
    refine ((part item ?_).withHint "item").bind fun _ _ => ends_pure trivial
    simp [Shape.subshapes]
  | map key value length =>
    refine ends_aliasedOr _ ?_
    refine ((part key (by simp [Shape.subshapes])).withHint "key").bind fun _ _ => ?_
    refine ((part value ?_).withHint "value").bind fun _ _ => ends_pure trivial
    simp [Shape.subshapes]
  | struct | merged | packed | flags =>
    exact (ends_structName ranked ends grounded).bind fun _ _ => ends_pure trivial
  | enum backing entries => exact (ends_enumName backing entries).bind fun _ _ => ends_pure trivial
  | union => exact (ends_unionName ranked ends grounded).bind fun _ _ => ends_pure trivial
  | slot group index kind => cases kind <;> exact ends_pure trivial
  | «alias» name inner =>
    have inside := grounded.part List.mem_cons_self
    exact (ends_declareAlias ranked ends name inside).bind fun _ _ => ends_pure trivial
  | exported name inner =>
    have inside := grounded.part List.mem_cons_self
    refine (ends_declareAlias ranked ends name inside).bind fun _ _ => ?_
    exact (ends_declareCodec ends _ inside).bind fun _ _ => ends_pure trivial
  | ref label => exact ends_ref grounded ends.typeExpr
  | literal value backing =>
    cases backing with
    | some p => exact ends_pure trivial
    | none => cases value <;> exact ends_pure trivial

theorem ends_prepare (opens : em.Opens types (n + 1)) (ends : em.Ends types n)
    (grounded : s.Grounded types (n + 1)) : Gen.Ends types (prepare em s) fun _ => True := by
  have declared := (opens.typeExpr s grounded).discard
  have whole : Gen.Ends types (do
      discard <| em.typeExpr s
      (s.subshapes (← Gen.refs)).forM em.prepare) fun _ => True := by
    refine declared.bind fun _ _ => ends_refs.bind fun table same => ?_
    subst same
    exact ends_forM fun part member => ends.prepare part (grounded.part member)
  cases s with
  | ref | slot => exact ends_pure trivial
  | exported => exact declared
  | _ => exact whole

/-! ### Tags -/

theorem ends_unionTag (ranked : types.Ranked rank) (ends : em.Ends types n) {tag : Shape}
    (grounded : tag.Grounded types n) (tags : List (String × Literal)) (index : Nat) (key : String) :
    Gen.Ends types (unionTag em tag tags index key) fun _ => True := by
  refine (ends_resolved ranked grounded).bind fun found _ => ?_
  split
  · refine (ends.typeExpr tag grounded).bind fun type _ => ?_
    split
    · dsimp only
      split
      · exact ends_pure trivial
      · exact ends_throw trivial
    · exact ends_invalidBacking tag
  · exact ends_pure trivial
  · split <;> exact ends_pure trivial
  · split
    · split
      · exact ends_pure trivial
      · exact (ends_canonicalName tag).bind fun _ _ => ends_throw trivial
      · exact ends_pure trivial
    · exact ends_invalidBacking _
  · exact ends_invalidBacking _

theorem ends_tagIsExhaustive (ranked : types.Ranked rank) {tag : Shape}
    (grounded : tag.Grounded types n) (variants : List (String × Shape))
    (tags : List (String × Literal)) :
    Gen.Ends types (tagIsExhaustive tag variants tags) fun _ => True := by
  refine (ends_resolved ranked grounded).bind fun found _ => ?_
  split <;> exact ends_pure trivial

/-! ### Decoders -/

theorem finite_slotExpr (raw : Expr) (kind : SlotKind) :
    FailsOnly SchemaError.IsFinite (slotExpr raw kind) := by
  cases kind with
  | flag mask backing => exact (finite_backingKind backing).bind fun _ => failsOnly_ok _
  | bits shift width backing =>
    refine (finite_backingKind backing).bind fun kind => ?_
    dsimp only
    split
    · split <;> exact failsOnly_ok _
    · split <;> exact failsOnly_ok _

theorem ends_decodeFields (ends : em.Ends types n) {fields : List Field}
    (grounded : ∀ f ∈ fields, f.shape.Grounded types n) :
    Gen.Ends types (decodeFields em fields) fun _ => True := by
  refine (ends_mapM fun f member => ?_).bind fun _ _ => ends_pure trivial
  have decoded := (ends.decodeExpr f.shape (grounded f member)).declare f.name
  exact (decoded.withHint f.name).bind fun _ _ => ends_pure trivial

theorem ends_decodeGroup (ends : em.Ends types n) (backing : Primitive) (group : Nat)
    {fields : List Field} (grounded : ∀ f ∈ fields, f.shape.Grounded types n) :
    Gen.Ends types (decodeGroup em backing group fields) fun _ => True := by
  refine (ends_lastHint _).bind fun hint _ => ?_
  refine Gen.Ends.bind (Gen.Ends.declare (Q := fun _ => True) (ends_pure trivial) _) fun raw _ => ?_
  exact (ends_decodeFields ends grounded).withGroup _ _

theorem ends_decodeBindings (ranked : types.Ranked rank) (ends : em.Ends types n)
    (grounded : s.Grounded types (n + 1)) :
    Gen.Ends types (decodeBindings em s) fun _ => True := by
  -- An alias is opened by the emitter for what it stands for, which is lower.
  have behind (indirect : ¬ s.IsDirect) :
      Gen.Ends types (do em.decodeBindings (← resolved s)) fun _ => True :=
    (ends_resolved ranked grounded).bind fun t found =>
      ends.decodeBindings t (grounded.behind indirect found)
  cases s with
  | struct fields => exact ends_decodeFields ends fun f => grounded.field rfl
  | merged parts =>
    refine (ends_mapM fun part member => ?_).bind fun _ _ => ends_pure trivial
    have below : part.Grounded types n := grounded.part member
    exact (ends_resolved ranked below).bind fun t found =>
      ends.decodeBindings t (below.resolved found)
  | packed backing _ fields group =>
    exact ends_decodeGroup ends backing group fun f => grounded.field rfl
  | flags backing _ fields group =>
    exact ends_decodeGroup ends backing group fun f => grounded.field rfl
  | «alias» | exported | ref => exact behind id
  | _ => exact ends_notAStruct _

theorem ends_decodeOptional (ends : em.Ends types n) {value presence : Shape}
    (grounded : value.Grounded types n) (grounded' : presence.Grounded types n) :
    Gen.Ends types (decodeOptional em value presence) fun _ => True := by
  refine ends_refs.bind fun table _ => ?_
  split
  · exact (ends_canonicalName presence).bind fun _ _ => ends_throw trivial
  · refine (ends.decodeExpr presence grounded').bind fun test _ => ?_
    refine (ends.decodeExpr value grounded).captureBlock.bind fun block _ => ?_
    split
    · exact ends_pure trivial
    · refine (ends_lastHint _).bind fun hint _ => (ends_declareMut _ _).bind fun x _ => ?_
      exact (ends_emit _).bind fun _ _ => ends_pure trivial

theorem ends_decodeCollection (length : Primitive) (empty : Expr) {item : Gen Expr}
    (ends : Gen.Ends types item fun _ => True) :
    Gen.Ends types (decodeCollection length empty item) fun _ => True := by
  unfold decodeCollection
  split
  · exact ends_throw trivial
  · refine (ends_lastHint _).bind fun name _ => ?_
    refine Gen.Ends.bind (Gen.Ends.declare (Q := fun _ => True) (ends_pure trivial) _) fun count _ => ?_
    refine (ends_declareMut _ _).bind fun acc _ => ends.captureBlock.bind fun block _ => ?_
    exact (ends_emit _).bind fun _ _ => ends_pure trivial

theorem ends_decodePayload (ranked : types.Ranked rank) (ends : em.Ends types n) (key : String)
    {payload : Shape} (grounded : payload.Grounded types n) :
    Gen.Ends types (decodePayload em key payload) fun _ => True := by
  refine (ends_storedFields ranked grounded).bind fun fields _ => ?_
  split
  · refine (ends_resolved ranked grounded).bind fun t found => ?_
    exact (ends.decodeBindings t (grounded.resolved found)).discard.bind fun _ _ => ends_pure trivial
  · exact ((ends.decodeExpr payload grounded).withHint key).bind fun _ _ => ends_pure trivial

theorem ends_decodeArms (ranked : types.Ranked rank) (ends : em.Ends types n) (type : String)
    {tag : Shape} (grounded : tag.Grounded types n) (tags : List (String × Literal)) (result : Local)
    {variants : List (String × Shape)} (payloads : ∀ v ∈ variants, v.2.Grounded types n)
    (seen : List Tag) (index : Nat) :
    Gen.Ends types (decodeArms em type tag tags result seen index variants) fun _ => True := by
  induction variants generalizing seen index with
  | nil => exact ends_pure trivial
  | cons first rest ih =>
    obtain ⟨payload, later⟩ := List.forall_mem_cons.mp payloads
    refine (ends_unionTag ranked ends grounded tags index first.1).bind fun value _ => ?_
    refine ends_guard (ends_throw trivial) ?_
    refine Gen.Ends.bind (Gen.Ends.captureBlock (Q := fun _ => True) ?_) fun block _ => ?_
    · exact (ends_decodePayload ranked ends first.1 payload).bind fun _ _ => ends_pure trivial
    · exact (ih later _ _).bind fun arms _ => ends_pure trivial

theorem ends_decodeUnion (ranked : types.Ranked rank) (ends : em.Ends types n) {tagField : String}
    {tag : Shape} {variants : List (String × Shape)} {tags : List (String × Literal)}
    (grounded : (Shape.union tagField tag variants tags).Grounded types (n + 1)) :
    Gen.Ends types (decodeUnion em tagField tag variants tags) fun _ => True := by
  have ofTag : tag.Grounded types n := grounded.part List.mem_cons_self
  have payloads (v : String × Shape) (member : v ∈ variants) : v.2.Grounded types n :=
    grounded.part (List.mem_cons_of_mem _ (List.mem_map_of_mem member))
  refine (ends_unionName ranked ends grounded).bind fun type _ => ?_
  refine (((ends.decodeExpr tag ofTag).declare tagField).withHint tagField).bind fun value _ => ?_
  refine (ends_lastHint _).bind fun hint _ => (ends_declareDeferred _).bind fun result _ => ?_
  refine (ends_decodeArms ranked ends type ofTag tags result payloads [] 0).bind fun arms _ => ?_
  refine (ends_tagIsExhaustive ranked ofTag variants tags).bind fun exhaustive _ => ?_
  exact (ends_emit _).bind fun _ _ => ends_pure trivial

theorem ends_decodeLiteral (value : Literal) (backing : Option Primitive) :
    Gen.Ends types (decodeLiteral value backing) fun _ => True := by
  cases backing with
  | none => exact ends_pure trivial
  | some p =>
    refine Gen.Ends.bind (Gen.Ends.declare (Q := fun _ => True) (ends_pure trivial) _) fun found _ => ?_
    exact (ends_emit _).bind fun _ _ => ends_pure trivial

theorem ends_decodeExpr (ranked : types.Ranked rank) (opens : em.Opens types (n + 1))
    (ends : em.Ends types n) (grounded : s.Grounded types (n + 1)) :
    Gen.Ends types (decodeExpr hooks em s) fun _ => True := by
  have part (t : Shape) (member : t ∈ s.subshapes types) := grounded.part member
  cases s with
  | prim => exact ends_pure trivial
  | optional value presence =>
    exact ends_decodeOptional ends (part value (by simp [Shape.subshapes]))
      (part presence (by simp [Shape.subshapes]))
  | list item length =>
    refine ends_decodeCollection _ _ ((ends.decodeExpr item (part item ?_)).withHint "item")
    simp [Shape.subshapes]
  | map key value length =>
    have ofKey := ends.decodeExpr key (part key (by simp [Shape.subshapes]))
    have ofValue := ends.decodeExpr value (part value (by simp [Shape.subshapes]))
    refine ends_decodeCollection _ _ (((ofKey.declare _).withHint _).bind fun k _ => ?_)
    exact ((ofValue.declare _).withHint _).bind fun v _ => ends_pure trivial
  | struct | merged | packed | flags =>
    refine (ends_structName ranked ends grounded).bind fun type _ => ?_
    exact (opens.decodeBindings _ grounded).bind fun _ _ => ends_pure trivial
  | enum backing entries => exact (ends_enumName backing entries).bind fun _ _ => ends_pure trivial
  | union => exact ends_decodeUnion ranked ends grounded
  | slot group index kind =>
    refine (ends_activeGroup? group).bind fun found _ => ?_
    split
    · exact (ends_ofExcept (finite_slotExpr _ kind)).forget
    · exact ends_throw trivial
  | «alias» name inner =>
    refine (opens.typeExpr _ grounded).discard.bind fun _ _ => ?_
    exact ends.decodeExpr inner (part inner List.mem_cons_self)
  | exported => exact (opens.typeExpr _ grounded).discard.bind fun _ _ => ends_pure trivial
  | custom => exact grounded.known.elim
  | ref => exact ends_ref grounded ends.decodeExpr
  | transformed name backing =>
    refine (ends_registerFunction _ _).bind fun _ _ => ?_
    exact (ends.decodeExpr backing (part backing List.mem_cons_self)).bind fun _ _ => ends_pure trivial
  | literal value backing => exact ends_decodeLiteral value backing

/-! ### Encoders -/

theorem ends_writeLength (length : Primitive) (src : Expr) :
    Gen.Ends types (writeLength length src) fun _ => True :=
  (ends_ofExcept (finite_backingKind length)).bind fun _ _ => ends_emit _

theorem finite_packedTerm (owner : String) (kind : IntKind) (src : Expr) (f : Field) :
    FailsOnly SchemaError.IsFinite (packedTerm owner kind src f) := by
  unfold packedTerm
  split
  · exact failsOnly_ok _
  · exact failsOnly_error trivial

theorem ends_encodeInOrder (ends : em.Ends types n) (src : Expr) {fields : List Field}
    (grounded : ∀ f ∈ fields, f.shape.Grounded types n) :
    Gen.Ends types (encodeInOrder em src fields) fun _ => True :=
  ends_forM fun f member => (ends.encode f.shape _ (grounded f member)).withHint f.name

theorem ends_encodeFields (ranked : types.Ranked rank) (ends : em.Ends types n)
    (grounded : s.Grounded types (n + 1)) (src : Expr) :
    Gen.Ends types (encodeFields em s src) fun _ => True := by
  have behind (indirect : ¬ s.IsDirect) :
      Gen.Ends types (do em.encodeFields (← resolved s) src) fun _ => True :=
    (ends_resolved ranked grounded).bind fun t found =>
      ends.encodeFields t src (grounded.behind indirect found)
  cases s with
  | struct fields => exact ends_encodeInOrder ends src fun f => grounded.field rfl
  | merged parts =>
    refine ends_forM fun part member => ?_
    have below : part.Grounded types n := grounded.part member
    exact (ends_resolved ranked below).bind fun t found =>
      ends.encodeFields t src (below.resolved found)
  | packed backing _ fields group =>
    refine (ends_ofExcept (finite_backingKind backing)).bind fun kind _ => ?_
    refine (ends_canonicalName _).bind fun owner _ => ?_
    have terms : FailsOnly SchemaError.IsFinite (fields.mapM (packedTerm owner kind src)) :=
      failsOnly_mapM fun f _ => finite_packedTerm owner kind src f
    exact (ends_ofExcept terms).bind fun _ _ => ends_emit _
  | flags backing _ fields group =>
    refine (ends_ofExcept (finite_backingKind backing)).bind fun kind _ => ?_
    refine (ends_emit _).bind fun _ _ => Gen.Ends.withGroup ?_ _ _
    exact ends_encodeInOrder ends src fun f member =>
      grounded.field rfl (List.mem_filter.mp member).1
  | «alias» | exported | ref => exact behind id
  | _ => exact ends_notAStruct _

theorem ends_encodeOptional (ends : em.Ends types n) {value presence : Shape}
    (grounded : value.Grounded types n) (grounded' : presence.Grounded types n) (src : Expr) :
    Gen.Ends types (encodeOptional em value presence src) fun _ => True := by
  refine ends_refs.bind fun table _ => ?_
  split
  · exact (ends_canonicalName presence).bind fun _ _ => ends_throw trivial
  · refine (ends.encode presence _ grounded').bind fun _ _ => ?_
    refine (ends_lastHint _).bind fun hint _ => (ends_alloc _).bind fun x _ => ?_
    refine (ends.encode value _ grounded).capture.bind fun out _ => ?_
    dsimp only
    split
    · exact ends_emit _
    · exact ends_pure trivial

theorem ends_encodeArms (ranked : types.Ranked rank) (ends : em.Ends types n)
    (type tagField : String) {tag : Shape} (grounded : tag.Grounded types n)
    (tags : List (String × Literal)) {variants : List (String × Shape)}
    (payloads : ∀ v ∈ variants, v.2.Grounded types n) (index : Nat) :
    Gen.Ends types (encodeArms em type tagField tag tags index variants) fun _ => True := by
  induction variants generalizing index with
  | nil => exact ends_pure trivial
  | cons first rest ih =>
    obtain ⟨payload, later⟩ := List.forall_mem_cons.mp payloads
    refine (ends_unionTag ranked ends grounded tags index first.1).bind fun value _ => ?_
    refine (ends_storedFields ranked payload).bind fun fields _ => ?_
    -- Variants with and without a payload differ in where the fields are taken from only.
    have body (source : Expr) : Gen.Ends types (do
        Gen.withHint tagField (em.encode tag value.expr)
        Gen.withHint first.1 do em.encodeFields (← Gen.resolved first.2) source) fun _ => True := by
      refine ((ends.encode tag _ grounded).withHint tagField).bind fun _ _ => Gen.Ends.withHint ?_ _
      exact (ends_resolved ranked payload).bind fun t found =>
        ends.encodeFields t source (payload.resolved found)
    split
    · refine Gen.Ends.bind (Q := fun _ => True) (ends_pure trivial) fun binding _ => ?_
      exact (body _).capture.bind fun _ _ => (ih later _).bind fun _ _ => ends_pure trivial
    · refine Gen.Ends.bind ((ends_alloc first.1).map some) fun binding _ => ?_
      exact (body _).capture.bind fun _ _ => (ih later _).bind fun _ _ => ends_pure trivial

theorem ends_encodeUnion (ranked : types.Ranked rank) (ends : em.Ends types n) {tagField : String}
    {tag : Shape} {variants : List (String × Shape)} {tags : List (String × Literal)}
    (grounded : (Shape.union tagField tag variants tags).Grounded types (n + 1)) (src : Expr) :
    Gen.Ends types (encodeUnion em tagField tag variants tags src) fun _ => True := by
  have payloads (v : String × Shape) (member : v ∈ variants) : v.2.Grounded types n :=
    grounded.part (List.mem_cons_of_mem _ (List.mem_map_of_mem member))
  refine (ends_unionName ranked ends grounded).bind fun type _ => ?_
  have arms := ends_encodeArms ranked ends type tagField (grounded.part List.mem_cons_self) tags
    payloads 0
  exact arms.bind fun _ _ => ends_emit _

theorem ends_encode (ranked : types.Ranked rank) (opens : em.Opens types (n + 1))
    (ends : em.Ends types n) (grounded : s.Grounded types (n + 1)) (src : Expr) :
    Gen.Ends types (encode hooks em s src) fun _ => True := by
  have part (t : Shape) (member : t ∈ s.subshapes types) := grounded.part member
  cases s with
  | prim => exact ends_emit _
  | optional value presence =>
    exact ends_encodeOptional ends (part value (by simp [Shape.subshapes]))
      (part presence (by simp [Shape.subshapes])) src
  | list item length =>
    refine (ends_writeLength length src).bind fun _ _ => (ends_alloc _).bind fun x _ => ?_
    have ofItem := ends.encode item (.place x) (part item (by simp [Shape.subshapes]))
    exact (ofItem.withHint "item").capture.bind fun _ _ => ends_emit _
  | map key value length =>
    refine (ends_writeLength length src).bind fun _ _ => ?_
    refine (ends_alloc _).bind fun k _ => (ends_alloc _).bind fun v _ => ?_
    have ofKey := ends.encode key (.place k) (part key (by simp [Shape.subshapes]))
    have ofValue := ends.encode value (.place v) (part value (by simp [Shape.subshapes]))
    have body := (ofKey.withHint "key").bind fun _ _ => ofValue.withHint "value"
    exact body.capture.bind fun _ _ => ends_emit _
  | struct | merged | packed | flags =>
    refine (ends_structName ranked ends grounded).discard.bind fun _ _ => ?_
    exact opens.encodeFields _ src grounded
  | enum backing entries => exact (ends_enumName backing entries).bind fun _ _ => ends_emit _
  | union => exact ends_encodeUnion ranked ends grounded src
  | slot group index kind =>
    refine (ends_activeGroup? group).bind fun found _ => ?_
    split
    · exact ends_throw trivial
    · exact ends_pure trivial
  | «alias» name inner =>
    refine (opens.typeExpr _ grounded).discard.bind fun _ _ => ?_
    exact ends.encode inner src (part inner List.mem_cons_self)
  | exported => exact (opens.typeExpr _ grounded).discard.bind fun _ _ => ends_emit _
  | custom => exact grounded.known.elim
  | ref => exact ends_ref grounded fun t below => ends.encode t src below
  | transformed name backing =>
    have inside := part backing List.mem_cons_self
    refine (ends_registerFunction _ _).bind fun _ _ => ?_
    dsimp only
    split
    · exact ends.encode _ _ inside
    · refine Gen.Ends.bind (Gen.Ends.declare (Q := fun _ => True) (ends_pure trivial) _) fun x _ => ?_
      exact ends.encode backing _ inside
  | literal value backing =>
    cases backing with
    | some p => exact ends_emit _
    | none => exact ends_pure trivial

/-! ### The tie -/

theorem opens_emitter (ranked : types.Ranked rank) {depth : Nat}
    (ends : (emitter hooks depth).Ends types n) :
    (emitter hooks (depth + 1)).Opens types (n + 1) where
  typeExpr _ grounded := ends_typeExpr ranked ends grounded
  decodeBindings _ grounded := ends_decodeBindings ranked ends grounded
  encodeFields _ src grounded := ends_encodeFields ranked ends grounded src

/-- Twice the height of a shape is depth enough. -/
theorem ends_emitter (hooks : Hooks) (ranked : types.Ranked rank) (n depth : Nat)
    (enough : 2 * n ≤ depth) : (emitter hooks depth).Ends types n := by
  induction n generalizing depth with
  | zero =>
    -- No shape has no height.
    constructor
    case toOpens => constructor <;> intros <;> contradiction
    all_goals intros; contradiction
  | succ n ih =>
    -- One level to declare or open the shape itself, one to go down to its parts.
    obtain ⟨depth, rfl⟩ : ∃ d, depth = d + 2 := ⟨depth - 2, by omega⟩
    have below := ih (depth + 1) (by omega)
    have opens : (emitter hooks (depth + 1)).Opens types (n + 1) :=
      opens_emitter ranked (ih depth (by omega))
    constructor
    case toOpens => exact opens_emitter ranked below
    case prepare => exact fun s grounded => ends_prepare opens below grounded
    case decodeExpr => exact fun s grounded => ends_decodeExpr ranked opens below grounded
    case encode => exact fun s src grounded => ends_encode ranked opens below grounded src

end WireSchema.Lowering
