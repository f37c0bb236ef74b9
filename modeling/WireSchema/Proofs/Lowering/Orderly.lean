import WireSchema.Proofs.Lowering.Registering

/-!
# Generation keeps registries sound

The rules for decoders and encoders declare types on the way. On shapes that texts describe they make
the registry grow and keep it sound, and so do the emitters that tie all rules together.
-/

namespace WireSchema.Lowering

open Ir

variable {hooks : Hooks} {types : Refs} {rank : String → Nat} {α β : Type}
variable {em : Emitter} {bound : Nat}

/-! ### Decoders -/

theorem tame_decodeFields (orderly : em.Orderly hooks types rank) {fields : List Field}
    (shapes : ∀ f ∈ fields, f.shape.IsFieldShape types rank) :
    Tame hooks types (decodeFields em fields) fun _ => True := by
  refine (tame_mapM fun f member => ?_).bind fun _ _ => tame_pure trivial
  exact (orderly.decodeExpr f.shape (shapes f member)).declare.withHint.bind fun _ _ =>
    tame_pure trivial

theorem tame_decodeGroup (orderly : em.Orderly hooks types rank) {backing : Primitive} {group : Nat}
    {fields : List Field} (shapes : ∀ f ∈ fields, f.shape.IsFieldShape types rank) :
    Tame hooks types (decodeGroup em backing group fields) fun _ => True := by
  refine tame_lastHint.bind fun _ _ => ?_
  refine Tame.bind (Tame.declare (Q := fun _ => True) (tame_pure trivial)) fun raw _ => ?_
  exact (tame_decodeFields orderly shapes).withGroup

theorem tame_decodeBindings (ordered : types.Ordered rank) (orderly : em.Orderly hooks types rank)
    {s : Shape} (shape : s.IsFieldShape types rank) :
    Tame hooks types (decodeBindings em s) fun _ => True := by
  have fails : Tame hooks types (do throw (.notAStruct (← Gen.canonicalName s)) :
      Gen (List (String × Local))) fun _ => True := tame_canonicalName.bind fun _ _ => tame_throw
  have parts (s : Shape) (inner : s.IsFieldShape types rank) (part : Shape)
      (member : part ∈ s.subshapes types) := fieldShape_subshapes ordered inner member
  rcases shape with ⟨bound, wf⟩ | ⟨group, index, kind, rfl⟩
  · have resolves : Tame hooks types (do em.decodeBindings (← Gen.resolved s)) fun _ => True :=
      tame_resolved.bind fun found resolved =>
        orderly.decodeBindings found (fieldShape_resolved ordered wf resolved)
    cases s with
    | struct fields =>
      exact tame_decodeFields orderly fun f member => parts _ (.inl ⟨bound, wf⟩) _
        (List.mem_map_of_mem member)
    | merged others =>
      refine (tame_mapM fun part member => ?_).bind fun _ _ => tame_pure trivial
      exact tame_resolved.bind fun found resolved => orderly.decodeBindings found
        (fieldShape_resolved ordered (Shape.mem_wellFormedParts wf member) resolved)
    | packed backing widths fields group | flags backing masks fields group =>
      exact tame_decodeGroup orderly fun f member => parts _ (.inl ⟨bound, wf⟩) _
        (List.mem_map_of_mem member)
    | «alias» | exported | ref => exact resolves
    | _ => exact fails
  · exact fails

theorem tame_decodeOptional (orderly : em.Orderly hooks types rank) {value presence : Shape}
    (shape : value.IsFieldShape types rank) (shape' : presence.IsFieldShape types rank) :
    Tame hooks types (decodeOptional em value presence) fun _ => True := by
  refine tame_refs.bind fun _ _ => ?_
  split
  · exact tame_canonicalName.bind fun _ _ => tame_throw
  · refine (orderly.decodeExpr presence shape').bind fun _ _ => ?_
    refine (orderly.decodeExpr value shape).captureBlock.bind fun block _ => ?_
    split
    · exact tame_pure trivial
    · exact tame_lastHint.bind fun _ _ => tame_declareMut.bind fun _ _ => tame_emit.bind fun _ _ =>
        tame_pure trivial

theorem tame_decodeCollection {length : Primitive} {empty : Expr} {item : Gen Expr}
    (tame : Tame hooks types item fun _ => True) :
    Tame hooks types (decodeCollection length empty item) fun _ => True := by
  unfold decodeCollection
  split
  · exact tame_throw
  · refine tame_lastHint.bind fun _ _ => ?_
    refine Tame.bind (Tame.declare (Q := fun _ => True) (tame_pure trivial)) fun count _ => ?_
    exact tame_declareMut.bind fun _ _ => tame.captureBlock.bind fun _ _ => tame_emit.bind fun _ _ =>
      tame_pure trivial

theorem tame_unionTag (orderly : em.Orderly hooks types rank) {tag : Shape}
    {tags : List (String × Literal)} {index : Nat} {key : String}
    (shape : tag.IsFieldShape types rank) :
    Tame hooks types (unionTag em tag tags index key) fun _ => True := by
  refine tame_resolved.bind fun found _ => ?_
  split
  · refine (orderly.typeExpr tag shape).bind fun t _ => ?_
    split
    · dsimp only
      split
      · exact tame_pure trivial
      · exact tame_throw
    · exact tame_canonicalName.bind fun _ _ => tame_throw
  · exact tame_pure trivial
  · split <;> exact tame_pure trivial
  · split
    · split
      · exact tame_pure trivial
      · exact tame_canonicalName.bind fun _ _ => tame_throw
      · exact tame_pure trivial
    · exact tame_canonicalName.bind fun _ _ => tame_throw
  · exact tame_canonicalName.bind fun _ _ => tame_throw

theorem tame_decodePayload (ordered : types.Ordered rank) (orderly : em.Orderly hooks types rank)
    {key : String} {payload : Shape} (wf : payload.WellFormed types rank bound) :
    Tame hooks types (decodePayload em key payload) fun _ => True := by
  refine tame_storedFields.bind fun fields _ => ?_
  split
  · refine tame_resolved.bind fun found resolved => ?_
    have bindings := orderly.decodeBindings found (fieldShape_resolved ordered wf resolved)
    exact bindings.discard.bind fun _ _ => tame_pure trivial
  · exact (orderly.decodeExpr payload (.inl ⟨bound, wf⟩)).withHint.bind fun _ _ => tame_pure trivial

theorem tame_decodeArms (ordered : types.Ordered rank) (orderly : em.Orderly hooks types rank)
    {type : String} {tag : Shape} {tags : List (String × Literal)} {result : Local}
    (shape : tag.IsFieldShape types rank) {variants : List (String × Shape)}
    (wf : Shape.WellFormedVariants types rank bound variants) (seen : List Tag) (index : Nat) :
    Tame hooks types (decodeArms em type tag tags result seen index variants) fun _ => True := by
  induction variants generalizing seen index with
  | nil => exact tame_pure trivial
  | cons first rest ih =>
    refine (tame_unionTag orderly shape).bind fun value _ => ?_
    have others : Tame hooks types (do
        let block ← Gen.captureBlock do
          return .variant type first.1 (← decodePayload em first.1 first.2)
        let arms ← decodeArms em type tag tags result (value :: seen) (index + 1) rest
        return (value.pattern, block.stmts ++ [.assign result block.result]) :: arms) fun _ => True := by
      refine Tame.bind (Tame.captureBlock (Q := fun _ => True) ?_) fun block _ => ?_
      · exact (tame_decodePayload ordered orderly wf.2.1).bind fun _ _ => tame_pure trivial
      · exact (ih wf.2.2 _ _).bind fun _ _ => tame_pure trivial
    split
    · exact tame_throw
    · exact others

theorem tame_tagIsExhaustive {tag : Shape} {variants : List (String × Shape)}
    {tags : List (String × Literal)} :
    Tame hooks types (tagIsExhaustive tag variants tags) fun _ => True := by
  refine tame_resolved.bind fun found _ => ?_
  split <;> exact tame_pure trivial

theorem tame_decodeUnion (ordered : types.Ordered rank) (separate : types.Separate)
    (orderly : em.Orderly hooks types rank) {tagField : String} {tag : Shape}
    {variants : List (String × Shape)} {tags : List (String × Literal)}
    (wf : (Shape.union tagField tag variants tags).WellFormed types rank bound) :
    Tame hooks types (decodeUnion em tagField tag variants tags) fun _ => True := by
  have shape : tag.IsFieldShape types rank := .inl ⟨bound, wf.1⟩
  refine (tame_unionName ordered separate orderly wf).bind fun _ _ => ?_
  refine (orderly.decodeExpr tag shape).declare.withHint.bind fun _ _ => ?_
  refine tame_lastHint.bind fun _ _ => tame_declareDeferred.bind fun _ _ => ?_
  refine (tame_decodeArms ordered orderly shape wf.2.2 _ _).bind fun _ _ => ?_
  exact tame_tagIsExhaustive.bind fun _ _ => tame_emit.bind fun _ _ => tame_pure trivial

theorem tame_decodeExpr (ordered : types.Ordered rank) (separate : types.Separate)
    (orderly : em.Orderly hooks types rank) {s : Shape} (shape : s.IsFieldShape types rank) :
    Tame hooks types (decodeExpr hooks em s) fun _ => True := by
  rcases shape with ⟨bound, wf⟩ | ⟨group, index, kind, rfl⟩
  · have shape : s.IsFieldShape types rank := .inl ⟨bound, wf⟩
    cases s with
    | prim p => exact tame_pure trivial
    | optional value presence =>
      cases wf.1
      exact tame_decodeOptional orderly (.inl ⟨bound, wf.2⟩) (.inl ⟨bound, trivial⟩)
    | list item length =>
      exact tame_decodeCollection (orderly.decodeExpr item (.inl ⟨bound, wf⟩)).withHint
    | map key value length =>
      refine tame_decodeCollection ?_
      refine (orderly.decodeExpr key (.inl ⟨bound, wf.1⟩)).declare.withHint.bind fun _ _ => ?_
      exact (orderly.decodeExpr value (.inl ⟨bound, wf.2⟩)).declare.withHint.bind fun _ _ =>
        tame_pure trivial
    | struct | merged | packed | flags =>
      refine (tame_structName ordered separate orderly wf rfl).bind fun _ _ => ?_
      exact (orderly.decodeBindings _ shape).bind fun _ _ => tame_pure trivial
    | enum backing entries =>
      exact (tame_enumName ordered separate wf).bind fun _ _ => tame_pure trivial
    | union tagField tag variants tags => exact tame_decodeUnion ordered separate orderly wf
    | «alias» name inner =>
      refine (orderly.typeExpr _ shape).discard.bind fun _ _ => ?_
      exact orderly.decodeExpr inner (.inl ⟨_, ordered.inner_alias wf.1⟩)
    | exported name inner =>
      exact (orderly.typeExpr _ shape).discard.bind fun _ _ => tame_pure trivial
    | ref label => exact tame_ref ordered orderly.decodeExpr
    | literal value backing =>
      cases backing with
      | none => exact tame_pure trivial
      | some p =>
        refine Tame.bind (Tame.declare (Q := fun _ => True) (tame_pure trivial)) fun found _ => ?_
        exact tame_emit.bind fun _ _ => tame_pure trivial
    | slot | custom | transformed => exact wf.elim
  · refine tame_activeGroup?.bind fun found _ => ?_
    split
    · exact tame_ofExcept.forget
    · exact tame_throw

/-! ### Encoders -/

theorem tame_writeLength {length : Primitive} {src : Expr} :
    Tame hooks types (writeLength length src) fun _ => True :=
  tame_ofExcept.bind fun _ _ => tame_emit

theorem tame_encodeInOrder (orderly : em.Orderly hooks types rank) {src : Expr} {fields : List Field}
    (shapes : ∀ f ∈ fields, f.shape.IsFieldShape types rank) :
    Tame hooks types (encodeInOrder em src fields) fun _ => True :=
  tame_forM fun f member => (orderly.encode f.shape _ (shapes f member)).withHint

theorem tame_encodeFields (ordered : types.Ordered rank) (orderly : em.Orderly hooks types rank)
    {s : Shape} {src : Expr} (shape : s.IsFieldShape types rank) :
    Tame hooks types (encodeFields em s src) fun _ => True := by
  have fails : Tame hooks types (do throw (.notAStruct (← Gen.canonicalName s)) : Gen Unit)
      fun _ => True := tame_canonicalName.bind fun _ _ => tame_throw
  have parts (s : Shape) (inner : s.IsFieldShape types rank) (part : Shape)
      (member : part ∈ s.subshapes types) := fieldShape_subshapes ordered inner member
  rcases shape with ⟨bound, wf⟩ | ⟨group, index, kind, rfl⟩
  · have resolves : Tame hooks types (do em.encodeFields (← Gen.resolved s) src) fun _ => True :=
      tame_resolved.bind fun found resolved =>
        orderly.encodeFields found src (fieldShape_resolved ordered wf resolved)
    cases s with
    | struct fields =>
      exact tame_encodeInOrder orderly fun f member => parts _ (.inl ⟨bound, wf⟩) _
        (List.mem_map_of_mem member)
    | merged others =>
      refine tame_forM fun part member => tame_resolved.bind fun found resolved => ?_
      exact orderly.encodeFields found src
        (fieldShape_resolved ordered (Shape.mem_wellFormedParts wf member) resolved)
    | packed backing widths fields group =>
      refine tame_ofExcept.bind fun _ _ => tame_canonicalName.bind fun _ _ => ?_
      exact tame_ofExcept.bind fun _ _ => tame_emit
    | flags backing masks fields group =>
      refine tame_ofExcept.bind fun _ _ => tame_emit.bind fun _ _ => Tame.withGroup ?_
      exact tame_encodeInOrder orderly fun f member => parts _ (.inl ⟨bound, wf⟩) _
        (List.mem_map_of_mem (List.mem_filter.mp member).1)
    | «alias» | exported | ref => exact resolves
    | _ => exact fails
  · exact fails

theorem tame_encodeOptional (orderly : em.Orderly hooks types rank) {value presence : Shape}
    {src : Expr} (shape : value.IsFieldShape types rank) (shape' : presence.IsFieldShape types rank) :
    Tame hooks types (encodeOptional em value presence src) fun _ => True := by
  refine tame_refs.bind fun _ _ => ?_
  split
  · exact tame_canonicalName.bind fun _ _ => tame_throw
  · refine (orderly.encode presence _ shape').bind fun _ _ => ?_
    refine tame_lastHint.bind fun _ _ => tame_alloc.bind fun x _ => ?_
    refine (orderly.encode value _ shape).capture.bind fun out _ => ?_
    dsimp only
    split
    · exact tame_emit
    · exact tame_pure trivial

theorem tame_encodeArms (ordered : types.Ordered rank) (orderly : em.Orderly hooks types rank)
    {type tagField : String} {tag : Shape} {tags : List (String × Literal)}
    (shape : tag.IsFieldShape types rank) {variants : List (String × Shape)}
    (wf : Shape.WellFormedVariants types rank bound variants) (index : Nat) :
    Tame hooks types (encodeArms em type tagField tag tags index variants) fun _ => True := by
  induction variants generalizing index with
  | nil => exact tame_pure trivial
  | cons first rest ih =>
    refine (tame_unionTag orderly shape).bind fun value _ => tame_storedFields.bind fun fields _ => ?_
    have body (source : Expr) : Tame hooks types (do
        Gen.withHint tagField (em.encode tag value.expr)
        Gen.withHint first.1 do em.encodeFields (← Gen.resolved first.2) source) fun _ => True := by
      refine (orderly.encode tag _ shape).withHint.bind fun _ _ => Tame.withHint ?_
      exact tame_resolved.bind fun found resolved =>
        orderly.encodeFields found source (fieldShape_resolved ordered wf.2.1 resolved)
    split
    · refine Tame.bind (Q := fun _ => True) (tame_pure trivial) fun binding _ => ?_
      exact (body _).capture.bind fun _ _ => (ih wf.2.2 _).bind fun _ _ => tame_pure trivial
    · refine Tame.bind (Q := fun _ => True) tame_alloc.map fun binding _ => ?_
      exact (body _).capture.bind fun _ _ => (ih wf.2.2 _).bind fun _ _ => tame_pure trivial

theorem tame_encodeUnion (ordered : types.Ordered rank) (separate : types.Separate)
    (orderly : em.Orderly hooks types rank) {tagField : String} {tag : Shape}
    {variants : List (String × Shape)} {tags : List (String × Literal)} {src : Expr}
    (wf : (Shape.union tagField tag variants tags).WellFormed types rank bound) :
    Tame hooks types (encodeUnion em tagField tag variants tags src) fun _ => True := by
  refine (tame_unionName ordered separate orderly wf).bind fun _ _ => ?_
  exact (tame_encodeArms ordered orderly (.inl ⟨bound, wf.1⟩) wf.2.2 _).bind fun _ _ => tame_emit

theorem tame_encode (ordered : types.Ordered rank) (separate : types.Separate)
    (orderly : em.Orderly hooks types rank) {s : Shape} {src : Expr}
    (shape : s.IsFieldShape types rank) : Tame hooks types (encode hooks em s src) fun _ => True := by
  rcases shape with ⟨bound, wf⟩ | ⟨group, index, kind, rfl⟩
  · have shape : s.IsFieldShape types rank := .inl ⟨bound, wf⟩
    cases s with
    | prim p => exact tame_emit
    | optional value presence =>
      cases wf.1
      exact tame_encodeOptional orderly (.inl ⟨bound, wf.2⟩) (.inl ⟨bound, trivial⟩)
    | list item length =>
      refine tame_writeLength.bind fun _ _ => tame_alloc.bind fun x _ => ?_
      exact (orderly.encode item _ (.inl ⟨bound, wf⟩)).withHint.capture.bind fun _ _ => tame_emit
    | map key value length =>
      refine tame_writeLength.bind fun _ _ => tame_alloc.bind fun k _ => tame_alloc.bind fun v _ => ?_
      refine Tame.bind (Tame.capture (Q := fun _ => True) ?_) fun _ _ => tame_emit
      refine (orderly.encode key _ (.inl ⟨bound, wf.1⟩)).withHint.bind fun _ _ => ?_
      exact (orderly.encode value _ (.inl ⟨bound, wf.2⟩)).withHint
    | struct | merged | packed | flags =>
      refine (tame_structName ordered separate orderly wf rfl).discard.bind fun _ _ => ?_
      exact orderly.encodeFields _ src shape
    | enum backing entries =>
      exact (tame_enumName ordered separate wf).bind fun _ _ => tame_emit
    | union tagField tag variants tags => exact tame_encodeUnion ordered separate orderly wf
    | «alias» name inner =>
      refine (orderly.typeExpr _ shape).discard.bind fun _ _ => ?_
      exact orderly.encode inner src (.inl ⟨_, ordered.inner_alias wf.1⟩)
    | exported name inner => exact (orderly.typeExpr _ shape).discard.bind fun _ _ => tame_emit
    | ref label => exact tame_ref ordered fun s shape => orderly.encode s src shape
    | literal value backing =>
      cases backing with
      | none => exact tame_pure trivial
      | some p => exact tame_emit
    | slot | custom | transformed => exact wf.elim
  · refine tame_activeGroup?.bind fun found _ => ?_
    split
    · exact tame_throw
    · exact tame_pure trivial

/-! ### The tie -/

/-- Emitters of every depth keep sessions going. -/
theorem orderly_emitter (hooks : Hooks) (ordered : types.Ordered rank) (separate : types.Separate)
    (depth : Nat) : (emitter hooks depth).Orderly hooks types rank := by
  induction depth with
  | zero =>
    constructor
    case declares => exact fun _ _ _ _ _ _ ran => (Gen.runs_throw.mp ran).elim
    all_goals intros; exact tame_throw
  | succ depth ih =>
    constructor
    case typeExpr => exact fun s shape => tame_typeExpr ordered separate ih shape
    case declares =>
      exact fun s σ t σ' shape nominal ran refs =>
        declares_typeExpr ordered separate ih shape nominal ran refs
    case prepare => exact fun s shape => tame_prepare ordered ih shape
    case decodeExpr => exact fun s shape => tame_decodeExpr ordered separate ih shape
    case decodeBindings => exact fun s shape => tame_decodeBindings ordered ih shape
    case encode => exact fun s src shape => tame_encode ordered separate ih shape
    case encodeFields => exact fun s src shape => tame_encodeFields ordered ih shape

end WireSchema.Lowering
