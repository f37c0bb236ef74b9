import WireSchema.Lowering.Tie
import WireSchema.Proofs.Session.Balance

/-!
# Lowering leaves the stacks balanced

The rules for a shape only use balanced operations, and call the emitter for shapes below it or for
the shape itself. So each of them is balanced if the emitter is, at every shape that is free of
hooks; what a hook does to the draft is its own affair.

## Main results

* `generation_is_balanced`: at every depth, all that is generated for a shape leaves hints, bit
  groups and outer scopes as they were, also where it fails.
-/

namespace WireSchema.Lowering

open Ir Gen

variable {hooks : Hooks} {types : Refs} {em : Emitter} {s : Shape} {α : Type}

/-- The emitter is balanced at all shapes that are free of hooks. -/
structure Emitter.Balanced (em : Emitter) (types : Refs) : Prop where
  typeExpr : ∀ s, s.HookFree types → Balances types (em.typeExpr s) fun _ => True
  prepare : ∀ s, s.HookFree types → Balances types (em.prepare s) fun _ => True
  decodeExpr : ∀ s, s.HookFree types → Balances types (em.decodeExpr s) fun _ => True
  decodeBindings : ∀ s, s.HookFree types → Balances types (em.decodeBindings s) fun _ => True
  encode : ∀ s src, s.HookFree types → Balances types (em.encode s src) fun _ => True
  encodeFields : ∀ s src, s.HookFree types → Balances types (em.encodeFields s src) fun _ => True

theorem balances_notAStruct (s : Shape) {Q : α → Prop} :
    Gen.Balances types (do throw (.notAStruct (← canonicalName s))) Q :=
  (balances_canonicalName s).bind fun _ _ => balances_throw _

theorem balances_invalidBacking (s : Shape) {Q : α → Prop} :
    Gen.Balances types (do throw (.invalidBacking (← canonicalName s))) Q :=
  (balances_canonicalName s).bind fun _ _ => balances_throw _

/-- What is behind a reference is generated in its place. -/
theorem balances_ref {label : String} (free : (Shape.ref label).HookFree types)
    {act : Shape → Gen α}
    (balanced : ∀ s, s.HookFree types → Gen.Balances types (act s) fun _ => True) :
    Gen.Balances types (do
      match (← Gen.refs).lookup label with
      | some target => act target
      | none => throw (.unresolvedReference label)) fun _ => True := by
  refine balances_refs.bind fun table same => ?_
  subst same
  split
  case h_1 target found => exact balanced target (free.part (Option.mem_toList.mpr found))
  case h_2 => exact balances_throw _

/-! ### Declarations -/

theorem balances_desiredName (signature fallback : String) :
    Gen.Balances types (desiredName signature fallback) fun _ => True := by
  refine (balances_aliasOf? signature).bind fun found _ => ?_
  split
  · exact balances_pure trivial
  · exact balances_hintName fallback

theorem balances_structName (balanced : em.Balanced types)
    (free : s.HookFree types) : Gen.Balances types (structName em s) fun _ => True := by
  refine (balances_canonicalName s).bind fun signature _ => balances_refs.bind fun _ _ => ?_
  refine (balances_desiredName _ _).bind fun desired _ => ?_
  refine (balances_registerConstant (fun name => ?_) _ _).bind fun name _ => ?_
  · refine balances_refs.bind fun table same => ?_
    subst same
    refine (balances_ofExcept _).bind fun _ _ => Gen.Balances.nested (Q := fun _ => True) ?_ _
    refine (balances_storedFields free).bind fun fields stored => ?_
    refine (balances_mapM fun f member => ?_).bind fun _ _ => balances_pure trivial
    have type := balanced.typeExpr f.shape (stored f member)
    exact (type.withHint f.name).bind fun _ _ => balances_pure trivial
  · exact (balances_registerAlias _ _).discard.bind fun _ _ => balances_pure trivial

theorem balances_enumName (backing : Primitive) (entries : List (String × Int)) :
    Gen.Balances types (enumName backing entries) fun _ => True := by
  refine (balances_ofExcept _).bind fun kind _ => ?_
  refine (balances_canonicalName _).bind fun signature _ => ?_
  refine (balances_desiredName _ _).bind fun desired _ => ?_
  refine (balances_ofExcept _).bind fun _ _ => ?_
  refine (balances_registerConstant (fun name => balances_pure trivial) _ _).bind fun name _ => ?_
  exact (balances_registerAlias _ _).discard.bind fun _ _ => balances_pure trivial

theorem balances_variantDecl (balanced : em.Balanced types) (key : String)
    {payload : Shape} (free : payload.HookFree types) :
    Gen.Balances types (variantDecl em key payload) fun _ => True := by
  refine (balances_resolved free).bind fun found _ => ?_
  split
  · exact balances_notAStruct payload
  · refine (balances_storedFields free).bind fun fields _ => ?_
    split
    · exact balances_pure trivial
    · refine ((balanced.typeExpr payload free).withHint key).bind fun type _ => ?_
      split
      · exact balances_pure trivial
      · exact balances_notAStruct payload

theorem balances_unionName (balanced : em.Balanced types) {tagField : String}
    {tag : Shape} {variants : List (String × Shape)} {tags : List (String × Literal)}
    (free : (Shape.union tagField tag variants tags).HookFree types) :
    Gen.Balances types (unionName em tagField tag variants tags) fun _ => True := by
  refine (balances_canonicalName _).bind fun signature _ => ?_
  refine (balances_desiredName _ _).bind fun desired _ => ?_
  refine balances_guard (balances_throw _) ?_
  dsimp only
  split
  · exact balances_throw _
  · refine (balances_registerConstant (fun name => ?_) _ _).bind fun name _ => ?_
    -- The tag and the payloads are declared on a draft of their own.
    · refine Gen.Balances.nested (Q := fun _ => True) ?_ name
      have ofTag := free.part List.mem_cons_self
      refine ((balanced.typeExpr tag ofTag).withHint tagField).discard.bind fun _ _ => ?_
      refine (balances_mapM fun v member => ?_).bind fun _ _ => balances_pure trivial
      have payload := free.part (List.mem_cons_of_mem _ (List.mem_map_of_mem member))
      exact balances_variantDecl balanced v.1 payload
    · exact (balances_registerAlias _ _).discard.bind fun _ _ => balances_pure trivial

theorem balances_declareAlias (balanced : em.Balanced types) (name : String)
    (free : s.HookFree types) : Gen.Balances types (declareAlias em name s) fun _ => True := by
  refine (balances_canonicalName s).bind fun signature _ => ?_
  refine (balances_resolved free).bind fun found _ => ?_
  have aliased (target : TypeExpr) :
      Gen.Balances types (Gen.registerGlobal name (return .alias name target)) fun _ => True :=
    Gen.Balances.registerGlobal (Q := fun _ => True) (balances_pure trivial) name
  split
  · refine (balances_registerAlias _ _).discard.bind fun _ _ => ?_
    refine (balanced.typeExpr s free).bind fun actual _ => ?_
    exact balances_guard (aliased actual).discard (balances_pure trivial)
  · refine balances_registry.bind fun r _ => ?_
    split
    · exact balances_pure trivial
    · refine (balanced.typeExpr s free).bind fun target _ => ?_
      refine (aliased target).discard.bind fun _ _ => ?_
      exact (balances_registerAlias _ _).discard.bind fun _ _ => balances_pure trivial

theorem balances_declareCodec (balanced : em.Balanced types) (name : String)
    (free : s.HookFree types) : Gen.Balances types (declareCodec em name s) fun _ => True := by
  -- The draft of the codec is begun anew for the encoder, so it does not grow as a whole.
  refine (Gen.Balances.registerGlobal (Gen.StaysOpen.nested ?_ name) _).discard
  refine (balanced.decodeExpr s free).captureBlock.staysOpen.bind fun decode => ?_
  refine staysOpen_beginFunction.bind fun _ => ?_
  refine Gen.Balances.staysOpen (Q := fun _ => True) ((balances_param _).bind fun value _ => ?_)
  exact (balanced.encode s _ free).capture.bind fun _ _ => balances_pure trivial

theorem balances_aliasedOr (s : Shape) {build : Gen TypeExpr}
    (balanced : Gen.Balances types build fun _ => True) :
    Gen.Balances types (aliasedOr s build) fun _ => True := by
  refine (balances_canonicalName s).bind fun signature _ => ?_
  refine (balances_aliasOf? signature).bind fun found _ => ?_
  split
  · exact balances_pure trivial
  · exact balanced

theorem balances_typeExpr (balanced : em.Balanced types)
    (free : s.HookFree types) :
    Gen.Balances types (typeExpr em s) fun _ => True := by
  have part (t : Shape) (member : t ∈ s.subshapes types) := balanced.typeExpr t (free.part member)
  cases s with
  | prim | custom | transformed => exact balances_pure trivial
  | optional value presence =>
    refine balances_aliasedOr _ ?_
    exact (part value (by simp [Shape.subshapes])).bind fun _ _ => balances_pure trivial
  | list item length =>
    refine balances_aliasedOr _ ?_
    refine ((part item ?_).withHint "item").bind fun _ _ => balances_pure trivial
    simp [Shape.subshapes]
  | map key value length =>
    refine balances_aliasedOr _ ?_
    refine ((part key (by simp [Shape.subshapes])).withHint "key").bind fun _ _ => ?_
    refine ((part value ?_).withHint "value").bind fun _ _ => balances_pure trivial
    simp [Shape.subshapes]
  | struct | merged | packed | flags =>
    exact (balances_structName balanced free).bind fun _ _ => balances_pure trivial
  | enum backing entries =>
    exact (balances_enumName backing entries).bind fun _ _ => balances_pure trivial
  | union => exact (balances_unionName balanced free).bind fun _ _ => balances_pure trivial
  | slot group index kind => cases kind <;> exact balances_pure trivial
  | «alias» name inner =>
    have inside := free.part List.mem_cons_self
    exact (balances_declareAlias balanced name inside).bind fun _ _ => balances_pure trivial
  | exported name inner =>
    have inside := free.part List.mem_cons_self
    refine (balances_declareAlias balanced name inside).bind fun _ _ => ?_
    exact (balances_declareCodec balanced _ inside).bind fun _ _ => balances_pure trivial
  | ref label => exact balances_ref free balanced.typeExpr
  | literal value backing =>
    cases backing with
    | some p => exact balances_pure trivial
    | none => cases value <;> exact balances_pure trivial

theorem balances_prepare (balanced : em.Balanced types)
    (free : s.HookFree types) : Gen.Balances types (prepare em s) fun _ => True := by
  have declared := (balanced.typeExpr s free).discard
  have whole : Gen.Balances types (do
      discard <| em.typeExpr s
      (s.subshapes (← Gen.refs)).forM em.prepare) fun _ => True := by
    refine declared.bind fun _ _ => balances_refs.bind fun table same => ?_
    subst same
    exact balances_forM fun part member => balanced.prepare part (free.part member)
  cases s with
  | ref | slot => exact balances_pure trivial
  | exported => exact declared
  | _ => exact whole

/-! ### Tags -/

theorem balances_unionTag (balanced : em.Balanced types) {tag : Shape}
    (free : tag.HookFree types) (tags : List (String × Literal)) (index : Nat) (key : String) :
    Gen.Balances types (unionTag em tag tags index key) fun _ => True := by
  refine (balances_resolved free).bind fun found _ => ?_
  split
  · refine (balanced.typeExpr tag free).bind fun type _ => ?_
    split
    · dsimp only
      split
      · exact balances_pure trivial
      · exact balances_throw _
    · exact balances_invalidBacking tag
  · exact balances_pure trivial
  · split <;> exact balances_pure trivial
  · split
    · split
      · exact balances_pure trivial
      · exact (balances_canonicalName tag).bind fun _ _ => balances_throw _
      · exact balances_pure trivial
    · exact balances_invalidBacking _
  · exact balances_invalidBacking _

theorem balances_tagIsExhaustive {tag : Shape}
    (free : tag.HookFree types) (variants : List (String × Shape))
    (tags : List (String × Literal)) :
    Gen.Balances types (tagIsExhaustive tag variants tags) fun _ => True := by
  refine (balances_resolved free).bind fun found _ => ?_
  split <;> exact balances_pure trivial

/-! ### Decoders -/

theorem balances_decodeFields (balanced : em.Balanced types) {fields : List Field}
    (free : ∀ f ∈ fields, f.shape.HookFree types) :
    Gen.Balances types (decodeFields em fields) fun _ => True := by
  refine (balances_mapM fun f member => ?_).bind fun _ _ => balances_pure trivial
  have decoded := (balanced.decodeExpr f.shape (free f member)).declare f.name
  exact (decoded.withHint f.name).bind fun _ _ => balances_pure trivial

theorem balances_decodeGroup (balanced : em.Balanced types) (backing : Primitive) (group : Nat)
    {fields : List Field} (free : ∀ f ∈ fields, f.shape.HookFree types) :
    Gen.Balances types (decodeGroup em backing group fields) fun _ => True := by
  refine (balances_lastHint _).bind fun hint _ => ?_
  refine (balances_declare _ _).bind fun raw _ => ?_
  exact (balances_decodeFields balanced free).withGroup _ _

theorem balances_decodeBindings (balanced : em.Balanced types)
    (free : s.HookFree types) :
    Gen.Balances types (decodeBindings em s) fun _ => True := by
  -- An alias is opened by the emitter for what it stands for, which is lower.
  have behind :
      Gen.Balances types (do em.decodeBindings (← resolved s)) fun _ => True :=
    (balances_resolved free).bind fun t found =>
      balanced.decodeBindings t found
  cases s with
  | struct fields =>
    exact balances_decodeFields balanced fun f member => free.part (List.mem_map_of_mem member)
  | merged parts =>
    refine (balances_mapM fun part member => ?_).bind fun _ _ => balances_pure trivial
    have below : part.HookFree types := free.part member
    exact (balances_resolved below).bind fun t found =>
      balanced.decodeBindings t found
  | packed backing _ fields group =>
    exact balances_decodeGroup balanced backing group fun f member =>
      free.part (List.mem_map_of_mem member)
  | flags backing _ fields group =>
    exact balances_decodeGroup balanced backing group fun f member =>
      free.part (List.mem_map_of_mem member)
  | «alias» | exported | ref => exact behind
  | _ => exact balances_notAStruct _

theorem balances_decodeOptional (balanced : em.Balanced types) {value presence : Shape}
    (free : value.HookFree types) (presented : presence.HookFree types) :
    Gen.Balances types (decodeOptional em value presence) fun _ => True := by
  refine balances_refs.bind fun table _ => ?_
  split
  · exact (balances_canonicalName presence).bind fun _ _ => balances_throw _
  · refine (balanced.decodeExpr presence presented).bind fun test _ => ?_
    refine (balanced.decodeExpr value free).captureBlock.bind fun block _ => ?_
    split
    · exact balances_pure trivial
    · refine (balances_lastHint _).bind fun hint _ => (balances_declareMut _ _).bind fun x _ => ?_
      exact (balances_emit _).bind fun _ _ => balances_pure trivial

theorem balances_decodeCollection (length : Primitive) (empty : Expr) {item : Gen Expr}
    (balanced : Gen.Balances types item fun _ => True) :
    Gen.Balances types (decodeCollection length empty item) fun _ => True := by
  unfold decodeCollection
  split
  · exact balances_throw _
  · refine (balances_lastHint _).bind fun name _ => ?_
    refine (balances_declare _ _).bind fun count _ => ?_
    refine (balances_declareMut _ _).bind fun acc _ => balanced.captureBlock.bind fun block _ => ?_
    exact (balances_emit _).bind fun _ _ => balances_pure trivial

theorem balances_decodePayload (balanced : em.Balanced types) (key : String)
    {payload : Shape} (free : payload.HookFree types) :
    Gen.Balances types (decodePayload em key payload) fun _ => True := by
  refine (balances_storedFields free).bind fun fields _ => ?_
  split
  · refine (balances_resolved free).bind fun t found => ?_
    exact (balanced.decodeBindings t found).discard.bind fun _ _ => balances_pure trivial
  · exact ((balanced.decodeExpr payload free).withHint key).bind fun _ _ => balances_pure trivial

theorem balances_decodeArms (balanced : em.Balanced types) (type : String)
    {tag : Shape} (free : tag.HookFree types) (tags : List (String × Literal)) (result : Local)
    {variants : List (String × Shape)} (payloads : ∀ v ∈ variants, v.2.HookFree types)
    (seen : List Tag) (index : Nat) :
    Gen.Balances types (decodeArms em type tag tags result seen index variants) fun _ => True := by
  induction variants generalizing seen index with
  | nil => exact balances_pure trivial
  | cons first rest ih =>
    obtain ⟨payload, later⟩ := List.forall_mem_cons.mp payloads
    refine (balances_unionTag balanced free tags index first.1).bind fun value _ => ?_
    refine balances_guard (balances_throw _) ?_
    refine Gen.Balances.bind (Gen.Balances.captureBlock (Q := fun _ => True) ?_) fun block _ => ?_
    · exact (balances_decodePayload balanced first.1 payload).bind fun _ _ => balances_pure trivial
    · exact (ih later _ _).bind fun arms _ => balances_pure trivial

theorem balances_decodeUnion (balanced : em.Balanced types) {tagField : String}
    {tag : Shape} {variants : List (String × Shape)} {tags : List (String × Literal)}
    (free : (Shape.union tagField tag variants tags).HookFree types) :
    Gen.Balances types (decodeUnion em tagField tag variants tags) fun _ => True := by
  have ofTag : tag.HookFree types := free.part List.mem_cons_self
  have payloads (v : String × Shape) (member : v ∈ variants) : v.2.HookFree types :=
    free.part (List.mem_cons_of_mem _ (List.mem_map_of_mem member))
  refine (balances_unionName balanced free).bind fun type _ => ?_
  have tagged := (balanced.decodeExpr tag ofTag).declare tagField
  refine (tagged.withHint tagField).bind fun value _ => (balances_lastHint _).bind fun hint _ => ?_
  refine (balances_declareDeferred _).bind fun result _ => ?_
  refine (balances_decodeArms balanced type ofTag tags result payloads [] 0).bind fun arms _ => ?_
  refine (balances_tagIsExhaustive ofTag variants tags).bind fun exhaustive _ => ?_
  exact (balances_emit _).bind fun _ _ => balances_pure trivial

theorem balances_decodeLiteral (value : Literal) (backing : Option Primitive) :
    Gen.Balances types (decodeLiteral value backing) fun _ => True := by
  cases backing with
  | none => exact balances_pure trivial
  | some p =>
    refine (balances_declare _ _).bind fun found _ => ?_
    exact (balances_emit _).bind fun _ _ => balances_pure trivial

theorem balances_decodeExpr
    (balanced : em.Balanced types) (free : s.HookFree types) :
    Gen.Balances types (decodeExpr hooks em s) fun _ => True := by
  have part (t : Shape) (member : t ∈ s.subshapes types) := free.part member
  cases s with
  | prim => exact balances_pure trivial
  | optional value presence =>
    exact balances_decodeOptional balanced (part value (by simp [Shape.subshapes]))
      (part presence (by simp [Shape.subshapes]))
  | list item length =>
    refine balances_decodeCollection _ _ ((balanced.decodeExpr item (part item ?_)).withHint "item")
    simp [Shape.subshapes]
  | map key value length =>
    have ofKey := balanced.decodeExpr key (part key (by simp [Shape.subshapes]))
    have ofValue := balanced.decodeExpr value (part value (by simp [Shape.subshapes]))
    refine balances_decodeCollection _ _ (((ofKey.declare _).withHint _).bind fun k _ => ?_)
    exact ((ofValue.declare _).withHint _).bind fun v _ => balances_pure trivial
  | struct | merged | packed | flags =>
    refine (balances_structName balanced free).bind fun type _ => ?_
    exact (balanced.decodeBindings _ free).bind fun _ _ => balances_pure trivial
  | enum backing entries =>
    exact (balances_enumName backing entries).bind fun _ _ => balances_pure trivial
  | union => exact balances_decodeUnion balanced free
  | slot group index kind =>
    refine (balances_activeGroup? group).bind fun found _ => ?_
    split
    · exact (balances_ofExcept _).forget
    · exact balances_throw _
  | «alias» name inner =>
    refine (balanced.typeExpr _ free).discard.bind fun _ _ => ?_
    exact balanced.decodeExpr inner (part inner List.mem_cons_self)
  | exported => exact (balanced.typeExpr _ free).discard.bind fun _ _ => balances_pure trivial
  | custom => exact (Shape.not_hookFree_custom _ _ _ free).elim
  | ref => exact balances_ref free balanced.decodeExpr
  | transformed name backing =>
    refine (balances_registerFunction _ _).bind fun _ _ => ?_
    have inside := part backing List.mem_cons_self
    exact (balanced.decodeExpr backing inside).bind fun _ _ => balances_pure trivial
  | literal value backing => exact balances_decodeLiteral value backing

/-! ### Encoders -/

theorem balances_writeLength (length : Primitive) (src : Expr) :
    Gen.Balances types (writeLength length src) fun _ => True :=
  (balances_ofExcept _).bind fun _ _ => balances_emit _

theorem balances_encodeInOrder (balanced : em.Balanced types) (src : Expr) {fields : List Field}
    (free : ∀ f ∈ fields, f.shape.HookFree types) :
    Gen.Balances types (encodeInOrder em src fields) fun _ => True :=
  balances_forM fun f member => (balanced.encode f.shape _ (free f member)).withHint f.name

theorem balances_encodeFields (balanced : em.Balanced types)
    (free : s.HookFree types) (src : Expr) :
    Gen.Balances types (encodeFields em s src) fun _ => True := by
  have behind :
      Gen.Balances types (do em.encodeFields (← resolved s) src) fun _ => True :=
    (balances_resolved free).bind fun t found =>
      balanced.encodeFields t src found
  cases s with
  | struct fields =>
    exact balances_encodeInOrder balanced src fun f member =>
      free.part (List.mem_map_of_mem member)
  | merged parts =>
    refine balances_forM fun part member => ?_
    have below : part.HookFree types := free.part member
    exact (balances_resolved below).bind fun t found =>
      balanced.encodeFields t src found
  | packed backing _ fields group =>
    refine (balances_ofExcept _).bind fun kind _ => ?_
    refine (balances_canonicalName _).bind fun owner _ => ?_
    exact (balances_ofExcept _).bind fun _ _ => balances_emit _
  | flags backing _ fields group =>
    refine (balances_ofExcept _).bind fun kind _ => ?_
    refine (balances_emit _).bind fun _ _ => Gen.Balances.withGroup ?_ _ _
    exact balances_encodeInOrder balanced src fun f member =>
      free.part (List.mem_map_of_mem (List.mem_filter.mp member).1)
  | «alias» | exported | ref => exact behind
  | _ => exact balances_notAStruct _

theorem balances_encodeOptional (balanced : em.Balanced types) {value presence : Shape}
    (free : value.HookFree types) (presented : presence.HookFree types) (src : Expr) :
    Gen.Balances types (encodeOptional em value presence src) fun _ => True := by
  refine balances_refs.bind fun table _ => ?_
  split
  · exact (balances_canonicalName presence).bind fun _ _ => balances_throw _
  · refine (balanced.encode presence _ presented).bind fun _ _ => ?_
    refine (balances_lastHint _).bind fun hint _ => (balances_alloc _).bind fun x _ => ?_
    refine (balanced.encode value _ free).capture.bind fun out _ => ?_
    dsimp only
    split
    · exact balances_emit _
    · exact balances_pure trivial

theorem balances_encodeArms (balanced : em.Balanced types)
    (type tagField : String) {tag : Shape} (free : tag.HookFree types)
    (tags : List (String × Literal)) {variants : List (String × Shape)}
    (payloads : ∀ v ∈ variants, v.2.HookFree types) (index : Nat) :
    Gen.Balances types (encodeArms em type tagField tag tags index variants) fun _ => True := by
  induction variants generalizing index with
  | nil => exact balances_pure trivial
  | cons first rest ih =>
    obtain ⟨payload, later⟩ := List.forall_mem_cons.mp payloads
    refine (balances_unionTag balanced free tags index first.1).bind fun value _ => ?_
    refine (balances_storedFields payload).bind fun fields _ => ?_
    -- Variants with and without a payload differ in where the fields are taken from only.
    have body (source : Expr) : Gen.Balances types (do
        Gen.withHint tagField (em.encode tag value.expr)
        Gen.withHint first.1 do em.encodeFields (← Gen.resolved first.2) source) fun _ => True := by
      refine ((balanced.encode tag _ free).withHint tagField).bind fun _ _ => ?_
      refine Gen.Balances.withHint ?_ _
      exact (balances_resolved payload).bind fun t found =>
        balanced.encodeFields t source found
    split
    · refine Gen.Balances.bind (Q := fun _ => True) (balances_pure trivial) fun binding _ => ?_
      exact (body _).capture.bind fun _ _ => (ih later _).bind fun _ _ => balances_pure trivial
    · refine Gen.Balances.bind ((balances_alloc first.1).map some) fun binding _ => ?_
      exact (body _).capture.bind fun _ _ => (ih later _).bind fun _ _ => balances_pure trivial

theorem balances_encodeUnion (balanced : em.Balanced types) {tagField : String}
    {tag : Shape} {variants : List (String × Shape)} {tags : List (String × Literal)}
    (free : (Shape.union tagField tag variants tags).HookFree types) (src : Expr) :
    Gen.Balances types (encodeUnion em tagField tag variants tags src) fun _ => True := by
  have payloads (v : String × Shape) (member : v ∈ variants) : v.2.HookFree types :=
    free.part (List.mem_cons_of_mem _ (List.mem_map_of_mem member))
  refine (balances_unionName balanced free).bind fun type _ => ?_
  have arms := balances_encodeArms balanced type tagField (free.part List.mem_cons_self) tags
    payloads 0
  exact arms.bind fun _ _ => balances_emit _

theorem balances_encode
    (balanced : em.Balanced types) (free : s.HookFree types) (src : Expr) :
    Gen.Balances types (encode hooks em s src) fun _ => True := by
  have part (t : Shape) (member : t ∈ s.subshapes types) := free.part member
  cases s with
  | prim => exact balances_emit _
  | optional value presence =>
    exact balances_encodeOptional balanced (part value (by simp [Shape.subshapes]))
      (part presence (by simp [Shape.subshapes])) src
  | list item length =>
    refine (balances_writeLength length src).bind fun _ _ => (balances_alloc _).bind fun x _ => ?_
    have ofItem := balanced.encode item (.place x) (part item (by simp [Shape.subshapes]))
    exact (ofItem.withHint "item").capture.bind fun _ _ => balances_emit _
  | map key value length =>
    refine (balances_writeLength length src).bind fun _ _ => ?_
    refine (balances_alloc _).bind fun k _ => (balances_alloc _).bind fun v _ => ?_
    have ofKey := balanced.encode key (.place k) (part key (by simp [Shape.subshapes]))
    have ofValue := balanced.encode value (.place v) (part value (by simp [Shape.subshapes]))
    have body := (ofKey.withHint "key").bind fun _ _ => ofValue.withHint "value"
    exact body.capture.bind fun _ _ => balances_emit _
  | struct | merged | packed | flags =>
    refine (balances_structName balanced free).discard.bind fun _ _ => ?_
    exact balanced.encodeFields _ src free
  | enum backing entries =>
    exact (balances_enumName backing entries).bind fun _ _ => balances_emit _
  | union => exact balances_encodeUnion balanced free src
  | slot group index kind =>
    refine (balances_activeGroup? group).bind fun found _ => ?_
    split
    · exact balances_throw _
    · exact balances_pure trivial
  | «alias» name inner =>
    refine (balanced.typeExpr _ free).discard.bind fun _ _ => ?_
    exact balanced.encode inner src (part inner List.mem_cons_self)
  | exported => exact (balanced.typeExpr _ free).discard.bind fun _ _ => balances_emit _
  | custom => exact (Shape.not_hookFree_custom _ _ _ free).elim
  | ref => exact balances_ref free fun t below => balanced.encode t src below
  | transformed name backing =>
    have inside := part backing List.mem_cons_self
    refine (balances_registerFunction _ _).bind fun _ _ => ?_
    dsimp only
    split
    · exact balanced.encode _ _ inside
    · refine (balances_declare _ _).bind fun x _ => ?_
      exact balanced.encode backing _ inside
  | literal value backing =>
    cases backing with
    | some p => exact balances_emit _
    | none => exact balances_pure trivial

/-! ### The tie -/

/-- At every depth the emitter is balanced. -/
theorem balanced_emitter (hooks : Hooks) (types : Refs) (depth : Nat) :
    (emitter hooks depth).Balanced types := by
  induction depth with
  -- Beyond its depth an emitter does nothing but fail.
  | zero => constructor <;> intros <;> exact balances_throw _
  | succ depth ih =>
    exact {
      typeExpr := fun s free => balances_typeExpr ih free
      prepare := fun s free => balances_prepare ih free
      decodeExpr := fun s free => balances_decodeExpr ih free
      decodeBindings := fun s free => balances_decodeBindings ih free
      encode := fun s src free => balances_encode ih free src
      encodeFields := fun s src free => balances_encodeFields ih free src }

/-- From every session with an open scope, all that can be generated for a shape free of hooks
leaves the stacks balanced, whether it succeeds or fails and wherever it does. -/
theorem generation_is_balanced (hooks : Hooks) (depth : Nat) (shape : Shape) (src : Expr)
    (session : Session) (isOpen : session.draft.scopes ≠ [])
    (free : shape.HookFree session.refs) :
    let em := emitter hooks depth
    session.draft.Grown ((em.typeExpr shape).start session).2.draft ∧
      session.draft.Grown ((em.prepare shape).start session).2.draft ∧
      session.draft.Grown ((em.decodeExpr shape).start session).2.draft ∧
      session.draft.Grown ((em.decodeBindings shape).start session).2.draft ∧
      session.draft.Grown ((em.encode shape src).start session).2.draft ∧
      session.draft.Grown ((em.encodeFields shape src).start session).2.draft := by
  have balanced := balanced_emitter hooks session.refs depth
  have grown {α : Type} {act : Gen α} (balances : Balances session.refs act fun _ => True) :
      session.draft.Grown (act.start session).2.draft := (balances session rfl isOpen).2.1
  exact ⟨grown (balanced.typeExpr shape free), grown (balanced.prepare shape free),
    grown (balanced.decodeExpr shape free), grown (balanced.decodeBindings shape free),
    grown (balanced.encode shape src free), grown (balanced.encodeFields shape src free)⟩

/-- The second field of this flag struct fails in the middle of its group: what says whether it is
present is no boolean. -/
def unreadableFlags : Shape :=
  .flags .u8 [("a", 1)]
    [⟨"a", .slot 7 0 (.flag 1 .u8), none⟩, ⟨"b", .optional (.prim .u16) (.prim .u8), none⟩] 7

theorem hookFree_unreadableFlags : unreadableFlags.HookFree [] := by
  have slot : (Shape.slot 7 0 (.flag 1 .u8)).HookFree [] :=
    Shape.hookFree_of_parts (by simp) (by simp [Shape.subshapes])
  have value : (Shape.optional (.prim .u16) (.prim .u8)).HookFree [] :=
    Shape.hookFree_of_parts (by simp) (by simp [Shape.subshapes, Shape.hookFree_prim])
  refine Shape.hookFree_of_parts (by simp [unreadableFlags]) ?_
  simp [unreadableFlags, Shape.subshapes, slot, value]

/-- The failure comes from within a group, a hint, and the scope of a binding. -/
theorem generation_is_balanced_unreadableFlags :
    let session : Session := { draft := Draft.named "packet" }
    let failed := ((emitter Hooks.none 3).decodeBindings unreadableFlags).start session
    failed.1 = .error (.nonBooleanPresence "U8") ∧ session.draft.Grown failed.2.draft :=
  ⟨by rfl, (generation_is_balanced Hooks.none 3 unreadableFlags (.var ⟨0, "x"⟩)
    { draft := Draft.named "packet" } (List.cons_ne_nil _ _) hookFree_unreadableFlags).2.2.2.1⟩

end WireSchema.Lowering
