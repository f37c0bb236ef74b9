import WireSchema.Proofs.Lowering.Members

/-!
# Structs that decoders construct

A decoder constructs a struct in one place only, where the type has been declared for the shape whose
fields were decoded. The bindings of a struct are those of its stored fields, in their order.
-/

namespace WireSchema.Lowering

open Ir Gen Session

variable {types : Refs} {rank : String → Nat} {σ : Session} {em : Emitter}

variable (types rank) in
/-- The structs in the expression are of the types that the registry knows. -/
abbrev Constructed (e : Expr) (r : Registry) : Prop := (Watch.structs types rank).Each r e

theorem constructed_leaf {e : Expr} {r : Registry} (leaf : e.children = [])
    (plain : ∀ type members, e ≠ .struct type members) : Constructed types rank e r :=
  Expr.each_single (fun type members same => absurd same (plain type members)) leaf

/-- An expression that is no struct has the structs of its parts. -/
theorem constructed_iff {e : Expr} {r : Registry} (plain : ∀ type members, e ≠ .struct type members) :
    Constructed types rank e r ↔ ∀ part ∈ e.children, Constructed types rank part r := by
  rw [Constructed, Watch.Each, Expr.each_iff]
  exact and_iff_right fun type members same => absurd same (plain type members)

theorem constructed_var {x : Local} {r : Registry} : Constructed types rank (.var x) r :=
  constructed_leaf rfl (by simp)

theorem constructed_slotExpr {raw e : Expr} {kind : SlotKind} {r : Registry}
    (found : slotExpr raw kind = .ok e) (inner : Constructed types rank raw r) :
    Constructed types rank e r := by
  have lit (v : Int) (kind : IntKind) : Constructed types rank (.int v kind) r :=
    constructed_leaf rfl (by simp [Expr.int])
  have binary (op : BinOp) {a b : Expr} (left : Constructed types rank a r)
      (right : Constructed types rank b r) : Constructed types rank (.binary op a b) r :=
    (constructed_iff (by simp)).mpr
      (List.forall_mem_cons.mpr ⟨left, List.forall_mem_singleton.mpr right⟩)
  cases kind with
  | bits shift width backing =>
    simp only [slotExpr, bind, Except.bind] at found
    split at found
    · cases found
    have shifted : Constructed types rank
        (if shift = 0 then raw else .binary .shr raw (.int shift .u32)) r := by
      split
      · exact inner
      · exact binary _ inner (lit _ _)
    split at found
    · split at found
      · cases found
        exact shifted
      · cases found
        exact binary _ (binary _ shifted (lit _ _)) (lit _ _)
    · split at found
      · cases found
        exact shifted
      · cases found
        exact binary _ shifted (lit _ _)
  | flag mask backing =>
    simp only [slotExpr, bind, Except.bind] at found
    split at found
    · cases found
    · cases found
      exact binary _ (binary _ inner (lit _ _)) (lit _ _)

theorem leads_declareRead {requested : String} {p : Primitive} :
    Leads types rank (.structs types rank) σ (Gen.declare requested (return .read p))
      fun _ _ => True :=
  (Leads.declare (leads_pure (constructed_leaf rfl (by simp)))).weaken fun _ _ _ => trivial

theorem leads_decodeSlot {group index : Nat} {kind : SlotKind} :
    Leads types rank (.structs types rank) σ (decodeSlot group index kind)
      (Constructed types rank) := by
  refine leads_activeGroup?.bind fun found _ _ plain => ?_
  split
  case h_1 raw =>
    obtain ⟨x, rfl⟩ := plain _ rfl _ rfl
    exact leads_ofExcept.weaken fun e _ ok => constructed_slotExpr ok constructed_var
  case h_2 => exact leads_throw

/-! ### Bindings -/

/-- The binding is that of the field. -/
def IsBound (f : Field) (binding : Field × Local) : Prop := f = binding.1

theorem leads_decodeFields {fields : List Field}
    (parts : ∀ f ∈ fields, ∀ σ, Leads types rank (.structs types rank) σ (em.decodeExpr f.shape)
      (Constructed types rank)) :
    Leads types rank (.structs types rank) σ (decodeFields em fields) fun bindings _ =>
      bindings.map (·.1) = (fields.filter (·.shape.isStored)).map (·.name) := by
  refine (leads_mapM (Q := IsBound) fun f member τ _ => ?_).bind
    fun bindings _ _ same => leads_pure ?_
  · exact (parts f member _).declare.withHint.bind fun _ _ _ _ => leads_pure rfl
  · have all : fields = bindings.map (·.1) := by
      rw [← map_eq_of_rel same (f := id) fun _ _ => id, List.map_id]
    rw [all, List.filter_map, List.map_map, List.map_map]
    rfl

theorem leads_decodeGroup {backing : Primitive} {group : Nat} {fields : List Field}
    (parts : ∀ f ∈ fields, ∀ σ, Leads types rank (.structs types rank) σ (em.decodeExpr f.shape)
      (Constructed types rank)) :
    Leads types rank (.structs types rank) σ (decodeGroup em backing group fields)
      fun bindings _ => bindings.map (·.1) = (fields.filter (·.shape.isStored)).map (·.name) := by
  refine leads_lastHint.bind fun hint _ _ _ => leads_declareRead.bind fun raw _ _ _ => ?_
  exact Leads.withGroup (by simp) (leads_decodeFields parts)

variable (types) in
/-- The bindings have the names of the fields that the shape stores, in their order. -/
def BindsStored (s : Shape) (bindings : List (String × Local)) : Prop :=
  ∃ fields, s.storedFields types = .ok fields ∧ bindings.map (·.1) = fields.map (·.name)

/-- What the parts bind is what the merged struct stores. -/
theorem storedNames_of_parts (whole : types.Written rank) {parts : List Shape}
    {bindings : List (List (String × Local))}
    (paired : List.Forall₂ (BindsStored types) parts bindings) :
    BindsStored types (.merged parts) bindings.flatten := by
  have each : ∃ each, List.Forall₂ (fun part own => part.storedFields types = .ok own) parts each ∧
      bindings.flatten.map (·.1) = each.flatten.map (·.name) := by
    induction paired with
    | nil => exact ⟨[], .nil, rfl⟩
    | cons first _ ih =>
      obtain ⟨own, stored, same⟩ := first
      obtain ⟨each, all, same'⟩ := ih
      refine ⟨own :: each, .cons stored all, ?_⟩
      rw [List.flatten_cons, List.flatten_cons, List.map_append, List.map_append, same, same']
  obtain ⟨each, all, same⟩ := each
  exact ⟨each.flatten,
    (Shape.storedFields_merged (Source.ranked_of_ordered whole.ordered)).mpr ⟨each, all, rfl⟩, same⟩

theorem leads_decodeBindings (whole : types.Written rank) (tracked : em.Tracked types rank)
    {s : Shape} (written : s.IsWritten types rank) :
    Leads types rank (.structs types rank) σ (decodeBindings em s) fun bindings _ =>
      BindsStored types s bindings := by
  have ranked := Source.ranked_of_ordered whole.ordered
  have resolves {part : Shape} (written : part.IsWritten types rank) (σ : Session) :
      Leads types rank (.structs types rank) σ (do em.decodeBindings (← Gen.resolved part))
        fun bindings _ => BindsStored types part bindings := by
    refine leads_resolved.bind fun t _ _ ran => ?_
    unfold BindsStored
    rw [Shape.storedFields_resolved ranked ran]
    exact tracked.decodeBindings t _ (written.resolved whole ran)
  have parts {fields : List Field} (same : s.subshapes types = fields.map (·.shape)) :
      ∀ f ∈ fields, ∀ σ, Leads types rank (.structs types rank) σ (em.decodeExpr f.shape)
        (Constructed types rank) :=
    fun f member σ => tracked.decodeExpr f.shape σ (written.member whole same f member)
  have own {fields : List Field} {act : Gen (List (String × Local))}
      (stored : s.storedFields types = .ok (fields.filter (·.shape.isStored)))
      (leads : Leads types rank (.structs types rank) σ act fun bindings _ =>
        bindings.map (·.1) = (fields.filter (·.shape.isStored)).map (·.name)) :
      Leads types rank (.structs types rank) σ act fun bindings _ => BindsStored types s bindings :=
    leads.weaken fun _ _ same => ⟨_, stored, same⟩
  cases s with
  | struct fields =>
    exact own (Shape.storedFields_eq ranked _) (leads_decodeFields (parts rfl))
  | packed backing widths fields group =>
    exact own (Shape.storedFields_eq ranked _) (leads_decodeGroup (parts rfl))
  | flags backing masks fields group =>
    exact own (Shape.storedFields_eq ranked _) (leads_decodeGroup (parts rfl))
  | merged parts =>
    refine (leads_mapM (Q := BindsStored types) fun part member τ _ => ?_).bind
      fun bindings _ _ paired => leads_pure ?_
    · exact resolves (written.part whole member) τ
    · exact storedNames_of_parts whole paired
  | «alias» | exported | ref => exact resolves written σ
  | _ => exact leads_canonicalName.bind fun _ _ _ _ => leads_throw

/-! ### Expressions -/

theorem leads_decodeOptional {value presence : Shape}
    (tests : ∀ σ, Leads types rank (.structs types rank) σ (em.decodeExpr presence)
      (Constructed types rank))
    (values : ∀ σ, Leads types rank (.structs types rank) σ (captureBlock (em.decodeExpr value))
      fun b r => (Watch.structs types rank).All r b.stmts ∧ Constructed types rank b.result r) :
    Leads types rank (.structs types rank) σ (decodeOptional em value presence)
      (Constructed types rank) := by
  refine leads_refs.bind fun _ _ _ _ => ?_
  split
  · exact leads_canonicalName.bind fun _ _ _ _ => leads_throw
  refine (tests _).bind fun test _ _ tested => (values _).bind fun block _ step holds => ?_
  have tested := tested.mono step.keeps
  obtain ⟨stmts, result⟩ := holds
  have present {r : Registry} (result : Constructed types rank block.result r) :
      Constructed types rank (.present block.result) r :=
    (constructed_iff (by simp)).mpr (List.forall_mem_singleton.mpr result)
  -- An expression if nothing is emitted for the value, otherwise a binding that a branch assigns.
  split
  · refine leads_pure ((constructed_iff (by simp)).mpr ?_)
    exact List.forall_mem_cons.mpr ⟨tested, List.forall_mem_cons.mpr
      ⟨present result, List.forall_mem_singleton.mpr (constructed_leaf rfl (by simp))⟩⟩
  · refine leads_lastHint.bind fun _ _ step _ => ?_
    refine (leads_declareMut (constructed_leaf rfl (by simp))).bind fun x τ step' _ => ?_
    have keeps := step.keeps.trans step'.keeps
    refine Leads.bind (leads_emit (List.forall_mem_singleton.mpr (tested.mono keeps)) ?_)
      fun _ _ _ _ => leads_pure constructed_var
    refine List.forall_mem_cons.mpr ⟨Stmt.each_append.mpr ⟨stmts.mono keeps, ?_⟩,
      List.forall_mem_singleton.mpr Stmt.each_nil⟩
    exact Stmt.each_single.mpr
      ⟨List.forall_mem_singleton.mpr (present (result.mono keeps)), nofun⟩

theorem leads_decodeCollection {length : Primitive} {empty : Expr} {item : Gen Expr}
    (new : ∀ r, Constructed types rank empty r)
    (items : ∀ σ, Leads types rank (.structs types rank) σ item (Constructed types rank)) :
    Leads types rank (.structs types rank) σ (decodeCollection length empty item)
      (Constructed types rank) := by
  unfold decodeCollection
  split
  · exact leads_throw
  refine leads_lastHint.bind fun _ _ _ _ => leads_declareRead.bind fun count _ _ _ => ?_
  refine (leads_declareMut (new _)).bind fun acc _ _ _ => ?_
  refine (leads_block (items _)).bind fun block τ _ holds => ?_
  refine Leads.bind (leads_emit (List.forall_mem_singleton.mpr constructed_var) ?_)
    fun _ _ _ _ => leads_pure constructed_var
  refine List.forall_mem_singleton.mpr (Stmt.each_append.mpr ⟨holds.1, ?_⟩)
  exact Stmt.each_single.mpr ⟨List.forall_mem_singleton.mpr holds.2, nofun⟩

theorem leads_decodePayload (whole : types.Written rank) (tracked : em.Tracked types rank)
    {key : String} {payload : Shape} (written : payload.IsWritten types rank) :
    Leads types rank (.structs types rank) σ (decodePayload em key payload) fun found r =>
      ∀ e ∈ found, Constructed types rank e r := by
  refine leads_storedFields.bind fun _ _ _ _ => ?_
  split
  · refine leads_resolved.bind fun t _ _ ran => ?_
    refine (tracked.decodeBindings t _ (written.resolved whole ran)).discard.bind fun _ _ _ _ => ?_
    exact leads_pure nofun
  · refine (tracked.decodeExpr payload _ written).withHint.bind fun e _ _ built => leads_pure ?_
    rintro _ ⟨⟩
    exact built

theorem leads_decodeArms (whole : types.Written rank) (tracked : em.Tracked types rank)
    {type : String} {tag : Shape} {tags : List (String × Literal)} {result : Local}
    (ofTag : tag.IsWritten types rank) {variants : List (String × Shape)}
    (payloads : ∀ v ∈ variants, v.2.IsWritten types rank) (seen : List Tag) (index : Nat) :
    Leads types rank (.structs types rank) σ (decodeArms em type tag tags result seen index variants)
      fun arms r => ∀ arm ∈ arms, (Watch.structs types rank).All r arm.2 := by
  induction variants generalizing seen index σ with
  | nil => exact leads_pure nofun
  | cons first rest ih =>
    refine (leads_unionTag tracked ofTag).bind fun value _ _ _ => ?_
    split
    · exact leads_throw
    obtain ⟨key, payload⟩ := first
    have variant (σ : Session) : Leads types rank (.structs types rank) σ
        (do return .variant type key (← decodePayload em key payload))
        (Constructed types rank) := by
      refine (leads_decodePayload whole tracked (payloads _ List.mem_cons_self)).bind
        fun found _ _ built => leads_pure ((constructed_iff (by simp)).mpr ?_)
      exact fun part member => built part (Option.mem_toList.mp member)
    refine (leads_block (variant _)).bind fun block _ _ holds => ?_
    refine (ih (fun v member => payloads v (List.mem_cons_of_mem _ member)) _ _).bind
      fun arms _ step others => leads_pure (List.forall_mem_cons.mpr ⟨?_, others⟩)
    refine Stmt.each_append.mpr ⟨holds.1.mono step.keeps, Stmt.each_single.mpr ⟨?_, nofun⟩⟩
    exact List.forall_mem_singleton.mpr (holds.2.mono step.keeps)

theorem leads_decodeUnion (whole : types.Written rank) (tracked : em.Tracked types rank)
    {tagField : String} {tag : Shape} {variants : List (String × Shape)}
    {tags : List (String × Literal)}
    (written : (Shape.union tagField tag variants tags).IsWritten types rank) :
    Leads types rank (.structs types rank) σ (decodeUnion em tagField tag variants tags)
      (Constructed types rank) := by
  have ofTag := written.part whole List.mem_cons_self
  have payloads : ∀ v ∈ variants, v.2.IsWritten types rank := fun v member =>
    written.part whole (List.mem_cons_of_mem _ (List.mem_map_of_mem member))
  refine (leads_unionName whole tracked written).bind fun type _ _ _ => ?_
  refine (tracked.decodeExpr tag _ ofTag).declare.withHint.bind fun value _ _ _ => ?_
  refine leads_lastHint.bind fun _ _ _ _ => leads_declareDeferred.bind fun result _ _ _ => ?_
  refine (leads_decodeArms whole tracked ofTag payloads _ _).bind fun arms _ _ built => ?_
  refine leads_tagIsExhaustive.bind fun exhaustive τ step _ => ?_
  refine Leads.bind (leads_emit ?_ ?_) fun _ _ _ _ => leads_pure constructed_var
  · refine List.forall_mem_cons.mpr ⟨constructed_var, ?_⟩
    split <;> simp [Failure.exprs, constructed_var]
  · exact List.forall_mem_map.mpr fun arm member => (built arm member).mono step.keeps

theorem leads_decodeLiteral {value : Literal} {backing : Option Primitive} :
    Leads types rank (.structs types rank) σ (decodeLiteral value backing)
      (Constructed types rank) := by
  have lit {r : Registry} : Constructed types rank (.lit value) r := constructed_leaf rfl (by simp)
  cases backing with
  | none => exact leads_pure lit
  | some p =>
    refine leads_declareRead.bind fun found _ _ _ => ?_
    refine Leads.bind (leads_emit ?_ ?_) fun _ _ _ _ => leads_pure lit
    · refine List.forall_mem_singleton.mpr ((constructed_iff (by simp)).mpr ?_)
      exact List.forall_mem_cons.mpr ⟨constructed_var, List.forall_mem_singleton.mpr lit⟩
    · refine List.forall_mem_cons.mpr ⟨Stmt.each_single.mpr ⟨?_, nofun⟩,
        List.forall_mem_singleton.mpr Stmt.each_nil⟩
      exact List.forall_mem_singleton.mpr constructed_var

/-- A struct has the type that was declared for its shape, and the bindings of its stored fields. -/
theorem leads_constructed (whole : types.Written rank) (tracked : em.Tracked types rank) {s : Shape}
    (written : s.IsWritten types rank) (struct : s.isStructLike = true) :
    Leads types rank (.structs types rank) σ (do
      let type ← structName em s
      return structOf type (← em.decodeBindings s)) (Constructed types rank) := by
  refine (leads_structName whole written (tracked.fieldTypes whole written)).bind
    fun type _ _ known => ?_
  refine (tracked.decodeBindings s _ written).bind fun bindings _ step bound => leads_pure ?_
  obtain ⟨fields, stored, same⟩ := bound
  refine Expr.each_iff.mpr ⟨Expr.constructs_struct.mpr ?_, ?_⟩
  -- The type was known before the fields were decoded, and still is.
  · refine ⟨s, fields, written, struct, stored, ?_, step.keeps _ _ known⟩
    rw [← same, List.map_map]
    rfl
  · refine List.forall_mem_map.mpr (List.forall_mem_map.mpr fun _ _ => ?_)
    exact constructed_var

theorem leads_decodeExpr (hooks : Hooks) (whole : types.Written rank)
    (tracked : em.Tracked types rank) {s : Shape} (written : s.IsWritten types rank) :
    Leads types rank (.structs types rank) σ (decodeExpr hooks em s) (Constructed types rank) := by
  cases s with
  | prim p => exact leads_pure (constructed_leaf rfl (by simp))
  | optional value presence =>
    have among : presence ∈ (Shape.optional value presence).subshapes types :=
      List.mem_cons_of_mem _ List.mem_cons_self
    exact leads_decodeOptional (fun σ => tracked.decodeExpr presence σ (written.part whole among))
      fun σ => leads_block (tracked.decodeExpr value _ (written.part whole List.mem_cons_self))
  | list item length =>
    refine leads_decodeCollection (fun _ => constructed_leaf rfl (by simp)) fun σ => ?_
    exact (tracked.decodeExpr item _ (written.part whole List.mem_cons_self)).withHint
  | map key value length =>
    have among : value ∈ (Shape.map key value length).subshapes types :=
      List.mem_cons_of_mem _ List.mem_cons_self
    refine leads_decodeCollection (fun _ => constructed_leaf rfl (by simp)) fun σ => ?_
    refine (tracked.decodeExpr key _ (written.part whole List.mem_cons_self)).declare.withHint.bind
      fun k _ _ _ => ?_
    refine (tracked.decodeExpr value _ (written.part whole among)).declare.withHint.bind
      fun v _ _ _ => leads_pure ((constructed_iff (by simp)).mpr ?_)
    exact List.forall_mem_cons.mpr ⟨constructed_var, List.forall_mem_singleton.mpr constructed_var⟩
  | struct | merged | packed | flags => exact leads_constructed whole tracked written rfl
  | enum backing entries =>
    refine (leads_enumName whole written).bind fun type _ _ _ =>
      leads_pure ((constructed_iff (by simp)).mpr ?_)
    exact List.forall_mem_singleton.mpr (constructed_leaf rfl (by simp))
  | union tagField tag variants tags => exact leads_decodeUnion whole tracked written
  | slot group index kind => exact leads_decodeSlot
  | «alias» name inner =>
    refine (tracked.typeExpr _ _ _ written).discard.bind fun _ _ _ _ => ?_
    exact tracked.decodeExpr inner _ (written.part whole List.mem_cons_self)
  | exported name inner =>
    refine (tracked.typeExpr _ _ _ written).discard.bind fun _ _ _ _ => ?_
    exact leads_pure (constructed_leaf rfl (by simp))
  | ref label =>
    refine leads_refs.bind fun found _ _ same => ?_
    cases same
    split
    case h_1 target known =>
      exact tracked.decodeExpr target _ (written.part whole (Option.mem_toList.mpr known))
    case h_2 => exact leads_throw
  | custom | transformed => exact absurd written.field (by simp [Shape.IsFieldShape, Shape.WellFormed])
  | literal value backing => exact leads_decodeLiteral

end WireSchema.Lowering
