import WireSchema.Proofs.Lowering.Quiet
import WireSchema.Proofs.Session.Emission
import WireSchema.Proofs.Shape.HookFree

/-!
# Decoders are hygienic

For shapes without hooks the rules that declare types leave the draft alone, and the rules for
decoders emit scoped code and introduce the bindings they were given, each at one place.
-/

namespace WireSchema.Lowering

open Ir Gen

variable {types : Refs} {visible : List Binder} {waiting : List Local} {α : Type}

/-- The values are bindings in force, and nothing waits. -/
def Binds (bindings : List (String × Local)) (visible : List Binder)
    (waiting : List Local) : Prop :=
  waiting = [] ∧ ∀ x ∈ bindings, Binder.fixed x.2 ∈ visible

/-- What an emitter does for shapes without hooks. Declarations leave the draft alone; decoders give
expressions over what is in force; encoders are given such an expression. -/
structure Emitter.Hygienic (types : Refs) (em : Emitter) : Prop where
  quiet : ∀ s, Quiet (em.typeExpr s)
  typeExpr : ∀ s : Shape, s.HookFree types → Keeps types (em.typeExpr s) fun _ => True
  prepare : ∀ s : Shape, s.HookFree types → Keeps types (em.prepare s) fun _ => True
  decodeExpr : ∀ (s : Shape) (visible : List Binder), s.HookFree types →
    Builds types visible [] (em.decodeExpr s) Yields
  decodeBindings : ∀ (s : Shape) (visible : List Binder), s.HookFree types →
    Builds types visible [] (em.decodeBindings s) Binds
  encode : ∀ (s : Shape) (src : Expr) (visible : List Binder), s.HookFree types →
    src.Scoped Binder.Among visible →
    Builds types visible [] (em.encode s src) Done
  encodeFields : ∀ (s : Shape) (src : Expr) (visible : List Binder), s.HookFree types →
    src.Scoped Binder.Among visible →
    Builds types visible [] (em.encodeFields s src) Done

variable {em : Emitter}

/-! ### Declarations -/

theorem keeps_desiredName {signature fallback : String} :
    Keeps types (desiredName signature fallback) fun _ => True := by
  refine keeps_aliasOf?.bind fun found _ => ?_
  split
  · exact keeps_pure trivial
  · exact keeps_hintName

/-- The types of the stored fields are asked for on the way. -/
theorem keeps_structName {s : Shape} (fieldTypes : ∀ fields, s.storedFields types = .ok fields →
    ∀ f ∈ fields, Keeps types (em.typeExpr f.shape) fun _ => True) :
    Keeps types (structName em s) fun _ => True := by
  refine keeps_canonicalName.bind fun signature _ => keeps_refs.bind fun refs _ => ?_
  refine keeps_desiredName.bind fun desired _ => ?_
  refine Keeps.bind (keeps_registerConstant fun name => ?_) fun name _ => ?_
  · refine keeps_refs.bind fun _ _ => keeps_ofExcept.bind fun _ _ => Keeps.nested ?_
    refine keeps_storedFields.bind fun fields stored => ?_
    refine (keeps_mapM (Q := fun _ => True) fun f member => ?_).bind fun _ _ => keeps_pure nofun
    exact (fieldTypes fields stored f member).withHint.bind fun _ _ => keeps_pure trivial
  · exact keeps_registerAlias.discard.bind fun _ _ => keeps_pure trivial

theorem Emitter.Hygienic.fieldTypes (hygienic : em.Hygienic types) {s : Shape}
    (free : s.HookFree types) : ∀ fields, s.storedFields types = .ok fields →
      ∀ f ∈ fields, Keeps types (em.typeExpr f.shape) fun _ => True :=
  fun _ stored f member => hygienic.typeExpr f.shape (free.stored stored f member)

theorem keeps_enumName {backing : Primitive} {entries : List (String × Int)} :
    Keeps types (enumName backing entries) fun _ => True := by
  refine keeps_ofExcept.bind fun _ _ => keeps_canonicalName.bind fun _ _ => ?_
  refine keeps_desiredName.bind fun _ _ => keeps_ofExcept.bind fun _ _ => ?_
  refine (keeps_registerConstant fun _ => keeps_pure fun _ same => by cases same).bind fun _ _ => ?_
  exact keeps_registerAlias.discard.bind fun _ _ => keeps_pure trivial

theorem keeps_variantDecl (hygienic : em.Hygienic types) {key : String} {payload : Shape}
    (free : payload.HookFree types) : Keeps types (variantDecl em key payload) fun _ => True := by
  refine keeps_resolved.bind fun found _ => ?_
  split
  · exact keeps_canonicalName.bind fun _ _ => keeps_throw
  · refine keeps_storedFields.bind fun fields _ => ?_
    split
    · exact keeps_pure trivial
    · refine (hygienic.typeExpr payload free).withHint.bind fun t _ => ?_
      split
      · exact keeps_pure trivial
      · exact keeps_canonicalName.bind fun _ _ => keeps_throw

theorem keeps_unionName (hygienic : em.Hygienic types) {tagField : String} {tag : Shape}
    {variants : List (String × Shape)} {tags : List (String × Literal)}
    (free : (Shape.union tagField tag variants tags).HookFree types) :
    Keeps types (unionName em tagField tag variants tags) fun _ => True := by
  -- The checks before the registration are made on a value, so they are peeled off the run.
  intro σ name σ' ran fits
  simp only [unionName, runs_bind, runs_canonicalName] at ran
  obtain ⟨signature, σ₁, ⟨rfl, rfl⟩, desired, σ₂, wanted, ran⟩ := ran
  obtain ⟨fits, _⟩ := keeps_desiredName _ _ _ wanted fits
  split at ran
  case isTrue => exact (runs_throw.mp ran).elim
  case isFalse =>
  split at ran
  case h_1 => exact (runs_throw.mp ran).elim
  case h_2 =>
    refine (?_ : Keeps types _ fun _ => True) σ₂ name σ' ran fits
    refine (keeps_registerConstant fun name => Keeps.nested ?_).bind fun name _ => ?_
    · have tagFree : tag.HookFree types := free.part List.mem_cons_self
      refine (hygienic.typeExpr tag tagFree).withHint.discard.bind fun _ _ => ?_
      refine (keeps_mapM (Q := fun _ => True) fun variant member => ?_).bind fun _ _ => ?_
      · have among := List.mem_cons_of_mem tag (List.mem_map_of_mem (f := (·.2)) member)
        exact keeps_variantDecl hygienic (free.part among)
      · exact keeps_pure fun _ same => by cases same
    · exact keeps_registerAlias.discard.bind fun _ _ => keeps_pure trivial

theorem keeps_declareAlias (hygienic : em.Hygienic types) {name : String} {inner : Shape}
    (free : inner.HookFree types) : Keeps types (declareAlias em name inner) fun _ => True := by
  have aliased (t : TypeExpr) :
      Keeps types (Gen.registerGlobal name (return .alias name t)) fun _ => True :=
    keeps_registerGlobal (keeps_pure nofun)
  refine keeps_canonicalName.bind fun signature _ => keeps_resolved.bind fun found _ => ?_
  split
  · refine keeps_registerAlias.discard.bind fun _ _ => ?_
    refine (hygienic.typeExpr inner free).bind fun actual _ => ?_
    split
    · exact (aliased actual).discard.bind fun _ _ => keeps_pure trivial
    · exact keeps_pure trivial
  · refine keeps_registry.bind fun r _ => ?_
    split
    · exact keeps_pure trivial
    · refine (hygienic.typeExpr inner free).bind fun target _ => ?_
      refine (aliased target).discard.bind fun _ _ => keeps_registerAlias.discard.bind fun _ _ => ?_
      exact keeps_pure trivial

/-- Both functions of a codec are generated on a draft of their own. -/
theorem keeps_declareCodec (hygienic : em.Hygienic types) {name : String} {inner : Shape}
    (free : inner.HookFree types) : Keeps types (declareCodec em name inner) fun _ => True := by
  refine (keeps_registerGlobal fun σ d τ defined fits => ?_).discard
  obtain ⟨σ₁, within, rfl⟩ := runs_nested.mp defined
  simp only [runs_bind, runs_beginFunction, runs_pure] at within
  obtain ⟨decode, σ₂, decoder, _, _, rfl, value, σ₃, begun, ⟨encode, u⟩, σ₄, encoder, rfl, rfl⟩ :=
    within
  obtain ⟨fits, decodes⟩ := (hygienic.decodeExpr inner [] free).hygienic_decoder decoder
    ⟨fits.refs, fits.codecs⟩ rfl
  have builds := hygienic.encode inner (.place value) [.fixed value] free
    (by simp [Binder.Among, Binder.fixed])
  obtain ⟨fits, encodes⟩ := Builds.hygienic_encoder (by simp) begun encoder builds fits
  refine ⟨⟨fits.refs, fits.codecs⟩, fun c same => ?_⟩
  rw [← Decl.codec.inj same]
  exact ⟨decodes, encodes⟩

theorem keeps_aliasedOr {s : Shape} {build : Gen TypeExpr}
    (keeps : Keeps types build fun _ => True) : Keeps types (aliasedOr s build) fun _ => True := by
  refine keeps_canonicalName.bind fun signature _ => keeps_aliasOf?.bind fun found _ => ?_
  split
  · exact keeps_pure trivial
  · exact keeps

theorem keeps_typeExpr (hygienic : em.Hygienic types) {s : Shape} (free : s.HookFree types) :
    Keeps types (typeExpr em s) fun _ => True := by
  cases s with
  | prim | custom | transformed => exact keeps_pure trivial
  | optional value presence =>
    refine keeps_aliasedOr ?_
    exact (hygienic.typeExpr value (free.part List.mem_cons_self)).bind fun _ _ =>
      keeps_pure trivial
  | list item length =>
    refine keeps_aliasedOr ?_
    exact (hygienic.typeExpr item (free.part List.mem_cons_self)).withHint.bind fun _ _ =>
      keeps_pure trivial
  | map key value length =>
    refine keeps_aliasedOr ?_
    refine (hygienic.typeExpr key (free.part List.mem_cons_self)).withHint.bind fun _ _ => ?_
    refine (hygienic.typeExpr value (free.part ?_)).withHint.bind fun _ _ => keeps_pure trivial
    exact List.mem_cons_of_mem _ List.mem_cons_self
  | struct | merged | packed | flags =>
    exact (keeps_structName (hygienic.fieldTypes free)).bind fun _ _ => keeps_pure trivial
  | enum backing entries => exact keeps_enumName.bind fun _ _ => keeps_pure trivial
  | union tagField tag variants tags =>
    exact (keeps_unionName hygienic free).bind fun _ _ => keeps_pure trivial
  | slot group index kind => cases kind <;> exact keeps_pure trivial
  | «alias» name inner =>
    exact (keeps_declareAlias hygienic (free.part List.mem_cons_self)).bind fun _ _ =>
      keeps_pure trivial
  | exported name inner =>
    have free := free.part List.mem_cons_self
    refine (keeps_declareAlias hygienic free).bind fun _ _ => ?_
    exact (keeps_declareCodec hygienic free).bind fun _ _ => keeps_pure trivial
  | ref label =>
    refine keeps_refs.bind fun found same => ?_
    cases same
    split
    case h_1 target known =>
      exact hygienic.typeExpr target (free.part (Option.mem_toList.mpr known))
    case h_2 => exact keeps_throw
  | literal value backing =>
    cases backing with
    | some p => exact keeps_pure trivial
    | none => cases value <;> exact keeps_pure trivial

theorem keeps_prepare (hygienic : em.Hygienic types) {s : Shape} (free : s.HookFree types) :
    Keeps types (prepare em s) fun _ => True := by
  unfold prepare
  split
  · exact keeps_pure trivial
  · exact keeps_pure trivial
  · exact (hygienic.typeExpr _ free).discard
  · refine (hygienic.typeExpr _ free).discard.bind fun _ _ => keeps_refs.bind fun found same => ?_
    cases same
    exact keeps_forM fun part member => hygienic.prepare part (free.part member)

theorem keeps_unionTag (hygienic : em.Hygienic types) {tag : Shape}
    {tags : List (String × Literal)} {index : Nat} {key : String} (free : tag.HookFree types) :
    Keeps types (unionTag em tag tags index key) fun _ => True := by
  refine keeps_resolved.bind fun found _ => ?_
  split
  · refine (hygienic.typeExpr tag free).bind fun t _ => ?_
    split
    · dsimp only
      split
      · exact keeps_pure trivial
      · exact keeps_throw
    · exact keeps_canonicalName.bind fun _ _ => keeps_throw
  · exact keeps_pure trivial
  · split <;> exact keeps_pure trivial
  · split
    · split
      · exact keeps_pure trivial
      · exact keeps_canonicalName.bind fun _ _ => keeps_throw
      · exact keeps_pure trivial
    · exact keeps_canonicalName.bind fun _ _ => keeps_throw
  · exact keeps_canonicalName.bind fun _ _ => keeps_throw

theorem keeps_tagIsExhaustive {tag : Shape} {variants : List (String × Shape)}
    {tags : List (String × Literal)} :
    Keeps types (tagIsExhaustive tag variants tags) fun _ => True := by
  refine keeps_resolved.bind fun found _ => ?_
  split <;> exact keeps_pure trivial

/-! ### Decoders -/

/-- The bindings are in force. -/
def AreBound (bindings : List (String × Local)) (visible : List Binder) : Prop :=
  ∀ x ∈ bindings, Binder.fixed x.2 ∈ visible

/-- The binding of the field is in force. -/
def FieldIsBound (x : Field × Local) (visible : List Binder) : Prop := Binder.fixed x.2 ∈ visible

/-- Decodes and binds a field. -/
abbrev bindField (em : Emitter) (f : Field) : Gen (Field × Local) := do
  let x ← Gen.withHint f.name (Gen.declare f.name (em.decodeExpr f.shape))
  return (f, x)

theorem builds_bindFields {fields : List Field} (parts : ∀ f ∈ fields, ∀ visible,
      Builds types visible [] (em.decodeExpr f.shape) Yields) :
    Builds types visible [] (fields.mapM (bindField em)) fun xs visible' waiting =>
      waiting = [] ∧ ∀ x ∈ xs, FieldIsBound x visible' := by
  refine builds_mapM (Q := FieldIsBound) (fun x _ _ wider => wider _) fun f member visible' _ => ?_
  refine (parts f member visible').declare.withHint.bind ?_
  rintro x visible'' _ _ ⟨rfl, bound⟩
  exact builds_pure ⟨rfl, bound⟩

theorem builds_decodeFields {fields : List Field} (parts : ∀ f ∈ fields, ∀ visible,
      Builds types visible [] (em.decodeExpr f.shape) Yields) :
    Builds types visible [] (decodeFields em fields) Binds := by
  refine (builds_bindFields parts).bind ?_
  rintro xs visible' _ _ ⟨rfl, bound⟩
  refine builds_pure ⟨rfl, fun x member => ?_⟩
  obtain ⟨y, among, rfl⟩ := List.mem_map.mp member
  exact bound y (List.mem_filter.mp among).1

theorem builds_decodeGroup {backing : Primitive} {group : Nat} {fields : List Field}
    (parts : ∀ f ∈ fields, ∀ visible, Builds types visible [] (em.decodeExpr f.shape) Yields) :
    Builds types visible [] (decodeGroup em backing group fields) Binds := by
  refine keeps_lastHint.before (quiet_lastHint _) fun hint _ => ?_
  refine (Builds.declare (builds_pure ⟨rfl, Expr.scoped_read⟩)).bind ?_
  rintro raw visible' _ _ ⟨rfl, bound⟩
  refine (builds_decodeFields parts).withGroup fun e same => ?_
  cases same
  exact Expr.scoped_var.mpr ⟨false, bound⟩

theorem builds_decodeBindings (hygienic : em.Hygienic types) {s : Shape} (free : s.HookFree types) :
    Builds types visible [] (decodeBindings em s) Binds := by
  have fails : Builds types visible [] (do throw (.notAStruct (← Gen.canonicalName s)) :
      Gen (List (String × Local))) Binds :=
    keeps_canonicalName.before (quiet_canonicalName s) fun _ _ => builds_throw
  have resolves (part : Shape) (free : part.HookFree types) (visible : List Binder) :
      Builds types visible [] (do em.decodeBindings (← Gen.resolved part)) Binds :=
    keeps_resolved.before (quiet_resolved part) fun found resolved =>
      hygienic.decodeBindings found visible (free.resolved resolved)
  cases s with
  | struct fields =>
    exact builds_decodeFields fun f member visible =>
      hygienic.decodeExpr f.shape visible (free.field member)
  | merged parts =>
    have each : Builds types visible []
        (parts.mapM fun part => do em.decodeBindings (← Gen.resolved part))
        fun xss visible' waiting => waiting = [] ∧ ∀ xs ∈ xss, AreBound xs visible' :=
      builds_mapM (fun xs _ _ wider bound x member => wider _ (bound x member))
        fun part member visible' _ => resolves part (free.part member) visible'
    refine each.bind ?_
    rintro xss visible' _ _ ⟨rfl, bound⟩
    refine builds_pure ⟨rfl, fun x member => ?_⟩
    obtain ⟨xs, among, member⟩ := List.mem_flatten.mp member
    exact bound xs among x member
  | packed backing widths fields group | flags backing masks fields group =>
    exact builds_decodeGroup fun f member visible =>
      hygienic.decodeExpr f.shape visible (free.part (List.mem_map_of_mem member))
  | «alias» | exported | ref => exact resolves _ free visible
  | _ => exact fails

theorem scoped_structOf {type : String} {bindings : List (String × Local)}
    (bound : ∀ x ∈ bindings, Binder.fixed x.2 ∈ visible) :
    (structOf type bindings).Scoped Binder.Among visible := by
  refine Expr.scoped_struct.mpr (List.forall_mem_map.mpr fun x member => ?_)
  exact Expr.scoped_var.mpr ⟨false, bound x member⟩

theorem scoped_slotExpr {raw e : Expr} {kind : SlotKind} (found : slotExpr raw kind = .ok e)
    (seen : raw.Scoped Binder.Among visible) : e.Scoped Binder.Among visible := by
  cases kind with
  | bits shift width backing =>
    simp only [slotExpr, bind, Except.bind] at found
    split at found
    · cases found
    have shifted : (if shift = 0 then raw else .binary .shr raw (.int shift .u32)).Scoped
        Binder.Among visible := by
      split
      · exact seen
      · simpa using seen
    split at found
    · split at found
      · cases found
        exact shifted
      · cases found
        simpa using shifted
    · split at found
      · cases found
        exact shifted
      · cases found
        simpa using shifted
  | flag mask backing =>
    simp only [slotExpr, bind, Except.bind] at found
    split at found
    · cases found
    · cases found
      simpa using seen

theorem builds_decodeSlot {group index : Nat} {kind : SlotKind} :
    Builds types visible [] (decodeSlot group index kind) Yields := by
  refine builds_activeGroup?.bind ?_
  rintro found _ _ _ ⟨rfl, rfl, seen⟩
  split
  · exact keeps_ofExcept.builds (quiet_ofExcept _) fun e ok =>
      ⟨rfl, scoped_slotExpr ok (seen _ _ rfl rfl)⟩
  · exact builds_throw

/-- A captured block whose result is set or added at the end. -/
theorem scoped_ending {b : Block} {visible' : List Binder}
    (holds : Stmt.Scoped Binder.Among visible b.body) (wider : ∀ c ∈ visible, c ∈ visible')
    {s : Stmt} {x : Local} {e : Expr} (form : s = .assign x e ∨ s = .push x e)
    (target : ⟨x, true⟩ ∈ visible')
    (kept : ∀ inForce, b.result.Scoped Binder.Among inForce → e.Scoped Binder.Among inForce) :
    Stmt.Scoped Binder.Among visible' (b.stmts ++ [s]) := by
  obtain ⟨stmts, result⟩ := Block.scoped_body.mp (holds.widen wider)
  refine Stmt.scoped_append.mpr ⟨stmts, ?_⟩
  have settable : ⟨x, true⟩ ∈ Stmt.after visible' b.stmts := Stmt.mem_after_of_mem target
  rcases form with rfl | rfl
  · refine Stmt.scoped_single (List.forall_mem_singleton.mpr (kept _ result)) ?_
      (List.forall_mem_nil _)
    simpa [Stmt.targetVar?] using settable
  · refine Stmt.scoped_single (List.forall_mem_singleton.mpr (kept _ result)) ?_
      (List.forall_mem_nil _)
    simpa [Stmt.targetVar?] using settable

theorem builds_decodeOptional {value presence : Shape}
    (tests : ∀ visible, Builds types visible [] (em.decodeExpr presence) Yields)
    (values : ∀ visible, Builds types visible [] (em.decodeExpr value) Yields) :
    Builds types visible [] (decodeOptional em value presence) Yields := by
  refine keeps_refs.before quiet_refs fun refs _ => ?_
  split
  · exact keeps_canonicalName.before (quiet_canonicalName _) fun _ _ => builds_throw
  refine (tests visible).bind ?_
  rintro test visible₁ _ _ ⟨rfl, tested⟩
  refine (values visible₁).captureBlock.bind ?_
  rintro block _ _ _ ⟨rfl, rfl, holds⟩
  -- A value without statements stands in the expression; otherwise a binding is set under the test.
  split
  case isTrue plain =>
    have none : block.stmts = [] := List.isEmpty_iff.mp plain
    have result := (Block.scoped_body.mp holds).2
    rw [none] at result ⊢
    exact builds_pure ⟨rfl, Expr.scoped_cond.mpr ⟨tested, Expr.scoped_present.mpr result,
      Expr.scoped_absent⟩⟩
  case isFalse =>
    refine keeps_lastHint.before (quiet_lastHint _) fun hint _ => ?_
    refine (builds_declareMut Expr.scoped_absent).bind ?_
    rintro x visible₂ _ wider ⟨rfl, settable⟩
    refine (builds_emit [] ?_ (by simp [List.Subperm.refl])).bind ?_
    · refine Stmt.scoped_single ?_ nofun ?_
      · exact List.forall_mem_singleton.mpr (tested.widen wider)
      · have body := scoped_ending holds wider (.inl rfl) settable
          (e := .present block.result) fun _ => Expr.scoped_present.mpr
        simpa [Stmt.inner] using ⟨body, .nil⟩
    · rintro _ _ _ _ ⟨rfl, rfl⟩
      exact builds_pure ⟨rfl, Expr.scoped_var.mpr ⟨true, settable⟩⟩

theorem builds_decodeCollection {length : Primitive} {empty : Expr} {item : Gen Expr}
    (new : ∀ visible, empty.Scoped Binder.Among visible)
    (builds : ∀ visible, Builds types visible [] item Yields) :
    Builds types visible [] (decodeCollection length empty item) Yields := by
  unfold decodeCollection
  split
  · exact builds_throw
  refine keeps_lastHint.before (quiet_lastHint _) fun name _ => ?_
  refine (Builds.declare (builds_pure ⟨rfl, Expr.scoped_read⟩)).bind ?_
  rintro count visible₁ _ _ ⟨rfl, counted⟩
  refine (builds_declareMut (new visible₁)).bind ?_
  rintro acc visible₂ _ wider ⟨rfl, settable⟩
  refine (builds visible₂).captureBlock.bind ?_
  rintro block _ _ _ ⟨rfl, rfl, holds⟩
  refine (builds_emit [] ?_ (by simp [List.Subperm.refl])).bind ?_
  · refine Stmt.scoped_single ?_ nofun ?_
    · exact List.forall_mem_singleton.mpr (Expr.scoped_var.mpr ⟨false, wider _ counted⟩)
    · have body := scoped_ending holds (fun _ => id) (.inr rfl) settable fun _ => id
      simpa [Stmt.inner] using body
  · rintro _ _ _ _ ⟨rfl, rfl⟩
    exact builds_pure ⟨rfl, Expr.scoped_var.mpr ⟨true, settable⟩⟩

/-- The key and the value of an entry of a map, each bound. -/
abbrev bindEntry (em : Emitter) (key value : Shape) : Gen Expr := do
  let k ← Gen.withHint "key" (Gen.declare "key" (em.decodeExpr key))
  let v ← Gen.withHint "value" (Gen.declare "val" (em.decodeExpr value))
  return .pair (.var k) (.var v)

theorem builds_bindEntry {key value : Shape}
    (keys : ∀ visible, Builds types visible [] (em.decodeExpr key) Yields)
    (values : ∀ visible, Builds types visible [] (em.decodeExpr value) Yields) :
    Builds types visible [] (bindEntry em key value) Yields := by
  refine (keys visible).declare.withHint.bind ?_
  rintro k visible₁ _ _ ⟨rfl, bound⟩
  refine (values visible₁).declare.withHint.bind ?_
  rintro v visible₂ _ wider ⟨rfl, bound'⟩
  exact builds_pure ⟨rfl, Expr.scoped_pair.mpr
    ⟨Expr.scoped_var.mpr ⟨false, wider _ bound⟩, Expr.scoped_var.mpr ⟨false, bound'⟩⟩⟩

theorem builds_decodePayload (hygienic : em.Hygienic types) {key : String} {payload : Shape}
    (free : payload.HookFree types) :
    Builds types visible [] (decodePayload em key payload) fun found visible' waiting =>
      waiting = [] ∧ ∀ e, found = some e → e.Scoped Binder.Among visible' := by
  refine keeps_storedFields.before (quiet_storedFields _) fun fields _ => ?_
  split
  · refine keeps_resolved.before (quiet_resolved _) fun found resolved => ?_
    refine (hygienic.decodeBindings found visible (free.resolved resolved)).discard.bind ?_
    rintro _ visible' _ _ ⟨_, rfl, _⟩
    exact builds_pure ⟨rfl, nofun⟩
  · refine (hygienic.decodeExpr payload visible free).withHint.bind ?_
    rintro e visible' _ _ ⟨rfl, seen⟩
    exact builds_pure ⟨rfl, by simpa using seen⟩

/-! ### Arms -/

/-- Each arm is scoped by what is in force and by the binding of its pattern. -/
def ArmsScoped (visible : List Binder) (arms : List (Pattern × List Stmt)) : Prop :=
  ∀ arm ∈ arms, Stmt.Scoped Binder.Among (arm.1.binding?.toList.map .fixed ++ visible) arm.2

/-- What arms introduce, arm by arm. -/
def armBinders (arms : List (Pattern × List Stmt)) : List Binder :=
  arms.flatMap fun arm => arm.1.binding?.toList.map .fixed ++ Stmt.introduced arm.2

theorem introduced_select (e : Expr) (arms : List (Pattern × List Stmt))
    (fallback : Option Failure) :
    (Stmt.introduced [.select e arms fallback]).Perm (armBinders arms) := by
  simp only [Stmt.introduced_cons, Stmt.introduces, Stmt.opened, Stmt.inner, Stmt.blocks,
    List.nil_append, List.flatMap_map, Stmt.introduced_nil, List.append_nil]
  exact List.flatMap_append_perm _ _ _

/-- The arms wait with what they introduce. -/
def Arms (visible : List Binder) (waiting : List Local) (arms : List (Pattern × List Stmt))
    (visible' : List Binder) (waiting' : List Local) : Prop :=
  visible' = visible ∧ ((armBinders arms).map (·.var) ++ waiting).Subperm waiting' ∧
    ArmsScoped visible arms

@[simp]
theorem Tag.binding?_pattern (t : Tag) : t.pattern.binding? = none := by
  cases t <;> rfl

theorem Tag.scoped_expr (t : Tag) : t.expr.Scoped Binder.Among visible := by
  cases t with
  | lit l => exact Expr.scoped_lit
  | enum type name => exact Expr.scoped_enumValue

theorem builds_decodeArms (hygienic : em.Hygienic types) {type : String} {tag : Shape}
    {tags : List (String × Literal)} {result : Local} (free : tag.HookFree types)
    {variants : List (String × Shape)} (payloads : ∀ v ∈ variants, v.2.HookFree types)
    (settable : ⟨result, true⟩ ∈ visible) (seen : List Tag) (index : Nat) :
    Builds types visible waiting (decodeArms em type tag tags result seen index variants)
      (Arms visible waiting) := by
  induction variants generalizing seen index waiting with
  | nil => exact builds_pure ⟨rfl, List.Subperm.refl _, nofun⟩
  | cons first rest ih =>
    refine (keeps_unionTag hygienic free).before (quiet_unionTag hygienic.quiet _ _ _ _)
      fun value _ => ?_
    split
    · exact builds_throw
    obtain ⟨key, payload⟩ := first
    have block : Builds types visible []
        (do return .variant type key (← decodePayload em key payload)) Yields := by
      refine (builds_decodePayload hygienic (payloads _ List.mem_cons_self)).bind ?_
      rintro found visible' _ _ ⟨rfl, seen⟩
      exact builds_pure ⟨rfl, Expr.scoped_variant.mpr seen⟩
    refine block.captureBlock.bind ?_
    rintro block _ _ _ ⟨rfl, rfl, holds⟩
    -- The other arms are generated while what this one introduces waits.
    refine (ih (fun v member => payloads v (List.mem_cons_of_mem _ member)) _ _).bind ?_
    rintro arms _ waiting' _ ⟨rfl, owned, scopes⟩
    refine builds_pure ⟨rfl, ?_, List.forall_mem_cons.mpr ⟨?_, scopes⟩⟩
    · refine List.Subperm.trans (List.Perm.subperm ?_) owned
      simp only [armBinders, List.flatMap_cons, Tag.binding?_pattern, Option.toList_none,
        List.map_nil, List.nil_append, Stmt.introduced_append, Stmt.introduced_assign,
        List.append_nil, List.map_append, List.append_assoc]
      exact List.perm_append_comm_assoc _ _ _
    · rw [Tag.binding?_pattern]
      exact scoped_ending holds (fun _ => id) (.inl rfl) settable fun _ => id

theorem builds_select {src : Expr} {arms : List (Pattern × List Stmt)} {fallback : Option Failure}
    (seen : src.Scoped Binder.Among visible)
    (raised : ∀ f, fallback = some f → ∀ e ∈ f.exprs, e.Scoped Binder.Among visible)
    (owned : ((armBinders arms).map (·.var)).Subperm waiting) (scopes : ArmsScoped visible arms) :
    Builds types visible waiting (Gen.emit (.select src arms fallback)) fun _ visible' waiting' =>
      visible' = visible ∧ waiting' = [] := by
  refine builds_emit [] (Stmt.scoped_single ?_ nofun ?_) ?_
  · intro e member
    rcases List.mem_cons.mp member with rfl | member
    · exact seen
    · obtain ⟨f, same, own⟩ := List.mem_flatMap.mp member
      exact raised f (Option.mem_toList.mp same) e own
  · exact List.forall_mem_map.mpr scopes
  · rw [List.append_nil]
    exact ((introduced_select src arms fallback).map _).subperm.trans owned

theorem builds_decodeUnion (hygienic : em.Hygienic types) {tagField : String} {tag : Shape}
    {variants : List (String × Shape)} {tags : List (String × Literal)}
    (free : (Shape.union tagField tag variants tags).HookFree types) :
    Builds types visible [] (decodeUnion em tagField tag variants tags) Yields := by
  have tagFree : tag.HookFree types := free.part List.mem_cons_self
  have payloads : ∀ v ∈ variants, v.2.HookFree types := fun v member =>
    free.part (List.mem_cons_of_mem _ (List.mem_map_of_mem member))
  refine (keeps_unionName hygienic free).before (quiet_unionName _ _ _ _ _) fun type _ => ?_
  refine (hygienic.decodeExpr tag visible tagFree).declare.withHint.bind ?_
  rintro value visible₁ _ _ ⟨rfl, bound⟩
  refine keeps_lastHint.before (quiet_lastHint _) fun hint _ => ?_
  refine builds_declareDeferred.bind ?_
  rintro result visible₂ _ wider ⟨rfl, settable⟩
  have known : (Expr.var value).Scoped Binder.Among visible₂ :=
    Expr.scoped_var.mpr ⟨false, wider _ bound⟩
  refine (builds_decodeArms hygienic tagFree payloads settable _ _).bind ?_
  rintro arms _ waiting _ ⟨rfl, owned, scopes⟩
  refine keeps_tagIsExhaustive.before (quiet_tagIsExhaustive _ _ _) fun exhaustive _ => ?_
  refine (builds_select known ?_ (by simpa using owned) scopes).bind ?_
  · intro f same
    split at same
    · cases same
    · cases same
      exact List.forall_mem_singleton.mpr known
  · rintro _ _ _ _ ⟨rfl, rfl⟩
    exact builds_pure ⟨rfl, Expr.scoped_var.mpr ⟨true, settable⟩⟩

theorem builds_decodeLiteral {value : Literal} {backing : Option Primitive} :
    Builds types visible [] (decodeLiteral value backing) Yields := by
  cases backing with
  | none => exact builds_pure ⟨rfl, Expr.scoped_lit⟩
  | some p =>
    refine (Builds.declare (builds_pure ⟨rfl, Expr.scoped_read⟩)).bind ?_
    rintro found visible' _ _ ⟨rfl, bound⟩
    have known : (Expr.var found).Scoped Binder.Among visible' := Expr.scoped_var.mpr ⟨false, bound⟩
    refine (builds_emit [] ?_ (by simp [List.Subperm.refl])).bind ?_
    · refine Stmt.scoped_single ?_ nofun ?_
      · exact List.forall_mem_singleton.mpr (Expr.scoped_binary.mpr ⟨known, Expr.scoped_lit⟩)
      · have raises : Stmt.Scoped Binder.Among visible'
            [.fail (.literalMismatch value (.var found))] :=
          Stmt.scoped_single (List.forall_mem_singleton.mpr known) nofun nofun
        simpa [Stmt.inner] using ⟨raises, .nil⟩
    · rintro _ _ _ _ ⟨rfl, rfl⟩
      exact builds_pure ⟨rfl, Expr.scoped_lit⟩

/-- What is behind a reference is generated in its place. -/
theorem builds_ref {label : String} {act : Shape → Gen α}
    {post : α → List Binder → List Local → Prop}
    (free : (Shape.ref label).HookFree types)
    (builds : ∀ target, target.HookFree types → Builds types visible waiting (act target) post) :
    Builds types visible waiting (do
      match (← Gen.refs).lookup label with
      | some target => act target
      | none => throw (.unresolvedReference label)) post := by
  refine keeps_refs.before quiet_refs fun refs same => ?_
  cases same
  split
  case h_1 target known => exact builds target (free.part (Option.mem_toList.mpr known))
  case h_2 => exact builds_throw

theorem builds_decodeExpr {hooks : Hooks} (hygienic : em.Hygienic types) {s : Shape}
    (free : s.HookFree types) : Builds types visible [] (decodeExpr hooks em s) Yields := by
  cases s with
  | prim p => exact builds_pure ⟨rfl, Expr.scoped_read⟩
  | optional value presence =>
    have among : presence ∈ (Shape.optional value presence).subshapes types :=
      List.mem_cons_of_mem _ List.mem_cons_self
    exact builds_decodeOptional
      (fun visible => hygienic.decodeExpr presence visible (free.part among))
      (fun visible => hygienic.decodeExpr value visible (free.part List.mem_cons_self))
  | list item length =>
    refine builds_decodeCollection (fun _ => Expr.scoped_newList) fun visible => ?_
    exact (hygienic.decodeExpr item visible (free.part List.mem_cons_self)).withHint
  | map key value length =>
    have among : value ∈ (Shape.map key value length).subshapes types :=
      List.mem_cons_of_mem _ List.mem_cons_self
    refine builds_decodeCollection (fun _ => Expr.scoped_newMap) fun visible => ?_
    exact builds_bindEntry
      (fun visible => hygienic.decodeExpr key visible (free.part List.mem_cons_self))
      (fun visible => hygienic.decodeExpr value visible (free.part among))
  | struct | merged | packed | flags =>
    refine (keeps_structName (hygienic.fieldTypes free)).before (quiet_structName _ _) fun type _ => ?_
    refine (hygienic.decodeBindings _ visible free).bind ?_
    rintro bindings visible' _ _ ⟨rfl, bound⟩
    exact builds_pure ⟨rfl, scoped_structOf bound⟩
  | enum backing entries =>
    refine keeps_enumName.before (quiet_enumName _ _) fun type _ => ?_
    exact builds_pure ⟨rfl, Expr.scoped_fromId.mpr Expr.scoped_read⟩
  | union tagField tag variants tags => exact builds_decodeUnion hygienic free
  | slot group index kind => exact builds_decodeSlot
  | «alias» name inner =>
    refine (hygienic.typeExpr _ free).discard.before (hygienic.quiet _).discard fun _ _ => ?_
    exact hygienic.decodeExpr inner visible (free.part List.mem_cons_self)
  | exported name inner =>
    refine (hygienic.typeExpr _ free).discard.before (hygienic.quiet _).discard fun _ _ => ?_
    exact builds_pure ⟨rfl, Expr.scoped_callDecode⟩
  | custom signature definition hook => exact absurd free (Shape.not_hookFree_custom _ _ _)
  | ref label => exact builds_ref free fun target => hygienic.decodeExpr target visible
  | transformed name backing hostType fromWire toWire transform =>
    refine keeps_registerFunction.before (quiet_registerFunction _ _) fun _ _ => ?_
    refine (hygienic.decodeExpr backing visible (free.part List.mem_cons_self)).bind ?_
    rintro raw visible' _ _ ⟨rfl, seen⟩
    exact builds_pure ⟨rfl, Expr.scoped_call.mpr (List.forall_mem_singleton.mpr seen)⟩
  | literal value backing => exact builds_decodeLiteral

end WireSchema.Lowering
