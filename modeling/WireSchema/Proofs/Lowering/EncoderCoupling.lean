import WireSchema.Proofs.Lowering.Coupling

/-!
# Corresponding shapes are written alike

The encoders of shapes that stand for the same are equal up to names, and so are all emitters.
-/

namespace WireSchema.Lowering.Sides

open Ir

variable {S : Sides} {hooks : Hooks} {w : World} {γ γ' : List ActiveGroup} {depth depth' : Nat}
  {em em' : Emitter} {src src' : Expr}

/-! ### Bits -/

theorem rename_orTerms (ρ : Renaming) (kind : IntKind) (terms : List Expr) :
    (orTerms kind terms).rename ρ = orTerms kind (terms.map (Expr.rename ρ)) := by
  cases terms with
  | nil => rfl
  | cons term rest =>
    show Expr.rename ρ (rest.foldl _ term) = (rest.map (Expr.rename ρ)).foldl _ (term.rename ρ)
    induction rest generalizing term with
    | nil => rfl
    | cons other rest ih => exact ih (.binary .bitOr term other)

/-- The same slot of another struct gives the same term. -/
theorem rename_packedTerm {group group' : Nat} {f f' : Field} (same : Shape.SameSlot group group' f f')
    {owner : String} (owner' : String) {kind : IntKind} {e : Expr}
    (ran : packedTerm owner kind src f = .ok e) (ρ : Renaming) : packedTerm owner' kind (src.rename ρ) f' = .ok (e.rename ρ) := by
  obtain ⟨name, index, slot, isSlot, isSlot'⟩ := same
  unfold packedTerm at ran ⊢
  rw [isSlot] at ran
  rw [isSlot']
  cases slot with
  | flag => cases ran
  | bits shift width backing =>
    cases ran
    dsimp only
    rw [← name]
    split <;> split <;> rfl

theorem rename_packedTerms {group group' : Nat} {fields fields' : List Field}
    (each : List.Forall₂ (Shape.SameSlot group group') fields fields') {owner : String}
    (owner' : String) {kind : IntKind} {es : List Expr}
    (ran : fields.mapM (packedTerm owner kind src) = .ok es) (ρ : Renaming) : fields'.mapM (packedTerm owner' kind (src.rename ρ)) =
      .ok (es.map (Expr.rename ρ)) := by
  induction each generalizing es with
  | nil =>
    cases ran
    rfl
  | @cons f f' rest rest' first _ ih =>
    rw [List.mapM_cons] at ran ⊢
    cases found : packedTerm owner kind src f with
    | error e =>
      rw [found] at ran
      cases ran
    | ok e =>
      cases others : rest.mapM (packedTerm owner kind src) with
      | error e =>
        rw [found, others] at ran
        cases ran
      | ok es =>
        rw [found, others] at ran
        cases ran
        rw [rename_packedTerm first owner' found ρ, ih others]
        rfl

theorem rename_flagTerm {group group' : Nat} {f f' : Field} (same : Shape.SameSlot group group' f f')
    (kind : IntKind) (src : Expr) (ρ : Renaming) :
    flagTerm kind group' (src.rename ρ) f' = (flagTerm kind group src f).map (Expr.rename ρ) := by
  obtain ⟨name, index, slot, isSlot, isSlot'⟩ := same
  unfold flagTerm
  rw [isSlot, isSlot', ← name]
  dsimp only [Shape.slotOf?]
  rw [if_pos rfl, if_pos rfl]
  cases slot <;> rfl

theorem rename_flagTerms {group group' : Nat} {fields fields' : List Field}
    (each : List.Forall₂ (Shape.SameSlot group group') fields fields') (kind : IntKind) (src : Expr)
    (ρ : Renaming) : fields'.filterMap (flagTerm kind group' (src.rename ρ)) =
      (fields.filterMap (flagTerm kind group src)).map (Expr.rename ρ) := by
  induction each with
  | nil => rfl
  | cons first _ ih =>
    rw [List.filterMap_cons, List.filterMap_cons, rename_flagTerm first kind src ρ, ih]
    cases flagTerm kind group src _ <;> rfl

/-- The same slots, seen from the struct they are part of. -/
theorem sameSlot_right {group group' : Nat} {fields fields' : List Field}
    (each : List.Forall₂ (Shape.SameSlot group group') fields fields') :
    List.Forall₂ (Shape.SameSlot group' group') fields' fields' := by
  induction each with
  | nil => exact .nil
  | cons first _ ih =>
    obtain ⟨_, index, kind, _, isSlot'⟩ := first
    exact .cons ⟨rfl, index, kind, isSlot', isSlot'⟩ ih

/-- Nothing follows the flags if all fields are flags. -/
theorem filter_followsFlags {group group' : Nat} {fields fields' : List Field}
    (each : List.Forall₂ (Shape.SameSlot group group') fields fields') :
    fields.filter followsFlags = [] ∧ fields'.filter followsFlags = [] := by
  induction each with
  | nil => exact ⟨rfl, rfl⟩
  | @cons f f' _ _ first _ ih =>
    obtain ⟨_, index, kind, isSlot, isSlot'⟩ := first
    have flag : followsFlags f = false := by
      unfold followsFlags
      rw [isSlot]
    have flag' : followsFlags f' = false := by
      unfold followsFlags
      rw [isSlot']
    rw [List.filter_cons, List.filter_cons, flag, flag']
    exact ih

/-- The integers of packed structs with the same slots. -/
theorem couples_packedTerms {group group' : Nat} {fields fields' : List Field}
    (each : List.Forall₂ (Shape.SameSlot group group') fields fields')
    (alike : S.AlikeExpr w src src') (owner owner' : String) (kind : IntKind) :
    S.Couples w γ γ' (Gen.ofExcept (fields.mapM (packedTerm owner kind src)))
      (Gen.ofExcept (fields'.mapM (packedTerm owner' kind src')))
      fun w es es' => S.AlikeExpr w (orTerms kind es) (orTerms kind es') := by
  refine couples_ofExcept fun es es' ran ran' ρ ρ' admits => ?_
  have same : src.rename ρ = src'.rename ρ' := alike ρ ρ' admits
  have terms := rename_packedTerms each "" ran ρ
  have terms' := rename_packedTerms (sameSlot_right each) "" ran' ρ'
  rw [same, terms'] at terms
  dsimp only
  rw [rename_orTerms, rename_orTerms, Except.ok.inj terms]

theorem alike_flagTerms {group group' : Nat} {fields fields' : List Field}
    (each : List.Forall₂ (Shape.SameSlot group group') fields fields')
    (alike : S.AlikeExpr w src src') (kind : IntKind) :
    S.AlikeExpr w (orTerms kind (fields.filterMap (flagTerm kind group src)))
      (orTerms kind (fields'.filterMap (flagTerm kind group' src'))) := by
  intro ρ ρ' admits
  have same : src.rename ρ = src'.rename ρ' := alike ρ ρ' admits
  dsimp only
  rw [rename_orTerms, rename_orTerms, ← rename_flagTerms each,
    ← rename_flagTerms (sameSlot_right each), same]

theorem couples_backingKind (p : Primitive) : S.Couples w γ γ' (Gen.ofExcept (Shape.backingKind p))
    (Gen.ofExcept (Shape.backingKind p)) fun _ kind kind' => kind' = kind :=
  couples_ofExcept fun _ _ found found' => Except.ok.inj (found'.symm.trans found)

/-! ### Fields -/

theorem couples_encodeInOrder (coupled : S.Coupled em em') {fields fields' : List Field}
    (each : List.Forall₂ (fun f f' => f.name = f'.name ∧ S.Corresponds f.shape f'.shape) fields
      fields') (alike : S.AlikeExpr w src src') :
    S.Couples w γ γ' (encodeInOrder em src fields) (encodeInOrder em' src' fields')
      fun _ _ _ => True := by
  refine couples_forM each ?_
  rintro w' later f f' ⟨name, shape⟩
  rw [← name]
  exact (coupled.encode shape ((alike.later later).map fun e => Expr.field e f.name)).withHint

theorem encodeFields_indirect (em : Emitter) {s : Shape} (indirect : ¬s.IsDirect) (src : Expr) :
    encodeFields em s src = (do em.encodeFields (← Gen.resolved s) src) := by
  cases s <;> first | rfl | exact absurd trivial indirect

theorem couples_encodeFields_direct (coupled : S.Coupled em em') {s s' : Shape}
    (corresponds : S.Corresponds s s') (direct : s.IsDirect) (direct' : s'.IsDirect)
    (alike : S.AlikeExpr w src src') :
    S.Couples w γ γ' (encodeFields em s src) (encodeFields em' s' src') fun _ _ _ => True := by
  cases corresponds.layer S.solves S.solves' with
  | left | «alias» | exported => exact direct.elim
  | right => exact direct'.elim
  | struct each => exact couples_encodeInOrder coupled each alike
  | merged each =>
    refine couples_forM each fun w' later part part' inner => ?_
    refine (couples_resolved part part').bind fun w'' later' t t' found => ?_
    exact coupled.encodeFields (inner.resolved S.solves S.solves' found.1 found.2)
      ((alike.later later).later later')
  | packed each =>
    refine (couples_backingKind _).bind fun w₁ later₁ kind kind' same => ?_
    cases same
    refine (couples_canonicalName _ _).bind fun w₂ later₂ owner owner' _ => ?_
    have here : S.AlikeExpr w₂ src src' := (alike.later later₁).later later₂
    refine (couples_packedTerms each here owner owner' kind).bind fun w₃ _ es es' same =>
      couples_emit ?_
    exact same.map fun e => Stmt.write _ e
  | flags each =>
    refine (couples_backingKind _).bind fun w₁ later kind kind' same => ?_
    cases same
    obtain ⟨none, none'⟩ := filter_followsFlags each
    rw [none, none']
    refine (couples_emit ?_).bind fun w₂ _ _ _ _ => (couples_pure trivial).withGroup
    exact (alike_flagTerms each (alike.later later) kind).map fun e => Stmt.write _ e
  | prim | optional | list | map | enum | union | literal => exact couples_never never_throw

theorem couples_encodeFields (both : S.CoupledAt hooks depth depth')
    (left : S.CoupledAt hooks depth (depth' + 1)) (right : S.CoupledAt hooks (depth + 1) depth')
    {s s' : Shape} (corresponds : S.Corresponds s s') (alike : S.AlikeExpr w src src') :
    S.Couples w γ γ' (encodeFields (emitter hooks depth) s src)
      (encodeFields (emitter hooks depth') s' src') fun _ _ _ => True := by
  by_cases direct : s.IsDirect
  · by_cases direct' : s'.IsDirect
    · exact couples_encodeFields_direct both corresponds direct direct' alike
    · rw [encodeFields_indirect _ direct']
      refine couples_behind' fun t' found => right.encodeFields ?_ alike
      exact corresponds.resolved_right S.solves' direct found
  · rw [encodeFields_indirect _ direct]
    by_cases direct' : s'.IsDirect
    · refine couples_behind fun t found => left.encodeFields ?_ alike
      exact corresponds.resolved_left S.solves found direct'
    · rw [encodeFields_indirect _ direct']
      refine (couples_resolved s s').bind fun w' later t t' found => ?_
      exact both.encodeFields (corresponds.resolved S.solves S.solves' found.1 found.2)
        (alike.later later)

/-! ### Encoders -/

theorem couples_writeLength (length : Primitive) (alike : S.AlikeExpr w src src') :
    S.Couples w γ γ' (writeLength length src) (writeLength length src') fun _ _ _ => True := by
  refine (couples_backingKind length).bind fun w₁ later kind kind' same => couples_emit ?_
  cases same
  exact (alike.later later).map fun e => Stmt.write length (.cast (.len e) kind)

theorem couples_encodeOptional (coupled : S.Coupled em em') {value value' : Shape}
    (inner : S.Corresponds value value') (alike : S.AlikeExpr w src src') :
    S.Couples w γ γ' (encodeOptional em value (.prim .bool) src)
      (encodeOptional em' value' (.prim .bool) src') fun _ _ _ => True := by
  refine couples_refs.bind fun w₁ later₁ refs refs' _ => ?_
  simp only [isBoolean_bool, Bool.not_true, Bool.false_eq_true, if_false]
  have tests : S.AlikeExpr w₁ (.isPresent src) (.isPresent src') :=
    (alike.later later₁).map Expr.isPresent
  refine (coupled.encode (corresponds_prim .bool) tests).bind fun w₂ later₂ _ _ _ => ?_
  refine (couples_lastHint "inner").bind fun w₃ later₃ hint hint' same => ?_
  cases same
  refine (couples_alloc hint).bind fun w₄ later₄ x x' same => ?_
  cases same
  have place : S.AlikeExpr w₄ (.place x) (.place x) := fun _ _ _ => rfl
  refine (coupled.encode inner place).capture.bind fun w₅ later₅ out out' bodies => ?_
  obtain ⟨body, _⟩ := out
  obtain ⟨body', _⟩ := out'
  have empty := bodies.1.map List.isEmpty
  simp only [Stmt.isEmpty_renameBlock] at empty
  dsimp only
  rw [empty.eq]
  split
  · refine couples_emit ?_
    have later := (((later₁.trans later₂).trans later₃).trans later₄).trans later₅
    exact (alike.later later).pair bodies.1 fun e body => Stmt.ifPresent x e body
  · exact couples_pure trivial

theorem rename_expr {t t' : Tag} (same : t'.plain = t.plain) (ρ ρ' : Renaming) :
    t.expr.rename ρ = t'.expr.rename ρ' := by
  cases t <;> cases t' <;> cases same <;> rfl

/-- One of two computations first, then the same in either case. -/
theorem couples_either {α β α' β' : Type} {Q : World → α → β → Prop} {R : World → α' → β' → Prop}
    {c : Prop} [Decidable c] {yes no : Gen α} {yes' no' : Gen β} {next : α → Gen α'}
    {next' : β → Gen β'} (ofYes : S.Couples w γ γ' yes yes' Q) (ofNo : S.Couples w γ γ' no no' Q)
    (rest : ∀ w', w.Before w' → ∀ a b, Q w' a b → S.Couples w' γ γ' (next a) (next' b) R) :
    S.Couples w γ γ' (if c then yes >>= next else no >>= next)
      (if c then yes' >>= next' else no' >>= next') R := by
  split
  · exact ofYes.bind rest
  · exact ofNo.bind rest

theorem couples_encodeArms (coupled : S.CoupledAt hooks depth depth') {type type' tagField : String}
    {tag tag' : Shape} {tags : List (String × Literal)}
    {variants variants' : List (String × Shape)} (ofTag : S.Corresponds tag tag')
    (each : List.Forall₂ (Shape.SameVariant S.Corresponds) variants variants') (index : Nat) :
    S.Couples w γ γ'
      (encodeArms (emitter hooks depth) type tagField tag tags index variants)
      (encodeArms (emitter hooks depth') type' tagField tag' tags index variants')
      fun w arms arms' =>
        w.Alike S.may (fun ρ => Stmt.renameArms ρ arms) fun ρ => Stmt.renameArms ρ arms' := by
  induction each generalizing w index with
  | nil => exact couples_pure (.refl _)
  | @cons v v' _ _ first _ ih =>
    obtain ⟨key, payload⟩ := v
    obtain ⟨key', payload'⟩ := v'
    obtain ⟨rfl, inner, structs⟩ := first
    refine (couples_unionTag ofTag).bind fun w₁ _ value value' plain => ?_
    refine (couples_stored inner structs).bind fun w₂ _ fields fields' empty => ?_
    rw [empty]
    refine couples_either (Q := fun _ x x' => x' = x) (couples_pure rfl) ?_ ?_
    · exact ((couples_alloc key).weaken fun _ _ _ _ same => congrArg some same).map
    intro w₃ _ binding binding' same
    cases same
    have body : S.Couples w₃ γ γ' (do
          Gen.withHint tagField ((emitter hooks depth).encode tag value.expr)
          Gen.withHint key do
            (emitter hooks depth).encodeFields (← Gen.resolved payload)
              ((binding.map Expr.place).getD .absent))
        (do
          Gen.withHint tagField ((emitter hooks depth').encode tag' value'.expr)
          Gen.withHint key do
            (emitter hooks depth').encodeFields (← Gen.resolved payload')
              ((binding.map Expr.place).getD .absent)) fun _ _ _ => True := by
      refine (coupled.encode ofTag fun ρ ρ' _ => rename_expr plain ρ ρ').withHint.bind
        fun w₄ _ _ _ _ => Couples.withHint ?_
      refine (couples_resolved payload payload').bind fun w₅ _ t t' found => ?_
      refine coupled.encodeFields (inner.resolved S.solves S.solves' found.1 found.2) ?_
      cases binding <;> exact fun _ _ _ => rfl
    refine body.capture.bind fun w₄ _ out out' bodies => ?_
    refine (ih (index + 1)).bind fun w₅ later arms arms' rest => couples_pure ?_
    exact (bodies.1.later later).pair rest fun body arms =>
      (Pattern.variant "" key binding, body) :: arms

theorem couples_encodeUnion (coupled : S.CoupledAt hooks depth depth') {tagField : String}
    {tag tag' : Shape} {variants variants' : List (String × Shape)}
    {tags : List (String × Literal)}
    (corresponds : S.Corresponds (.union tagField tag variants tags)
      (.union tagField tag' variants' tags)) (ofTag : S.Corresponds tag tag')
    (each : List.Forall₂ (Shape.SameVariant S.Corresponds) variants variants')
    (alike : S.AlikeExpr w src src') :
    S.Couples w γ γ' (encodeUnion (emitter hooks depth) tagField tag variants tags src)
      (encodeUnion (emitter hooks depth') tagField tag' variants' tags src') fun _ _ _ => True := by
  refine (couples_unionName corresponds).bind fun w₁ later₁ type type' _ => ?_
  refine (couples_encodeArms coupled ofTag each 0).bind fun w₂ later₂ arms arms' bodies => ?_
  refine couples_emit ?_
  exact ((alike.later later₁).later later₂).pair bodies fun e arms =>
    Stmt.select e arms (some (.unmatchedVariant ""))

theorem couples_encode (both : S.CoupledAt hooks depth depth')
    (left : S.CoupledAt hooks depth (depth' + 1)) (right : S.CoupledAt hooks (depth + 1) depth')
    {s s' : Shape} (corresponds : S.Corresponds s s') (alike : S.AlikeExpr w src src') :
    S.Couples w γ γ' (encode hooks (emitter hooks depth) s src)
      (encode hooks (emitter hooks depth') s' src') fun _ _ _ => True := by
  cases corresponds.layer S.solves S.solves' with
  | left found inner => exact couples_ref found (left.encode inner alike)
  | right found inner => exact couples_ref' found (right.encode inner alike)
  | prim p => exact couples_emit (alike.map fun e => Stmt.write p e)
  | optional inner => exact couples_encodeOptional both inner alike
  | list inner =>
    refine (couples_writeLength _ alike).bind fun w₁ later₁ _ _ _ => ?_
    refine (couples_alloc "item").bind fun w₂ later₂ x x' same => ?_
    cases same
    refine (both.encode inner fun _ _ _ => rfl).withHint.capture.bind
      fun w₃ later₃ out out' bodies => couples_emit ?_
    exact (alike.later ((later₁.trans later₂).trans later₃)).pair bodies.1 fun e body =>
      Stmt.forEach x e body
  | map first second =>
    refine (couples_writeLength _ alike).bind fun w₁ later₁ _ _ _ => ?_
    refine (couples_alloc "key").bind fun w₂ later₂ k k' same => ?_
    cases same
    refine (couples_alloc "val").bind fun w₃ later₃ v v' same => ?_
    cases same
    have place (x : Local) (w : World) : S.AlikeExpr w (.place x) (.place x) := fun _ _ _ => rfl
    refine (Couples.bind (both.encode first (place k w₃)).withHint fun w₄ _ _ _ _ =>
      (both.encode second (place v w₄)).withHint).capture.bind
        fun w₅ later₄ out out' bodies => couples_emit ?_
    exact (alike.later (((later₁.trans later₂).trans later₃).trans later₄)).pair bodies.1
      fun e body => Stmt.forEachPair k v e body
  | struct | merged | packed | flags =>
    exact (couples_structName corresponds rfl rfl).discard.bind fun w₁ later _ _ _ =>
      both.encodeFields corresponds (alike.later later)
  | enum =>
    refine (couples_enumName corresponds).bind fun w₁ later type type' same => couples_emit ?_
    exact same.pair (alike.later later) fun type e => Stmt.write _ (.toId type e)
  | union ofTag each => exact couples_encodeUnion both corresponds ofTag each alike
  | «alias» inside =>
    exact (couples_typeExpr corresponds).discard.bind fun w₁ later _ _ _ =>
      both.encode inside (alike.later later)
  | exported member below inside =>
    refine (couples_typeExpr corresponds).discard.bind fun w₁ later _ _ _ => couples_emit ?_
    intro ρ ρ' admits
    exact congrArg₂ Stmt.writeCodec (admits.codecs _ (S.calls _ _ member below))
      (alike ρ ρ' (admits.earlier later))
  | literal value backing =>
    cases backing with
    | none => exact couples_pure trivial
    | some p => exact couples_emit fun _ _ _ => rfl

/-! ### Emitters -/

/-- Emitters of any depths generate corresponding shapes alike. -/
theorem coupled_emitter (S : Sides) (hooks : Hooks) : ∀ depth depth' : Nat,
    S.CoupledAt hooks depth depth'
  | 0, _ => ⟨fun _ => couples_throw, fun _ => couples_throw, fun _ _ => couples_throw,
      fun _ _ => couples_throw⟩
  | _ + 1, 0 => ⟨fun _ => couples_throw', fun _ => couples_throw', fun _ _ => couples_throw',
      fun _ _ => couples_throw'⟩
  | depth + 1, depth' + 1 => by
    have both := coupled_emitter S hooks depth depth'
    have left := coupled_emitter S hooks depth (depth' + 1)
    have right := coupled_emitter S hooks (depth + 1) depth'
    constructor
    · intro w γ γ' s s' fields
      cases fields with
      | shape corresponds => exact couples_decodeExpr both left right corresponds
      | slot active active' => exact couples_decodeSlot active active'
    · exact fun corresponds => couples_decodeBindings both left right corresponds
    · exact fun corresponds alike => couples_encode both left right corresponds alike
    · exact fun corresponds alike => couples_encodeFields both left right corresponds alike

end WireSchema.Lowering.Sides
