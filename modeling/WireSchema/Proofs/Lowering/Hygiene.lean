import WireSchema.Proofs.Lowering.HygienicDecoders

/-!
# Emitters are hygienic

For shapes without hooks every rule of generation emits scoped code and introduces the bindings it
was given, each at one place. So do the emitters that tie the rules together, and every codec that
they declare on the way is hygienic.
-/

namespace WireSchema.Lowering

open Ir Gen

variable {types : Refs} {visible : List Binder} {waiting : List Local} {α : Type}
variable {em : Emitter}

/-! ### Encoders -/

theorem builds_write {p : Primitive} {e : Expr} (seen : e.Scoped Binder.Among visible) :
    Builds types visible [] (Gen.emit (.write p e)) fun _ visible' waiting =>
      visible' = visible ∧ waiting = [] :=
  builds_emit [] (Stmt.scoped_single (List.forall_mem_singleton.mpr seen) nofun nofun)
    (List.Subperm.refl _)

theorem builds_writeLength {length : Primitive} {src : Expr}
    (seen : src.Scoped Binder.Among visible) :
    Builds types visible [] (writeLength length src) fun _ visible' waiting =>
      visible' = visible ∧ waiting = [] :=
  keeps_ofExcept.before (quiet_ofExcept _) fun _ _ =>
    builds_write (Expr.scoped_cast.mpr (Expr.scoped_len.mpr seen))

theorem scoped_orTerms {kind : IntKind} {terms : List Expr}
    (seen : ∀ e ∈ terms, e.Scoped Binder.Among visible) :
    (orTerms kind terms).Scoped Binder.Among visible := by
  cases terms with
  | nil => exact Expr.scoped_int
  | cons first rest =>
    rw [orTerms]
    induction rest generalizing first with
    | nil => exact seen first List.mem_cons_self
    | cons second rest ih =>
      refine ih (.binary .bitOr first second) ?_
      simp only [List.forall_mem_cons, Expr.scoped_binary] at seen ⊢
      exact ⟨⟨seen.1, seen.2.1⟩, seen.2.2⟩

theorem scoped_packedTerm {owner : String} {kind : IntKind} {src e : Expr} {f : Field}
    (found : packedTerm owner kind src f = .ok e) (seen : src.Scoped Binder.Among visible) :
    e.Scoped Binder.Among visible := by
  unfold packedTerm at found
  split at found
  · cases found
    split <;> split <;> simpa using seen
  · cases found

theorem scoped_packedTerms {owner : String} {kind : IntKind} {src : Expr} {fields : List Field}
    {terms : List Expr} (found : fields.mapM (packedTerm owner kind src) = .ok terms)
    (seen : src.Scoped Binder.Among visible) : ∀ e ∈ terms, e.Scoped Binder.Among visible := by
  induction fields generalizing terms with
  | nil =>
    cases found
    exact nofun
  | cons f rest ih =>
    simp only [List.mapM_cons, bind, Except.bind] at found
    split at found
    case h_1 => cases found
    case h_2 term first =>
      split at found
      case h_1 => cases found
      case h_2 terms others =>
        cases found
        exact List.forall_mem_cons.mpr ⟨scoped_packedTerm first seen, ih others⟩

theorem scoped_flagTerm {kind : IntKind} {group : Nat} {src e : Expr} {f : Field}
    (found : flagTerm kind group src f = some e) (seen : src.Scoped Binder.Among visible) :
    e.Scoped Binder.Among visible := by
  unfold flagTerm at found
  dsimp only at found
  split at found
  · obtain ⟨slot, _, found⟩ := Option.bind_eq_some_iff.mp found
    split at found
    · cases found
      simpa using seen
    · cases found
  · obtain ⟨slot, _, found⟩ := Option.bind_eq_some_iff.mp found
    split at found
    · cases found
      simpa using seen
    · cases found

theorem builds_encodeInOrder {src : Expr} {fields : List Field}
    (parts : ∀ f ∈ fields, ∀ e visible, e.Scoped Binder.Among visible →
      Builds types visible [] (em.encode f.shape e) Done)
    (seen : src.Scoped Binder.Among visible) :
    Builds types visible [] (encodeInOrder em src fields) Done :=
  builds_forM fun f member visible' wider => (parts f member (.field src f.name) visible'
    (Expr.scoped_field.mpr (seen.widen wider))).withHint

theorem builds_encodeFlags {backing : Primitive} (masks : List (String × Int))
    {fields : List Field} {group : Nat} {src : Expr}
    (parts : ∀ f ∈ fields, ∀ e visible, e.Scoped Binder.Among visible →
      Builds types visible [] (em.encode f.shape e) Done)
    (seen : src.Scoped Binder.Among visible) :
    Builds types visible [] (encodeFields em (.flags backing masks fields group) src) Done := by
  refine keeps_ofExcept.before (quiet_ofExcept _) fun kind _ => ?_
  refine (builds_write (scoped_orTerms fun e member => ?_)).bind ?_
  · obtain ⟨f, _, found⟩ := List.mem_filterMap.mp member
    exact scoped_flagTerm found seen
  · rintro _ _ _ _ ⟨rfl, rfl⟩
    refine (builds_encodeInOrder (fun f member => ?_) seen).withGroup nofun
    exact parts f (List.mem_filter.mp member).1

theorem builds_encodeFields (hygienic : em.Hygienic types) {s : Shape} {src : Expr}
    (free : s.HookFree types) (seen : src.Scoped Binder.Among visible) :
    Builds types visible [] (encodeFields em s src) Done := by
  have fails : Builds types visible [] (do throw (.notAStruct (← Gen.canonicalName s)) : Gen Unit)
      Done := keeps_canonicalName.before (quiet_canonicalName s) fun _ _ => builds_throw
  have resolves (part : Shape) (free : part.HookFree types) (visible : List Binder)
      (seen : src.Scoped Binder.Among visible) :
      Builds types visible [] (do em.encodeFields (← Gen.resolved part) src) Done :=
    keeps_resolved.before (quiet_resolved part) fun found resolved =>
      hygienic.encodeFields found src visible (free.resolved resolved) seen
  cases s with
  | struct fields =>
    exact builds_encodeInOrder (fun f member e visible =>
      hygienic.encode f.shape e visible (free.field member)) seen
  | merged parts =>
    exact builds_forM fun part member visible' wider =>
      resolves part (free.part member) visible' (seen.widen wider)
  | packed backing widths fields group =>
    refine keeps_ofExcept.before (quiet_ofExcept _) fun kind _ => ?_
    refine keeps_canonicalName.before (quiet_canonicalName _) fun owner _ => ?_
    refine keeps_ofExcept.before (quiet_ofExcept _) fun terms found => ?_
    exact (builds_write (scoped_orTerms (scoped_packedTerms found seen))).weaken
      fun _ _ _ _ => And.right
  | flags backing masks fields group =>
    exact builds_encodeFlags _ (fun f member e visible =>
      hygienic.encode f.shape e visible (free.part (List.mem_map_of_mem member))) seen
  | «alias» | exported | ref => exact resolves _ free visible seen
  | _ => exact fails

theorem builds_encodeOptional {value presence : Shape} {src : Expr}
    (tests : ∀ e visible, e.Scoped Binder.Among visible →
      Builds types visible [] (em.encode presence e) Done)
    (values : ∀ e visible, e.Scoped Binder.Among visible →
      Builds types visible [] (em.encode value e) Done)
    (seen : src.Scoped Binder.Among visible) :
    Builds types visible [] (encodeOptional em value presence src) Done := by
  refine keeps_refs.before quiet_refs fun refs _ => ?_
  split
  · exact keeps_canonicalName.before (quiet_canonicalName _) fun _ _ => builds_throw
  refine (tests _ visible (Expr.scoped_isPresent.mpr seen)).bind ?_
  rintro _ visible₁ _ wider rfl
  refine keeps_lastHint.before (quiet_lastHint _) fun hint _ => builds_alloc.bind ?_
  rintro x visible₁ _ _ ⟨rfl, rfl⟩
  have body := values (.place x) ([.fixed x] ++ visible₁)
    (Expr.scoped_place.mpr ⟨false, List.mem_cons_self⟩)
  refine (body.capture [.fixed x] (by simp)).bind ?_
  rintro ⟨stmts, _⟩ _ _ _ ⟨rfl, rfl, holds⟩
  dsimp only
  -- If nothing is written for the value, its binding is given out in vain.
  split
  · refine (builds_emit [] ?_ ?_).weaken fun _ _ _ _ => And.right
    · refine Stmt.scoped_single (List.forall_mem_singleton.mpr (seen.widen wider)) nofun ?_
      exact List.forall_mem_singleton.mpr holds
    · simpa using (List.perm_append_singleton x _).symm.subperm
  · exact (builds_pure rfl).forget List.nil_subperm

theorem builds_encodeArms (hygienic : em.Hygienic types) {type tagField : String} {tag : Shape}
    {tags : List (String × Literal)} (free : tag.HookFree types) {variants : List (String × Shape)}
    (payloads : ∀ v ∈ variants, v.2.HookFree types) (index : Nat) :
    Builds types visible waiting (encodeArms em type tagField tag tags index variants)
      (Arms visible waiting) := by
  induction variants generalizing index waiting with
  | nil => exact builds_pure ⟨rfl, List.Subperm.refl _, nofun⟩
  | cons first rest ih =>
    obtain ⟨key, payload⟩ := first
    refine (keeps_unionTag hygienic free).before (quiet_unionTag hygienic.quiet _ _ _ _)
      fun value _ => ?_
    refine keeps_storedFields.before (quiet_storedFields _) fun fields _ => ?_
    -- The binding of the payload, if there is one, waits until the arm is put into its statement.
    have arm (binding : Option Local) : Builds types visible (binding.toList ++ waiting) (do
        let captured ← Gen.capture do
          Gen.withHint tagField (em.encode tag value.expr)
          Gen.withHint key do
            em.encodeFields (← Gen.resolved payload) ((binding.map Expr.place).getD .absent)
        let arms ← encodeArms em type tagField tag tags (index + 1) rest
        return (.variant type key binding, captured.1) :: arms) (Arms visible waiting) := by
      have own : ∀ b ∈ binding.toList.map Binder.fixed, b.var ∈ binding.toList ++ waiting :=
        List.forall_mem_map.mpr fun x member => List.mem_append_left _ member
      have seen : ((binding.map Expr.place).getD .absent).Scoped Binder.Among
          (binding.toList.map .fixed ++ visible) := by
        cases binding with
        | none => exact Expr.scoped_absent
        | some x => exact Expr.scoped_place.mpr ⟨false, List.mem_cons_self⟩
      refine Builds.bind (Builds.capture (binding.toList.map .fixed) ?_ own) ?_
      · refine (hygienic.encode tag value.expr _ free (Tag.scoped_expr value)).withHint.bind ?_
        rintro _ visible' _ wider rfl
        refine Builds.withHint (keeps_resolved.before (quiet_resolved _) fun found resolved => ?_)
        exact hygienic.encodeFields found _ visible'
          ((payloads _ List.mem_cons_self).resolved resolved) (seen.widen wider)
      · rintro ⟨body, _⟩ _ _ _ ⟨rfl, rfl, holds⟩
        refine (ih (fun v member => payloads v (List.mem_cons_of_mem _ member)) _).bind ?_
        rintro arms _ waiting' _ ⟨rfl, owned, scopes⟩
        refine builds_pure ⟨rfl, ?_, List.forall_mem_cons.mpr ⟨holds, scopes⟩⟩
        refine List.Subperm.trans (List.Perm.subperm (List.perm_iff_count.mpr fun y => ?_)) owned
        simp only [armBinders, List.flatMap_cons, Pattern.binding?, List.map_append,
          Binder.map_var_fixed, List.count_append]
        omega
    split
    · refine (keeps_pure rfl).before (quiet_pure _) fun binding same => ?_
      cases same
      exact arm none
    · have given : Builds types visible waiting (some <$> Gen.alloc key)
          fun binding visible' waiting' =>
            visible' = visible ∧ waiting' = binding.toList ++ waiting := Builds.map builds_alloc
      refine given.bind ?_
      rintro binding _ _ _ ⟨rfl, rfl⟩
      exact arm binding

theorem builds_encodeUnion (hygienic : em.Hygienic types) {tagField : String} {tag : Shape}
    {variants : List (String × Shape)} {tags : List (String × Literal)} {src : Expr}
    (free : (Shape.union tagField tag variants tags).HookFree types)
    (seen : src.Scoped Binder.Among visible) :
    Builds types visible [] (encodeUnion em tagField tag variants tags src) Done := by
  have payloads : ∀ v ∈ variants, v.2.HookFree types := fun v member =>
    free.part (List.mem_cons_of_mem _ (List.mem_map_of_mem member))
  refine (keeps_unionName hygienic free).before (quiet_unionName _ _ _ _ _) fun type _ => ?_
  refine (builds_encodeArms hygienic (free.part List.mem_cons_self) payloads _).bind ?_
  rintro arms _ waiting _ ⟨rfl, owned, scopes⟩
  refine (builds_select seen ?_ (by simpa using owned) scopes).weaken fun _ _ _ _ => And.right
  rintro f ⟨⟩
  exact nofun

theorem builds_encodeList (hooks : Hooks) {item : Shape} {length : Primitive} {src : Expr}
    (builds : ∀ e visible, e.Scoped Binder.Among visible →
      Builds types visible [] (em.encode item e) Done)
    (seen : src.Scoped Binder.Among visible) :
    Builds types visible [] (encode hooks em (.list item length) src) Done := by
  refine (builds_writeLength seen).bind ?_
  rintro _ _ _ _ ⟨rfl, rfl⟩
  refine builds_alloc.bind ?_
  rintro x visible _ _ ⟨rfl, rfl⟩
  have body := builds (.place x) ([.fixed x] ++ visible)
    (Expr.scoped_place.mpr ⟨false, List.mem_cons_self⟩)
  refine (body.withHint.capture [.fixed x] (by simp)).bind ?_
  rintro ⟨stmts, _⟩ _ _ _ ⟨rfl, rfl, holds⟩
  refine (builds_emit [] ?_ ?_).weaken fun _ _ _ _ => And.right
  · refine Stmt.scoped_single (List.forall_mem_singleton.mpr seen) nofun ?_
    exact List.forall_mem_singleton.mpr holds
  · simpa using (List.perm_append_singleton x _).symm.subperm

theorem builds_encodeMap (hooks : Hooks) {key value : Shape} {length : Primitive} {src : Expr}
    (keys : ∀ e visible, e.Scoped Binder.Among visible →
      Builds types visible [] (em.encode key e) Done)
    (values : ∀ e visible, e.Scoped Binder.Among visible →
      Builds types visible [] (em.encode value e) Done)
    (seen : src.Scoped Binder.Among visible) :
    Builds types visible [] (encode hooks em (.map key value length) src) Done := by
  refine (builds_writeLength seen).bind ?_
  rintro _ _ _ _ ⟨rfl, rfl⟩
  refine builds_alloc.bind ?_
  rintro k _ _ _ ⟨rfl, rfl⟩
  refine builds_alloc.bind ?_
  rintro v visible _ _ ⟨rfl, rfl⟩
  refine Builds.bind (Builds.capture [.fixed k, .fixed v] ?_ (by simp)) ?_
  · refine (keys (.place k) _ ?_).withHint.bind ?_
    · exact Expr.scoped_place.mpr ⟨false, List.mem_cons_self⟩
    · rintro _ visible' _ wider rfl
      refine (values (.place v) _ ?_).withHint
      exact Expr.scoped_place.mpr ⟨false, wider _ (List.mem_cons_of_mem _ List.mem_cons_self)⟩
  · rintro ⟨stmts, _⟩ _ _ _ ⟨rfl, rfl, holds⟩
    refine (builds_emit [] ?_ ?_).weaken fun _ _ _ _ => And.right
    · refine Stmt.scoped_single (List.forall_mem_singleton.mpr seen) nofun ?_
      exact List.forall_mem_singleton.mpr holds
    · refine List.subperm_iff_count.mpr fun y => ?_
      simp only [Stmt.introduced_forEachPair, List.map_cons, Binder.var_fixed, List.append_nil,
        List.count_cons, List.count_append, List.count_nil]
      omega

theorem builds_encode {hooks : Hooks} (hygienic : em.Hygienic types) {s : Shape} {src : Expr}
    (free : s.HookFree types) (seen : src.Scoped Binder.Among visible) :
    Builds types visible [] (encode hooks em s src) Done := by
  have writes {p : Primitive} {e : Expr} (seen : e.Scoped Binder.Among visible) :
      Builds types visible [] (Gen.emit (.write p e)) Done :=
    (builds_write seen).weaken fun _ _ _ _ => And.right
  cases s with
  | prim p => exact writes seen
  | optional value presence =>
    have among : presence ∈ (Shape.optional value presence).subshapes types :=
      List.mem_cons_of_mem _ List.mem_cons_self
    exact builds_encodeOptional
      (fun e visible => hygienic.encode presence e visible (free.part among))
      (fun e visible => hygienic.encode value e visible (free.part List.mem_cons_self)) seen
  | list item length =>
    exact builds_encodeList hooks (fun e visible =>
      hygienic.encode item e visible (free.part List.mem_cons_self)) seen
  | map key value length =>
    have among : value ∈ (Shape.map key value length).subshapes types :=
      List.mem_cons_of_mem _ List.mem_cons_self
    exact builds_encodeMap hooks
      (fun e visible => hygienic.encode key e visible (free.part List.mem_cons_self))
      (fun e visible => hygienic.encode value e visible (free.part among)) seen
  | struct | merged | packed | flags =>
    refine (keeps_structName (hygienic.fieldTypes free)).discard.before (quiet_structName _ _).discard
      fun _ _ => ?_
    exact hygienic.encodeFields _ src visible free seen
  | enum backing entries =>
    refine keeps_enumName.before (quiet_enumName _ _) fun type _ => ?_
    exact writes (Expr.scoped_toId.mpr seen)
  | union tagField tag variants tags => exact builds_encodeUnion hygienic free seen
  | slot group index kind =>
    refine builds_activeGroup?.bind ?_
    rintro found _ _ _ ⟨rfl, rfl, _⟩
    split
    · exact builds_throw
    · exact builds_pure rfl
  | «alias» name inner =>
    refine (hygienic.typeExpr _ free).discard.before (hygienic.quiet _).discard fun _ _ => ?_
    exact hygienic.encode inner src visible (free.part List.mem_cons_self) seen
  | exported name inner =>
    refine (hygienic.typeExpr _ free).discard.before (hygienic.quiet _).discard fun _ _ => ?_
    refine (builds_emit [] ?_ (List.Subperm.refl _)).weaken fun _ _ _ _ => And.right
    exact Stmt.scoped_single (List.forall_mem_singleton.mpr seen) nofun nofun
  | custom signature definition hook => exact absurd free (Shape.not_hookFree_custom _ _ _)
  | ref label =>
    exact builds_ref free fun target free => hygienic.encode target src visible free seen
  | transformed name backing hostType fromWire toWire transform =>
    have backingFree : backing.HookFree types := free.part List.mem_cons_self
    have called : (Expr.call toWire [.borrow src] false).Scoped Binder.Among visible :=
      Expr.scoped_call.mpr (List.forall_mem_singleton.mpr (Expr.scoped_borrow.mpr seen))
    refine keeps_registerFunction.before (quiet_registerFunction _ _) fun _ _ => ?_
    dsimp only
    split
    · exact hygienic.encode _ _ visible backingFree called
    · refine (Builds.declare (builds_pure ⟨rfl, called⟩)).bind ?_
      rintro x visible' _ _ ⟨rfl, bound⟩
      exact hygienic.encode backing (.var x) visible' backingFree
        (Expr.scoped_var.mpr ⟨false, bound⟩)
  | literal value backing =>
    cases backing with
    | none => exact builds_pure rfl
    | some p => exact writes Expr.scoped_lit

/-! ### The tie -/

/-- Emitters of every depth are hygienic. -/
theorem hygienic_emitter (hooks : Hooks) (types : Refs) (depth : Nat) :
    (emitter hooks depth).Hygienic types := by
  -- The rules use the emitter of the next lower depth; the lowest one only fails.
  induction depth with
  | zero =>
    constructor
    case quiet => exact quiet_emitter hooks 0
    case typeExpr | prepare => exact fun _ _ => keeps_throw
    all_goals intros; exact builds_throw
  | succ depth ih =>
    constructor
    case quiet => exact quiet_emitter hooks (depth + 1)
    case typeExpr => exact fun s free => keeps_typeExpr ih free
    case prepare => exact fun s free => keeps_prepare ih free
    case decodeExpr => exact fun s visible free => builds_decodeExpr ih free
    case decodeBindings => exact fun s visible free => builds_decodeBindings ih free
    case encode => exact fun s src visible free seen => builds_encode ih free seen
    case encodeFields => exact fun s src visible free seen => builds_encodeFields ih free seen

end WireSchema.Lowering
