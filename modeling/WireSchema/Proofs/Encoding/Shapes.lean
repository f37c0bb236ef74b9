import WireSchema.Proofs.Decoding.Shapes
import WireSchema.Proofs.Encoding.Pieces

/-!
# The encoders of shapes

What the generator emits for writing a shape of a text writes the bytes of each of its values. The
proof goes down with the depth of the emitter, one rule for each form of shape.
-/

namespace WireSchema

open Ir Wire Lowering

namespace Decoding

namespace Scene

variable (S : Scene)

/-- Besides what the program knows, its codecs write the exported types of lower rank. -/
structure Supplies (r : Registry) (p : Program) : Prop extends S.Knows r p where
  codecs : ∀ name inner, (name, .exported name inner) ∈ S.types → S.rank name < S.bound →
    ∀ v bytes, Layout.Written S.order S.types inner v bytes → ∀ m latest,
      m.stream = .output latest → ∃ m', p.calls.encode (codecBase name) v m = .ok ((), m') ∧
        m'.stream = .output (bytes.reverse ++ latest)

def writers (r : Registry) : Programs := ⟨S.Supplies r, fun _ supplies => supplies.isolated⟩

theorem writers_order (r : Registry) (p : Program) (supplies : (S.writers r).holds p) :
    p.order = S.order := supplies.order

/-- The computation emits a fragment that writes what the expression yields. -/
abbrev Writes (γ : List ActiveGroup) (act : Gen Unit) (s : Shape) (src : Expr) : Prop :=
  S.Produces γ act fun r low high stmts _ => Encoding.Encodes (S.writers r) (Encoding.HasValue s src)
    (Layout.Written S.order S.types s) low high stmts

/-- The computation emits a fragment that writes the members of what the expression yields. -/
abbrev WritesAll (γ : List ActiveGroup) (act : Gen Unit) (s : Shape) (src : Expr) : Prop :=
  S.Produces γ act fun r low high stmts _ => Encoding.Encodes (S.writers r) (Encoding.HasMembers src)
    (Layout.WrittenMembers S.order S.types s) low high stmts

end Scene

end Decoding

namespace Encoding

open Decoding (Scene)

variable {S : Scene} {γ : List ActiveGroup} {s t : Shape} {src : Expr}

/-- The encoders that the emitter makes write the values of shapes. -/
structure Faithful (S : Scene) (em : Emitter) : Prop where
  orderly : em.Orderly S.hooks S.types S.rank
  quiet : ∀ s, Gen.Quiet (em.typeExpr s)
  encode : ∀ {γ} {s : Shape} {src : Expr}, S.Covers s → S.Writes γ (em.encode s src) s src
  encodeFields : ∀ {γ} {s : Shape} {src : Expr}, S.Covers s →
    S.WritesAll γ (em.encodeFields s src) s src

variable {em : Emitter}

/-! ### Members -/

theorem writes_encodeInOrder (faithful : Faithful S em) {fields : List Field}
    (covers : ∀ f ∈ fields, S.Covers f.shape) :
    S.WritesAll γ (encodeInOrder em src fields) (.struct fields) src := by
  induction fields with
  | nil => exact Scene.produces_pure fun r n => encodes_noFields n
  | cons f rest ih =>
    obtain ⟨here, later⟩ := List.forall_mem_cons.mp covers
    change S.WritesAll γ (do
      Gen.withHint f.name (em.encode f.shape (.field src f.name))
      encodeInOrder em src rest) _ _
    refine (faithful.encode here).withHint.bind fun _ => (ih later).weaken ?_
    exact fun r mid high back _ others low front first => first.field others

/-- The fields behind a shape are those of the shape. -/
theorem writes_resolved (faithful : Faithful S em) (covers : S.Covers s) :
    S.WritesAll γ (do em.encodeFields (← Gen.resolved s) src) s src := by
  refine Scene.Produces.look (Gen.quiet_resolved s) tame_resolved fun t found => ?_
  have same := Shape.resolves_of_resolved found
  refine (faithful.encodeFields (covers.behind found).1).weaken fun r low high stmts _ known => ?_
  exact known.recast fun members bytes made =>
    ⟨members, (Layout.writtenMembers_resolves same).mp made, fun _ _ => id⟩

theorem writes_parts (faithful : Faithful S em) {parts : List Shape}
    (covers : ∀ part ∈ parts, S.Covers part) :
    S.WritesAll γ (parts.forM fun part => do em.encodeFields (← Gen.resolved part) src)
      (.merged parts) src := by
  induction parts with
  | nil => exact Scene.produces_pure fun r n => encodes_noParts n
  | cons part rest ih =>
    obtain ⟨here, later⟩ := List.forall_mem_cons.mp covers
    refine (writes_resolved faithful here).bind fun _ => (ih later).weaken ?_
    exact fun r mid high back _ others low front first => first.part others

theorem writes_packed {backing : Primitive} {widths : List Nat} {fields : List Field} {group : Nat}
    (covers : S.Covers (.packed backing widths fields group)) :
    S.WritesAll γ (encodeFields em (.packed backing widths fields group) src)
      (.packed backing widths fields group) src := by
  obtain ⟨inside, positive, each⟩ := covers.wf
  refine Scene.Produces.look (Gen.quiet_ofExcept _) tame_ofExcept fun kind found => ?_
  have known := known_of_backingKind found
  refine Scene.Produces.look (Gen.quiet_canonicalName _) tame_canonicalName fun owner _ => ?_
  refine Scene.Produces.look (Gen.quiet_ofExcept _) tame_ofExcept fun terms made => ?_
  refine (Scene.produces_emit _).weaken ?_
  rintro r low high _ _ ⟨rfl, rfl⟩
  have narrow : kind ≠ .u128 := by
    rintro rfl
    have wide : backing = .u128 := by
      cases backing <;> cases known
      rfl
    subst wide
    exact covers.narrow _ _ _ .refl
  exact encodes_packed (S.writers_order r) known narrow (inside kind known) positive each made _

theorem writes_flags {backing : Primitive} {masks : List (String × Int)} {fields : List Field}
    {group : Nat} (covers : S.Covers (.flags backing masks fields group)) :
    S.WritesAll γ (encodeFields em (.flags backing masks fields group) src)
      (.flags backing masks fields group) src := by
  obtain ⟨inside, each⟩ := covers.wf
  -- All fields are in the integer.
  have none : fields.filter followsFlags = [] := by
    refine List.filter_eq_nil_iff.mpr fun f member => ?_
    obtain ⟨index, mask, _, shape⟩ := each f member
    simp [followsFlags, shape]
  refine Scene.Produces.look (Gen.quiet_ofExcept _) tame_ofExcept fun kind found => ?_
  rw [none]
  have rest : S.Produces γ (Gen.withGroup group Option.none (encodeInOrder em src []))
      fun _ low high stmts _ => high = low ∧ stmts = [] :=
    (Scene.produces_pure fun _ _ => ⟨rfl, rfl⟩).withGroup
  refine (Scene.produces_emit _).bind fun _ => rest.weaken ?_
  rintro r mid high _ _ ⟨rfl, rfl⟩ low _ ⟨rfl, rfl⟩
  exact encodes_flags (S.writers_order r) (known_of_backingKind found) each _

theorem writes_encodeFields (faithful : Faithful S em) (covers : S.Covers s) :
    S.WritesAll γ (encodeFields em s src) s src := by
  have never : S.WritesAll γ (do throw (.notAStruct (← Gen.canonicalName s))) s src :=
    Scene.Produces.look (Gen.quiet_canonicalName s) tame_canonicalName fun _ _ =>
      Scene.produces_throw
  cases s with
  | struct fields =>
    refine writes_encodeInOrder faithful fun f member => ⟨?_, covers.narrow.field member⟩
    exact Shape.mem_wellFormedFields covers.wf member
  | merged parts =>
    exact writes_parts faithful fun part member =>
      ⟨Shape.mem_wellFormedParts covers.wf member, covers.narrow.part member⟩
  | packed => exact writes_packed covers
  | flags => exact writes_flags covers
  | «alias» | exported | ref => exact writes_resolved faithful covers
  | _ => exact never

/-! ### Optional values and collections -/

theorem writes_encodeOptional (faithful : Faithful S em) {value : Shape}
    (covers : S.Covers (.optional value (.prim .bool))) :
    S.Writes γ (encodeOptional em value (.prim .bool) src) (.optional value (.prim .bool)) src := by
  have own : S.Covers value := ⟨covers.wf.2, covers.narrow.part List.mem_cons_self⟩
  have presence : S.Covers (.prim .bool) :=
    ⟨trivial, covers.narrow.part (List.mem_cons_of_mem _ List.mem_cons_self)⟩
  refine Scene.Produces.look Gen.quiet_refs tame_refs fun refs _ => ?_
  split
  · exact Scene.Produces.look (Gen.quiet_canonicalName _) tame_canonicalName fun _ _ =>
      Scene.produces_throw
  · refine (faithful.encode presence).bind fun _ => ?_
    refine Scene.Produces.look (Gen.quiet_lastHint _) tame_lastHint fun hint _ => ?_
    refine (Scene.produces_alloc hint).bind fun x => ?_
    refine (faithful.encode own).capture.bind fun out => ?_
    obtain ⟨body, _⟩ := out
    have rest : S.Produces γ (if !body.isEmpty then Gen.emit (.ifPresent x src body) else pure ())
        fun _ low high stmts _ => high = low ∧
          stmts = if body.isEmpty then [] else [.ifPresent x src body] := by
      cases body.isEmpty
      · exact Scene.produces_emit _
      · exact Scene.produces_pure fun _ _ => ⟨rfl, rfl⟩
    refine rest.weaken ?_
    rintro r _ high _ _ ⟨rfl, rfl⟩ _ _ ⟨rfl, encodes⟩ mid _ ⟨⟨fresh, rfl⟩, rfl⟩ low front test
    exact test.optional (encodes_guarded fresh encodes)

/-- The number of items is written. -/
theorem produces_writeLength (length : Primitive) (src : Expr) :
    S.Produces γ (writeLength length src) fun _ low high stmts _ => high = low ∧
      ∃ kind, length.intKind? = some kind ∧ stmts = [.write length (.cast (.len src) kind)] := by
  refine Scene.Produces.look (Gen.quiet_ofExcept _) tame_ofExcept fun kind found => ?_
  refine (Scene.produces_emit _).weaken ?_
  rintro r low high _ _ ⟨rfl, rfl⟩
  exact ⟨rfl, kind, known_of_backingKind found, rfl⟩

theorem writes_list (faithful : Faithful S em) {item : Shape} {length : Primitive}
    (covers : S.Covers (.list item length)) :
    S.Writes γ (do
      writeLength length src
      let x ← Gen.alloc "item"
      let (body, _) ← Gen.capture (Gen.withHint "item" (em.encode item (.place x)))
      Gen.emit (.forEach x src body)) (.list item length) src := by
  have own : S.Covers item := ⟨covers.wf, covers.narrow.part List.mem_cons_self⟩
  refine (produces_writeLength length src).bind fun _ => (Scene.produces_alloc _).bind fun x => ?_
  refine (faithful.encode own).withHint.capture.bind fun out => (Scene.produces_emit _).weaken ?_
  rintro r _ high _ _ ⟨rfl, rfl⟩ _ _ ⟨rfl, encodes⟩ _ _ ⟨⟨fresh, rfl⟩, rfl⟩ low _
    ⟨rfl, kind, known, rfl⟩
  exact Encodes.list known fresh encodes (S.writers_order r)

theorem writes_map (faithful : Faithful S em) {key value : Shape} {length : Primitive}
    (covers : S.Covers (.map key value length)) :
    S.Writes γ (do
      writeLength length src
      let k ← Gen.alloc "key"
      let v ← Gen.alloc "val"
      let (body, _) ← Gen.capture do
        Gen.withHint "key" (em.encode key (.place k))
        Gen.withHint "value" (em.encode value (.place v))
      Gen.emit (.forEachPair k v src body)) (.map key value length) src := by
  have own : S.Covers key := ⟨covers.wf.1, covers.narrow.part List.mem_cons_self⟩
  have own' : S.Covers value :=
    ⟨covers.wf.2, covers.narrow.part (List.mem_cons_of_mem _ List.mem_cons_self)⟩
  refine (produces_writeLength length src).bind fun _ => (Scene.produces_alloc _).bind fun k => ?_
  refine (Scene.produces_alloc _).bind fun v => ?_
  have entry : S.Produces γ (do
      Gen.withHint "key" (em.encode key (.place k))
      Gen.withHint "value" (em.encode value (.place v))) fun r low high stmts _ =>
      Encodes (S.writers r) (HasEntry key value (.place k) (.place v))
        (WrittenEntry S.order S.types key value) low high stmts := by
    refine (faithful.encode own).withHint.bind fun _ => (faithful.encode own').withHint.weaken ?_
    intro r mid high back _ second low front first
    refine first.append second fun e bytes made => ?_
    obtain ⟨bytes₁, bytes₂, same, made₁, made₂⟩ := made
    exact ⟨e.1, e.2, bytes₁, bytes₂, same, made₁, made₂, fun p env has =>
      ⟨has.1, fun env' agrees => has.2.later agrees first.confined.le⟩⟩
  refine entry.capture.bind fun out => (Scene.produces_emit _).weaken ?_
  rintro r _ high _ _ ⟨rfl, rfl⟩ _ _ ⟨rfl, encodes⟩ _ _ ⟨⟨fresh', rfl⟩, rfl⟩ _ _ ⟨⟨fresh, rfl⟩, rfl⟩
    low _ ⟨rfl, kind, known, rfl⟩
  exact Encodes.map known fresh (by omega) encodes (S.writers_order r)

/-! ### Unions -/

theorem writes_variant (faithful : Faithful S em) {tagField : String} {tag : Shape}
    {tags : List (String × Literal)} {index : Nat} {key : String} {payload : Shape} {t : Tag}
    (covers : S.Covers tag) (inside : S.Covers payload)
    (own : ∀ v, Decoding.IsTag S tag v → Layout.selects v (tags.lookup key) index key = true →
      t.value = v) (source : Expr) :
    S.Produces γ (do
      Gen.withHint tagField (em.encode tag t.expr)
      Gen.withHint key do em.encodeFields (← Gen.resolved payload) source)
      fun r low high stmts _ => Encodes (S.writers r) (HasMembers source)
        (WrittenVariant S.order S.types tag tags index key payload) low high stmts := by
  refine (faithful.encode covers).withHint.bind fun _ =>
    (writes_resolved faithful inside).withHint.weaken ?_
  intro r mid high back _ second low front first
  refine first.append second fun members bytes made => ?_
  obtain ⟨found, bytes₁, bytes₂, same, made₁, selected, made₂⟩ := made
  have is : Decoding.IsTag S tag found := fun t behind =>
    isTagOf_of_written ((Layout.written_resolves (Shape.resolves_of_resolved behind)).mp made₁)
  refine ⟨found, members, bytes₁, bytes₂, same, made₁, made₂, fun p env has => ⟨fun _ m _ => ?_, ?_⟩⟩
  · rw [Tag.eval_expr, own found is selected]
    rfl
  · exact fun env' agrees => has.later agrees first.confined.le

/-- Without statements of its own, the payload of a variant is bound unless nothing of it is stored. -/
structure IsBinding (stored : List Field) (low high : Nat) (stmts : List Stmt)
    (binding : Option Local) : Prop where
  silent : stmts = []
  le : low ≤ high
  own : ∀ x ∈ binding, x.id = low ∧ low < high
  bare : binding = none → stored = []

theorem produces_unbound : S.Produces γ (pure none)
    fun _ low high stmts binding => IsBinding [] low high stmts binding := by
  refine Scene.produces_pure fun _ n => ⟨rfl, Nat.le_refl n, fun x bound => ?_, fun _ => rfl⟩
  cases bound

theorem produces_bound (stored : List Field) (key : String) : S.Produces γ (some <$> Gen.alloc key)
    fun _ low high stmts binding => IsBinding stored low high stmts binding := by
  rw [map_eq_pure_bind]
  refine (Scene.produces_alloc key).bind fun x => Scene.produces_pure fun _ n => ?_
  rintro low _ ⟨⟨fresh, rfl⟩, rfl⟩
  refine ⟨rfl, Nat.le_succ low, fun y bound => ?_, fun none => ?_⟩
  · cases bound
    exact ⟨fresh, Nat.lt_succ_self low⟩
  · cases none

/-- The members that are written go by the names of the stored fields. -/
theorem names_of_writtenMembers {order : ByteOrder} {refs : Refs} {fields : List Field}
    {members : List (String × Value)} {bytes : List UInt8}
    (written : Layout.WrittenMembers order refs (.struct fields) members bytes) :
    members.map (·.1) = (fields.filter (·.shape.isStored)).map (·.name) := by
  induction fields generalizing members bytes with
  | nil =>
    cases written
    rfl
  | cons f rest ih =>
    cases written with
    | cons _ others =>
      rw [List.filter_cons]
      split
      · exact congrArg (f.name :: ·) (ih others)
      · exact ih others

theorem writes_encodeArms (faithful : Faithful S em) {type tagField : String} {tag : Shape}
    {tags : List (String × Literal)} (covers : S.Covers tag) {variants : List (String × Shape)}
    (payloads : ∀ v ∈ variants, (∃ fields, v.2 = .struct fields) ∧ S.Covers v.2) (index : Nat) :
    S.Produces γ (encodeArms em type tagField tag tags index variants)
      fun r low high stmts arms => stmts = [] ∧
        SendArms S.order S.types tag tags (S.writers r) type index low high variants arms := by
  induction variants generalizing index with
  | nil => exact Scene.produces_pure fun r n => ⟨rfl, .nil index n⟩
  | cons first rest ih =>
    obtain ⟨key, payload⟩ := first
    obtain ⟨⟨⟨fields, form⟩, here⟩, later⟩ := List.forall_mem_cons.mp payloads
    dsimp only at form here
    subst form
    have tagged : Tame S.hooks S.types (unionTag em tag tags index key) fun t =>
        ∀ v, Decoding.IsTag S tag v → Layout.selects v (tags.lookup key) index key = true →
          t.value = v := by
      intro σ t σ' ran refs
      refine ⟨(tame_unionTag faithful.orderly covers.shape σ t σ' ran refs).1, fun v is => ?_⟩
      exact Decoding.value_of_selects ran (refs ▸ is)
    rw [encodeArms]
    refine Scene.Produces.look (quiet_unionTag faithful.quiet _ _ _ _) tagged fun t own => ?_
    refine Scene.Produces.look (Gen.quiet_storedFields _) tame_storedFields fun stored found => ?_
    rw [Shape.storedFields_struct] at found
    cases found
    generalize stores : fields.filter (·.shape.isStored) = stored
    have written (binding : Option Local) : S.Produces γ (do
        let (body, _) ← Gen.capture do
          Gen.withHint tagField (em.encode tag t.expr)
          Gen.withHint key do
            em.encodeFields (← Gen.resolved (.struct fields))
              ((binding.map Expr.place).getD .absent)
        let arms ← encodeArms em type tagField tag tags (index + 1) rest
        return (.variant type key binding, body) :: arms) fun r mid high back arms =>
          ∀ low front, IsBinding stored low mid front binding → front ++ back = [] ∧
            SendArms S.order S.types tag tags (S.writers r) type index low high
              ((key, .struct fields) :: rest) arms := by
      refine (writes_variant faithful covers here own _).capture.bind fun out => ?_
      refine (ih later _).bind fun arms => Scene.produces_pure fun r n => ?_
      rintro mid _ ⟨rfl, made⟩ start _ ⟨rfl, encodes⟩ low _ ⟨rfl, le, fresh, bare⟩
      refine ⟨rfl, .cons le fresh (fun none members bytes written => ?_) encodes made⟩
      have named := names_of_writtenMembers written
      rw [stores, bare none] at named
      exact List.map_eq_nil_iff.mp named
    split
    · next empty =>
      cases List.isEmpty_iff.mp empty
      exact produces_unbound.bind written
    · exact (produces_bound stored key).bind written

theorem writes_encodeUnion (faithful : Faithful S em) {tagField : String} {tag : Shape}
    {variants : List (String × Shape)} {tags : List (String × Literal)}
    (covers : S.Covers (.union tagField tag variants tags)) :
    S.Writes γ (encodeUnion em tagField tag variants tags src) (.union tagField tag variants tags)
      src := by
  have own : S.Covers tag := ⟨covers.wf.1, covers.narrow.part List.mem_cons_self⟩
  have payloads (v : String × Shape) (member : v ∈ variants) :
      (∃ fields, v.2 = .struct fields) ∧ S.Covers v.2 := by
    obtain ⟨form, wf⟩ := Shape.mem_wellFormedVariants covers.wf.2.2 member
    exact ⟨form, wf, covers.narrow.variant member⟩
  refine Scene.Produces.look (quiet_unionName _ _ _ _ _)
    (tame_unionName S.ordered S.separate faithful.orderly covers.wf) fun type _ => ?_
  refine (writes_encodeArms faithful own payloads 0).bind fun arms =>
    (Scene.produces_emit _).weaken ?_
  rintro r _ high _ _ ⟨rfl, rfl⟩ low _ ⟨rfl, made⟩
  exact made.encodes covers.wf.2.1

/-! ### All shapes -/

theorem writes_encode {depth : Nat} (faithful : Faithful S (emitter S.hooks depth))
    (covers : S.Covers s) : S.Writes γ (encode S.hooks (emitter S.hooks depth) s src) s src := by
  have orderly := faithful.orderly
  have typed := (orderly.typeExpr s covers.shape).discard
  cases s with
  | prim p =>
    refine (Scene.produces_emit _).weaken ?_
    rintro r low high _ _ ⟨rfl, rfl⟩
    exact encodes_prim (S.writers_order r) p _
  | optional value presence =>
    cases covers.wf.1
    exact writes_encodeOptional faithful covers
  | list item length => exact writes_list faithful covers
  | map key value length => exact writes_map faithful covers
  | struct | merged | packed | flags =>
    refine Scene.Produces.look (quiet_structName _ _).discard
      (tame_structName S.ordered S.separate orderly covers.wf rfl).discard fun _ _ => ?_
    exact (faithful.encodeFields covers).weaken fun r low high stmts _ known => known.struct rfl
  | enum backing entries =>
    refine (Decoding.produces_enumName covers).bind fun name => (Scene.produces_emit _).weaken ?_
    rintro r _ high _ _ ⟨rfl, rfl⟩ low _ ⟨⟨rfl, rfl⟩, _, declared⟩
    exact encodes_toId (S.writers_order r) rfl covers.wf.1
      (fun p supplies => declared p supplies.toKnows) _
  | union tagField tag variants tags => exact writes_encodeUnion faithful covers
  | «alias» name inner =>
    have own : S.Covers inner := ⟨(S.ordered.inner_alias covers.wf.1).mono (Nat.le_of_lt covers.wf.2),
      covers.narrow.part List.mem_cons_self⟩
    refine Scene.Produces.look (faithful.quiet _).discard typed fun _ _ => ?_
    refine (faithful.encode own).weaken fun r low high stmts _ known => ?_
    refine known.recast fun v bytes made => ?_
    cases made with
    | «alias» inside => exact ⟨v, inside, fun p env has _ => has rfl⟩
    | struct like => cases like
  | exported name inner =>
    refine Scene.Produces.look (faithful.quiet _).discard typed fun _ _ => ?_
    refine (Scene.produces_emit _).weaken ?_
    rintro r low high _ _ ⟨rfl, rfl⟩
    exact encodes_call (fun p supplies => Scene.Supplies.codecs supplies name inner covers.wf.1
      covers.wf.2) _
  | ref label =>
    refine Scene.Produces.look Gen.quiet_refs tame_refs fun refs same => ?_
    cases same
    split
    · next target found =>
      refine (faithful.encode (covers.target found).1).weaken fun r low high stmts _ known => ?_
      refine known.recast fun v bytes made => ?_
      cases made with
      | ref found' inside =>
        cases found.symm.trans found'
        exact ⟨v, inside, fun p env has _ => has rfl⟩
      | struct like => cases like
    · exact Scene.produces_throw
  | literal value backing =>
    cases backing with
    | none => exact Scene.produces_pure fun r n => encodes_bare value n
    | some p =>
      refine (Scene.produces_emit _).weaken ?_
      rintro r low high _ _ ⟨rfl, rfl⟩
      exact encodes_literal (S.writers_order r) value p _
  | slot | custom | transformed => exact covers.wf.elim

/-- The emitter's encoders write the values of shapes, whatever its depth. -/
theorem faithful_emitter (S : Scene) (depth : Nat) : Faithful S (emitter S.hooks depth) := by
  induction depth with
  | zero =>
    constructor
    case orderly => exact orderly_emitter S.hooks S.ordered S.separate 0
    case quiet => exact quiet_emitter S.hooks 0
    all_goals exact fun _ => Scene.produces_throw
  | succ depth ih =>
    constructor
    case orderly => exact orderly_emitter S.hooks S.ordered S.separate (depth + 1)
    case quiet => exact quiet_emitter S.hooks (depth + 1)
    case encode => exact fun covers => writes_encode ih covers
    case encodeFields => exact fun covers => writes_encodeFields ih covers

end Encoding

end WireSchema
