import WireSchema.Proofs.Lowering.Tame

/-!
# Declarations keep registries sound

Structs, enumerations, unions, aliases and codecs are registered under names of their own, and what
a registered name stands for does not change. So every rule that declares types, on shapes that texts
describe, makes the registry grow and keeps it sound.
-/

namespace WireSchema.Lowering

open Ir

variable {hooks : Hooks} {types : Refs} {rank : String → Nat} {α β : Type}

/-! ### Constants -/

/-- The declaration asks for a name without underscores or for the alias of its signature. -/
def Asked (r : Registry) (signature desired : String) : Prop :=
  '_' ∉ desired.toList ∨ r.aliases.lookup signature = some desired

theorem asked_desiredName {signature fallback desired : String} {s s' : Session}
    (ran : Gen.Runs (desiredName signature fallback) s desired s') :
    s' = s ∧ Asked s.registry signature desired := by
  simp only [desiredName, Gen.runs_bind, Gen.runs_aliasOf?] at ran
  obtain ⟨found, s₁, ⟨found_eq, same⟩, ran⟩ := ran
  cases same
  cases known : s.registry.aliases.lookup signature with
  | some name =>
    rw [found_eq, known] at ran
    obtain ⟨rfl, rfl⟩ := Gen.runs_pure.mp ran
    exact ⟨rfl, .inr known⟩
  | none =>
    rw [found_eq, known] at ran
    obtain ⟨rfl, rfl⟩ := Gen.runs_hintName.mp ran
    exact ⟨rfl, .inl (Draft.underscore_hintName _ _)⟩

/-- A shape with the head of a declared shape is one. -/
theorem nominal_of_head (ordered : types.Ordered rank) {name : String} {inner : Shape} (declares : types.Declares name inner)
    (isHead : head (inner.canonicalName types) ∈ Registry.nominalHeads) : inner.isNominal = true := by
  cases nominal : inner.isNominal with
  | true => rfl
  | false => exact absurd isHead (Shape.head_plain ordered (ordered.inner declares) nominal)

/-- The name of a new constant has no underscores, or is that of the declared type whose shape it
declares. -/
theorem freeName_origin (ordered : types.Ordered rank) {r : Registry} (sound : r.Sound hooks types) {key desired : String}
    (isHead : head key ∈ Registry.nominalHeads) (new : r.constants.lookup key = none)
    (asked : Asked r key desired) :
    '_' ∉ (r.freeName desired).toList ∨
      ∃ inner, types.Declares (r.freeName desired) inner ∧ inner.canonicalName types = key := by
  rcases asked with plain | known
  · exact .inl (Registry.underscore_freeName plain)
  · rcases sound.aliases key desired isHead known with ⟨_, constant⟩ | ⟨inner, declares, rfl⟩
    · rw [new] at constant
      cases constant
    · by_cases score : '_' ∈ desired.toList
      · cases taken : r.isDeclared desired with
        | true =>
          have nominal := nominal_of_head ordered declares isHead
          obtain ⟨_, constant⟩ := sound.underscores desired inner score taken declares nominal
          rw [new] at constant
          cases constant
        | false =>
          rw [Registry.freeName_of_free taken]
          exact .inr ⟨inner, declares, rfl⟩
      · exact .inl (Registry.underscore_freeName score)

/-- Such a name is none of the readers of exported types. -/
theorem origin_apart (separate : types.Separate) {name key : String} (origin : '_' ∉ name.toList ∨
      ∃ inner, types.Declares name inner ∧ inner.canonicalName types = key)
    (exported : String) (inner : Shape) (member : (exported, .exported exported inner) ∈ types) :
    name ≠ readerName (codecBase exported) := by
  rintro rfl
  rcases origin with plain | ⟨_, declares, _⟩
  · exact plain (underscore_readerName _)
  · exact separate.apart member declares.mem

/-- The constant that gives such a name is that of the type with the name. -/
theorem origin_known (ordered : types.Ordered rank) {r : Registry} {name key : String} (origin : '_' ∉ name.toList ∨
      ∃ inner, types.Declares name inner ∧ inner.canonicalName types = key)
    (inner : Shape) (score : '_' ∈ name.toList) (declares : types.Declares name inner) :
    ∃ known, (r.constants ++ [(key, name)]).lookup (inner.canonicalName types) = some known := by
  rcases origin with plain | ⟨inner', declares', rfl⟩
  · exact absurd score plain
  · cases ordered.declares_unique declares declares'
    simp only [lookup_append, List.lookup_cons, beq_self_eq_true]
    cases r.constants.lookup (inner.canonicalName types) with
    | some known => exact ⟨known, rfl⟩
    | none => exact ⟨name, rfl⟩

/-- The constant of a shape other than an enumeration. -/
theorem advances_constant (ordered : types.Ordered rank) (separate : types.Separate) {key desired name : String} {define : String → Gen Decl} {s s' : Session}
    (isHead : head key ∈ Shape.groupHeads) (asked : Asked s.registry key desired)
    (defines : ∀ name, Tame hooks types (define name) fun d => d.name = name ∧ ∀ c, d ≠ .codec c)
    (ran : Gen.Runs (Gen.registerConstant key desired define) s name s') (refs : s.refs = types) :
    Advances hooks types s s' ∧ s'.registry.constants.lookup key = some name := by
  rcases Gen.runs_registerConstant.mp ran with ⟨known, rfl⟩ | ⟨new, rfl, d, s₁, defined, rfl⟩
  · exact ⟨advances_draft refs rfl rfl, known⟩
  · obtain ⟨step, named, plain⟩ := defines _ _ _ _ defined refs
    have fresh := Registry.freeName_free s.registry desired
    refine ⟨⟨step.refs, Registry.grows_declare fresh step.grows, fun sound => ?_⟩, ?_⟩
    · have isHead' : head key ∈ Registry.nominalHeads := List.mem_cons_of_mem _ isHead
      have origin := freeName_origin ordered sound isHead' new asked
      refine Registry.Sound.fill (step.sound (sound.extend fresh (fun _ same => by cases same) ?_ ?_)) ?_ ?_
      · intro backing entries signature known is found
        -- The key is not the signature of an enumeration.
        rw [List.lookup_cons] at found
        split at found
        case h_1 same =>
          rw [eq_of_beq same] at is
          rw [is.2.2, Shape.head_enum] at isHead
          exact absurd isHead (by decide)
        case h_2 => cases found
      · exact fun inner score declares _ => origin_known ordered origin inner score declares
      · exact step.grows.slots _ (List.mem_append_right _ (by simp))
      · cases d with
        | codec c => exact absurd rfl (plain c)
        | _ => exact ⟨named, origin_apart separate origin⟩
    · refine step.grows.keeps key _ ?_
      simp [Registry.reserve, Registry.addConstant, lookup_append, new]

/-- A signature gets an alias: it has its constant, or the alias is that of a declared type. -/
theorem advances_registerAlias {signature name found : String} {s s' : Session}
    (known : head signature ∈ Registry.nominalHeads →
      (∃ known, s.registry.constants.lookup signature = some known) ∨
        ∃ inner, types.Declares name inner ∧ inner.canonicalName types = signature)
    (ran : Gen.Runs (Gen.registerAlias signature name) s found s') (refs : s.refs = types) :
    Advances hooks types s s' ∧ s'.registry.constants = s.registry.constants := by
  obtain ⟨_, rfl⟩ := Gen.runs_registerAlias.mp ran
  have slots : (s.registry.addAlias signature name).2.slots = s.registry.slots := by
    unfold Registry.addAlias
    split <;> rfl
  have constants : (s.registry.addAlias signature name).2.constants = s.registry.constants := by
    unfold Registry.addAlias
    split <;> rfl
  have functions : (s.registry.addAlias signature name).2.functions = s.registry.functions := by
    unfold Registry.addAlias
    split <;> rfl
  refine ⟨⟨refs, ⟨fun slot member => ?_, fun name' member => ?_, fun key name' found => ?_,
    functions⟩, fun sound => sound.addAlias known⟩, constants⟩
  · rwa [slots]
  · rwa [slots] at member
  · rwa [constants]

/-- The constant of an enumeration. -/
theorem advances_enumConstant (ordered : types.Ordered rank) (separate : types.Separate)
    {backing : Primitive} {entries : List (String × Int)} {key desired name : String}
    {s s' : Session} (is : Registry.IsEnumSignature types backing entries key)
    (asked : Asked s.registry key desired)
    (ran : Gen.Runs (Gen.registerConstant key desired fun name =>
      return .enum { name, backing, entries }) s name s') (refs : s.refs = types) :
    Advances hooks types s s' ∧ s'.registry.constants.lookup key = some name := by
  rcases Gen.runs_registerConstant.mp ran with ⟨known, rfl⟩ | ⟨new, rfl, d, s₁, defined, rfl⟩
  · exact ⟨advances_draft refs rfl rfl, known⟩
  obtain ⟨rfl, rfl⟩ := Gen.runs_pure.mp defined
  have fresh := Registry.freeName_free s.registry desired
  have isHead : head key ∈ Registry.nominalHeads := by
    rw [is.2.2, Shape.head_enum]
    exact List.mem_cons_self ..
  refine ⟨⟨refs, Registry.grows_declare fresh (.refl _), fun sound => ?_⟩, ?_⟩
  · have origin := freeName_origin ordered sound isHead new asked
    rw [Registry.fill_reserve (r := s.registry.addConstant key (s.registry.freeName desired)) fresh]
    refine sound.extend fresh (fun d same => ?_) ?_ ?_
    · cases same
      exact ⟨rfl, origin_apart separate origin⟩
    · intro backing' entries' signature known is' found
      rw [List.lookup_cons] at found
      split at found
      case h_1 same =>
        -- The signature tells which enumeration it is.
        cases found
        rw [eq_of_beq same] at is'
        obtain ⟨rfl, rfl⟩ := Shape.canonicalName_enum_unique is.1 is'.1 is.2.1 is'.2.1
          (is.2.2.symm.trans is'.2.2)
        exact List.mem_append_right _ (by simp)
      case h_2 => cases found
    · exact fun inner score declares _ => origin_known ordered origin inner score declares
  · simp [Registry.fill, Registry.reserve, Registry.addConstant, lookup_append, new]

theorem advances_enumName (ordered : types.Ordered rank) (separate : types.Separate)
    {backing : Primitive} {entries : List (String × Int)} {name : String} {s s' : Session}
    (idents : ∀ entry ∈ entries, IsIdent entry.1)
    (ran : Gen.Runs (enumName backing entries) s name s') (refs : s.refs = types) :
    Advances hooks types s s' ∧ backing.isInteger = true ∧
      s'.registry.constants.lookup ((Shape.enum backing entries).canonicalName types) = some name := by
  simp only [enumName, Gen.runs_bind, Gen.runs_ofExcept, Gen.runs_canonicalName, Gen.runs_discard,
    Gen.runs_pure] at ran
  obtain ⟨kind, s₁, ⟨isKind, rfl⟩, signature, s₂, ⟨rfl, rfl⟩, desired, s₃, wanted, _, s₄, ⟨_, rfl⟩,
    found, s₅, constant, _, s₆, ⟨_, named⟩, rfl, rfl⟩ := ran
  obtain ⟨rfl, asked⟩ := asked_desiredName wanted
  rw [refs] at asked constant named
  have int : backing.isInteger = true := by
    unfold Shape.backingKind at isKind
    split at isKind
    case h_1 kind known => rw [Primitive.isInteger, known, Option.isSome_some]
    case h_2 => cases isKind
  obtain ⟨step, known⟩ := advances_enumConstant ordered separate ⟨int, idents, rfl⟩ asked constant refs
  obtain ⟨step', same⟩ := advances_registerAlias (fun _ => .inl ⟨_, known⟩) named step.refs
  exact ⟨step.trans step', int, by rw [same, known]⟩

/-! ### Emitters -/

/-- The emitter keeps sessions going, and declares what has a declaration of its own. -/
structure Emitter.Orderly (hooks : Hooks) (types : Refs) (rank : String → Nat) (em : Emitter) :
    Prop where
  typeExpr : ∀ s : Shape, s.IsFieldShape types rank →
    Tame hooks types (em.typeExpr s) fun _ => True
  declares : ∀ (s : Shape) (σ : Session) (t : TypeExpr) (σ' : Session),
    s.IsFieldShape types rank → s.isNominal = true → Gen.Runs (em.typeExpr s) σ t σ' →
    σ.refs = types → ∃ known, σ'.registry.constants.lookup (s.canonicalName types) = some known
  prepare : ∀ s : Shape, s.IsFieldShape types rank → Tame hooks types (em.prepare s) fun _ => True
  decodeExpr : ∀ s : Shape, s.IsFieldShape types rank →
    Tame hooks types (em.decodeExpr s) fun _ => True
  decodeBindings : ∀ s : Shape, s.IsFieldShape types rank →
    Tame hooks types (em.decodeBindings s) fun _ => True
  encode : ∀ (s : Shape) (src : Expr), s.IsFieldShape types rank →
    Tame hooks types (em.encode s src) fun _ => True
  encodeFields : ∀ (s : Shape) (src : Expr), s.IsFieldShape types rank →
    Tame hooks types (em.encodeFields s src) fun _ => True

variable {em : Emitter} {bound : Nat}

theorem fieldShape_resolved (ordered : types.Ordered rank) {s found : Shape}
    (wf : s.WellFormed types rank bound) (resolved : s.resolved types = .ok found) :
    found.IsFieldShape types rank :=
  .inl ⟨bound, (Shape.resolves_of_resolved resolved).wellFormed ordered wf⟩

theorem advances_structName (ordered : types.Ordered rank) (separate : types.Separate)
    (orderly : em.Orderly hooks types rank) {s : Shape} (wf : s.WellFormed types rank bound)
    (structLike : s.isStructLike = true) {name : String} {σ σ' : Session}
    (ran : Gen.Runs (structName em s) σ name σ') (refs : σ.refs = types) :
    Advances hooks types σ σ' ∧
      σ'.registry.constants.lookup (s.canonicalName types) = some name := by
  simp only [structName, Gen.runs_bind, Gen.runs_canonicalName, Gen.runs_refs, Gen.runs_discard,
    Gen.runs_pure] at ran
  obtain ⟨signature, σ₁, ⟨rfl, rfl⟩, _, σ₂, ⟨rfl, rfl⟩, desired, σ₃, wanted, found, σ₄, constant, _,
    σ₅, ⟨_, named⟩, rfl, rfl⟩ := ran
  obtain ⟨rfl, asked⟩ := asked_desiredName wanted
  rw [refs] at asked constant named
  have isHead : head (s.canonicalName types) ∈ Shape.groupHeads := by
    refine Shape.head_group types ?_ ?_
    · cases s <;> first | rfl | cases structLike
    · rintro backing entries rfl
      cases structLike
  have both : Advances hooks types σ₃ σ₄ ∧
      σ₄.registry.constants.lookup (s.canonicalName types) = some name := by
    refine advances_constant ordered separate isHead asked (fun name => ?_) constant refs
    refine tame_refs.bind fun _ _ => tame_ofExcept.bind fun _ _ => Tame.nested ?_
    refine tame_storedFields.bind fun fields stored => ?_
    refine (tame_mapM fun f member => ?_).bind fun _ _ => tame_pure ⟨rfl, fun _ => by simp⟩
    have shape := Shape.fieldShapes_of_storedFields ordered wf stored f member
    exact (orderly.typeExpr f.shape shape).withHint.bind fun _ _ => tame_pure trivial
  obtain ⟨step, known⟩ := both
  obtain ⟨step', same⟩ := advances_registerAlias (fun _ => .inl ⟨_, known⟩) named step.refs
  exact ⟨step.trans step', by rw [same, known]⟩

theorem tame_variantDecl (orderly : em.Orderly hooks types rank) {key : String} {payload : Shape}
    (wf : payload.WellFormed types rank bound) :
    Tame hooks types (variantDecl em key payload) fun _ => True := by
  refine tame_resolved.bind fun found _ => ?_
  split
  · exact tame_canonicalName.bind fun _ _ => tame_throw
  · refine tame_storedFields.bind fun fields _ => ?_
    split
    · exact tame_pure trivial
    · refine (orderly.typeExpr payload (.inl ⟨bound, wf⟩)).withHint.bind fun t _ => ?_
      split
      · exact tame_pure trivial
      · exact tame_canonicalName.bind fun _ _ => tame_throw

theorem advances_unionName (ordered : types.Ordered rank) (separate : types.Separate)
    (orderly : em.Orderly hooks types rank) {tagField : String} {tag : Shape}
    {variants : List (String × Shape)} {tags : List (String × Literal)}
    (wf : (Shape.union tagField tag variants tags).WellFormed types rank bound) {name : String}
    {σ σ' : Session} (ran : Gen.Runs (unionName em tagField tag variants tags) σ name σ')
    (refs : σ.refs = types) :
    Advances hooks types σ σ' ∧ σ'.registry.constants.lookup
      ((Shape.union tagField tag variants tags).canonicalName types) = some name := by
  simp only [unionName, Gen.runs_bind, Gen.runs_canonicalName] at ran
  obtain ⟨signature, σ₁, ⟨rfl, rfl⟩, desired, σ₂, wanted, ran⟩ := ran
  obtain ⟨rfl, asked⟩ := asked_desiredName wanted
  rw [refs] at asked
  split at ran
  case isTrue => exact (Gen.runs_throw.mp ran).elim
  case isFalse =>
  split at ran
  case h_1 => exact (Gen.runs_throw.mp ran).elim
  case h_2 =>
    simp only [Gen.runs_bind, Gen.runs_pure, Gen.runs_discard] at ran
    obtain ⟨found, σ₃, constant, _, σ₄, ⟨_, named⟩, rfl, rfl⟩ := ran
    rw [refs] at constant named
    have both : Advances hooks types σ₂ σ₃ ∧ σ₃.registry.constants.lookup
        ((Shape.union tagField tag variants tags).canonicalName types) = some name := by
      have isHead := Shape.head_group types (s := .union tagField tag variants tags) rfl
        fun _ _ same => by cases same
      refine advances_constant ordered separate isHead asked (fun name => ?_) constant refs
      refine Tame.nested ((orderly.typeExpr tag (.inl ⟨bound, wf.1⟩)).withHint.discard.bind fun _ _ => ?_)
      refine (tame_mapM fun variant member => ?_).bind fun _ _ => tame_pure ⟨rfl, fun _ => by simp⟩
      exact tame_variantDecl orderly (Shape.mem_wellFormedVariants wf.2.2 member).2
    obtain ⟨step, known⟩ := both
    obtain ⟨step', same⟩ := advances_registerAlias (fun _ => .inl ⟨_, known⟩) named step.refs
    exact ⟨step.trans step', by rw [same, known]⟩

/-! ### Declared types -/

/-- A global that is begun, defined and finished. -/
theorem advances_global {name out : String} {define : Gen Decl} {s s' : Session}
    (underscores : s.registry.Sound hooks types → s.registry.isDeclared name = false →
      ∀ inner, types.Declares name inner → inner.isNominal = true →
      ∃ known, s.registry.constants.lookup (inner.canonicalName types) = some known)
    (defines : ∀ d σ σ', σ.refs = types → Gen.Runs define σ d σ' →
      Advances hooks types σ σ' ∧ Registry.Fits hooks types σ'.registry name d)
    (ran : Gen.Runs (Gen.registerGlobal name define) s out s') (refs : s.refs = types) :
    Advances hooks types s s' ∧ s'.registry.isDeclared name = true := by
  obtain ⟨rfl, ⟨declared, rfl⟩ | ⟨fresh, d, s₁, defined, rfl⟩⟩ := Gen.runs_registerGlobal.mp ran
  · exact ⟨advances_draft refs rfl rfl, declared⟩
  obtain ⟨step, fits⟩ := defines d _ _ (by exact refs) defined
  have same : s.registry.reserve out = { s.registry with
      slots := s.registry.slots ++ [(out, none)], constants := s.registry.constants ++ [] } := by
    rw [List.append_nil, Registry.reserve]
  have begun : (out, none) ∈ s₁.registry.slots :=
    step.grows.slots _ (List.mem_append_right _ (List.mem_singleton_self _))
  rw [same] at step
  refine ⟨⟨step.refs, Registry.grows_declare fresh step.grows, fun sound => ?_⟩, ?_⟩
  · refine Registry.Sound.fill (step.sound ?_) begun fits
    refine sound.extend fresh (fun _ same => by cases same)
      (fun _ _ _ _ _ found => by cases found) ?_
    intro inner _ declares nominal
    rw [List.append_nil]
    exact underscores sound fresh inner declares nominal
  · rw [Registry.isDeclared_iff, Registry.names_fill]
    exact List.mem_map.mpr ⟨_, begun, rfl⟩

/-- A declared type becomes an alias of what it stands for. -/
theorem advances_aliasDecl (ordered : types.Ordered rank) (separate : types.Separate)
    {name out : String} {inner : Shape} {t : TypeExpr} {s s' : Session}
    (declares : types.Declares name inner)
    (known : inner.isNominal = true →
      ∃ known, s.registry.constants.lookup (inner.canonicalName types) = some known)
    (ran : Gen.Runs (Gen.registerGlobal name (return .alias name t)) s out s')
    (refs : s.refs = types) : Advances hooks types s s' := by
  refine (advances_global ?_ ?_ ran refs).1
  · intro _ _ inner' declares' nominal
    cases ordered.declares_unique declares declares'
    exact known nominal
  · intro d σ σ' refs defined
    obtain ⟨rfl, rfl⟩ := Gen.runs_pure.mp defined
    refine ⟨advances_draft refs rfl rfl, rfl, fun exported inner' member => ?_⟩
    rintro rfl
    exact separate.apart member declares.mem

theorem tame_declareAlias (ordered : types.Ordered rank) (separate : types.Separate)
    (orderly : em.Orderly hooks types rank) {name : String} {inner : Shape}
    (declares : types.Declares name inner) :
    Tame hooks types (declareAlias em name inner) (· = name) := by
  have shape : inner.IsFieldShape types rank := .inl ⟨_, ordered.inner declares⟩
  intro σ out σ' ran refs
  simp only [declareAlias, Gen.runs_bind, Gen.runs_canonicalName, Gen.runs_resolved] at ran
  obtain ⟨signature, σ₁, ⟨rfl, rfl⟩, found, σ₂, ⟨resolved, rfl⟩, ran⟩ := ran
  rw [refs] at ran
  have asked : head (inner.canonicalName types) ∈ Registry.nominalHeads →
      (∃ known, σ₂.registry.constants.lookup (inner.canonicalName types) = some known) ∨
        ∃ inner', types.Declares name inner' ∧
          inner'.canonicalName types = inner.canonicalName types :=
    fun _ => .inr ⟨inner, declares, rfl⟩
  split at ran
  case isTrue =>
    simp only [Gen.runs_bind, Gen.runs_discard] at ran
    obtain ⟨_, σ₃, ⟨_, named⟩, actual, σ₄, typed, ran⟩ := ran
    have step : Advances hooks types σ₂ σ₃ := (advances_registerAlias asked named refs).1
    have step' := (orderly.typeExpr inner shape _ _ _ typed step.refs).1
    split at ran
    case isTrue =>
      simp only [Gen.runs_bind, Gen.runs_discard, Gen.runs_pure] at ran
      obtain ⟨_, σ₅, ⟨_, global⟩, rfl, rfl⟩ := ran
      have known (nominal : inner.isNominal = true) :=
        orderly.declares inner _ _ _ shape nominal typed step.refs
      have step'' : Advances hooks types σ₄ σ' :=
        advances_aliasDecl ordered separate declares known global step'.refs
      exact ⟨(step.trans step').trans step'', rfl⟩
    case isFalse =>
      obtain ⟨rfl, rfl⟩ := Gen.runs_pure.mp ran
      exact ⟨step.trans step', rfl⟩
  case isFalse plain =>
    simp only [Gen.runs_bind, Gen.runs_registry] at ran
    obtain ⟨_, _, ⟨rfl, rfl⟩, ran⟩ := ran
    split at ran
    case isTrue =>
      obtain ⟨rfl, rfl⟩ := Gen.runs_pure.mp ran
      exact ⟨advances_draft refs rfl rfl, rfl⟩
    case isFalse =>
      simp only [Gen.runs_bind, Gen.runs_discard, Gen.runs_pure] at ran
      obtain ⟨target, σ₃, typed, _, σ₄, ⟨_, global⟩, _, σ₅, ⟨_, named⟩, rfl, rfl⟩ := ran
      have step := (orderly.typeExpr inner shape _ _ _ typed refs).1
      have known (nominal : inner.isNominal = true) :=
        orderly.declares inner _ _ _ shape nominal typed refs
      have step' : Advances hooks types σ₃ σ₄ :=
        advances_aliasDecl ordered separate declares known global step.refs
      have step'' : Advances hooks types σ₄ σ' :=
        (advances_registerAlias (fun _ => .inr ⟨inner, declares, rfl⟩) named step'.refs).1
      exact ⟨(step.trans step').trans step'', rfl⟩

/-- The codec of an exported type is declared under the name of its reader. -/
theorem advances_declareCodec (ordered : types.Ordered rank) (separate : types.Separate) {depth : Nat}
    (orderly : (emitter hooks depth).Orderly hooks types rank) {name : String} {inner : Shape}
    (member : (name, .exported name inner) ∈ types) {s s' : Session}
    (ran : Gen.Runs (declareCodec (emitter hooks depth) name inner) s () s') (refs : s.refs = types) :
    Advances hooks types s s' ∧ s'.registry.isDeclared (readerName (codecBase name)) = true := by
  have shape : inner.IsFieldShape types rank := .inl ⟨_, ordered.inner_exported member⟩
  obtain ⟨_, ran⟩ := Gen.runs_discard.mp ran
  refine advances_global ?_ ?_ ran refs
  · exact fun _ _ inner' declares => absurd declares.mem (separate.apart member)
  · intro d σ σ' refs defined
    obtain ⟨σ₁, within, rfl⟩ := Gen.runs_nested.mp defined
    simp only [Gen.runs_bind, Gen.runs_beginFunction, Gen.runs_param, Gen.runs_pure] at within
    obtain ⟨decode, σ₂, decoder, _, _, rfl, value, _, ⟨rfl, rfl⟩, ⟨encode, u⟩, σ₃, encoder, rfl,
      rfl⟩ := within
    have step := ((orderly.decodeExpr inner shape).captureBlock _ _ _ decoder refs).1
    have step' := ((orderly.encode inner _ shape).capture _ _ _ encoder step.refs).1
    refine ⟨?_, ?_⟩
    · exact ⟨step'.refs, step.grows.trans step'.grows, fun sound => step'.sound (step.sound sound)⟩
    · cases u
      refine ⟨name, inner, member, rfl, ?_⟩
      constructor
      case base => dsimp only
      case made =>
        refine ⟨depth, _, σ₂, _, σ₁, ?_, ?_, (Registry.Grows.refl _).keeps, decoder, ?_, encoder⟩
        · exact refs
        · rfl
        · simp only [seqRight_eq_bind, Gen.runs_bind, Gen.runs_beginFunction, Gen.runs_param]
          exact ⟨(), _, rfl, rfl, rfl⟩

theorem tame_declareCodec (ordered : types.Ordered rank) (separate : types.Separate) {depth : Nat}
    (orderly : (emitter hooks depth).Orderly hooks types rank) {name : String} {inner : Shape}
    (member : (name, .exported name inner) ∈ types) :
    Tame hooks types (declareCodec (emitter hooks depth) name inner) fun _ => True :=
  fun _ _ _ ran refs => ⟨(advances_declareCodec ordered separate orderly member ran refs).1, trivial⟩

theorem tame_aliasedOr {s : Shape} {build : Gen TypeExpr}
    (tame : Tame hooks types build fun _ => True) :
    Tame hooks types (aliasedOr s build) fun _ => True := by
  refine tame_canonicalName.bind fun signature _ => ?_
  intro σ t σ' ran refs
  simp only [Gen.runs_bind, Gen.runs_aliasOf?] at ran
  obtain ⟨found, _, ⟨rfl, rfl⟩, ran⟩ := ran
  split at ran
  · obtain ⟨rfl, rfl⟩ := Gen.runs_pure.mp ran
    exact ⟨advances_draft refs rfl rfl, trivial⟩
  · exact tame _ _ _ ran refs

theorem tame_structName (ordered : types.Ordered rank) (separate : types.Separate)
    (orderly : em.Orderly hooks types rank) {s : Shape} (wf : s.WellFormed types rank bound)
    (structLike : s.isStructLike = true) : Tame hooks types (structName em s) fun _ => True :=
  fun _ _ _ ran refs =>
    ⟨(advances_structName ordered separate orderly wf structLike ran refs).1, trivial⟩

theorem tame_enumName (ordered : types.Ordered rank) (separate : types.Separate)
    {backing : Primitive} {entries : List (String × Int)}
    (wf : (Shape.enum backing entries).WellFormed types rank bound) :
    Tame hooks types (enumName backing entries) fun _ => True :=
  fun _ _ _ ran refs => ⟨(advances_enumName ordered separate wf.2 ran refs).1, trivial⟩

theorem tame_unionName (ordered : types.Ordered rank) (separate : types.Separate)
    (orderly : em.Orderly hooks types rank) {tagField : String} {tag : Shape}
    {variants : List (String × Shape)} {tags : List (String × Literal)}
    (wf : (Shape.union tagField tag variants tags).WellFormed types rank bound) :
    Tame hooks types (unionName em tagField tag variants tags) fun _ => True :=
  fun _ _ _ ran refs => ⟨(advances_unionName ordered separate orderly wf ran refs).1, trivial⟩

/-- The target of a reference is a declared type. -/
theorem fieldShape_target (ordered : types.Ordered rank) {label : String} {target : Shape}
    (found : types.lookup label = some target) : target.IsFieldShape types rank :=
  .inl ⟨_, ordered.wellFormed_target found⟩

/-- What is behind a reference is generated in its place. -/
theorem tame_ref (ordered : types.Ordered rank) {label : String} {act : Shape → Gen α}
    (tame : ∀ s : Shape, s.IsFieldShape types rank → Tame hooks types (act s) fun _ => True) :
    Tame hooks types (do
      match (← Gen.refs).lookup label with
      | some target => act target
      | none => throw (.unresolvedReference label)) fun _ => True := by
  refine tame_refs.bind fun found same => ?_
  cases same
  split
  case h_1 target known => exact tame target (fieldShape_target ordered known)
  case h_2 => exact tame_throw

theorem tame_typeExpr (ordered : types.Ordered rank) (separate : types.Separate) {depth : Nat}
    (orderly : (emitter hooks depth).Orderly hooks types rank) {s : Shape}
    (shape : s.IsFieldShape types rank) :
    Tame hooks types (typeExpr (emitter hooks depth) s) fun _ => True := by
  rcases shape with ⟨bound, wf⟩ | ⟨group, index, kind, rfl⟩
  · cases s with
    | prim p => exact tame_pure trivial
    | optional value presence =>
      refine tame_aliasedOr ?_
      exact (orderly.typeExpr value (.inl ⟨bound, wf.2⟩)).bind fun _ _ => tame_pure trivial
    | list item length =>
      refine tame_aliasedOr ?_
      exact (orderly.typeExpr item (.inl ⟨bound, wf⟩)).withHint.bind fun _ _ => tame_pure trivial
    | map key value length =>
      refine tame_aliasedOr ?_
      refine (orderly.typeExpr key (.inl ⟨bound, wf.1⟩)).withHint.bind fun _ _ => ?_
      exact (orderly.typeExpr value (.inl ⟨bound, wf.2⟩)).withHint.bind fun _ _ => tame_pure trivial
    | struct | merged | packed | flags =>
      exact (tame_structName ordered separate orderly wf rfl).bind fun _ _ => tame_pure trivial
    | enum backing entries =>
      exact (tame_enumName ordered separate wf).bind fun _ _ => tame_pure trivial
    | union tagField tag variants tags =>
      exact (tame_unionName ordered separate orderly wf).bind fun _ _ => tame_pure trivial
    | «alias» name inner =>
      refine (tame_declareAlias ordered separate orderly (.inl wf.1)).bind fun _ _ => ?_
      exact tame_pure trivial
    | exported name inner =>
      refine (tame_declareAlias ordered separate orderly (.inr wf.1)).bind fun _ same => ?_
      cases same
      refine (tame_declareCodec ordered separate orderly wf.1).bind fun _ _ => ?_
      exact tame_pure trivial
    | ref label => exact tame_ref ordered orderly.typeExpr
    | literal value backing =>
      cases backing with
      | some p => exact tame_pure trivial
      | none => cases value <;> exact tame_pure trivial
    | slot | custom | transformed => exact wf.elim
  · cases kind <;> exact tame_pure trivial

/-- What has a declaration of its own gets its constant. -/
theorem declares_typeExpr (ordered : types.Ordered rank) (separate : types.Separate)
    (orderly : em.Orderly hooks types rank) {s : Shape} (shape : s.IsFieldShape types rank)
    (nominal : s.isNominal = true) {σ σ' : Session} {t : TypeExpr}
    (ran : Gen.Runs (typeExpr em s) σ t σ') (refs : σ.refs = types) :
    ∃ known, σ'.registry.constants.lookup (s.canonicalName types) = some known := by
  rcases shape with ⟨bound, wf⟩ | ⟨group, index, kind, rfl⟩
  · cases s with
    | struct | merged | packed | flags =>
      obtain ⟨name, _, ran, same⟩ := Gen.runs_bind.mp ran
      obtain ⟨_, rfl⟩ := Gen.runs_pure.mp same
      exact ⟨name, (advances_structName ordered separate orderly wf rfl ran refs).2⟩
    | enum backing entries =>
      obtain ⟨name, _, ran, same⟩ := Gen.runs_bind.mp ran
      obtain ⟨_, rfl⟩ := Gen.runs_pure.mp same
      have both : Advances hooks types σ σ' ∧ _ := advances_enumName ordered separate wf.2 ran refs
      exact ⟨name, both.2.2⟩
    | union tagField tag variants tags =>
      obtain ⟨name, _, ran, same⟩ := Gen.runs_bind.mp ran
      obtain ⟨_, rfl⟩ := Gen.runs_pure.mp same
      exact ⟨name, (advances_unionName ordered separate orderly wf ran refs).2⟩
    | _ => cases nominal
  · cases nominal

/-- The parts of a shape are shapes of fields. -/
theorem fieldShape_subshapes (ordered : types.Ordered rank) {s part : Shape}
    (shape : s.IsFieldShape types rank) (member : part ∈ s.subshapes types) :
    part.IsFieldShape types rank := by
  rcases shape with ⟨bound, wf⟩ | ⟨group, index, kind, rfl⟩
  · cases s with
    | prim | enum | literal => cases member
    | optional value presence =>
      rcases List.mem_cons.mp member with rfl | member
      · exact .inl ⟨bound, wf.2⟩
      · cases List.mem_singleton.mp member
        cases wf.1
        exact .inl ⟨bound, trivial⟩
    | list item length =>
      cases List.mem_singleton.mp member
      exact .inl ⟨bound, wf⟩
    | map key value length =>
      rcases List.mem_cons.mp member with rfl | member
      · exact .inl ⟨bound, wf.1⟩
      · cases List.mem_singleton.mp member
        exact .inl ⟨bound, wf.2⟩
    | struct fields =>
      obtain ⟨f, inside, rfl⟩ := List.mem_map.mp member
      exact .inl ⟨bound, Shape.mem_wellFormedFields wf inside⟩
    | merged parts => exact .inl ⟨bound, Shape.mem_wellFormedParts wf member⟩
    | packed backing widths fields group =>
      obtain ⟨f, inside, rfl⟩ := List.mem_map.mp member
      obtain ⟨index, width, _, same⟩ := wf.2.2 f inside
      exact .inr ⟨_, _, _, same⟩
    | flags backing masks fields group =>
      obtain ⟨f, inside, rfl⟩ := List.mem_map.mp member
      obtain ⟨index, mask, _, same⟩ := wf.2 f inside
      exact .inr ⟨_, _, _, same⟩
    | union tagField tag variants tags =>
      rcases List.mem_cons.mp member with rfl | member
      · exact .inl ⟨bound, wf.1⟩
      · obtain ⟨variant, inside, rfl⟩ := List.mem_map.mp member
        exact .inl ⟨bound, (Shape.mem_wellFormedVariants wf.2.2 inside).2⟩
    | «alias» name inner =>
      cases List.mem_singleton.mp member
      exact .inl ⟨_, ordered.inner_alias wf.1⟩
    | exported name inner =>
      cases List.mem_singleton.mp member
      exact .inl ⟨_, ordered.inner_exported wf.1⟩
    | ref label => exact fieldShape_target ordered (Option.mem_toList.mp member)
    | slot | custom | transformed => exact wf.elim
  · cases member

theorem tame_prepare (ordered : types.Ordered rank) (orderly : em.Orderly hooks types rank)
    {s : Shape} (shape : s.IsFieldShape types rank) :
    Tame hooks types (prepare em s) fun _ => True := by
  have whole : Tame hooks types (do
      discard <| em.typeExpr s
      (s.subshapes (← Gen.refs)).forM em.prepare) fun _ => True := by
    refine (orderly.typeExpr s shape).discard.bind fun _ _ => tame_refs.bind fun found same => ?_
    cases same
    exact tame_forM fun part member =>
      orderly.prepare part (fieldShape_subshapes ordered shape member)
  unfold prepare
  split
  · exact tame_pure trivial
  · exact tame_pure trivial
  · exact (orderly.typeExpr _ shape).discard
  · exact whole

end WireSchema.Lowering
