import WireSchema.Proofs.Decoding.Arms
import WireSchema.Proofs.Decoding.Producing
import WireSchema.Proofs.Decoding.Slots
import WireSchema.Proofs.Shape.Correspondence
import WireSchema.Proofs.Shape.HookFree

/-!
# The decoders of shapes

What the generator emits for a shape of a text is a fragment that computes what the layout reads. The
proof goes down with the depth of the emitter, one rule for each form of shape.

Bits above the 64th get lost in the machine, so structs packed into 128 bits are left out.
-/

namespace WireSchema

open Ir Wire Lowering

namespace Shape

/-- No struct that is met on the way down is packed into 128 bits. -/
def Narrow (refs : Refs) (s : Shape) : Prop :=
  ∀ widths fields group, ¬ Reaches refs s (.packed .u128 widths fields group)

variable {refs : Refs} {s t : Shape}

theorem Narrow.reached (narrow : s.Narrow refs) (reaches : Reaches refs s t) : t.Narrow refs :=
  fun widths fields group further => narrow widths fields group (reaches.trans further)

theorem Narrow.part (narrow : s.Narrow refs) (member : t ∈ s.subshapes refs) : t.Narrow refs :=
  narrow.reached (.single member)

theorem Narrow.field {fields : List Field} (narrow : (struct fields).Narrow refs) {f : Field}
    (member : f ∈ fields) : f.shape.Narrow refs := narrow.part (List.mem_map_of_mem member)

theorem Narrow.variant {tagField : String} {tag : Shape} {variants : List (String × Shape)}
    {tags : List (String × Literal)} (narrow : (union tagField tag variants tags).Narrow refs)
    {v : String × Shape} (member : v ∈ variants) : v.2.Narrow refs :=
  narrow.part (List.mem_cons_of_mem _ (List.mem_map_of_mem member))

/-- Whether the shape itself is not packed into 128 bits. -/
def isNarrow : Shape → Bool
  | .packed .u128 _ _ _ => false
  | _ => true

/-- Whether the test holds of the shape and of those below, as far as some steps lead; there must be
nothing further. -/
def allWithin (refs : Refs) (test : Shape → Bool) : Nat → Shape → Bool
  | 0, _ => false
  | steps + 1, s => test s && (s.subshapes refs).all (allWithin refs test steps)

theorem holds_of_allWithin {test : Shape → Bool} {steps : Nat}
    (within : s.allWithin refs test steps = true) (reaches : Reaches refs s t) : test t = true := by
  induction steps generalizing s with
  | zero => cases within
  | succ steps ih =>
    rw [allWithin, Bool.and_eq_true] at within
    rcases reaches.cases_head with rfl | ⟨part, member, further⟩
    · exact within.1
    · exact ih (List.all_eq_true.mp within.2 part member) further

end Shape

namespace Decoding

variable {S : Scene} {γ : List ActiveGroup} {s t : Shape}

namespace Scene

/-- The shape is one that a text describes, below the rank that is bound. -/
structure Covers (S : Scene) (s : Shape) : Prop where
  wf : s.WellFormed S.types S.rank S.bound
  narrow : s.Narrow S.types

/-- A shape is read like the one behind it. -/
theorem Covers.behind (covers : S.Covers s) (ran : s.resolved S.types = .ok t) :
    S.Covers t ∧ S.value s = S.value t ∧ S.members s = S.members t := by
  have resolves := Shape.resolves_of_resolved ran
  have same := resolves.part_eq S.ordered S.order
  rw [S.part_eq, S.part_eq, Layout.Part.mk.injEq] at same
  refine ⟨⟨resolves.wellFormed S.ordered covers.wf, ?_⟩, same⟩
  exact covers.narrow.reached (Shape.reaches_resolved ran)

/-- A label is read like its target. -/
theorem Covers.target {label : String} (covers : S.Covers (.ref label))
    (found : S.types.lookup label = some t) : S.Covers t ∧ S.value (.ref label) = S.value t := by
  have same : Layout.part S.order S.types (.ref label) = Layout.part S.order S.types t :=
    Layout.part_ref S.ordered found
  rw [S.part_eq, S.part_eq, Layout.Part.mk.injEq] at same
  refine ⟨⟨?_, covers.narrow.part ?_⟩, same.1⟩
  · exact (S.ordered.wellFormed_target found).mono covers.wf.2
  · rw [Shape.subshapes, found]
    exact List.mem_singleton_self _

theorem Covers.shape (covers : S.Covers s) : s.IsFieldShape S.types S.rank := .inl ⟨_, covers.wf⟩

end Scene

/-- The decoders that the emitter makes compute what the layout reads. -/
structure Faithful (S : Scene) (em : Emitter) : Prop where
  orderly : em.Orderly S.hooks S.types S.rank
  quiet : ∀ s, Gen.Quiet (em.typeExpr s)
  prim : ∀ {γ} (p : Primitive), S.Produces γ (em.decodeExpr (.prim p)) fun _ low high stmts e =>
    (high = low ∧ stmts = []) ∧ e = .read p
  slot : ∀ {γ} {group index : Nat} {kind : SlotKind} {raw : Local},
    γ.find? (·.group == group) = some ⟨group, some (.var raw)⟩ →
    S.Produces γ (em.decodeExpr (.slot group index kind)) fun _ low high stmts e =>
      (high = low ∧ stmts = []) ∧ slotExpr (.var raw) kind = .ok e
  decodeExpr : ∀ {γ} {s : Shape}, S.Covers s → S.Reads γ (em.decodeExpr s) (S.value s)
  decodeBindings : ∀ {γ} {s : Shape}, S.Covers s →
    S.Gathers γ (em.decodeBindings s) (S.members s)

variable {em : Emitter}

/-! ### Fields -/

/-- The bindings of the stored ones among fields. -/
abbrev storedBindings (bs : List (Field × Local)) : List (String × Local) :=
  (bs.filter (·.1.shape.isStored)).map fun (f, x) => (f.name, x)

theorem storedBindings_cons (f : Field) (x : Local) (bs : List (Field × Local)) :
    storedBindings ((f, x) :: bs) = if f.shape.isStored then (f.name, x) :: storedBindings bs
      else storedBindings bs := by
  simp only [storedBindings, List.filter_cons]
  split <;> rfl

/-- Fields are bound one after another: what holds of each field by itself gives what holds of all of
them. -/
theorem produces_decodeFields {Q : Field → Registry → Nat → Nat → List Stmt → Local → Prop}
    {P : Registry → Nat → Nat → List Field → List Stmt → List (String × Local) → Prop}
    (nil : ∀ r n, P r n n [] [] [])
    (cons : ∀ {r low mid high f rest front back x bindings}, Q f r low mid front x →
      P r mid high rest back bindings → P r low high (f :: rest) (front ++ back)
        (if f.shape.isStored then (f.name, x) :: bindings else bindings)) {fields : List Field}
    (each : ∀ f ∈ fields, S.Produces γ (Gen.declare f.name (em.decodeExpr f.shape)) (Q f)) :
    S.Produces γ (decodeFields em fields) fun r low high stmts bindings =>
      P r low high fields stmts bindings := by
  have mapped : S.Produces γ (fields.mapM fun f => do
      let x ← Gen.withHint f.name (Gen.declare f.name (em.decodeExpr f.shape))
      return (f, x)) fun r low high stmts bs => P r low high fields stmts (storedBindings bs) := by
    induction fields with
    | nil =>
      rw [List.mapM_nil]
      exact Scene.produces_pure nil
    | cons f rest ih =>
      obtain ⟨here, later⟩ := List.forall_mem_cons.mp each
      have bound : S.Produces γ (do
          let x ← Gen.withHint f.name (Gen.declare f.name (em.decodeExpr f.shape))
          return (f, x)) fun r low high stmts b => b.1 = f ∧ Q f r low high stmts b.2 := by
        refine here.withHint.bind fun x => Scene.produces_pure fun r n low front known => ?_
        rw [List.append_nil]
        exact ⟨rfl, known⟩
      rw [List.mapM_cons]
      refine bound.bind fun b => (ih later).bind fun bs => Scene.produces_pure ?_
      obtain ⟨g, x⟩ := b
      rintro r n mid back others low front ⟨rfl, known⟩
      rw [List.append_nil, storedBindings_cons]
      exact cons known others
  refine mapped.bind fun bs => Scene.produces_pure fun r n low front known => ?_
  rw [List.append_nil]
  exact known

theorem gathers_decodeFields (faithful : Faithful S em) {fields : List Field}
    (covers : ∀ f ∈ fields, S.Covers f.shape) :
    S.Gathers γ (decodeFields em fields) (Layout.fieldsWith S.order S.target fields) := by
  refine produces_decodeFields (P := fun r low high fields stmts bindings =>
    BindsAll (S.programs r) (Layout.fieldsWith S.order S.target fields) low high stmts bindings)
    (fun r n => ?_) (fun binds others => ?_) fun f member =>
      (faithful.decodeExpr (covers f member)).declare
  · rw [Layout.fieldsWith]
    exact bindsAll_nil _ n
  · rw [Layout.fieldsWith]
    exact BindsAll.cons _ _ binds others

/-- The slots of a bit group are calculated one after another. -/
theorem produces_slots (faithful : Faithful S em) {backing : Primitive} {group : Nat} {raw : Local}
    {fields : List Field}
    (each : ∀ f ∈ fields, ∃ index kind, f.shape = .slot group index kind ∧ kind.Fits backing) :
    S.Produces (⟨group, some (.var raw)⟩ :: γ) (decodeFields em fields)
      fun _ low high stmts bindings => Slots backing raw low high fields stmts bindings := by
  refine produces_decodeFields (P := fun _ low high fields stmts bindings =>
    Slots backing raw low high fields stmts bindings)
    (Q := fun f _ low high stmts x => ∃ index kind e, f.shape = .slot group index kind ∧
      kind.Fits backing ∧ slotExpr (.var raw) kind = .ok e ∧ x.id = low ∧ high = x.id + 1 ∧
        stmts = [.bind x false (some e)]) (fun _ n => .nil n) ?_ fun f member => ?_
  · rintro r low mid high f rest front back x bindings ⟨index, kind, e, shape, fits, made, own, rfl,
      rfl⟩ others
    rw [shape]
    exact .cons shape fits made own (own ▸ others)
  · obtain ⟨index, kind, shape, fits⟩ := each f member
    have active : (⟨group, some (.var raw)⟩ :: γ : List ActiveGroup).find? (·.group == group) =
        some ⟨group, some (.var raw)⟩ := by simp
    rw [shape]
    refine (faithful.slot active).init.weaken ?_
    rintro r low high stmts x ⟨_, e, ⟨⟨same, rfl⟩, made⟩, rfl, rfl⟩
    exact ⟨index, kind, e, rfl, fits, made, same, rfl, rfl⟩

/-- The integer of a bit group is bound, then its slots are. -/
theorem gathers_decodeGroup (faithful : Faithful S em) {backing : Primitive} {group : Nat}
    {fields : List Field}
    (each : ∀ f ∈ fields, ∃ index kind, f.shape = .slot group index kind ∧ kind.Fits backing) :
    S.Gathers γ (decodeGroup em backing group fields)
      (Layout.groupMembers S.order backing fields) := by
  refine Scene.Produces.look (Gen.quiet_lastHint _) tame_lastHint fun hint _ => ?_
  refine (Scene.produces_declareRead _ backing).bind fun raw => ?_
  refine (produces_slots faithful each).withGroup.weaken fun r mid high back bindings slots => ?_
  rintro low front ⟨⟨own, rfl⟩, rfl⟩
  exact slots.bindsAll (S.orders r) own

/-! ### Structs -/

/-- The slots of a packed struct have their places in its integer. -/
theorem fits_packed {backing : Primitive} {widths : List Nat} {fields : List Field} {group : Nat}
    (covers : S.Covers (.packed backing widths fields group)) :
    ∀ f ∈ fields, ∃ index kind, f.shape = .slot group index kind ∧ kind.Fits backing := by
  intro f member
  obtain ⟨inside, positive, slots⟩ := covers.wf
  obtain ⟨index, width, here, shape⟩ := slots f member
  refine ⟨index, _, shape, rfl, ?_, ?_, fun kind known => ?_⟩
  · rintro rfl
    exact covers.narrow _ _ _ .refl
  · have among := List.mem_of_getElem? here
    rcases Nat.eq_zero_or_pos width with rfl | more
    · exact absurd among positive
    · exact more
  · exact (Shape.offset_inside here).trans (inside kind known)

/-- The masks of a flag struct are within its integer. -/
theorem fits_flags {backing : Primitive} {masks : List (String × Int)} {fields : List Field}
    {group : Nat} (covers : S.Covers (.flags backing masks fields group)) :
    ∀ f ∈ fields, ∃ index kind, f.shape = .slot group index kind ∧ kind.Fits backing := by
  intro f member
  obtain ⟨inside, slots⟩ := covers.wf
  obtain ⟨index, mask, here, shape⟩ := slots f member
  exact ⟨index, _, shape, rfl, fun kind known => inside kind known _ (List.mem_of_getElem? here)⟩

/-- Merged structs are bound one after another. -/
theorem gathers_parts (faithful : Faithful S em) {parts : List Shape}
    (covers : ∀ part ∈ parts, S.Covers part) :
    S.Produces γ (parts.mapM fun part => do em.decodeBindings (← Gen.resolved part))
      fun r low high stmts bs => BindsAll (S.programs r)
        (Layout.partsWith S.order S.target parts) low high stmts bs.flatten := by
  induction parts with
  | nil =>
    rw [List.mapM_nil, Layout.partsWith]
    exact Scene.produces_pure fun r n => bindsAll_nil _ n
  | cons part rest ih =>
    obtain ⟨here, later⟩ := List.forall_mem_cons.mp covers
    rw [List.mapM_cons, Layout.partsWith]
    have first : S.Gathers γ (do em.decodeBindings (← Gen.resolved part)) (S.members part) := by
      refine Scene.Produces.look (Gen.quiet_resolved part) tame_resolved fun t found => ?_
      obtain ⟨covers, _, same⟩ := here.behind found
      rw [same]
      exact faithful.decodeBindings covers
    refine first.bind fun b => (ih later).bind fun bs => Scene.produces_pure ?_
    intro r n mid back others low front binds
    rw [List.append_nil, List.flatten_cons]
    exact binds.append others

theorem gathers_decodeBindings (faithful : Faithful S em) (covers : S.Covers s) :
    S.Gathers γ (decodeBindings em s) (S.members s) := by
  have behind : S.Gathers γ (do em.decodeBindings (← Gen.resolved s)) (S.members s) := by
    refine Scene.Produces.look (Gen.quiet_resolved s) tame_resolved fun t found => ?_
    obtain ⟨covers, _, same⟩ := covers.behind found
    rw [same]
    exact faithful.decodeBindings covers
  have never : S.Gathers γ (do throw (.notAStruct (← Gen.canonicalName s))) (S.members s) :=
    Scene.Produces.look (Gen.quiet_canonicalName s) tame_canonicalName fun _ _ =>
      Scene.produces_throw
  cases s with
  | struct fields =>
    rw [Scene.members, Layout.membersWith]
    refine gathers_decodeFields faithful fun f member => ⟨?_, covers.narrow.field member⟩
    exact Shape.mem_wellFormedFields covers.wf member
  | merged parts =>
    rw [Scene.members, Layout.membersWith]
    have each (part : Shape) (member : part ∈ parts) : S.Covers part :=
      ⟨Shape.mem_wellFormedParts covers.wf member, covers.narrow.part member⟩
    refine (gathers_parts faithful each).bind fun bs => Scene.produces_pure ?_
    intro r n low front binds
    rw [List.append_nil]
    exact binds
  | packed backing widths fields group =>
    rw [Scene.members, Layout.membersWith]
    exact gathers_decodeGroup faithful (fits_packed covers)
  | flags backing masks fields group =>
    rw [Scene.members, Layout.membersWith]
    exact gathers_decodeGroup faithful (fits_flags covers)
  | «alias» | exported | ref => exact behind
  | _ => exact never

/-! ### Optional values and collections -/

theorem reads_decodeOptional (faithful : Faithful S em) {value : Shape} (covers : S.Covers value) :
    S.Reads γ (decodeOptional em value (.prim .bool))
      (S.value (.optional value (.prim .bool))) := by
  rw [Scene.value, Layout.valueWith, Layout.valueWith]
  refine Scene.Produces.look Gen.quiet_refs tame_refs fun refs _ => ?_
  split
  · exact Scene.Produces.look (Gen.quiet_canonicalName _) tame_canonicalName fun _ _ =>
      Scene.produces_throw
  · refine (faithful.prim .bool).bind fun test => ?_
    refine (faithful.decodeExpr covers).captureBlock.bind fun block => ?_
    split
    · next plain =>
      refine Scene.produces_pure fun r n => ?_
      rintro mid front ⟨rfl, decodes⟩ low front' ⟨⟨rfl, rfl⟩, rfl⟩
      obtain ⟨stmts, e⟩ := block
      cases List.isEmpty_iff.mp plain
      exact decodes.cond (S.orders r)
    · refine Scene.Produces.look (Gen.quiet_lastHint _) tame_lastHint fun hint _ => ?_
      refine (Scene.produces_declareMut hint _).bind fun x => (Scene.produces_emit _).bind fun _ => ?_
      refine Scene.produces_pure fun r n => ?_
      rintro _ _ ⟨rfl, rfl⟩ _ _ ⟨⟨own, rfl⟩, rfl⟩ mid _ ⟨rfl, decodes⟩ low _ ⟨⟨rfl, rfl⟩, rfl⟩
      exact decodes.branch (S.orders r) own

theorem reads_decodeCollection {α : Type} {whole : List α → Value} {entry : α → Value}
    (collects : Value.Collects whole entry) {reads : Read α} {empty : Expr} {item : Gen Expr}
    (new : ∀ p m, Probe.eval p empty m = .ok (whole [], m))
    (each : S.Reads γ item (do return entry (← reads))) (length : Primitive) :
    S.Reads γ (decodeCollection length empty item) (do
      let count ← Wire.read S.order length
      let items ← Layout.repeated reads (Layout.itemCount count)
      return whole items) := by
  unfold decodeCollection
  split
  · exact Scene.produces_throw
  · next counts =>
    have int : length.isInteger = true := by simpa using counts
    refine Scene.Produces.look (Gen.quiet_lastHint _) tame_lastHint fun hint _ => ?_
    refine (Scene.produces_declareRead _ length).bind fun count => ?_
    refine (Scene.produces_declareMut hint empty).bind fun acc => ?_
    refine each.captureBlock.bind fun block => (Scene.produces_emit _).bind fun _ => ?_
    refine Scene.produces_pure fun r n => ?_
    rintro _ _ ⟨rfl, rfl⟩ _ _ ⟨rfl, decodes⟩ _ _ ⟨⟨own, rfl⟩, rfl⟩ low _ ⟨⟨own', rfl⟩, rfl⟩
    exact decodes.collection collects int (S.orders r) new own' own

/-! ### Unions -/

theorem reads_payload (faithful : Faithful S em) {key : String} {fields : List Field}
    (covers : S.Covers (.struct fields)) (type : String) :
    S.Reads γ (do return .variant type key (← decodePayload em key (.struct fields)))
      (variant key (S.members (.struct fields))) := by
  have named : Yields (S.members (.struct fields)) fun members =>
      members.map (·.1) = (fields.filter (·.shape.isStored)).map (·.name) := by
    rw [Scene.members, Layout.membersWith]
    exact yields_fieldsWith fields
  rw [decodePayload, bind_assoc]
  refine Scene.Produces.look (Gen.quiet_storedFields _) tame_storedFields fun stored found => ?_
  rw [Shape.storedFields_struct] at found
  cases found
  split
  · next none =>
    rw [bind_assoc]
    refine Scene.Produces.look (Gen.quiet_resolved _) tame_resolved fun t found => ?_
    obtain ⟨behind, _, same⟩ := covers.behind found
    rw [bind_assoc]
    refine (faithful.decodeBindings behind).discard.bind fun _ => ?_
    rw [pure_bind]
    refine Scene.produces_pure fun r n low front ⟨bindings, binds⟩ => ?_
    rw [List.append_nil]
    rw [← same] at binds
    refine binds.bare (fun reader members reader' ran => ?_) type key
    rw [List.isEmpty_iff.mp none] at named
    exact List.map_eq_nil_iff.mp (named _ _ _ ran)
  · next some =>
    rw [bind_assoc]
    refine (faithful.decodeExpr covers).withHint.bind fun e => ?_
    rw [pure_bind]
    refine Scene.produces_pure fun r n low front decodes => ?_
    rw [List.append_nil]
    rw [Scene.value, Layout.valueWith] at decodes
    rw [Scene.members, Layout.membersWith] at named ⊢
    refine decodes.variant (fun reader members reader' ran empty => ?_) type key
    have none := named _ _ _ ran
    rw [empty, List.map_nil, eq_comm, List.map_eq_nil_iff] at none
    exact some (List.isEmpty_iff.mpr none)

/-- A value that is read for a tag: one of the shape behind it. -/
def IsTag (S : Scene) (tag : Shape) (v : Value) : Prop :=
  ∀ found, tag.resolved S.types = .ok found → IsTagOf found v

theorem yields_isTag {tag : Shape} (covers : S.Covers tag) : Yields (S.value tag) (IsTag S tag) := by
  intro reader v reader' ran found behind
  rw [(covers.behind behind).2.1] at ran
  exact yields_tag S.order S.target found reader v reader' ran

theorem produces_decodeArms (faithful : Faithful S em) {tag : Shape} {tags : List (String × Literal)}
    {type : String} {result : Local} (covers : S.Covers tag) {variants : List (String × Shape)}
    (payloads : ∀ v ∈ variants, (∃ fields, v.2 = .struct fields) ∧ S.Covers v.2) (seen : List Tag)
    (index : Nat) :
    S.Produces γ (decodeArms em type tag tags result seen index variants)
      fun r low high stmts arms => stmts = [] ∧ Arms (S.programs r) S.order S.target tags result
        (IsTag S tag) index low high variants arms := by
  induction variants generalizing seen index with
  | nil => exact Scene.produces_pure fun r n => ⟨rfl, .nil index n⟩
  | cons first rest ih =>
    obtain ⟨key, payload⟩ := first
    obtain ⟨⟨⟨fields, form⟩, here⟩, later⟩ := List.forall_mem_cons.mp payloads
    dsimp only at form here
    subst form
    have tagged : Tame S.hooks S.types (unionTag em tag tags index key) fun t =>
        t.pattern.binding? = none ∧ ∀ v, IsTag S tag v → Run.matchBindings v t.pattern =
          if Layout.selects v (tags.lookup key) index key then some [] else none := by
      intro σ t σ' ran refs
      refine ⟨(tame_unionTag faithful.orderly covers.shape σ t σ' ran refs).1, ?_, fun v is => ?_⟩
      · cases t <;> rfl
      · exact matchBindings_tag ran (refs ▸ is)
    refine Scene.Produces.look (quiet_unionTag faithful.quiet _ _ _ _) tagged fun t ⟨plain, picks⟩ => ?_
    split
    · exact Scene.produces_throw
    · refine (reads_payload faithful here type).captureBlock.bind fun block => ?_
      refine (ih later _ _).bind fun arms => Scene.produces_pure fun r n => ?_
      rintro mid _ ⟨rfl, made⟩ low _ ⟨rfl, decodes⟩
      exact ⟨rfl, .cons plain picks decodes made⟩

/-- The tag is an enumeration each of whose names is shown by a variant. -/
def IsShown (S : Scene) (tag : Shape) (variants : List (String × Shape))
    (tags : List (String × Literal)) : Prop :=
  ∃ backing entries, tag.resolved S.types = .ok (.enum backing entries) ∧
    entries.map (·.1) ⊆ variants.map fun v => shownName (tags.lookup v.1) v.1

/-- A decoder only goes without a fallback if the names of the tag are shown. -/
theorem tame_fallback {tag : Shape} {variants : List (String × Shape)}
    {tags : List (String × Literal)} :
    Tame S.hooks S.types (tagIsExhaustive tag variants tags) fun full =>
      full = true → IsShown S tag variants tags := by
  intro σ full σ' ran refs
  refine ⟨(tame_tagIsExhaustive σ full σ' ran refs).1, fun exhaustive => ?_⟩
  obtain ⟨found, σ₁, asked, later⟩ := Gen.runs_bind.mp ran
  obtain ⟨resolved, rfl⟩ := Gen.runs_resolved.mp asked
  cases found with
  | enum backing entries =>
    exact ⟨backing, entries, refs ▸ resolved, (shown_of_tagIsExhaustive resolved ran).2 exhaustive⟩
  | _ =>
    obtain ⟨rfl, _⟩ := Gen.runs_pure.mp later
    cases exhaustive

/-- If the names of the tag are shown, there is an arm for each of them. -/
theorem arms_of_names {depth : Nat} {tagField : String} {tag : Shape}
    {variants : List (String × Shape)} {tags : List (String × Literal)}
    (covers : S.Covers (.union tagField tag variants tags)) {type : String} {result : Local}
    {σ τ : Session} {arms : List (Pattern × List Stmt)}
    (ran : Gen.Runs (decodeArms (emitter S.hooks depth) type tag tags result [] 0 variants) σ arms τ)
    (refs : σ.refs = S.types) (shown : IsShown S tag variants tags) {v : Value} (is : IsTag S tag v) :
    ∃ arm ∈ arms, Run.matchBindings v arm.1 ≠ none := by
  obtain ⟨backing, entries, behind, shown⟩ := shown
  obtain ⟨values, tagged⟩ :=
    tagged_of_decodeArms S.ordered S.separate covers.wf.1 covers.wf.2.2 ran refs
  obtain ⟨name, member, rfl⟩ := is _ behind
  obtain ⟨arm, among, ⟨type, pattern⟩, _⟩ := execArms_of_entry tagged behind shown member
  refine ⟨arm, among, ?_⟩
  simp [pattern, Run.matchBindings]

theorem reads_decodeUnion {depth : Nat} (faithful : Faithful S (emitter S.hooks depth))
    {tagField : String} {tag : Shape} {variants : List (String × Shape)}
    {tags : List (String × Literal)} (covers : S.Covers (.union tagField tag variants tags)) :
    S.Reads γ (decodeUnion (emitter S.hooks depth) tagField tag variants tags)
      (S.value (.union tagField tag variants tags)) := by
  have own : S.Covers tag := ⟨covers.wf.1, covers.narrow.part List.mem_cons_self⟩
  have payloads (v : String × Shape) (member : v ∈ variants) :
      (∃ fields, v.2 = .struct fields) ∧ S.Covers v.2 := by
    obtain ⟨form, wf⟩ := Shape.mem_wellFormedVariants covers.wf.2.2 member
    exact ⟨form, wf, covers.narrow.variant member⟩
  rw [Scene.value, Layout.valueWith]
  refine Scene.Produces.look (quiet_unionName _ _ _ _ _)
    (tame_unionName S.ordered S.separate faithful.orderly covers.wf) fun type _ => ?_
  refine (faithful.decodeExpr own).declare.withHint.bind fun value => ?_
  refine Scene.Produces.look (Gen.quiet_lastHint _) tame_lastHint fun hint _ => ?_
  refine (Scene.produces_declareDeferred hint).bind fun result => ?_
  refine ((produces_decodeArms faithful own payloads [] 0).also (P := fun arms =>
    IsShown S tag variants tags → ∀ v, IsTag S tag v →
      ∃ arm ∈ arms, Run.matchBindings v arm.1 ≠ none) fun σ arms τ ran refs shown v is =>
        arms_of_names covers ran refs shown is).bind fun arms => ?_
  refine Scene.Produces.look (quiet_tagIsExhaustive _ _ _) tame_fallback fun full shown => ?_
  refine (Scene.produces_emit _).bind fun _ => Scene.produces_pure fun r n => ?_
  rintro _ _ ⟨rfl, rfl⟩ mid _ ⟨⟨rfl, made⟩, named⟩ _ _ ⟨⟨next, rfl⟩, rfl⟩ low front binds
  have covered : Covers (IsTag S tag) type value arms
      (if full then none else some (.unknownTag type (.var value))) := by
    cases full with
    | false => exact .inl rfl
    | true => exact .inr ⟨rfl, named (shown rfl)⟩
  exact made.decodes binds next (yields_isTag own) covered

/-! ### All shapes -/

theorem reads_decodeLiteral {value : Literal} {backing : Option Primitive}
    (typed : Shape.IsTyped value backing) :
    S.Reads γ (decodeLiteral value backing) (S.value (.literal value backing)) := by
  rw [Scene.value]
  cases backing with
  | none =>
    rw [Layout.valueWith]
    exact Scene.produces_pure fun r n => decodes_lit _ value n
  | some p =>
    rw [Layout.valueWith]
    refine (Scene.produces_declareRead _ p).bind fun found => (Scene.produces_emit _).bind fun _ => ?_
    refine Scene.produces_pure fun r n => ?_
    rintro _ _ ⟨rfl, rfl⟩ low _ ⟨⟨own, rfl⟩, rfl⟩
    exact decodes_literal (S.orders r) typed own

/-- The name of an enumeration is that of its declaration, in the end. -/
theorem produces_enumName {backing : Primitive} {entries : List (String × Int)}
    (covers : S.Covers (.enum backing entries)) :
    S.Produces γ (enumName backing entries) fun r low high stmts name =>
      (high = low ∧ stmts = []) ∧ backing.isInteger = true ∧
        ∀ p, S.Knows r p → Run.enumOf p.code name = pure ⟨name, backing, entries⟩ := by
  refine Scene.produces_quiet (quiet_enumName _ _) fun σ name τ ran refs => ?_
  obtain ⟨step, int, known⟩ := advances_enumName S.ordered S.separate covers.wf.2 ran refs
  exact ⟨step, fun r keeps =>
    ⟨int, fun p knows => knows.enums _ _ _ _ ⟨int, covers.wf.2, rfl⟩ (keeps _ _ known)⟩⟩

theorem reads_decodeExpr {depth : Nat} (faithful : Faithful S (emitter S.hooks depth))
    (covers : S.Covers s) :
    S.Reads γ (decodeExpr S.hooks (emitter S.hooks depth) s) (S.value s) := by
  have orderly := faithful.orderly
  have typed := (orderly.typeExpr s covers.shape).discard
  cases s with
  | prim p =>
    rw [Scene.value, Layout.valueWith]
    exact Scene.produces_pure fun r n => decodes_read (S.orders r) p n
  | optional value presence =>
    obtain ⟨rfl, wf⟩ := covers.wf
    exact reads_decodeOptional faithful ⟨wf, covers.narrow.part List.mem_cons_self⟩
  | list item length =>
    have own : S.Covers item := ⟨covers.wf, covers.narrow.part List.mem_cons_self⟩
    rw [Scene.value, Layout.valueWith]
    refine reads_decodeCollection Value.collects_list (fun _ _ => rfl) ?_ length
    simp only [id, bind_pure]
    exact (faithful.decodeExpr own).withHint
  | map key value length =>
    have own : S.Covers key := ⟨covers.wf.1, covers.narrow.part List.mem_cons_self⟩
    have own' : S.Covers value :=
      ⟨covers.wf.2, covers.narrow.part (List.mem_cons_of_mem _ List.mem_cons_self)⟩
    rw [Scene.value, Layout.valueWith]
    refine reads_decodeCollection Value.collects_map (fun _ _ => rfl) ?_ length
    simp only [bind_assoc, pure_bind]
    refine (faithful.decodeExpr own).declare.withHint.bind fun k => ?_
    refine (faithful.decodeExpr own').declare.withHint.bind fun v => Scene.produces_pure ?_
    intro r n mid back second low front first
    rw [List.append_nil]
    exact first.pair second
  | struct | merged | packed | flags =>
    rw [Scene.value, Layout.valueWith]
    refine Scene.Produces.look (quiet_structName _ _)
      (tame_structName S.ordered S.separate orderly covers.wf rfl) fun type _ => ?_
    refine (faithful.decodeBindings covers).bind fun bindings => Scene.produces_pure ?_
    intro r n low front binds
    rw [List.append_nil]
    rw [Scene.members, Layout.membersWith] at binds
    exact binds.struct type
  | enum backing entries =>
    rw [Scene.value, Layout.valueWith]
    refine (produces_enumName covers).bind fun name => Scene.produces_pure fun r n => ?_
    rintro low _ ⟨⟨rfl, rfl⟩, int, declared⟩
    exact decodes_fromId (S.orders r) int (fun p serves => declared p serves.toKnows) n
  | union tagField tag variants tags => exact reads_decodeUnion faithful covers
  | «alias» name inner =>
    have own : S.Covers inner := ⟨(S.ordered.inner_alias covers.wf.1).mono (Nat.le_of_lt covers.wf.2),
      covers.narrow.part List.mem_cons_self⟩
    rw [Scene.value, Layout.valueWith]
    exact Scene.Produces.look (faithful.quiet _).discard typed fun _ _ => faithful.decodeExpr own
  | exported name inner =>
    rw [Scene.value, Layout.valueWith]
    refine Scene.Produces.look (faithful.quiet _).discard typed fun _ _ => ?_
    refine Scene.produces_pure fun r n => decodes_call (fun p serves => ?_) n
    have codecs := Scene.Serves.codecs serves
    exact codecs name inner covers.wf.1 covers.wf.2
  | ref label =>
    refine Scene.Produces.look Gen.quiet_refs tame_refs fun refs same => ?_
    cases same
    split
    · next target found =>
      obtain ⟨own, same⟩ := covers.target found
      rw [same]
      exact faithful.decodeExpr own
    · exact Scene.produces_throw
  | literal value backing => exact reads_decodeLiteral covers.wf
  | slot | custom | transformed => exact covers.wf.elim

/-- The emitter's decoders compute what the layout reads, whatever its depth. -/
theorem faithful_emitter (S : Scene) (depth : Nat) : Faithful S (emitter S.hooks depth) := by
  induction depth with
  | zero =>
    constructor
    case orderly => exact orderly_emitter S.hooks S.ordered S.separate 0
    case quiet => exact quiet_emitter S.hooks 0
    all_goals exact fun _ => Scene.produces_throw
  | succ depth ih =>
    constructor
    case orderly => exact orderly_emitter S.hooks S.ordered S.separate (depth + 1)
    case quiet => exact quiet_emitter S.hooks (depth + 1)
    case prim => exact fun p => Scene.produces_pure fun r n => ⟨⟨rfl, rfl⟩, rfl⟩
    case slot =>
      intro γ group index kind raw active
      refine Scene.Produces.activeGroup? ?_
      rw [active]
      intro σ e τ ran refs _
      obtain ⟨made, rfl⟩ := Gen.runs_ofExcept.mp ran
      exact ⟨advances_draft refs rfl rfl, [], [], .refl _, fun _ _ => ⟨⟨rfl, rfl⟩, made⟩⟩
    case decodeExpr => exact fun covers => reads_decodeExpr ih covers
    case decodeBindings => exact fun covers => gathers_decodeBindings ih covers

end Decoding

end WireSchema
