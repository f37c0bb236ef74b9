import WireSchema.Print.Module
import WireSchema.Proofs.Generation.Regrouping
import WireSchema.Proofs.Source.Reordering

/-!
# Texts read with other first groups

The bit groups of a text are numbered in the order in which they are met. Reading it with a first
number that is larger by `k` makes all its groups larger by `k`, and fails where it failed before.
So the code of a text does not depend on the first number.
-/

namespace WireSchema

namespace Source

variable {α β α' β' : Type} {k : Nat}

/-! ### Building -/

/-- Related first steps with related next steps. -/
theorem bind_eq_map {act : Except SchemaError α} {act' : Except SchemaError β}
    {next : α → Except SchemaError α'} {next' : β → Except SchemaError β'} {f : α → β} {h : α' → β'}
    (first : act' = act.map f) (second : ∀ a, next' (f a) = (next a).map h) :
    (act' >>= next') = (act >>= next).map h := by
  subst first
  cases act with
  | error e => rfl
  | ok a => exact second a

/-- From a first group that is larger by `k` on, the second computation builds `f` of what the first
does. -/
def Shifts (k : Nat) (f : α → β) (act : Build α) (act' : Build β) : Prop :=
  ∀ g, act'.run (g + k) = (act.run g).map (Prod.map f (· + k))

theorem shifts_pure {f : α → β} {a : α} {b : β} (same : b = f a) :
    Shifts k f (pure a) (pure b) := by
  subst same
  exact fun _ => rfl

theorem shifts_throw {f : α → β} (e : SchemaError) : Shifts k f (throw e) (throw e) := fun _ => rfl

theorem Shifts.bind {act : Build α} {act' : Build β} {next : α → Build α'} {next' : β → Build β'}
    {f : α → β} {h : α' → β'} (first : Shifts k f act act')
    (second : ∀ a, Shifts k h (next a) (next' (f a))) :
    Shifts k h (act >>= next) (act' >>= next') := by
  intro g
  rw [StateT.run_bind, StateT.run_bind]
  exact bind_eq_map (first g) fun out => second out.1 out.2

theorem shifts_lift {x : Except SchemaError α} {y : Except SchemaError β} {f : α → β}
    (same : y = x.map f) : Shifts k f (liftM x) (liftM y) := by
  subst same
  intro g
  cases x <;> rfl

/-- What needs no groups is the same. -/
theorem shifts_plain (x : Except SchemaError α) : Shifts k id (liftM x) (liftM x) := by
  intro g
  cases x <;> rfl

theorem shifts_freshGroup : Shifts k (· + k) freshGroup freshGroup := by
  intro g
  change Except.ok (g + k, g + k + 1) = Except.ok (g + k, g + 1 + k)
  rw [Nat.add_right_comm]

theorem shifts_mapM (f : α → Except SchemaError β) (as : List α) :
    Shifts k id (as.mapM fun a => liftM (f a)) (as.mapM fun a => liftM (f a)) := by
  induction as with
  | nil =>
    rw [List.mapM_nil]
    exact shifts_pure rfl
  | cons a as ih =>
    rw [List.mapM_cons]
    exact (shifts_plain (f a)).bind fun b => ih.bind fun bs => shifts_pure rfl

/-! ### Shapes -/

/-- The shape whose groups are larger by `k`. -/
abbrev shifted (k : Nat) (s : Shape) : Shape := s.regroup (· + k)

theorem packedSlots_shifted (group : Nat) (backing : Primitive) (widths : List Nat) :
    Shape.packedSlots (group + k) backing widths =
      (Shape.packedSlots group backing widths).map (List.map (shifted k)) := by
  unfold Shape.packedSlots
  refine bind_eq_map (f := id) (by cases Shape.backingKind backing <;> rfl) fun kind => ?_
  refine bind_eq_map (f := id) (by cases Shape.sumOfWidths widths <;> rfl) fun sum => ?_
  dsimp only [id]
  split
  · rfl
  · simp only [pure, Except.pure, Except.map, List.map_map]
    rfl

theorem flagSlots_shifted (group : Nat) (backing : Primitive) (masks : List (String × Int)) :
    Shape.flagSlots (group + k) backing masks =
      (Shape.flagSlots group backing masks).map (List.map (shifted k)) := by
  unfold Shape.flagSlots
  refine bind_eq_map (f := id) (by cases Shape.backingKind backing <;> rfl) fun kind => ?_
  dsimp only [id]
  split
  · rfl
  · simp only [pure, Except.pure, Except.map, List.map_map]
    rfl

theorem packedFields_shifted (names : List String) (slots : List Shape) (order : List String) :
    packedFields names (slots.map (shifted k)) order =
      (packedFields names slots order).map (Member.regroup (· + k)) := by
  simp only [packedFields, lookup_zip_map, List.map_filterMap, Option.map_map]
  rfl

theorem shifts_packedShape (backing : String) (slots : List (String × Numeral))
    (order : Option (List String)) :
    Shifts k (shifted k) (packedShape backing slots order) (packedShape backing slots order) := by
  refine (shifts_plain _).bind fun p => (shifts_mapM _ _).bind fun widths => ?_
  refine (shifts_plain _).bind fun _ => shifts_freshGroup.bind fun group => ?_
  refine (shifts_lift (packedSlots_shifted group p widths)).bind fun made => ?_
  refine shifts_pure ?_
  simp only [packedFields_shifted, shifted, Shape.regroup, Shape.regroupFields_eq, id]

theorem flagStruct_shifted (group : Nat) (backing : Primitive) (masks : List (String × Int)) :
    Shape.flagStruct (group + k) backing masks =
      (Shape.flagStruct group backing masks).map (shifted k) := by
  refine bind_eq_map (flagSlots_shifted group backing masks) fun slots => ?_
  simp only [pure, Except.pure, Except.map, shifted, Shape.regroup, Shape.regroupFields_eq,
    List.zip_map_right, List.map_map]
  rfl

theorem shifts_flagsShape (backing : String) (entries : List (String × Numeral)) :
    Shifts k (shifted k) (flagsShape backing entries) (flagsShape backing entries) := by
  refine (shifts_plain _).bind fun p => (shifts_mapM _ _).bind fun masks => ?_
  exact shifts_freshGroup.bind fun group => shifts_lift (flagStruct_shifted group p masks)

theorem bytesShape_shifted (n : Numeral) : bytesShape n = (bytesShape n).map (shifted k) := by
  unfold bytesShape
  refine bind_eq_map (f := id) (by cases n.value <;> rfl) fun length => ?_
  dsimp only [id]
  split <;> rfl

theorem literalShape_shifted (backing : Option String) (value : LiteralSpec) :
    literalShape backing value = (literalShape backing value).map (shifted k) := by
  unfold literalShape
  refine bind_eq_map (f := id) (by cases backing.mapM primitiveNamed <;> rfl) fun backing => ?_
  dsimp only [id]
  refine bind_eq_map (f := id) (by cases value.literal _ <;> rfl) fun l => ?_
  dsimp only [id]
  unfold Shape.fixed
  split <;> rfl

theorem tagKind_shifted (s : Shape) : tagKind (shifted k s) = tagKind s := by
  cases s <;> rfl

/-- The variants of a union with the groups of their fields larger by `k`. -/
abbrev shiftedArm (k : Nat) (arm : String × Option Literal × List Field) :
    String × Option Literal × List Field :=
  (arm.1, arm.2.1, arm.2.2.map (Member.regroup (· + k)))

mutual

theorem shifts_shape {lookup lookup' : Lookup}
    (looks : ∀ name, lookup' name = (lookup name).map (shifted k)) : ∀ t : TypeSpec,
    Shifts k (shifted k) (t.shape lookup) (t.shape lookup')
  | .named name => by
    simp only [TypeSpec.shape]
    split
    · exact shifts_pure rfl
    · exact shifts_lift (looks name)
  | .bytes n => by
    simp only [TypeSpec.shape]
    exact shifts_lift (bytesShape_shifted n)
  | .optional value => by
    simp only [TypeSpec.shape]
    exact (shifts_shape looks value).bind fun _ => shifts_pure rfl
  | .list item length => by
    simp only [TypeSpec.shape]
    exact (shifts_shape looks item).bind fun _ => (shifts_plain _).bind fun _ => shifts_pure rfl
  | .map key value length => by
    simp only [TypeSpec.shape]
    exact (shifts_shape looks key).bind fun _ => (shifts_shape looks value).bind fun _ =>
      (shifts_plain _).bind fun _ => shifts_pure rfl
  | .enum backing entries => by
    simp only [TypeSpec.shape]
    exact (shifts_plain _).bind fun _ => (shifts_plain _).bind fun _ => shifts_pure rfl
  | .union tagField tag arms => by
    simp only [TypeSpec.shape]
    refine (shifts_shape looks tag).bind fun tag => ?_
    rw [tagKind_shifted]
    refine (shifts_shapeArms looks _ [] arms).bind fun made => shifts_pure ?_
    simp only [shifted, Shape.regroup, Shape.regroupVariants_eq, List.map_map, List.filterMap_map,
      Function.comp_def, Shape.regroupFields_eq]
  | .struct fields => by
    simp only [TypeSpec.shape]
    refine (shifts_shapeFields looks fields).bind fun made => shifts_pure ?_
    simp only [shifted, Shape.regroup, Shape.regroupFields_eq]
  | .merge parts => by
    simp only [TypeSpec.shape]
    refine (shifts_shapeParts looks parts).bind fun made => shifts_pure ?_
    simp only [shifted, Shape.regroup, Shape.regroupParts_eq]
  | .packed backing slots order => by
    simp only [TypeSpec.shape]
    exact shifts_packedShape backing slots order
  | .flags backing entries => by
    simp only [TypeSpec.shape]
    exact shifts_flagsShape backing entries
  | .literal backing value => by
    simp only [TypeSpec.shape]
    exact shifts_lift (literalShape_shifted backing value)

theorem shifts_shapeFields {lookup lookup' : Lookup}
    (looks : ∀ name, lookup' name = (lookup name).map (shifted k)) :
    ∀ fields : List (FieldSpec TypeSpec), Shifts k (List.map (Member.regroup (· + k)))
      (TypeSpec.shapeFields lookup fields) (TypeSpec.shapeFields lookup' fields)
  | [] => shifts_pure rfl
  | ⟨docs, name, type⟩ :: rest => by
    simp only [TypeSpec.shapeFields]
    exact (shifts_shape looks type).bind fun _ => (shifts_shapeFields looks rest).bind fun _ =>
      shifts_pure rfl

theorem shifts_shapeParts {lookup lookup' : Lookup}
    (looks : ∀ name, lookup' name = (lookup name).map (shifted k)) :
    ∀ parts : List TypeSpec, Shifts k (List.map (shifted k))
      (TypeSpec.shapeParts lookup parts) (TypeSpec.shapeParts lookup' parts)
  | [] => shifts_pure rfl
  | part :: rest => by
    simp only [TypeSpec.shapeParts]
    exact (shifts_shape looks part).bind fun _ => (shifts_shapeParts looks rest).bind fun _ =>
      shifts_pure rfl

theorem shifts_shapeArms {lookup lookup' : Lookup}
    (looks : ∀ name, lookup' name = (lookup name).map (shifted k)) (kind : IntKind)
    (seen : List String) : ∀ arms : List (ArmSpec TypeSpec), Shifts k (List.map (shiftedArm k))
      (TypeSpec.shapeArms lookup kind seen arms) (TypeSpec.shapeArms lookup' kind seen arms)
  | [] => shifts_pure rfl
  | ⟨name, tag, fields⟩ :: rest => by
    -- What comes after the tag is the same for variants with and without one.
    have later (tag : Option Literal) : Shifts k (List.map (shiftedArm k))
        (do
          let fields ← TypeSpec.shapeFields lookup fields
          if seen.contains name then throw (.parse ("union: duplicate variant " ++ name))
          let others ← TypeSpec.shapeArms lookup kind (name :: seen) rest
          return (name, tag, fields) :: others)
        (do
          let fields ← TypeSpec.shapeFields lookup' fields
          if seen.contains name then throw (.parse ("union: duplicate variant " ++ name))
          let others ← TypeSpec.shapeArms lookup' kind (name :: seen) rest
          return (name, tag, fields) :: others) := by
      refine (shifts_shapeFields looks fields).bind fun made => ?_
      split
      · exact Shifts.bind (f := id) (shifts_throw _) fun _ =>
          (shifts_shapeArms looks kind _ rest).bind fun _ => shifts_pure rfl
      · exact (shifts_shapeArms looks kind _ rest).bind fun _ => shifts_pure rfl
    simp only [TypeSpec.shapeArms]
    cases tag with
    | none =>
      simp only [pure_bind]
      exact later none
    | some l =>
      simp only [bind_map_left]
      exact (shifts_plain _).bind fun l => later (some l)

end

/-! ### Schemas -/

theorem lookupIn_regroup {ρ : Nat → Nat} (names : List String) (known : Refs) (name : String) :
    lookupIn names (known.regroup ρ) name = (lookupIn names known name).map (Shape.regroup ρ) := by
  unfold lookupIn
  rw [Shape.lookup_regroup]
  cases known.lookup name with
  | some s => rfl
  | none =>
    simp only [Option.map_none]
    split <;> rfl

/-- The assembly whose groups are larger by `k`. -/
def Assembly.shift (k : Nat) (a : Assembly) : Assembly where
  schema := a.schema.regroup (· + k)
  known := Refs.regroup (· + k) a.known

theorem building_shift {act : Build α} {act' : Build β} {f : α → β} (shifts : Shifts k f act act')
    (a : Assembly) :
    (a.shift k).building act' = (a.building act).map (Prod.map f (Assembly.shift k)) :=
  bind_eq_map (shifts a.schema.nextGroup) fun _ => rfl

/-- Folds whose steps go over into each other do so themselves. -/
theorem foldlM_map {σ : Type} {step step' : σ → α → Except SchemaError σ} {r : σ → σ} {as : List α}
    (each : ∀ a ∈ as, ∀ s, step' (r s) a = (step s a).map r) (s : σ) :
    as.foldlM step' (r s) = (as.foldlM step s).map r := by
  induction as generalizing s with
  | nil => rfl
  | cons a as ih =>
    rw [List.foldlM_cons, List.foldlM_cons]
    refine bind_eq_map (each a (List.mem_cons_self ..) s) fun s' => ?_
    exact ih (fun b later => each b (List.mem_cons_of_mem _ later)) s'

end Source

open Source (bind_eq_map)

section

variable {ρ : Nat → Nat}

theorem Refs.resolve_regroup (refs : Refs) (label : String) (target : Shape) :
    (refs.regroup ρ).resolve label (target.regroup ρ) =
      (refs.resolve label target).map (Refs.regroup ρ) := by
  unfold Refs.resolve
  rw [Shape.lookup_regroup]
  cases refs.lookup label with
  | some s => rfl
  | none =>
    have joined : (refs ++ [(label, target)]).regroup ρ =
        refs.regroup ρ ++ [(label, target.regroup ρ)] := List.map_append
    exact congrArg Except.ok joined.symm

theorem Protocol.append_regroup (p : Protocol) (flow : Flow) (packet : Packet) :
    (p.regroup ρ).append flow (packet.regroup ρ) = (p.append flow packet).regroup ρ := by
  cases flow <;> simp only [append, regroup, List.map_append, List.map_cons, List.map_nil]

theorem Protocol.addPacket_regroup (p : Protocol) (flow : Flow) (packet : Packet) :
    (p.regroup ρ).addPacket flow (packet.regroup ρ) =
      (p.addPacket flow packet).map (Prod.map id (Protocol.regroup ρ)) := by
  have names : ((p.packets flow).map (Packet.regroup ρ)).any (·.name == (packet.regroup ρ).name) =
      (p.packets flow).any (·.name == packet.name) := List.any_map
  unfold addPacket
  rw [packets_regroup, append_regroup, List.length_map, names]
  split <;> rfl

namespace Schema

theorem addType_regroup (s : Schema) (name : String) (shape : Shape) :
    (s.regroup ρ).addType name (shape.regroup ρ) =
      (s.addType name shape).map (Prod.map (Shape.regroup ρ) (regroup ρ)) := by
  have names : (s.regroup ρ).types.any (·.1 == name) = s.types.any (·.1 == name) := List.any_map
  have joined : Refs.regroup ρ (s.types ++ [(name, shape)]) =
      (s.regroup ρ).types ++ [(name, shape.regroup ρ)] := List.map_append
  rw [addType, addType, names]
  split
  · rfl
  · rw [← joined]
    rfl

theorem resolve_regroup (s : Schema) (label : String) (target : Shape) :
    (s.regroup ρ).resolve label (target.regroup ρ) = (s.resolve label target).map (regroup ρ) :=
  bind_eq_map (s.refs.resolve_regroup label target) fun _ => rfl

theorem addProtocol_regroup (s : Schema) (name : String) :
    (s.regroup ρ).addProtocol name = (s.addProtocol name).map (regroup ρ) := by
  have names : (s.regroup ρ).protocols.any (·.name == name) = s.protocols.any (·.name == name) :=
    List.any_map
  have joined : List.map (Protocol.regroup ρ) (s.protocols ++ [{ name := name }]) =
      (s.regroup ρ).protocols ++ [{ name := name }] := List.map_append
  rw [addProtocol, addProtocol, names]
  split
  · rfl
  · rw [← joined]
    rfl

theorem addPacket_regroup (s : Schema) (protocol : String) (flow : Flow) (packet : Packet) :
    (s.regroup ρ).addPacket protocol flow (packet.regroup ρ) =
      (s.addPacket protocol flow packet).map (Prod.map id (regroup ρ)) := by
  have found : (s.regroup ρ).protocols.find? (·.name == protocol) =
      (s.protocols.find? (·.name == protocol)).map (Protocol.regroup ρ) := List.find?_map ..
  have replaced (q : Protocol) :
      ((s.regroup ρ).protocols.map fun old => if old.name == protocol then q.regroup ρ else old) =
        (s.protocols.map fun old => if old.name == protocol then q else old).map
          (Protocol.regroup ρ) := by
    simp only [regroup, List.map_map, Function.comp_def, apply_ite]
    rfl
  unfold addPacket
  rw [found]
  cases s.protocols.find? (·.name == protocol) with
  | none => rfl
  | some p =>
    refine bind_eq_map (p.addPacket_regroup flow packet) ?_
    rintro ⟨id, q⟩
    simp only [Prod.map, replaced]
    rfl

end Schema

end

namespace Source

variable {k : Nat}

theorem addType_shift (names : List String) (a : Assembly) (d : TypeDecl) :
    (a.shift k).addType names d = (a.addType names d).map (Assembly.shift k) := by
  refine bind_eq_map (building_shift (shifts_shape (lookupIn_regroup names a.known) d.type) a) ?_
  rintro ⟨shape, b⟩
  dsimp only
  split
  · exact bind_eq_map (b.schema.addType_regroup d.name (.exported d.name shape)) fun out =>
      bind_eq_map (out.2.resolve_regroup d.name out.1) fun _ => rfl
  · exact bind_eq_map (b.schema.addType_regroup d.name (.alias d.name shape)) fun out =>
      bind_eq_map (out.2.resolve_regroup d.name out.1) fun _ => rfl

theorem addPacket_shift {lookup lookup' : Lookup}
    (looks : ∀ name, lookup' name = (lookup name).map (shifted k)) (protocol : String) (flow : Flow)
    (a : Assembly) (p : PacketSpec) : (a.shift k).addPacket lookup' protocol flow p =
      (a.addPacket lookup protocol flow p).map (Assembly.shift k) := by
  refine bind_eq_map (building_shift (shifts_shapeFields looks p.fields) a) ?_
  rintro ⟨fields, b⟩
  exact bind_eq_map (b.schema.addPacket_regroup protocol flow
    { name := p.name, fields, doc := docOf p.docs }) fun _ => rfl

theorem addProtocol_shift {lookup lookup' : Lookup}
    (looks : ∀ name, lookup' name = (lookup name).map (shifted k)) (a : Assembly)
    (d : ProtocolDecl) :
    (a.shift k).addProtocol lookup' d = (a.addProtocol lookup d).map (Assembly.shift k) := by
  refine bind_eq_map (a.schema.addProtocol_regroup d.name) fun schema => ?_
  refine foldlM_map (r := Assembly.shift k) (fun block _ b => ?_) { a with schema }
  exact foldlM_map (fun p _ c => addPacket_shift looks d.name block.flow c p) b

/-- Numbering from a first group that is larger by `k` makes all groups larger by `k`. -/
theorem schemaOf_shift (g : Nat) (items : List Item) :
    schemaOf (g + k) items = (schemaOf g items).map (Schema.regroup (· + k)) := by
  -- The checks of names look at the text only.
  have checked (x : Except SchemaError Unit) : x = x.map id := by cases x <;> rfl
  refine bind_eq_map (checked _) fun _ => ?_
  refine bind_eq_map (foldlM_map (r := Assembly.shift k) (fun d _ a => addType_shift _ a d)
    { schema := { nextGroup := g } }) fun a => ?_
  refine bind_eq_map (checked _) fun _ => ?_
  refine bind_eq_map (foldlM_map (r := Assembly.shift k)
    (fun d _ b => addProtocol_shift (lookupIn_regroup _ a.known) b d) a) fun b => rfl

end Source

/-- Reading a text with a first group that is larger by `k` makes all groups larger by `k`. -/
theorem Schema.parseFrom_add (first k : Nat) (text : String) :
    Schema.parseFrom (first + k) text =
      (Schema.parseFrom first text).map (Schema.regroup (· + k)) := by
  unfold Schema.parseFrom
  split
  · exact Source.schemaOf_shift first _
  · rfl

/-- What a text describes is well formed. -/
theorem Schema.wellFormed_of_parseFrom {first : Nat} {text : String} {s : Schema}
    (read : Schema.parseFrom first text = .ok s) : ∃ rank, s.WellFormed rank := by
  unfold Schema.parseFrom at read
  split at read
  case h_1 items parsed =>
    exact Source.wellFormed_of_schemaOf (Source.idents_of_parseAll parsed) read
  case h_2 => cases read

/-- The code of a text, or the error, is the one that it has with its groups numbered from zero on.
-/
theorem Schema.generate_parseFrom (hooks : Lowering.Hooks) (first : Nat) (text : String) :
    (Schema.parseFrom first text >>= generate hooks) =
      Schema.parseFrom 0 text >>= generate hooks := by
  -- Any first number is zero and something more, and adding to all numbers is injective.
  have shifted := Schema.parseFrom_add 0 first text
  rw [Nat.zero_add] at shifted
  rw [shifted]
  cases read : Schema.parseFrom 0 text with
  | error e => rfl
  | ok s =>
    obtain ⟨rank, wf⟩ := Schema.wellFormed_of_parseFrom read
    exact Schema.generate_regroup (fun _ _ same => Nat.add_right_cancel same) wf

/-- The files and the code of a text, or the error with which it is refused, do not depend on the
number of its first bit group. -/
theorem Schema.output_is_independent_of_first_group (hooks : Lowering.Hooks) (o : PrintOptions)
    (text : String) (first first' : Nat) :
    (Schema.parseFrom first text >>= fun s => s.compile hooks o) =
      (Schema.parseFrom first' text >>= fun s => s.compile hooks o) ∧
    (Schema.parseFrom first text >>= fun s => s.generate hooks) =
      (Schema.parseFrom first' text >>= fun s => s.generate hooks) := by
  have generated : (Schema.parseFrom first text >>= generate hooks) =
      Schema.parseFrom first' text >>= generate hooks := by
    rw [Schema.generate_parseFrom hooks first, Schema.generate_parseFrom hooks first']
  refine ⟨?_, generated⟩
  have compiled (n : Nat) : (Schema.parseFrom n text >>= fun s => s.compile hooks o) =
      (Schema.parseFrom n text >>= generate hooks) >>= fun g => pure (g.files o) := by
    rw [bind_assoc]
    rfl
  rw [compiled, compiled, generated]

end WireSchema
