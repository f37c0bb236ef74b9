import WireSchema.Proofs.Shape.Members
import WireSchema.Proofs.Source.Reordering

/-!
# Members of the types of a text

Whatever text is read, the members of its types are named by identifiers, and what is merged has
parts. The parser gives written types that can only be built to such shapes, as long as the declared
types are such shapes; and each of these is built before it is used.
-/

namespace WireSchema

open Shape

/-! ### Shapes -/

namespace Shape

theorem identMembers_leaf {s : Shape} (own : s.OwnIdents) (leaf : s.subshapes [] = []) :
    s.IdentMembers :=
  identMembers_of_parts own (leaf ▸ nofun)

theorem identMembers_struct {fields : List Field}
    (each : ∀ f ∈ fields, IsIdent f.name ∧ f.shape.IdentMembers) :
    (Shape.struct fields).IdentMembers :=
  identMembers_of_parts (fun f member => (each f member).1)
    (List.forall_mem_map.mpr fun f member => (each f member).2)

theorem identMembers_slots {s : Shape} {fields : List Field} (own : s.OwnIdents)
    (parts : s.subshapes [] = fields.map (·.shape))
    (slots : ∀ f ∈ fields, ∃ group index kind, f.shape = .slot group index kind) :
    s.IdentMembers := by
  refine identMembers_of_parts own (parts ▸ List.forall_mem_map.mpr fun f member => ?_)
  obtain ⟨_, _, _, same⟩ := slots f member
  rw [same]
  exact identMembers_leaf trivial rfl

end Shape

namespace Source

open WireSchema.Source.Parser

variable {g g' : Nat} {lookup : Lookup}

/-! ### Written types -/

/-- Every shape that the type is built to has members named by identifiers, if the declared types
have. -/
def TypeSpec.BuildsIdents (t : TypeSpec) : Prop :=
  ∀ (lookup : Lookup) (g g' : Nat) (s : Shape), (∀ name x, lookup name = .ok x → x.IdentMembers) →
    Builds (t.shape lookup) g s g' → s.IdentMembers

/-- The field is named by an identifier, and so are the members of its type. -/
def FieldSpec.BuildsIdents (f : FieldSpec TypeSpec) : Prop :=
  IsIdent f.name ∧ f.type.BuildsIdents

theorem shapeFields_idents (known : ∀ name x, lookup name = .ok x → x.IdentMembers)
    {fields : List (FieldSpec TypeSpec)} (each : ∀ f ∈ fields, f.BuildsIdents) {made : List Field}
    (ran : Builds (TypeSpec.shapeFields lookup fields) g made g') :
    ∀ f ∈ made, IsIdent f.name ∧ f.shape.IdentMembers := by
  induction fields generalizing g made with
  | nil =>
    simp only [TypeSpec.shapeFields, builds_pure] at ran
    exact ran.1 ▸ List.forall_mem_nil _
  | cons first rest ih =>
    obtain ⟨docs, name, type⟩ := first
    obtain ⟨own, others⟩ := List.forall_mem_cons.mp each
    simp only [TypeSpec.shapeFields, builds_bind, builds_pure] at ran
    obtain ⟨s, g₁, ofType, later, g₂, ofRest, rfl, rfl⟩ := ran
    exact List.forall_mem_cons.mpr ⟨⟨own.1, own.2 _ _ _ _ known ofType⟩, ih others ofRest⟩

theorem shapeParts_idents (known : ∀ name x, lookup name = .ok x → x.IdentMembers)
    {parts : List TypeSpec} (each : ∀ part ∈ parts, part.BuildsIdents) {made : List Shape}
    (ran : Builds (TypeSpec.shapeParts lookup parts) g made g') :
    (∀ s ∈ made, s.IdentMembers) ∧ made.length = parts.length := by
  induction parts generalizing g made with
  | nil =>
    simp only [TypeSpec.shapeParts, builds_pure] at ran
    exact ran.1 ▸ ⟨List.forall_mem_nil _, rfl⟩
  | cons part rest ih =>
    obtain ⟨own, others⟩ := List.forall_mem_cons.mp each
    simp only [TypeSpec.shapeParts, builds_bind, builds_pure] at ran
    obtain ⟨s, g₁, ofPart, later, g₂, ofRest, rfl, rfl⟩ := ran
    obtain ⟨idents, size⟩ := ih others ofRest
    exact ⟨List.forall_mem_cons.mpr ⟨own _ _ _ _ known ofPart, idents⟩, congrArg (· + 1) size⟩

theorem shapeArms_idents (known : ∀ name x, lookup name = .ok x → x.IdentMembers) {kind : IntKind}
    {arms : List (ArmSpec TypeSpec)}
    (each : ∀ arm ∈ arms, IsIdent arm.name ∧ ∀ f ∈ arm.fields, f.BuildsIdents) {seen : List String}
    {made : List (String × Option Literal × List Field)}
    (ran : Builds (TypeSpec.shapeArms lookup kind seen arms) g made g') :
    ∀ entry ∈ made, IsIdent entry.1 ∧ (Shape.struct entry.2.2).IdentMembers := by
  induction arms generalizing g seen made with
  | nil =>
    simp only [TypeSpec.shapeArms, builds_pure] at ran
    exact ran.1 ▸ List.forall_mem_nil _
  | cons arm rest ih =>
    obtain ⟨name, tag, fields⟩ := arm
    obtain ⟨own, others⟩ := List.forall_mem_cons.mp each
    obtain ⟨given, inside, g₁, later, _, ofFields, _, ofRest, rfl⟩ := builds_arm.mp ran
    refine List.forall_mem_cons.mpr ⟨⟨own.1, ?_⟩, ih others ofRest⟩
    exact identMembers_struct (shapeFields_idents known own.2 ofFields)

/-! ### What the parser gives -/

section Parsers

variable {type : Parser TypeSpec} (types : Yields type TypeSpec.BuildsIdents) (bound : Nat)

include types

theorem yields_memberFields : Yields (many (field bound type) bound)
    fun fields => ∀ f ∈ fields, f.BuildsIdents := by
  have one : Yields (field bound type) FieldSpec.BuildsIdents :=
    Yields.skip fun _ => yields_ident.bind fun _ named => Yields.skip fun _ =>
      types.bind fun _ built => Yields.skip fun _ => .pure ⟨named, built⟩
  exact one.many bound

theorem yields_memberArms : Yields (entries (commaEnded bound (arm bound type)))
    fun arms => ∀ arm ∈ arms, IsIdent arm.name ∧ ∀ f ∈ arm.fields, f.BuildsIdents := by
  have one : Yields (arm bound type) fun arm =>
      IsIdent arm.name ∧ ∀ f ∈ arm.fields, f.BuildsIdents :=
    Yields.skip fun _ => yields_ident.bind fun _ named => Yields.skip fun _ => Yields.skip fun _ =>
      Yields.skip fun _ => (yields_memberFields types bound).bind fun _ built =>
      Yields.skip fun _ => .pure ⟨named, built⟩
  exact (one.commaEnded bound).entries

/-- Something is merged if anything is. -/
theorem yields_parts : Yields (commaSeparated bound type)
    fun parts => parts ≠ [] ∧ ∀ part ∈ parts, part.BuildsIdents := by
  intro cs parts rest run
  have some : Yields (commaSeparated bound type) fun parts => parts ≠ [] :=
    Yields.skip fun _ => Yields.skip fun _ => .pure (List.cons_ne_nil _ _)
  exact ⟨some cs parts rest run, types.commaSeparated bound cs parts rest run⟩

end Parsers

theorem yields_slotNames (bound : Nat) : Yields (commaSeparated bound packedSlot)
    fun slots => ∀ slot ∈ slots, IsIdent slot.1 := by
  have one : Yields packedSlot fun slot => IsIdent slot.1 :=
    yields_ident.bind fun _ named => Yields.skip fun _ => Yields.skip fun _ => .pure named
  exact one.commaSeparated bound

theorem yields_flagNames (bound : Nat) : Yields (commaEnded bound flagEntry)
    fun masks => ∀ mask ∈ masks, IsIdent mask.1 := by
  have one : Yields flagEntry fun mask => IsIdent mask.1 :=
    yields_ident.bind fun _ named => Yields.skip fun _ => Yields.skip fun _ => .pure named
  exact one.commaEnded bound

/-- The names of flags are kept. -/
theorem maskNames_ok {entries : List (String × Numeral)} {masks : List (String × Int)}
    (read : entries.mapM (fun (name, mask) => (do return (name, ← mask.value) :
      Except SchemaError (String × Int))) = .ok masks) :
    masks.map (·.1) = entries.map (·.1) := by
  induction entries generalizing masks with
  | nil =>
    cases read
    rfl
  | cons entry rest ih =>
    obtain ⟨_, others, first, later, rfl⟩ := mapM_cons_ok.mp read
    obtain ⟨_, _, same⟩ := bind_ok.mp first
    cases pure_ok.mp same
    exact congrArg (entry.1 :: ·) (ih later)

namespace TypeSpec

theorem buildsIdents_packed {backing : String} {slots : List (String × Numeral)}
    {order : Option (List String)} (named : ∀ slot ∈ slots, IsIdent slot.1) :
    (packed backing slots order).BuildsIdents := by
  intro lookup g g' s known ran
  rw [TypeSpec.shape, builds_packedShape] at ran
  obtain ⟨p, widths, kind, _, _, _, _, _, _, rfl, rfl⟩ := ran
  refine identMembers_slots (fun f member => ?_) rfl fun f member => ?_
  · obtain ⟨name, _, found⟩ := List.mem_filterMap.mp member
    obtain ⟨slot, looked, rfl⟩ := Option.map_eq_some_iff.mp found
    obtain ⟨written, inside, same⟩ :=
      List.mem_map.mp (List.of_mem_zip (mem_of_lookup looked)).1
    exact same ▸ named written inside
  · obtain ⟨index, width, _, same⟩ := packedFields_slots f member
    exact ⟨_, _, _, same⟩

theorem buildsIdents_flags {backing : String} {entries : List (String × Numeral)}
    (named : ∀ entry ∈ entries, IsIdent entry.1) : (flags backing entries).BuildsIdents := by
  intro lookup g g' s known ran
  rw [TypeSpec.shape, builds_flagsShape] at ran
  obtain ⟨p, masks, kind, _, read, _, _, rfl, rfl⟩ := ran
  have idents : ∀ mask ∈ masks, IsIdent mask.1 := by
    have all : ∀ name ∈ masks.map (·.1), IsIdent name := by
      rw [maskNames_ok read]
      exact List.forall_mem_map.mpr named
    exact List.forall_mem_map.mp all
  refine identMembers_slots ⟨idents, fun f member => ?_⟩ rfl fun f member => ?_
  · obtain ⟨⟨mask, slot⟩, paired, rfl⟩ := List.mem_map.mp member
    exact idents mask (List.of_mem_zip paired).1
  · obtain ⟨index, mask, _, same⟩ := flagFields_slots f member
    exact ⟨_, _, _, same⟩

theorem buildsIdents_named (name : String) : (named name).BuildsIdents := by
  intro lookup g g' s known ran
  rw [TypeSpec.shape] at ran
  cases primitive : Primitive.ofName? name with
  | some p =>
    simp only [primitive, builds_pure] at ran
    exact ran.1 ▸ identMembers_leaf trivial rfl
  | none =>
    simp only [primitive, builds_lift] at ran
    exact known name s ran.1

theorem buildsIdents_literal (backing : Option String) (value : LiteralSpec) :
    (literal backing value).BuildsIdents := by
  intro lookup g g' s known ran
  simp only [TypeSpec.shape, builds_lift] at ran
  obtain ⟨p, l, _, _, rfl⟩ := literalShape_ok.mp ran.1
  unfold Shape.fixed
  split <;> exact identMembers_leaf trivial rfl

theorem buildsIdents_bytes (length : Numeral) : (bytes length).BuildsIdents := by
  intro lookup g g' s known ran
  simp only [TypeSpec.shape, builds_lift] at ran
  obtain ⟨size, _, _, _, rfl⟩ := bytesShape_ok.mp ran.1
  exact identMembers_leaf trivial rfl

theorem buildsIdents_optional {value : TypeSpec} (inner : value.BuildsIdents) :
    (optional value).BuildsIdents := by
  intro lookup g g' s known ran
  simp only [TypeSpec.shape, builds_bind, builds_pure] at ran
  obtain ⟨v, g₁, ofValue, rfl, rfl⟩ := ran
  exact identMembers_of_parts trivial (List.forall_mem_cons.mpr
    ⟨inner _ _ _ _ known ofValue, List.forall_mem_singleton.mpr (identMembers_leaf trivial rfl)⟩)

theorem buildsIdents_list {item : TypeSpec} {length : Option String} (inner : item.BuildsIdents) :
    (list item length).BuildsIdents := by
  intro lookup g g' s known ran
  simp only [TypeSpec.shape, builds_bind, builds_lift, builds_pure] at ran
  obtain ⟨v, g₁, ofItem, p, _, _, rfl, rfl⟩ := ran
  exact identMembers_of_parts trivial (List.forall_mem_singleton.mpr (inner _ _ _ _ known ofItem))

theorem buildsIdents_map {key value : TypeSpec} {length : Option String} (ofKey : key.BuildsIdents)
    (ofValue : value.BuildsIdents) : (map key value length).BuildsIdents := by
  intro lookup g g' s known ran
  simp only [TypeSpec.shape, builds_bind, builds_lift, builds_pure] at ran
  obtain ⟨k, g₁, builtKey, v, g₂, builtValue, p, _, _, rfl, rfl⟩ := ran
  exact identMembers_of_parts trivial (List.forall_mem_cons.mpr ⟨ofKey _ _ _ _ known builtKey,
    List.forall_mem_singleton.mpr (ofValue _ _ _ _ known builtValue)⟩)

theorem buildsIdents_enum {backing : String} {entries : List (String × Option Numeral)} :
    (enum backing entries).BuildsIdents := by
  intro lookup g g' s known ran
  simp only [TypeSpec.shape, builds_bind, builds_lift, builds_pure] at ran
  obtain ⟨p, _, _, ids, _, _, rfl, rfl⟩ := ran
  exact identMembers_leaf trivial rfl

theorem buildsIdents_union {tagField : String} {tag : TypeSpec} {arms : List (ArmSpec TypeSpec)}
    (named : IsIdent tagField) (ofTag : tag.BuildsIdents)
    (ofArms : ∀ arm ∈ arms, IsIdent arm.name ∧ ∀ f ∈ arm.fields, f.BuildsIdents) :
    (union tagField tag arms).BuildsIdents := by
  intro lookup g g' s known ran
  simp only [TypeSpec.shape, builds_bind, builds_pure] at ran
  obtain ⟨t, g₁, builtTag, made, g₂, builtArms, rfl, rfl⟩ := ran
  have each := shapeArms_idents known ofArms builtArms
  refine identMembers_of_parts ⟨named, List.forall_mem_map.mpr fun entry member => ?_⟩
    (List.forall_mem_cons.mpr ⟨ofTag _ _ _ _ known builtTag, ?_⟩)
  · exact (each entry member).1
  · exact List.forall_mem_map.mpr (List.forall_mem_map.mpr fun entry member => (each entry member).2)

theorem buildsIdents_struct {fields : List (FieldSpec TypeSpec)}
    (each : ∀ f ∈ fields, f.BuildsIdents) : (struct fields).BuildsIdents := by
  intro lookup g g' s known ran
  simp only [TypeSpec.shape, builds_bind, builds_pure] at ran
  obtain ⟨made, g₁, ofFields, rfl, rfl⟩ := ran
  exact identMembers_struct (shapeFields_idents known each ofFields)

theorem buildsIdents_merge {parts : List TypeSpec} (some : parts ≠ [])
    (each : ∀ part ∈ parts, part.BuildsIdents) : (merge parts).BuildsIdents := by
  intro lookup g g' s known ran
  simp only [TypeSpec.shape, builds_bind, builds_pure] at ran
  obtain ⟨made, g₁, ofParts, rfl, rfl⟩ := ran
  obtain ⟨idents, size⟩ := shapeParts_idents known each ofParts
  refine identMembers_of_parts (fun none => some ?_) idents
  rw [none] at size
  exact List.length_eq_zero_iff.mp size.symm

end TypeSpec

open TypeSpec in
theorem yields_memberType (bound : Nat) : Yields (typeSpec bound) TypeSpec.BuildsIdents := by
  induction bound with
  | zero => exact Yields.failure
  | succ bound types =>
    rw [typeSpec]
    refine .orElse ?optional <| .orElse ?list <| .orElse ?map <| .orElse ?enum <|
      .orElse ?union <| .orElse ?struct <| .orElse ?merge <| .orElse ?packed <|
      .orElse ?flags <| .orElse ?literal <| .orElse ?bytes ?named
    case optional =>
      exact Yields.skip fun _ => Yields.skip fun _ => types.bind fun _ inner =>
        Yields.skip fun _ => .pure (buildsIdents_optional inner)
    case list =>
      exact Yields.skip fun _ => Yields.skip fun _ => types.bind fun _ inner =>
        Yields.skip fun _ => Yields.skip fun _ => .pure (buildsIdents_list inner)
    case map =>
      exact Yields.skip fun _ => Yields.skip fun _ => types.bind fun _ ofKey =>
        Yields.skip fun _ => types.bind fun _ ofValue => Yields.skip fun _ =>
        Yields.skip fun _ => .pure (buildsIdents_map ofKey ofValue)
    case enum =>
      exact Yields.skip fun _ => Yields.skip fun _ => Yields.skip fun _ => .pure buildsIdents_enum
    case union =>
      exact Yields.skip fun _ => Yields.skip fun _ => yields_ident.bind fun _ named =>
        Yields.skip fun _ => types.bind fun _ ofTag => Yields.skip fun _ =>
        (yields_memberArms types bound).bind fun _ ofArms =>
        .pure (buildsIdents_union named ofTag ofArms)
    case struct =>
      exact Yields.skip fun _ => Yields.skip fun _ =>
        (yields_memberFields types bound).bind fun _ each => Yields.skip fun _ =>
        .pure (buildsIdents_struct each)
    case merge =>
      exact Yields.skip fun _ => Yields.skip fun _ => (yields_parts types bound).bind
        fun _ each => Yields.skip fun _ => .pure (buildsIdents_merge each.1 each.2)
    case packed =>
      exact Yields.skip fun _ => Yields.skip fun _ => Yields.skip fun _ =>
        (yields_slotNames bound).bind fun _ named => Yields.skip fun _ => Yields.skip fun _ =>
        .pure (buildsIdents_packed named)
    case flags =>
      exact Yields.skip fun _ => Yields.skip fun _ => Yields.skip fun _ =>
        (yields_flagNames bound).bind fun _ named => Yields.skip fun _ =>
        .pure (buildsIdents_flags named)
    case literal =>
      exact Yields.skip fun _ => Yields.skip fun _ => Yields.skip fun _ => Yields.skip fun _ =>
        Yields.skip fun _ => .pure (buildsIdents_literal _ _)
    case bytes =>
      exact Yields.skip fun _ => Yields.skip fun _ => Yields.skip fun _ =>
        Yields.skip fun _ => .pure (buildsIdents_bytes _)
    case named => exact Yields.skip fun _ => .pure (buildsIdents_named _)

/-! ### Declarations -/

/-- The members of the declared types are named by identifiers. -/
def Item.BuildsIdents : Item → Prop
  | .type d => d.type.BuildsIdents
  | .protocol d => ∀ block ∈ d.flows, ∀ p ∈ block.packets, ∀ f ∈ p.fields, f.BuildsIdents

theorem yields_memberDecl (bound : Nat) (keyword : String) (exported : Bool) :
    Yields (typeDecl bound keyword exported) Item.BuildsIdents :=
  Yields.skip fun _ => Yields.skip fun _ => Yields.skip fun _ => Yields.skip fun _ =>
    (yields_memberType bound).bind fun _ built => Yields.skip fun _ => .pure built

theorem yields_memberProtocol (bound : Nat) :
    Yields (protocolDecl bound) Item.BuildsIdents := by
  have packet : Yields (packetSpec bound) fun p => ∀ f ∈ p.fields, f.BuildsIdents :=
    Yields.skip fun _ => Yields.skip fun _ => Yields.skip fun _ => Yields.skip fun _ =>
      (yields_memberFields (yields_memberType bound) bound).bind fun _ each =>
      Yields.skip fun _ => .pure each
  have flow : Yields (flowSpec bound) fun block => ∀ p ∈ block.packets, ∀ f ∈ p.fields,
      f.BuildsIdents :=
    Yields.skip fun _ => Yields.skip fun _ => (packet.many bound).bind fun _ each =>
      Yields.skip fun _ => .pure each
  exact Yields.skip fun _ => Yields.skip fun _ => Yields.skip fun _ => Yields.skip fun _ =>
    (flow.many bound).bind fun _ each => Yields.skip fun _ => .pure each

theorem buildsIdents_of_parseAll {text : String} {ds : List Item}
    (parsed : Item.parseAll? text = some ds) : ∀ d ∈ ds, d.BuildsIdents := by
  obtain ⟨⟨found, rest⟩, run, rfl⟩ := Option.map_eq_some_iff.mp parsed
  have item (bound : Nat) : Yields
      (typeDecl bound "type" false <|> typeDecl bound "export" true <|> protocolDecl bound)
      Item.BuildsIdents :=
    .orElse (yields_memberDecl bound _ _) <| .orElse (yields_memberDecl bound _ _) <|
      yields_memberProtocol bound
  have all (bound : Nat) : Yields (items bound) fun ds => ∀ d ∈ ds, d.BuildsIdents :=
    ((item bound).many bound).bind fun _ each => Yields.skip fun _ => .pure each
  exact all _ _ _ _ run

/-! ### The schema -/

theorem identMembers_wrap {d : TypeDecl} {s : Shape} (idents : s.IdentMembers) :
    (d.wrap s).IdentMembers := by
  rcases d.wrap_form s with same | same <;> rw [same] <;>
    exact identMembers_of_parts trivial (List.forall_mem_singleton.mpr idents)

theorem identMembers_lookupIn {names : List String} {known : Refs}
    (idents : ∀ entry ∈ known, entry.2.IdentMembers) :
    ∀ name x, lookupIn names known name = .ok x → x.IdentMembers := by
  intro name x found
  rcases lookupIn_declared found with member | ⟨_, rfl⟩
  · exact idents _ member
  · exact identMembers_leaf trivial rfl

theorem BuildsTypes.idents {names : List String} : ∀ {ds : List TypeDecl} {known : Refs} {g g' : Nat}
    {table : Refs}, BuildsTypes names ds known g table g' →
    (∀ entry ∈ known, entry.2.IdentMembers) → (∀ d ∈ ds, d.type.BuildsIdents) →
    ∀ entry ∈ table, entry.2.IdentMembers
  | [], _, _, _, _, ⟨empty, _⟩, _, _ => empty ▸ nofun
  | d :: ds, known, _, _, _, ⟨s, g₁, rest, ofType, ofRest, same⟩, old, each => by
    subst same
    obtain ⟨own, others⟩ := List.forall_mem_cons.mp each
    have made : (d.wrap s).IdentMembers :=
      identMembers_wrap (own _ _ _ _ (identMembers_lookupIn old) ofType)
    exact List.forall_mem_cons.mpr
      ⟨made, ofRest.idents (List.forall_mem_cons.mpr ⟨made, old⟩) others⟩

theorem mem_of_types {items : List Item} {d : TypeDecl} (member : d ∈ items.filterMap Item.type?) :
    .type d ∈ items := by
  obtain ⟨item, inside, same⟩ := List.mem_filterMap.mp member
  cases item <;> cases same
  exact inside

theorem mem_of_protocols {items : List Item} {d : ProtocolDecl}
    (member : d ∈ items.filterMap Item.protocol?) : .protocol d ∈ items := by
  obtain ⟨item, inside, same⟩ := List.mem_filterMap.mp member
  cases item <;> cases same
  exact inside

end Source

open Source

/-- The packet has the fields of a text and no hooks. -/
structure Packet.IsWritten (types : Refs) (rank : String → Nat) (p : Packet) : Prop where
  fields : (Shape.struct p.fields).IsWritten types rank
  decode : p.decodeHook = none
  encode : p.encodeHook = none

/-- The types and packets of a schema are those of a text. -/
structure Schema.Written (rank : String → Nat) (s : Schema) : Prop where
  types : s.types = s.refs
  refs : s.refs.Written rank
  packets : s.AllPackets (Packet.IsWritten s.refs rank)

/-- What is read from a text is written. -/
theorem Schema.written_of_parseFrom {g : Nat} {text : String} {s : Schema}
    (parsed : Schema.parseFrom g text = .ok s) : ∃ rank, s.Written rank := by
  unfold Schema.parseFrom at parsed
  split at parsed
  case h_2 => cases parsed
  case h_1 items read =>
    obtain ⟨rank, wf⟩ := wellFormed_of_schemaOf (idents_of_parseAll read) parsed
    have built := buildsIdents_of_parseAll read
    obtain ⟨nodup, table, g₁, a, builds, checked, added, rfl⟩ := schemaOf_ok.mp parsed
    obtain ⟨_, refs⟩ := addProtocols_kept added
    have idents : ∀ entry ∈ table, entry.2.IdentMembers :=
      builds.idents (List.forall_mem_nil _) fun d member => built _ (mem_of_types member)
    have packets : a.schema.AllPackets fun p => (Shape.struct p.fields).IdentMembers := by
      refine allPackets_addProtocols (a := Assembly.ofTypes table g₁)
        (fun d inDs block inFlows p inBlock g fields g' made => ?_) (List.forall_mem_nil _) added
      refine identMembers_struct (shapeFields_idents (identMembers_lookupIn fun entry member => ?_)
        (built _ (mem_of_protocols inDs) block inFlows p inBlock) made)
      exact idents entry (List.mem_reverse.mp member)
    refine ⟨rank, wf.types, ⟨wf.ordered, ?_⟩, fun p member flow packet inFlow => ?_⟩
    · rw [refs]
      exact idents
    · obtain ⟨shape, decode, encode⟩ := wf.packets p member flow packet inFlow
      exact ⟨⟨.inl ⟨_, shape⟩, packets p member flow packet inFlow⟩, decode, encode⟩

end WireSchema
