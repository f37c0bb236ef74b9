import WireSchema.Proofs.Source.Written

/-!
# Counted enumerations

The next id of an enumeration is counted after every entry. So whatever has been built from a text
has no entry with the largest id: there is an id after each entry of its enumerations.
-/

namespace WireSchema.Source

variable {lookup : Lookup}

/-- The enumerations in the declarations are counted. -/
structure CountedItems (items : List Item) : Prop where
  types : ∀ d ∈ items.filterMap Item.type?, d.type.Counted
  fields : ∀ d ∈ items.filterMap Item.protocol?, ∀ block ∈ d.flows, ∀ p ∈ block.packets,
    TypeSpec.CountedFields p.fields

/-! ### What is built is counted -/

mutual

/-- A type that has been built is counted. -/
theorem shape_counted : ∀ (t : TypeSpec) {g g' : Nat} {s : Shape},
    Builds (t.shape lookup) g s g' → t.Counted
  | .optional value, g, g', s, ran => by
    simp only [TypeSpec.shape, builds_bind] at ran
    obtain ⟨v, g₁, ofValue, _⟩ := ran
    exact shape_counted value ofValue
  | .list item length, g, g', s, ran => by
    simp only [TypeSpec.shape, builds_bind] at ran
    obtain ⟨v, g₁, ofItem, _⟩ := ran
    exact shape_counted item ofItem
  | .map key value length, g, g', s, ran => by
    simp only [TypeSpec.shape, builds_bind] at ran
    obtain ⟨k, g₁, ofKey, v, g₂, ofValue, _⟩ := ran
    exact ⟨shape_counted key ofKey, shape_counted value ofValue⟩
  | .enum backing entries, g, g', s, ran => by
    simp only [TypeSpec.shape, builds_bind, builds_lift] at ran
    obtain ⟨p, g₁, _, ids, g₂, ⟨numbered, _⟩, _⟩ := ran
    obtain ⟨_, _, _, counted, _⟩ := enumIds_ok.mp numbered
    exact counted
  | .union tagField tag arms, g, g', s, ran => by
    simp only [TypeSpec.shape, builds_bind] at ran
    obtain ⟨t, g₁, ofTag, made, g₂, ofArms, _⟩ := ran
    exact ⟨shape_counted tag ofTag, shapeArms_counted arms ofArms⟩
  | .struct fields, g, g', s, ran => by
    simp only [TypeSpec.shape, builds_bind] at ran
    obtain ⟨made, g₁, ofFields, _⟩ := ran
    exact shapeFields_counted fields ofFields
  | .merge parts, g, g', s, ran => by
    simp only [TypeSpec.shape, builds_bind] at ran
    obtain ⟨made, g₁, ofParts, _⟩ := ran
    exact shapeParts_counted parts ofParts
  | .named _, _, _, _, _ | .bytes _, _, _, _, _ | .packed _ _ _, _, _, _, _
  | .flags _ _, _, _, _, _ | .literal _ _, _, _, _, _ => trivial

theorem shapeFields_counted : ∀ (fields : List (FieldSpec TypeSpec)) {g g' : Nat}
    {made : List Field}, Builds (TypeSpec.shapeFields lookup fields) g made g' →
    TypeSpec.CountedFields fields
  | [], _, _, _, _ => trivial
  | ⟨docs, name, type⟩ :: rest, g, g', made, ran => by
    simp only [TypeSpec.shapeFields, builds_bind] at ran
    obtain ⟨s, g₁, ofType, others, g₂, ofRest, _⟩ := ran
    exact ⟨shape_counted type ofType, shapeFields_counted rest ofRest⟩

theorem shapeParts_counted : ∀ (parts : List TypeSpec) {g g' : Nat} {made : List Shape},
    Builds (TypeSpec.shapeParts lookup parts) g made g' → TypeSpec.CountedParts parts
  | [], _, _, _, _ => trivial
  | part :: rest, g, g', made, ran => by
    simp only [TypeSpec.shapeParts, builds_bind] at ran
    obtain ⟨s, g₁, ofPart, others, g₂, ofRest, _⟩ := ran
    exact ⟨shape_counted part ofPart, shapeParts_counted rest ofRest⟩

theorem shapeArms_counted {kind : IntKind} : ∀ (arms : List (ArmSpec TypeSpec))
    {seen : List String} {g g' : Nat} {made : List (String × Option Literal × List Field)},
    Builds (TypeSpec.shapeArms lookup kind seen arms) g made g' → TypeSpec.CountedArms arms
  | [], _, _, _, _, _ => trivial
  | ⟨name, tag, fields⟩ :: rest, seen, g, g', made, ran => by
    obtain ⟨given, own, g₁, others, _, ofFields, _, ofRest, _⟩ := builds_arm.mp ran
    exact ⟨shapeFields_counted fields ofFields, shapeArms_counted rest ofRest⟩

end

theorem BuildsTypes.counted {names : List String} : ∀ {ds : List TypeDecl} {known : Refs}
    {g g' : Nat} {table : Refs}, BuildsTypes names ds known g table g' →
    ∀ d ∈ ds, d.type.Counted
  | [], _, _, _, _, _ => List.forall_mem_nil _
  | d :: _, _, _, _, _, ⟨_, _, _, ofType, ofRest, _⟩ =>
    List.forall_mem_cons.mpr ⟨shape_counted d.type ofType, ofRest.counted⟩

/-- Every step of a fold that comes to its end has been taken. -/
theorem foldlM_steps {α σ : Type} {step : σ → α → Except SchemaError σ} {as : List α} {s s' : σ}
    (ran : as.foldlM step s = .ok s') : ∀ a ∈ as, ∃ t t', step t a = .ok t' := by
  induction as generalizing s with
  | nil => exact List.forall_mem_nil _
  | cons a as ih =>
    rw [List.foldlM_cons] at ran
    obtain ⟨s₁, first, others⟩ := bind_ok.mp ran
    exact List.forall_mem_cons.mpr ⟨⟨s, s₁, first⟩, ih others⟩

/-- The packets that have been added are counted. -/
theorem counted_of_addProtocols {ds : List ProtocolDecl} {a b : Assembly}
    (ran : ds.foldlM (Assembly.addProtocol lookup) a = .ok b) :
    ∀ d ∈ ds, ∀ block ∈ d.flows, ∀ p ∈ block.packets, TypeSpec.CountedFields p.fields := by
  intro d inDs block inFlows p inBlock
  obtain ⟨_, _, protocol⟩ := foldlM_steps ran d inDs
  obtain ⟨_, _, flows⟩ := bind_ok.mp protocol
  obtain ⟨_, _, packets⟩ := foldlM_steps flows block inFlows
  obtain ⟨_, _, packet⟩ := foldlM_steps packets p inBlock
  obtain ⟨⟨fields, _⟩, built, _⟩ := bind_ok.mp packet
  obtain ⟨g, builds, _⟩ := building_ok.mp built
  exact shapeFields_counted p.fields builds

/-- Declarations that a schema has been made of are counted. -/
theorem counted_of_schemaOf {g : Nat} {items : List Item} {s : Schema}
    (made : schemaOf g items = .ok s) : CountedItems items := by
  obtain ⟨_, table, g₁, a, builds, _, added, _⟩ := schemaOf_ok.mp made
  exact ⟨builds.counted, counted_of_addProtocols added⟩

end WireSchema.Source
