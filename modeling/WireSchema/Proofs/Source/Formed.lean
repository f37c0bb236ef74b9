import WireSchema.Proofs.Source.Building
import WireSchema.Proofs.Source.Identifiers

/-!
# What is built is well formed

A written type that is built finds all types that it mentions, and its shape is well formed if theirs
are.
-/

namespace WireSchema.Source

variable {g g' : Nat} {lookup : Lookup}

/-! ### Mentioned types -/

mutual

/-- Whatever a type mentions is found when the type is built. -/
theorem shape_found : ∀ (t : TypeSpec) {g g' : Nat} {s : Shape}, Builds (t.shape lookup) g s g' →
    ∀ name ∈ t.mentions, ∃ x, lookup name = .ok x
  | .named name, g, g', s, ran => by
    rw [TypeSpec.shape] at ran
    rw [TypeSpec.mentions]
    cases known : Primitive.ofName? name with
    | some p => exact List.forall_mem_nil _
    | none =>
      simp only [known, builds_lift] at ran
      intro other member
      cases List.mem_singleton.mp member
      exact ⟨s, ran.1⟩
  | .optional value, g, g', s, ran => by
    simp only [TypeSpec.shape, builds_bind] at ran
    obtain ⟨v, g₁, ofValue, _⟩ := ran
    exact shape_found value ofValue
  | .list item length, g, g', s, ran => by
    simp only [TypeSpec.shape, builds_bind] at ran
    obtain ⟨v, g₁, ofItem, _⟩ := ran
    exact shape_found item ofItem
  | .map key value length, g, g', s, ran => by
    simp only [TypeSpec.shape, builds_bind] at ran
    obtain ⟨k, g₁, ofKey, v, g₂, ofValue, _⟩ := ran
    exact List.forall_mem_append.mpr ⟨shape_found key ofKey, shape_found value ofValue⟩
  | .union tagField tag arms, g, g', s, ran => by
    simp only [TypeSpec.shape, builds_bind] at ran
    obtain ⟨t, g₁, ofTag, made, g₂, ofArms, _⟩ := ran
    exact List.forall_mem_append.mpr ⟨shape_found tag ofTag, shapeArms_found arms ofArms⟩
  | .struct fields, g, g', s, ran => by
    simp only [TypeSpec.shape, builds_bind] at ran
    obtain ⟨made, g₁, ofFields, _⟩ := ran
    exact shapeFields_found fields ofFields
  | .merge parts, g, g', s, ran => by
    simp only [TypeSpec.shape, builds_bind] at ran
    obtain ⟨made, g₁, ofParts, _⟩ := ran
    exact shapeParts_found parts ofParts
  | .bytes _, _, _, _, _ | .enum _ _, _, _, _, _ | .packed _ _ _, _, _, _, _
  | .flags _ _, _, _, _, _ | .literal _ _, _, _, _, _ => List.forall_mem_nil _

theorem shapeFields_found : ∀ (fields : List (FieldSpec TypeSpec)) {g g' : Nat} {made : List Field},
    Builds (TypeSpec.shapeFields lookup fields) g made g' →
    ∀ name ∈ TypeSpec.mentionsFields fields, ∃ x, lookup name = .ok x
  | [], _, _, _, _ => List.forall_mem_nil _
  | ⟨docs, name, type⟩ :: rest, g, g', made, ran => by
    simp only [TypeSpec.shapeFields, builds_bind] at ran
    obtain ⟨s, g₁, ofType, others, g₂, ofRest, _⟩ := ran
    exact List.forall_mem_append.mpr ⟨shape_found type ofType, shapeFields_found rest ofRest⟩

theorem shapeParts_found : ∀ (parts : List TypeSpec) {g g' : Nat} {made : List Shape},
    Builds (TypeSpec.shapeParts lookup parts) g made g' →
    ∀ name ∈ TypeSpec.mentionsParts parts, ∃ x, lookup name = .ok x
  | [], _, _, _, _ => List.forall_mem_nil _
  | part :: rest, g, g', made, ran => by
    simp only [TypeSpec.shapeParts, builds_bind] at ran
    obtain ⟨s, g₁, ofPart, others, g₂, ofRest, _⟩ := ran
    exact List.forall_mem_append.mpr ⟨shape_found part ofPart, shapeParts_found rest ofRest⟩

theorem shapeArms_found {kind : IntKind} : ∀ (arms : List (ArmSpec TypeSpec)) {seen : List String}
    {g g' : Nat} {made : List (String × Option Literal × List Field)},
    Builds (TypeSpec.shapeArms lookup kind seen arms) g made g' →
    ∀ name ∈ TypeSpec.mentionsArms arms, ∃ x, lookup name = .ok x
  | [], _, _, _, _, _ => List.forall_mem_nil _
  | ⟨name, tag, fields⟩ :: rest, seen, g, g', made, ran => by
    obtain ⟨given, own, g₁, others, _, ofFields, _, ofRest, _⟩ := builds_arm.mp ran
    exact List.forall_mem_append.mpr ⟨shapeFields_found fields ofFields,
      shapeArms_found rest ofRest⟩

end

/-! ### Entries and slots -/

theorem enumIds_names : ∀ {entries : List (String × Option Numeral)} {seen : List String}
    {next : Int} {ids : List (String × Int)}, enumIds seen next entries = .ok ids →
    ids.map (·.1) = entries.map (·.1) ∧ (entries.map (·.1)).Nodup ∧
      ∀ name ∈ entries.map (·.1), name ∉ seen
  | [], seen, next, ids, ran => by
    cases ran
    exact ⟨rfl, .nil, List.forall_mem_nil _⟩
  | (name, given) :: rest, seen, next, ids, ran => by
    obtain ⟨id, others, _, free, _, later, rfl⟩ := enumIds_cons.mp ran
    obtain ⟨names, nodup, fresh⟩ := enumIds_names later
    refine ⟨?_, List.nodup_cons.mpr ⟨fun twice => ?_, nodup⟩, fun other member => ?_⟩
    · rw [List.map_cons, List.map_cons, names]
    · exact fresh name twice (List.mem_cons_self ..)
    · rcases List.mem_cons.mp member with rfl | late
      · exact free
      · exact fun early => fresh other late (List.mem_cons_of_mem _ early)

theorem shapeArms_names {kind : IntKind} {arms : List (ArmSpec TypeSpec)} {seen : List String}
    {made : List (String × Option Literal × List Field)}
    (ran : Builds (TypeSpec.shapeArms lookup kind seen arms) g made g') :
    (made.map (·.1)).Nodup ∧ ∀ name ∈ made.map (·.1), name ∉ seen := by
  induction arms generalizing seen g made with
  | nil =>
    simp only [TypeSpec.shapeArms, builds_pure] at ran
    obtain ⟨rfl, rfl⟩ := ran
    exact ⟨.nil, List.forall_mem_nil _⟩
  | cons arm rest ih =>
    obtain ⟨name, tag, fields⟩ := arm
    obtain ⟨given, own, g₁, others, _, _, free, ofRest, rfl⟩ := builds_arm.mp ran
    obtain ⟨nodup, fresh⟩ := ih ofRest
    refine ⟨List.nodup_cons.mpr ⟨fun twice => ?_, nodup⟩, fun other member => ?_⟩
    · exact fresh name twice (List.mem_cons_self ..)
    · rcases List.mem_cons.mp member with rfl | late
      · exact free
      · exact fun early => fresh other late (List.mem_cons_of_mem _ early)

theorem packedFields_slots {group : Nat} {backing : Primitive} {names order : List String}
    {widths : List Nat} : ∀ f ∈ packedFields names (slotsOfWidths group backing widths) order,
    Shape.IsPackedField backing widths group f := by
  intro f member
  obtain ⟨name, _, found⟩ := List.mem_filterMap.mp member
  obtain ⟨slot, looked, rfl⟩ := Option.map_eq_some_iff.mp found
  obtain ⟨⟨width, index⟩, inside, rfl⟩ :=
    List.mem_map.mp (List.of_mem_zip (mem_of_lookup looked)).2
  exact ⟨index, width, List.mk_mem_zipIdx_iff_getElem?.mp inside, rfl⟩

theorem flagFields_slots {group : Nat} {backing : Primitive} {masks : List (String × Int)} :
    ∀ f ∈ (masks.zip (slotsOfMasks group backing masks)).map fun ((name, _), s) =>
      ({ name, shape := s } : Field), Shape.IsFlagField backing masks group f := by
  intro f member
  obtain ⟨⟨⟨name, mask⟩, s⟩, inside, rfl⟩ := List.mem_map.mp member
  obtain ⟨index, paired⟩ := List.mem_iff_getElem?.mp inside
  rw [List.getElem?_zip_eq_some] at paired
  obtain ⟨here, slotted⟩ := paired
  rw [slotsOfMasks, List.getElem?_map, List.getElem?_zipIdx, here] at slotted
  cases slotted
  exact ⟨index, mask, here, by simp⟩

theorem isTyped_fixed (l : Literal) (backing : Option Primitive) {value : Literal}
    {backing' : Option Primitive} (same : Shape.fixed l backing = .literal value backing') :
    Shape.IsTyped value backing' := by
  intro p kind ofBacking known v own isInt
  unfold Shape.fixed at same
  split at same
  · next v' k kind' ofKind =>
    cases same
    rw [ofBacking, Option.bind_some, known] at ofKind
    cases ofKind
    cases isInt
    rfl
  · next notInt =>
    cases same
    rw [ofBacking] at notInt
    exact absurd known (notInt v own kind isInt)

/-! ### Well-formed shapes -/

section WellFormed

variable {types : Refs} {rank : String → Nat} {bound : Nat}

/-- The lookup gives well-formed shapes for the names. -/
def Lookup.Formed (types : Refs) (rank : String → Nat) (bound : Nat) (lookup : Lookup)
    (names : List String) : Prop :=
  ∀ name ∈ names, ∀ x, lookup name = .ok x → x.WellFormed types rank bound

theorem Lookup.Formed.split {names names' : List String}
    (formed : lookup.Formed types rank bound (names ++ names')) :
    lookup.Formed types rank bound names ∧ lookup.Formed types rank bound names' :=
  List.forall_mem_append.mp formed

mutual

theorem shape_wellFormed : ∀ (t : TypeSpec) {g g' : Nat} {s : Shape},
    Builds (t.shape lookup) g s g' → t.IdentEntries →
    lookup.Formed types rank bound t.mentions → s.WellFormed types rank bound
  | .named name, g, g', s, ran, _, formed => by
    rw [TypeSpec.shape] at ran
    rw [TypeSpec.mentions] at formed
    cases known : Primitive.ofName? name with
    | some p =>
      simp only [known, builds_pure] at ran
      obtain ⟨rfl, rfl⟩ := ran
      trivial
    | none =>
      simp only [known, builds_lift] at ran
      simp only [known] at formed
      exact formed name (List.mem_singleton.mpr rfl) s ran.1
  | .bytes n, g, g', s, ran, _, _ => by
    simp only [TypeSpec.shape, builds_lift] at ran
    obtain ⟨length, _, _, _, rfl⟩ := bytesShape_ok.mp ran.1
    trivial
  | .optional value, g, g', s, ran, idents, formed => by
    simp only [TypeSpec.shape, builds_bind, builds_pure] at ran
    obtain ⟨v, g₁, ofValue, rfl, rfl⟩ := ran
    exact ⟨rfl, shape_wellFormed value ofValue idents formed⟩
  | .list item length, g, g', s, ran, idents, formed => by
    simp only [TypeSpec.shape, builds_bind, builds_lift, builds_pure] at ran
    obtain ⟨v, g₁, ofItem, p, _, _, rfl, rfl⟩ := ran
    have inner := shape_wellFormed item ofItem idents formed
    exact inner
  | .map key value length, g, g', s, ran, idents, formed => by
    simp only [TypeSpec.shape, builds_bind, builds_lift, builds_pure] at ran
    obtain ⟨k, g₁, ofKey, v, g₂, ofValue, p, _, _, rfl, rfl⟩ := ran
    exact ⟨shape_wellFormed key ofKey idents.1 formed.split.1,
      shape_wellFormed value ofValue idents.2 formed.split.2⟩
  | .enum backing entries, g, g', s, ran, idents, _ => by
    simp only [TypeSpec.shape, builds_bind, builds_lift, builds_pure] at ran
    obtain ⟨p, _, _, ids, _, ⟨numbered, rfl⟩, rfl, rfl⟩ := ran
    obtain ⟨names, nodup, _⟩ := enumIds_names numbered
    refine ⟨names ▸ nodup, fun entry member => ?_⟩
    have named : entry.1 ∈ entries.map (·.1) := names ▸ List.mem_map.mpr ⟨entry, member, rfl⟩
    obtain ⟨written, inside, same⟩ := List.mem_map.mp named
    exact same ▸ idents written inside
  | .union tagField tag arms, g, g', s, ran, idents, formed => by
    simp only [TypeSpec.shape, builds_bind, builds_pure] at ran
    obtain ⟨t, g₁, ofTag, made, g₂, ofArms, rfl, rfl⟩ := ran
    refine ⟨shape_wellFormed tag ofTag idents.1 formed.split.1, ?_,
      shapeArms_wellFormed arms ofArms idents.2 formed.split.2⟩
    rw [List.map_map]
    exact (shapeArms_names ofArms).1
  | .struct fields, g, g', s, ran, idents, formed => by
    simp only [TypeSpec.shape, builds_bind, builds_pure] at ran
    obtain ⟨made, g₁, ofFields, rfl, rfl⟩ := ran
    exact shapeFields_wellFormed fields ofFields idents formed
  | .merge parts, g, g', s, ran, idents, formed => by
    simp only [TypeSpec.shape, builds_bind, builds_pure] at ran
    obtain ⟨made, g₁, ofParts, rfl, rfl⟩ := ran
    exact shapeParts_wellFormed parts ofParts idents formed
  | .packed backing slots order, g, g', s, ran, _, _ => by
    rw [TypeSpec.shape, builds_packedShape] at ran
    obtain ⟨p, widths, kind, _, _, _, known, fits, positive, rfl, rfl⟩ := ran
    refine ⟨fun kind' same => ?_, positive, packedFields_slots⟩
    rw [known] at same
    cases same
    exact fits
  | .flags backing entries, g, g', s, ran, _, _ => by
    rw [TypeSpec.shape, builds_flagsShape] at ran
    obtain ⟨p, masks, kind, _, _, known, fits, rfl, rfl⟩ := ran
    refine ⟨fun kind' same => ?_, flagFields_slots⟩
    rw [known] at same
    cases same
    exact fits
  | .literal backing value, g, g', s, ran, _, _ => by
    simp only [TypeSpec.shape, builds_lift] at ran
    obtain ⟨p, l, _, _, rfl⟩ := literalShape_ok.mp ran.1
    cases made : Shape.fixed l p with
    | literal value' backing' => exact isTyped_fixed l p made
    | _ =>
      unfold Shape.fixed at made
      split at made <;> cases made

theorem shapeFields_wellFormed : ∀ (fields : List (FieldSpec TypeSpec)) {g g' : Nat}
    {made : List Field}, Builds (TypeSpec.shapeFields lookup fields) g made g' →
    IdentFields fields → lookup.Formed types rank bound (TypeSpec.mentionsFields fields) →
    Shape.WellFormedFields types rank bound made
  | [], g, g', made, ran, _, _ => by
    simp only [TypeSpec.shapeFields, builds_pure] at ran
    obtain ⟨rfl, rfl⟩ := ran
    trivial
  | ⟨docs, name, type⟩ :: rest, g, g', made, ran, idents, formed => by
    simp only [TypeSpec.shapeFields, builds_bind, builds_pure] at ran
    obtain ⟨s, g₁, ofType, others, g₂, ofRest, rfl, rfl⟩ := ran
    exact ⟨shape_wellFormed type ofType idents.1 formed.split.1,
      shapeFields_wellFormed rest ofRest idents.2 formed.split.2⟩

theorem shapeParts_wellFormed : ∀ (parts : List TypeSpec) {g g' : Nat} {made : List Shape},
    Builds (TypeSpec.shapeParts lookup parts) g made g' → IdentParts parts →
    lookup.Formed types rank bound (TypeSpec.mentionsParts parts) →
    Shape.WellFormedParts types rank bound made
  | [], g, g', made, ran, _, _ => by
    simp only [TypeSpec.shapeParts, builds_pure] at ran
    obtain ⟨rfl, rfl⟩ := ran
    trivial
  | part :: rest, g, g', made, ran, idents, formed => by
    simp only [TypeSpec.shapeParts, builds_bind, builds_pure] at ran
    obtain ⟨s, g₁, ofPart, others, g₂, ofRest, rfl, rfl⟩ := ran
    exact ⟨shape_wellFormed part ofPart idents.1 formed.split.1,
      shapeParts_wellFormed rest ofRest idents.2 formed.split.2⟩

theorem shapeArms_wellFormed {kind : IntKind} : ∀ (arms : List (ArmSpec TypeSpec))
    {seen : List String} {g g' : Nat} {made : List (String × Option Literal × List Field)},
    Builds (TypeSpec.shapeArms lookup kind seen arms) g made g' → IdentArms arms →
    lookup.Formed types rank bound (TypeSpec.mentionsArms arms) →
    Shape.WellFormedVariants types rank bound
      (made.map fun (name, _, fields) => (name, .struct fields))
  | [], seen, g, g', made, ran, _, _ => by
    simp only [TypeSpec.shapeArms, builds_pure] at ran
    obtain ⟨rfl, rfl⟩ := ran
    trivial
  | ⟨name, tag, fields⟩ :: rest, seen, g, g', made, ran, idents, formed => by
    obtain ⟨given, own, g₁, others, _, ofFields, _, ofRest, rfl⟩ := builds_arm.mp ran
    exact ⟨⟨own, rfl⟩, shapeFields_wellFormed fields ofFields idents.1 formed.split.1,
      shapeArms_wellFormed rest ofRest idents.2 formed.split.2⟩

end

end WellFormed

end WireSchema.Source
