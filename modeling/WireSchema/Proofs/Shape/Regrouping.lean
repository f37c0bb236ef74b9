import Mathlib.Logic.Function.Basic
import WireSchema.Generate
import WireSchema.Shape.Slots

/-!
# Bit groups under other numbers

The number of a bit group only says which slots belong together. Shapes whose groups are numbered
anew, different groups by different numbers, have the same names, the same fields and the same
weight, and their slots are used well or badly alike.
-/

namespace WireSchema

namespace Shape

mutual

/-- The shape with other numbers for its bit groups. -/
def regroup (ρ : Nat → Nat) : Shape → Shape
  | .prim p => .prim p
  | .optional value presence => .optional (regroup ρ value) (regroup ρ presence)
  | .list item length => .list (regroup ρ item) length
  | .map key value length => .map (regroup ρ key) (regroup ρ value) length
  | .struct fields => .struct (regroupFields ρ fields)
  | .merged parts => .merged (regroupParts ρ parts)
  | .enum backing entries => .enum backing entries
  | .union tagField tag variants tags =>
    .union tagField (regroup ρ tag) (regroupVariants ρ variants) tags
  | .packed backing widths fields group =>
    .packed backing widths (regroupFields ρ fields) (ρ group)
  | .flags backing masks fields group => .flags backing masks (regroupFields ρ fields) (ρ group)
  | .slot group index kind => .slot (ρ group) index kind
  | .alias name inner => .alias name (regroup ρ inner)
  | .exported name inner => .exported name (regroup ρ inner)
  | .custom signature definition hook => .custom signature definition hook
  | .ref label => .ref label
  | .transformed name backing hostType fromWire toWire transform =>
    .transformed name (regroup ρ backing) hostType fromWire toWire transform
  | .literal value backing => .literal value backing

def regroupFields (ρ : Nat → Nat) : List (Member Shape) → List (Member Shape)
  | [] => []
  | ⟨name, shape, doc⟩ :: rest => ⟨name, regroup ρ shape, doc⟩ :: regroupFields ρ rest

def regroupParts (ρ : Nat → Nat) : List Shape → List Shape
  | [] => []
  | s :: rest => regroup ρ s :: regroupParts ρ rest

def regroupVariants (ρ : Nat → Nat) : List (String × Shape) → List (String × Shape)
  | [] => []
  | (key, s) :: rest => (key, regroup ρ s) :: regroupVariants ρ rest

end

end Shape

/-- The field with other numbers for its bit groups. -/
def Member.regroup (ρ : Nat → Nat) (f : Field) : Field := { f with shape := f.shape.regroup ρ }

/-- The table with other numbers for its bit groups. -/
def Refs.regroup (ρ : Nat → Nat) (refs : Refs) : Refs :=
  refs.map fun (label, s) => (label, s.regroup ρ)

namespace Shape

variable {ρ : Nat → Nat} {refs : Refs}

theorem regroupFields_eq (fields : List Field) :
    regroupFields ρ fields = fields.map (Member.regroup ρ) := by
  induction fields with
  | nil => rfl
  | cons f rest ih => rw [regroupFields, ih, List.map_cons, Member.regroup]

theorem regroupParts_eq (parts : List Shape) : regroupParts ρ parts = parts.map (regroup ρ) := by
  induction parts with
  | nil => rfl
  | cons s rest ih => rw [regroupParts, ih, List.map_cons]

theorem regroupVariants_eq (variants : List (String × Shape)) :
    regroupVariants ρ variants = variants.map fun (key, s) => (key, s.regroup ρ) := by
  induction variants with
  | nil => rfl
  | cons entry rest ih => rw [regroupVariants, ih, List.map_cons]

@[simp]
theorem isStored_regroup (s : Shape) : (s.regroup ρ).isStored = s.isStored := by cases s <;> rfl

@[simp]
theorem isStructLike_regroup (s : Shape) : (s.regroup ρ).isStructLike = s.isStructLike := by
  cases s <;> rfl

@[simp]
theorem isNominal_regroup (s : Shape) : (s.regroup ρ).isNominal = s.isNominal := by
  cases s <;> rfl

theorem regroup_eq_prim {s : Shape} {p : Primitive} : s.regroup ρ = .prim p ↔ s = .prim p := by
  cases s <;> simp [regroup]

theorem filter_isStored_regroup (fields : List Field) :
    (fields.map (Member.regroup ρ)).filter (·.shape.isStored) =
      (fields.filter (·.shape.isStored)).map (Member.regroup ρ) := by
  rw [List.filter_map]
  congr 1
  exact List.filter_congr fun f _ => isStored_regroup f.shape

theorem lookup_regroup (label : String) :
    (refs.regroup ρ).lookup label = (refs.lookup label).map (regroup ρ) := by
  induction refs with
  | nil => rfl
  | cons entry rest ih =>
    rw [Refs.regroup, List.map_cons, List.lookup_cons, List.lookup_cons]
    split
    · rfl
    · exact ih

theorem subshapes_regroup (s : Shape) :
    (s.regroup ρ).subshapes (refs.regroup ρ) = (s.subshapes refs).map (regroup ρ) := by
  cases s with
  | struct | packed | flags =>
    simp only [regroup, subshapes, regroupFields_eq, List.map_map]
    rfl
  | merged parts => simp only [regroup, subshapes, regroupParts_eq]
  | union tagField tag variants tags =>
    simp only [regroup, subshapes, regroupVariants_eq, List.map_map, List.map_cons]
    rfl
  | ref label =>
    simp only [regroup, subshapes, lookup_regroup]
    cases refs.lookup label <;> rfl
  | _ => rfl

/-! ### Weight -/

mutual

theorem weight_regroup : ∀ s : Shape, (s.regroup ρ).weight = s.weight
  | .prim _ | .slot _ _ _ | .ref _ | .literal _ _ | .enum _ _ | .custom _ _ _ => rfl
  | .optional value presence => by
    simp only [regroup, weight, weight_regroup value, weight_regroup presence]
  | .list item _ => by simp only [regroup, weight, weight_regroup item]
  | .map key value _ => by simp only [regroup, weight, weight_regroup key, weight_regroup value]
  | .struct fields | .packed _ _ fields _ | .flags _ _ fields _ => by
    simp only [regroup, weight, weightFields_regroup fields]
  | .merged parts => by simp only [regroup, weight, weightParts_regroup parts]
  | .union _ tag variants _ => by
    simp only [regroup, weight, weight_regroup tag, weightVariants_regroup variants]
  | .alias _ inner | .exported _ inner => by simp only [regroup, weight, weight_regroup inner]
  | .transformed _ backing _ _ _ _ => by simp only [regroup, weight, weight_regroup backing]

theorem weightFields_regroup : ∀ fields : List Field,
    weightFields (regroupFields ρ fields) = weightFields fields
  | [] => rfl
  | ⟨_, s, _⟩ :: rest => by
    simp only [regroupFields, weightFields, weight_regroup s, weightFields_regroup rest]

theorem weightParts_regroup : ∀ parts : List Shape,
    weightList (regroupParts ρ parts) = weightList parts
  | [] => rfl
  | s :: rest => by
    simp only [regroupParts, weightList, weight_regroup s, weightParts_regroup rest]

theorem weightVariants_regroup : ∀ variants : List (String × Shape),
    weightVariants (regroupVariants ρ variants) = weightVariants variants
  | [] => rfl
  | (_, s) :: rest => by
    simp only [regroupVariants, weightVariants, weight_regroup s, weightVariants_regroup rest]

end

/-! ### Behind references -/

/-- Where numbering the groups anew changes the answers at shapes by `f`, it changes the answers
behind references by `f`. -/
theorem following_regroup {α : Type} {ask ask' : (String → α) → Shape → α} {lost : String → α}
    {f : α → α} (lostToo : ∀ label, f (lost label) = lost label)
    (asks : ∀ (answer : String → α) (s : Shape),
      ask' (fun label => f (answer label)) (s.regroup ρ) = f (ask answer s)) (fuel : Nat)
    (s : Shape) :
    following (refs.regroup ρ) ask' lost fuel (s.regroup ρ) =
      f (following refs ask lost fuel s) := by
  -- Labels stay as they are, so both sides follow the same references.
  induction fuel generalizing s with
  | zero =>
    have same : lost = fun label => f (lost label) := funext fun label => (lostToo label).symm
    rw [following, following, ← asks, ← same]
  | succ fuel ih =>
    rw [following, following, ← asks]
    congr 1
    funext label
    rw [lookup_regroup]
    cases refs.lookup label with
    | none => exact (lostToo label).symm
    | some target => exact ih target

/-- What the numbers of groups do not matter for at shapes, they do not matter for behind
references. -/
theorem following_regroup_same {α : Type} {ask : (String → α) → Shape → α} {lost : String → α}
    (asks : ∀ (answer : String → α) (s : Shape), ask answer (s.regroup ρ) = ask answer s)
    (fuel : Nat) (s : Shape) :
    following (refs.regroup ρ) ask lost fuel (s.regroup ρ) = following refs ask lost fuel s := by
  have kept (label : String) : id (lost label) = lost label := rfl
  exact following_regroup kept asks fuel s

@[simp]
theorem length_regroup : (refs.regroup ρ).length = refs.length := List.length_map _

mutual

theorem nameWith_regroup (nameOf : String → String) : ∀ s : Shape,
    nameWith nameOf (s.regroup ρ) = nameWith nameOf s
  | .prim _ | .slot _ _ _ | .ref _ | .enum _ _ | .custom _ _ _ | .literal _ _
  | .alias _ _ | .exported _ _ | .transformed _ _ _ _ _ _ => rfl
  | .optional value presence => by
    have inner := nameWith_regroup nameOf value
    -- A plain boolean is left out of the name, so the two equations of `nameWith` are told apart.
    by_cases plain : presence = .prim .bool
    · subst plain
      simp only [regroup, nameWith, inner]
    · have other : presence.regroup ρ ≠ .prim .bool := fun same => plain (regroup_eq_prim.mp same)
      rw [regroup, nameWith, nameWith, inner, nameWith_regroup nameOf presence]
      · exact plain
      · exact other
  | .list item _ => by simp only [regroup, nameWith, nameWith_regroup nameOf item]
  | .map key value _ => by
    simp only [regroup, nameWith, nameWith_regroup nameOf key, nameWith_regroup nameOf value]
  | .struct fields | .packed _ _ fields _ | .flags _ _ fields _ => by
    simp only [regroup, nameWith, namesOfFields_regroup nameOf fields]
  | .merged parts => by simp only [regroup, nameWith, namesOfParts_regroup nameOf parts]
  | .union _ tag variants tags => by
    simp only [regroup, nameWith, nameWith_regroup nameOf tag,
      namesOfVariants_regroup nameOf tags variants]

theorem namesOfFields_regroup (nameOf : String → String) : ∀ fields : List Field,
    namesOfFields nameOf (regroupFields ρ fields) = namesOfFields nameOf fields
  | [] => rfl
  | ⟨_, s, _⟩ :: rest => by
    simp only [regroupFields, namesOfFields, nameWith_regroup nameOf s,
      namesOfFields_regroup nameOf rest]

theorem namesOfParts_regroup (nameOf : String → String) : ∀ parts : List Shape,
    namesOfParts nameOf (regroupParts ρ parts) = namesOfParts nameOf parts
  | [] => rfl
  | s :: rest => by
    simp only [regroupParts, namesOfParts, nameWith_regroup nameOf s,
      namesOfParts_regroup nameOf rest]

theorem namesOfVariants_regroup (nameOf : String → String) (tags : List (String × Literal)) :
    ∀ variants : List (String × Shape),
    namesOfVariants nameOf tags (regroupVariants ρ variants) = namesOfVariants nameOf tags variants
  | [] => rfl
  | (_, s) :: rest => by
    simp only [regroupVariants, namesOfVariants, nameWith_regroup nameOf s,
      namesOfVariants_regroup nameOf tags rest]

end

@[simp]
theorem canonicalName_regroup (s : Shape) :
    (s.regroup ρ).canonicalName (refs.regroup ρ) = s.canonicalName refs := by
  rw [canonicalName, canonicalName, length_regroup]
  exact following_regroup_same nameWith_regroup _ s

@[simp]
theorem safeName_regroup (s : Shape) :
    (s.regroup ρ).safeName (refs.regroup ρ) = s.safeName refs := by
  rw [safeName, safeName, canonicalName_regroup]

theorem resolvedWith_regroup (target : String → Except SchemaError Shape) (s : Shape) :
    resolvedWith (fun label => (target label).map (regroup ρ)) (s.regroup ρ) =
      (resolvedWith target s).map (regroup ρ) := by
  induction s using resolvedWith.induct with
  | case1 name inner ih | case2 name inner ih => exact ih
  | case3 label => rfl
  | case4 s notAlias notExported notRef =>
    cases s with
    | «alias» => exact (notAlias _ _ rfl).elim
    | exported => exact (notExported _ _ rfl).elim
    | _ => rfl

/-- The shape behind references, with its groups numbered anew. -/
theorem resolved_regroup (s : Shape) :
    (s.regroup ρ).resolved (refs.regroup ρ) = (s.resolved refs).map (regroup ρ) := by
  rw [resolved, resolved, length_regroup]
  exact following_regroup (f := Except.map (regroup ρ)) (fun _ => rfl) resolvedWith_regroup _ s

theorem booleanWith_regroup (answer : String → Bool) :
    ∀ s : Shape, booleanWith answer (s.regroup ρ) = booleanWith answer s
  | .alias _ inner | .exported _ inner => booleanWith_regroup answer inner
  | .slot _ _ (.flag _ _) | .slot _ _ (.bits _ _ _) => rfl
  | .prim _ | .optional _ _ | .list _ _ | .map _ _ _ | .struct _ | .merged _ | .enum _ _
  | .union _ _ _ _ | .packed _ _ _ _ | .flags _ _ _ _ | .ref _ | .custom _ _ _
  | .transformed _ _ _ _ _ _ | .literal _ _ => rfl

@[simp]
theorem isBoolean_regroup (s : Shape) :
    (s.regroup ρ).isBoolean (refs.regroup ρ) = s.isBoolean refs := by
  rw [isBoolean, isBoolean, length_regroup]
  exact following_regroup_same booleanWith_regroup _ s

/-! ### Stored fields -/

theorem storedFieldsWith_refused {s : Shape}
    (refused : ∀ refs fieldsOf,
      storedFieldsWith refs fieldsOf s = .error (.notAStruct (s.canonicalName refs)))
    (refused' : ∀ refs fieldsOf, storedFieldsWith refs fieldsOf (s.regroup ρ) =
      .error (.notAStruct ((s.regroup ρ).canonicalName refs)))
    (fieldsOf fieldsOf' : String → Except SchemaError (List Field)) :
    storedFieldsWith (refs.regroup ρ) fieldsOf' (s.regroup ρ) =
      (storedFieldsWith refs fieldsOf s).map (List.map (Member.regroup ρ)) := by
  rw [refused, refused', canonicalName_regroup, Except.map]

mutual

theorem storedFieldsWith_regroup (fieldsOf : String → Except SchemaError (List Field)) :
    ∀ s : Shape, storedFieldsWith (refs.regroup ρ)
      (fun label => (fieldsOf label).map (List.map (Member.regroup ρ))) (s.regroup ρ) =
      (storedFieldsWith refs fieldsOf s).map (List.map (Member.regroup ρ))
  | .struct fields | .packed _ _ fields _ | .flags _ _ fields _ => by
    simp only [regroup, storedFieldsWith, regroupFields_eq, filter_isStored_regroup, Except.map]
  | .merged parts => storedFieldsOfParts_regroup fieldsOf parts
  | .alias _ inner | .exported _ inner => storedFieldsWith_regroup fieldsOf inner
  | .ref _ => rfl
  | .prim _ | .optional _ _ | .list _ _ | .map _ _ _ | .enum _ _ | .union _ _ _ _ | .slot _ _ _
  | .custom _ _ _ | .transformed _ _ _ _ _ _ | .literal _ _ =>
    storedFieldsWith_refused (fun _ _ => rfl) (fun _ _ => rfl) _ _

theorem storedFieldsOfParts_regroup (fieldsOf : String → Except SchemaError (List Field)) :
    ∀ parts : List Shape, storedFieldsOfParts (refs.regroup ρ)
      (fun label => (fieldsOf label).map (List.map (Member.regroup ρ))) (regroupParts ρ parts) =
      (storedFieldsOfParts refs fieldsOf parts).map (List.map (Member.regroup ρ))
  | [] => rfl
  | s :: rest => by
    simp only [regroupParts, storedFieldsOfParts, storedFieldsWith_regroup fieldsOf s,
      storedFieldsOfParts_regroup fieldsOf rest]
    cases storedFieldsWith refs fieldsOf s with
    | error e => rfl
    | ok first =>
      cases storedFieldsOfParts refs fieldsOf rest with
      | error e => rfl
      | ok others => exact congrArg Except.ok List.map_append.symm

end

/-- The stored fields, with their groups numbered anew. -/
theorem storedFields_regroup (s : Shape) : (s.regroup ρ).storedFields (refs.regroup ρ) =
    (s.storedFields refs).map (List.map (Member.regroup ρ)) := by
  rw [storedFields, storedFields, length_regroup]
  exact following_regroup (f := Except.map (List.map (Member.regroup ρ))) (fun _ => rfl)
    storedFieldsWith_regroup _ s

/-! ### Slots -/

section Slots

variable {owner : String} {group : Nat}

mutual

theorem slotUses_regroup (injective : Function.Injective ρ) :
    ∀ s : Shape, slotUses (ρ group) (s.regroup ρ) = slotUses group s
  | .slot g _ _ => by simp only [regroup, slotUses, injective.eq_iff]
  | .prim _ | .enum _ _ | .custom _ _ _ | .ref _ | .literal _ _ => rfl
  | .optional value presence => by
    simp only [regroup, slotUses, slotUses_regroup injective value,
      slotUses_regroup injective presence]
  | .list item _ => by simp only [regroup, slotUses, slotUses_regroup injective item]
  | .map key value _ => by
    simp only [regroup, slotUses, slotUses_regroup injective key, slotUses_regroup injective value]
  | .struct fields | .packed _ _ fields _ | .flags _ _ fields _ => by
    simp only [regroup, slotUses, slotUsesOfFields_regroup injective fields]
  | .merged parts => by simp only [regroup, slotUses, slotUsesOfParts_regroup injective parts]
  | .union _ tag variants _ => by
    simp only [regroup, slotUses, slotUses_regroup injective tag,
      slotUsesOfVariants_regroup injective variants]
  | .alias _ inner | .exported _ inner => by
    simp only [regroup, slotUses, slotUses_regroup injective inner]
  | .transformed _ backing _ _ _ _ => by
    simp only [regroup, slotUses, slotUses_regroup injective backing]

theorem slotUsesOfFields_regroup (injective : Function.Injective ρ) : ∀ fields : List Field,
    slotUsesOfFields (ρ group) (regroupFields ρ fields) = slotUsesOfFields group fields
  | [] => rfl
  | ⟨_, s, _⟩ :: rest => by
    simp only [regroupFields, slotUsesOfFields, slotUses_regroup injective s,
      slotUsesOfFields_regroup injective rest]

theorem slotUsesOfParts_regroup (injective : Function.Injective ρ) : ∀ parts : List Shape,
    slotUsesOfParts (ρ group) (regroupParts ρ parts) = slotUsesOfParts group parts
  | [] => rfl
  | s :: rest => by
    simp only [regroupParts, slotUsesOfParts, slotUses_regroup injective s,
      slotUsesOfParts_regroup injective rest]

theorem slotUsesOfVariants_regroup (injective : Function.Injective ρ) :
    ∀ variants : List (String × Shape),
    slotUsesOfVariants (ρ group) (regroupVariants ρ variants) = slotUsesOfVariants group variants
  | [] => rfl
  | (_, s) :: rest => by
    simp only [regroupVariants, slotUsesOfVariants, slotUses_regroup injective s,
      slotUsesOfVariants_regroup injective rest]

end

theorem slotOf?_regroup (injective : Function.Injective ρ) (s : Shape) :
    slotOf? (ρ group) (s.regroup ρ) = slotOf? group s := by
  cases s with
  | slot g index kind => simp only [regroup, slotOf?, injective.eq_iff]
  | _ => rfl

theorem refuseSlots_regroup (injective : Function.Injective ρ) (s : Shape) :
    refuseSlots owner (ρ group) (s.regroup ρ) = refuseSlots owner group s := by
  rw [refuseSlots, refuseSlots, slotUses_regroup injective]

theorem packedFieldSlot_regroup (injective : Function.Injective ρ) (f : Field) :
    packedFieldSlot owner (ρ group) (f.regroup ρ) = packedFieldSlot owner group f := by
  simp only [packedFieldSlot, Member.regroup, slotOf?_regroup injective]

theorem flagFieldSlot_regroup (injective : Function.Injective ρ) (f : Field) :
    flagFieldSlot owner (ρ group) (f.regroup ρ) = flagFieldSlot owner group f := by
  obtain ⟨name, s, doc⟩ := f
  have whole : refuseSlots owner (ρ group) (s.regroup ρ) = refuseSlots owner group s :=
    refuseSlots_regroup injective s
  cases s with
  | optional value presence =>
    simp only [regroup] at whole
    simp only [flagFieldSlot, Member.regroup, regroup, slotOf?_regroup injective,
      refuseSlots_regroup injective, whole]
    rfl
  | slot g index kind =>
    simp only [regroup] at whole
    simp only [flagFieldSlot, Member.regroup, regroup, slotOf?, injective.eq_iff, whole]
  | _ =>
    simp only [regroup] at whole
    simp only [flagFieldSlot, Member.regroup, regroup, slotOf?, whole]

mutual

theorem slotsValidWith_regroup (injective : Function.Injective ρ)
    (validOf : String → Except SchemaError Unit) : ∀ s : Shape,
    slotsValidWith owner validOf (s.regroup ρ) = slotsValidWith owner validOf s
  | .packed _ widths fields group => by
    simp only [regroup, slotsValidWith, regroupFields_eq, List.mapM_map, Function.comp_def,
      packedFieldSlot_regroup injective]
  | .flags _ masks fields group => by
    simp only [regroup, slotsValidWith, regroupFields_eq, List.mapM_map, Function.comp_def,
      flagFieldSlot_regroup injective]
  | .merged parts => slotsValidOfParts_regroup injective validOf parts
  | .alias _ inner | .exported _ inner => slotsValidWith_regroup injective validOf inner
  | .ref _ | .struct _ | .prim _ | .optional _ _ | .list _ _ | .map _ _ _ | .enum _ _
  | .union _ _ _ _ | .slot _ _ _ | .custom _ _ _ | .transformed _ _ _ _ _ _ | .literal _ _ => rfl

theorem slotsValidOfParts_regroup (injective : Function.Injective ρ)
    (validOf : String → Except SchemaError Unit) :
    ∀ parts : List Shape,
    slotsValidOfParts owner validOf (regroupParts ρ parts) = slotsValidOfParts owner validOf parts
  | [] => rfl
  | s :: rest => by
    simp only [regroupParts, slotsValidOfParts, slotsValidWith_regroup injective validOf s,
      slotsValidOfParts_regroup injective validOf rest]

end

/-- The slots are used as well as before. -/
theorem slotsValid_regroup (injective : Function.Injective ρ) (s : Shape) :
    (s.regroup ρ).slotsValid (refs.regroup ρ) owner = s.slotsValid refs owner := by
  rw [slotsValid, slotsValid, length_regroup]
  exact following_regroup_same (slotsValidWith_regroup injective) _ s

end Slots

end Shape

end WireSchema
