import WireSchema.Proofs.Shape.Unfolding
import WireSchema.Source.Reading

/-!
# Building shapes with different lookups

While types are built, a name means the shape of its type if that is known already, and a reference
otherwise. Which of them it is makes no difference once references are followed: a written type that
can be built with one lookup can be built with another that gives the same unfolded shapes, and the
results unfold to the same shape.
-/

namespace WireSchema.Source

variable {α β : Type} {g g' : Nat}

theorem bind_ok {act : Except SchemaError α} {next : α → Except SchemaError β} {b : β} :
    (act >>= next) = .ok b ↔ ∃ a, act = .ok a ∧ next a = .ok b := by
  cases act with
  | error e =>
    constructor
    · intro ran
      cases ran
    · rintro ⟨_, ran, _⟩
      cases ran
  | ok a =>
    constructor
    · exact fun ran => ⟨a, rfl, ran⟩
    · rintro ⟨_, same, ran⟩
      cases same
      exact ran

theorem pure_ok {a b : α} : (pure a : Except SchemaError α) = .ok b ↔ b = a :=
  ⟨fun same => (Except.ok.inj same).symm, fun same => congrArg _ same.symm⟩

/-! ### Successful builds -/

/-- The computation succeeds with the given value, and leads from the first group number to the
second. -/
def Builds (act : Build α) (g : Nat) (a : α) (g' : Nat) : Prop := act.run g = .ok (a, g')

@[simp]
theorem builds_pure {a b : α} : Builds (pure a) g b g' ↔ b = a ∧ g' = g := by
  constructor
  · intro ran
    cases ran
    exact ⟨rfl, rfl⟩
  · rintro ⟨rfl, rfl⟩
    rfl

@[simp]
theorem builds_bind {act : Build α} {next : α → Build β} {b : β} :
    Builds (act >>= next) g b g' ↔ ∃ a g₁, Builds act g a g₁ ∧ Builds (next a) g₁ b g' := by
  unfold Builds
  rw [StateT.run_bind]
  cases act.run g with
  | error e =>
    constructor
    · intro ran
      cases ran
    · rintro ⟨_, _, ran, _⟩
      cases ran
  | ok out =>
    constructor
    · exact fun ran => ⟨out.1, out.2, rfl, ran⟩
    · rintro ⟨a, g₁, first, ran⟩
      cases first
      exact ran

@[simp]
theorem builds_lift {result : Except SchemaError α} {a : α} :
    Builds (liftM result) g a g' ↔ result = .ok a ∧ g' = g := by
  cases result with
  | error e =>
    constructor
    · intro ran
      cases ran
    · rintro ⟨ran, _⟩
      cases ran
  | ok b =>
    constructor
    · intro ran
      cases ran
      exact ⟨rfl, rfl⟩
    · rintro ⟨same, rfl⟩
      cases same
      rfl

@[simp]
theorem builds_freshGroup {n : Nat} : Builds freshGroup g n g' ↔ n = g ∧ g' = g + 1 := by
  constructor
  · intro ran
    cases ran
    exact ⟨rfl, rfl⟩
  · rintro ⟨rfl, rfl⟩
    rfl

@[simp]
theorem builds_throw {e : SchemaError} {a : α} : Builds (throw e) g a g' ↔ False := by
  refine iff_false_intro fun ran => ?_
  cases ran

theorem mapM_cons_ok {f : α → Except SchemaError β} {a : α} {as : List α} {out : List β} :
    (a :: as).mapM f = .ok out ↔ ∃ b bs, f a = .ok b ∧ as.mapM f = .ok bs ∧ out = b :: bs := by
  simp only [List.mapM_cons, bind_ok, pure_ok]
  constructor
  · rintro ⟨b, first, bs, others, rfl⟩
    exact ⟨b, bs, first, others, rfl⟩
  · rintro ⟨b, bs, first, others, rfl⟩
    exact ⟨b, first, bs, others, rfl⟩

/-- A computation that needs no groups, for each entry of a list. -/
@[simp]
theorem builds_mapM {f : α → Except SchemaError β} {as : List α} {bs : List β} :
    Builds (as.mapM fun a => liftM (f a)) g bs g' ↔ as.mapM f = .ok bs ∧ g' = g := by
  induction as generalizing bs g g' with
  | nil =>
    rw [List.mapM_nil, List.mapM_nil, builds_pure]
    constructor
    · rintro ⟨rfl, group⟩
      exact ⟨rfl, group⟩
    · rintro ⟨same, group⟩
      exact ⟨(Except.ok.inj same).symm, group⟩
  | cons a as ih =>
    simp only [List.mapM_cons, builds_bind, builds_lift, builds_pure, ih]
    rw [← List.mapM_cons, mapM_cons_ok]
    constructor
    · rintro ⟨b, _, ⟨first, rfl⟩, bs, _, ⟨others, rfl⟩, rfl, rfl⟩
      exact ⟨⟨b, bs, first, others, rfl⟩, rfl⟩
    · rintro ⟨⟨b, bs, first, others, rfl⟩, rfl⟩
      exact ⟨b, _, ⟨first, rfl⟩, bs, _, ⟨others, rfl⟩, rfl, rfl⟩

/-! ### Packed and flag structs -/

/-- The slots of a packed struct. -/
def slotsOfWidths (group : Nat) (backing : Primitive) (widths : List Nat) : List Shape :=
  widths.zipIdx.map fun (width, index) =>
    .slot group index (.bits (total (widths.drop (index + 1))) width backing)

theorem packedSlots_ok {group : Nat} {backing : Primitive} {widths : List Nat}
    {slots : List Shape} : Shape.packedSlots group backing widths = .ok slots ↔
      ∃ kind, backing.intKind? = some kind ∧ total widths ≤ kind.bits ∧ 0 ∉ widths ∧
        slots = slotsOfWidths group backing widths := by
  rw [Shape.packedSlots, Shape.backingKind]
  cases known : backing.intKind? with
  | none =>
    constructor
    · intro ran
      cases ran
    · rintro ⟨_, missing, _⟩
      cases missing
  | some kind =>
    constructor
    · intro ran
      obtain ⟨_, ⟨⟩, ran⟩ := bind_ok.mp ran
      obtain ⟨sum, summed, ran⟩ := bind_ok.mp ran
      obtain rfl : total widths = sum := by
        rw [Shape.sumOfWidths] at summed
        split at summed
        · exact Except.ok.inj summed
        · cases summed
      split at ran
      · cases ran
      next good =>
        cases ran
        obtain ⟨narrow, positive⟩ := not_or.mp good
        exact ⟨kind, rfl, Nat.le_of_not_lt narrow,
          fun zero => positive (List.elem_iff.mpr zero), rfl⟩
    · rintro ⟨_, ⟨⟩, fits, positive, rfl⟩
      have good : ¬(kind.bits < total widths ∨ widths.contains 0 = true) := by
        rintro (wide | zero)
        · omega
        · exact positive (List.elem_iff.mp zero)
      refine bind_ok.mpr ⟨kind, rfl, bind_ok.mpr ⟨_, Shape.sumOfWidths_of_fits fits, ?_⟩⟩
      rw [if_neg good]
      rfl

/-- The slots of a flag struct. -/
def slotsOfMasks (group : Nat) (backing : Primitive) (masks : List (String × Int)) : List Shape :=
  masks.zipIdx.map fun ((_, m), index) => .slot group index (.flag m backing)

theorem flagSlots_ok {group : Nat} {backing : Primitive} {masks : List (String × Int)}
    {slots : List Shape} : Shape.flagSlots group backing masks = .ok slots ↔
      ∃ kind, backing.intKind? = some kind ∧
        (∀ entry ∈ masks, 0 < entry.2 ∧ entry.2 ≤ IntKind.mask kind.bits) ∧
        slots = slotsOfMasks group backing masks := by
  rw [Shape.flagSlots, Shape.backingKind]
  cases known : backing.intKind? with
  | none =>
    constructor
    · intro ran
      cases ran
    · rintro ⟨_, missing, _⟩
      cases missing
  | some kind =>
    simp only [bind, Except.bind]
    split
    case h_1 found name m search =>
      constructor
      · intro ran
        cases ran
      · rintro ⟨kind', same, fits, _⟩
        cases same
        have bad := List.find?_some search
        have good := fits _ (List.mem_of_find?_eq_some search)
        simp only [Bool.or_eq_true, decide_eq_true_eq] at bad good
        omega
    case h_2 search =>
      have fits : ∀ entry ∈ masks, 0 < entry.2 ∧ entry.2 ≤ IntKind.mask kind.bits := by
        intro entry member
        have good := List.find?_eq_none.mp search entry member
        simp only [Bool.or_eq_true, decide_eq_true_eq] at good
        omega
      constructor
      · intro ran
        cases ran
        exact ⟨kind, rfl, fits, rfl⟩
      · rintro ⟨_, _, _, rfl⟩
        rfl

/-- The packed struct of a text, once its numbers are read. -/
def packedOf (group : Nat) (backing : Primitive) (names : List String) (widths : List Nat)
    (order : List String) : Shape :=
  .packed backing widths (packedFields names (slotsOfWidths group backing widths) order) group

theorem builds_packedShape {backing : String} {slots : List (String × Numeral)}
    {order : Option (List String)} {s : Shape} :
    Builds (packedShape backing slots order) g s g' ↔ ∃ p widths kind,
      integerNamed backing = .ok p ∧ slots.mapM (fun (_, width) => slotWidth width) = .ok widths ∧
      checkOrder (slots.map (·.1)) [] (order.getD (slots.map (·.1))) = .ok () ∧
      p.intKind? = some kind ∧ total widths ≤ kind.bits ∧ 0 ∉ widths ∧ g' = g + 1 ∧
      s = packedOf g p (slots.map (·.1)) widths (order.getD (slots.map (·.1))) := by
  simp only [packedShape, builds_bind, builds_lift, builds_mapM, builds_freshGroup, builds_pure]
  constructor
  · rintro ⟨p, _, ⟨named, rfl⟩, widths, _, ⟨sized, rfl⟩, _, _, ⟨ordered, rfl⟩, _, _, ⟨rfl, rfl⟩,
      made, _, ⟨slotted, rfl⟩, rfl, rfl⟩
    obtain ⟨kind, known, fits, positive, rfl⟩ := packedSlots_ok.mp slotted
    exact ⟨p, widths, kind, named, sized, ordered, known, fits, positive, rfl, rfl⟩
  · rintro ⟨p, widths, kind, named, sized, ordered, known, fits, positive, rfl, rfl⟩
    have slotted : Shape.packedSlots g p widths = .ok (slotsOfWidths g p widths) :=
      packedSlots_ok.mpr ⟨kind, known, fits, positive, rfl⟩
    exact ⟨p, _, ⟨named, rfl⟩, widths, _, ⟨sized, rfl⟩, (), _, ⟨ordered, rfl⟩, _, _, ⟨rfl, rfl⟩,
      _, _, ⟨slotted, rfl⟩, rfl, rfl⟩

/-- The flag struct of a text, once its numbers are read. -/
def flagsOf (group : Nat) (backing : Primitive) (masks : List (String × Int)) : Shape :=
  .flags backing masks
    ((masks.zip (slotsOfMasks group backing masks)).map fun ((name, _), s) => { name, shape := s })
    group

theorem builds_flagsShape {backing : String} {entries : List (String × Numeral)} {s : Shape} :
    Builds (flagsShape backing entries) g s g' ↔ ∃ p masks kind, integerNamed backing = .ok p ∧
      entries.mapM (fun (name, mask) => (do return (name, ← mask.value))) = .ok masks ∧
      p.intKind? = some kind ∧ (∀ entry ∈ masks, 0 < entry.2 ∧ entry.2 ≤ IntKind.mask kind.bits) ∧
      g' = g + 1 ∧ s = flagsOf g p masks := by
  simp only [flagsShape, builds_bind, builds_lift, builds_mapM, builds_freshGroup]
  have opened (p : Primitive) (masks : List (String × Int)) : Shape.flagStruct g p masks = .ok s ↔
      ∃ kind, p.intKind? = some kind ∧
        (∀ entry ∈ masks, 0 < entry.2 ∧ entry.2 ≤ IntKind.mask kind.bits) ∧
        s = flagsOf g p masks := by
    rw [Shape.flagStruct]
    cases made : Shape.flagSlots g p masks with
    | error e =>
      constructor
      · intro ran
        cases ran
      · rintro ⟨kind, known, fits, _⟩
        rw [flagSlots_ok.mpr ⟨kind, known, fits, rfl⟩] at made
        cases made
    | ok slots =>
      obtain ⟨kind, known, fits, rfl⟩ := flagSlots_ok.mp made
      constructor
      · intro ran
        cases ran
        exact ⟨kind, known, fits, rfl⟩
      · rintro ⟨_, _, _, rfl⟩
        rfl
  constructor
  · rintro ⟨p, _, ⟨named, rfl⟩, masks, _, ⟨read, rfl⟩, _, _, ⟨rfl, rfl⟩, made, rfl⟩
    obtain ⟨kind, known, fits, rfl⟩ := (opened p masks).mp made
    exact ⟨p, masks, kind, named, read, known, fits, rfl, rfl⟩
  · rintro ⟨p, masks, kind, named, read, known, fits, rfl, same⟩
    exact ⟨p, _, ⟨named, rfl⟩, masks, _, ⟨read, rfl⟩, _, _, ⟨rfl, rfl⟩,
      (opened p masks).mpr ⟨kind, known, fits, same⟩, rfl⟩

theorem lookup_zip_map (f : Shape → Shape) (name : String) : ∀ (names : List String)
    (slots : List Shape),
    (names.zip (slots.map f)).lookup name = ((names.zip slots).lookup name).map f
  | [], _ => rfl
  | _ :: _, [] => rfl
  | other :: names, s :: slots => by
    simp only [List.map_cons, List.zip_cons_cons, List.lookup_cons]
    split
    · rfl
    · exact lookup_zip_map f name names slots

/-- The slots of an unfolded struct do not remember its group. -/
theorem unfold_packedOf (target : String → Shape) (group : Nat) (backing : Primitive)
    (names : List String) (widths : List Nat) (order : List String) :
    (packedOf group backing names widths order).unfoldWith target =
      packedOf 0 backing names widths order := by
  -- The slots are all that the fields hold.
  have fields (slots : List Shape) : ∀ order : List String,
      Shape.unfoldFields target (packedFields names slots order) =
        packedFields names (slots.map (·.unfoldWith target)) order := by
    intro order
    induction order with
    | nil => rfl
    | cons name order ih =>
      simp only [packedFields, List.filterMap_cons, lookup_zip_map] at ih ⊢
      cases (names.zip slots).lookup name with
      | none => exact ih
      | some s =>
        simp only [Option.map_some, Shape.unfoldFields]
        rw [ih]
  have slots : (slotsOfWidths group backing widths).map (·.unfoldWith target) =
      slotsOfWidths 0 backing widths := by
    simp only [slotsOfWidths, List.map_map]
    rfl
  simp only [packedOf, Shape.unfoldWith, fields, slots]

theorem unfold_flagsOf (target : String → Shape) (group : Nat) (backing : Primitive)
    (masks : List (String × Int)) :
    (flagsOf group backing masks).unfoldWith target = flagsOf 0 backing masks := by
  have fields : ∀ (masks : List (String × Int)) (slots : List Shape),
      Shape.unfoldFields target
        ((masks.zip slots).map fun ((name, _), s) => { name, shape := s }) =
      (masks.zip (slots.map (·.unfoldWith target))).map fun ((name, _), s) => { name, shape := s } := by
    intro masks
    induction masks with
    | nil => exact fun _ => rfl
    | cons entry masks ih =>
      intro slots
      cases slots with
      | nil => rfl
      | cons s slots =>
        simp only [List.zip_cons_cons, List.map_cons, Shape.unfoldFields]
        rw [ih slots]
  have slots : (slotsOfMasks group backing masks).map (·.unfoldWith target) =
      slotsOfMasks 0 backing masks := by
    simp only [slotsOfMasks, List.map_map]
    rfl
  simp only [flagsOf, Shape.unfoldWith, fields, slots]

/-! ### Fixed values, bytes and variants -/

theorem bytesShape_ok {n : Numeral} {s : Shape} : bytesShape n = .ok s ↔
    ∃ length, n.value = .ok length ∧ 0 ≤ length ∧ length.toNat < Nat.pow 2 64 ∧
      s = .prim (.fixedBytes length.toNat) := by
  simp only [bytesShape, bind_ok]
  refine exists_congr fun length => and_congr_right fun _ => ?_
  split
  · next fits => rw [pure_ok, and_iff_right fits.1, and_iff_right fits.2]
  · next large =>
    constructor
    · intro ran
      cases ran
    · rintro ⟨positive, small, _⟩
      exact absurd ⟨positive, small⟩ large

/-- The type of the integers among fixed values. -/
def fixedKind (backing : Option Primitive) : IntKind :=
  (backing.bind Primitive.intKind?).getD .i32

theorem literalShape_ok {backing : Option String} {value : LiteralSpec} {s : Shape} :
    literalShape backing value = .ok s ↔ ∃ p l, backing.mapM primitiveNamed = .ok p ∧
      value.literal (fixedKind p) = .ok l ∧ s = Shape.fixed l p := by
  simp only [literalShape, bind_ok, pure_ok]
  constructor
  · rintro ⟨p, named, l, read, rfl⟩
    exact ⟨p, l, named, read, rfl⟩
  · rintro ⟨p, l, named, read, rfl⟩
    exact ⟨p, named, l, read, rfl⟩

/-- The id of an entry, if none is given the next one. -/
def idOf (next : Int) : Option Numeral → Except SchemaError Int
  | some n => n.value
  | none => .ok next

theorem idAfter_ok {id next : Int} :
    idAfter id = .ok next ↔ id + 1 < Nat.pow 2 127 ∧ next = id + 1 := by
  unfold idAfter
  split
  next counted =>
    rw [Except.ok.injEq, and_iff_right counted]
    exact eq_comm
  next past =>
    constructor
    · intro same
      cases same
    · exact fun counted => absurd counted.1 past

theorem enumIds_cons {seen : List String} {next : Int} {name : String} {given : Option Numeral}
    {rest : List (String × Option Numeral)} {ids : List (String × Int)} :
    enumIds seen next ((name, given) :: rest) = .ok ids ↔ ∃ id others, idOf next given = .ok id ∧
      name ∉ seen ∧ id + 1 < Nat.pow 2 127 ∧ enumIds (name :: seen) (id + 1) rest = .ok others ∧
      ids = (name, id) :: others := by
  have tail (id : Int) : (do
      if seen.contains name then throw (.parse ("enum: duplicate entry " ++ name))
      let others ← enumIds (name :: seen) (← idAfter id) rest
      return (name, id) :: others : Except SchemaError _) = .ok ids ↔ name ∉ seen ∧
        id + 1 < Nat.pow 2 127 ∧ ∃ others, enumIds (name :: seen) (id + 1) rest = .ok others ∧
          ids = (name, id) :: others := by
    by_cases taken : name ∈ seen
    · rw [if_pos (List.elem_iff.mpr taken)]
      constructor
      · intro ran
        cases ran
      · rintro ⟨fresh, _⟩
        exact absurd taken fresh
    · rw [if_neg fun found => taken (List.elem_iff.mp found), and_iff_right taken]
      simp only [bind_ok, pure_ok, idAfter_ok]
      constructor
      · rintro ⟨_, ⟨counted, rfl⟩, others, numbered, rfl⟩
        exact ⟨counted, others, numbered, rfl⟩
      · rintro ⟨counted, others, numbered, rfl⟩
        exact ⟨_, ⟨counted, rfl⟩, others, numbered, rfl⟩
  have step : enumIds seen next ((name, given) :: rest) = (idOf next given >>= fun id => do
      if seen.contains name then throw (.parse ("enum: duplicate entry " ++ name))
      let others ← enumIds (name :: seen) (← idAfter id) rest
      return (name, id) :: others) := by
    cases given <;> rfl
  simp only [step, bind_ok, tail]
  constructor
  · rintro ⟨id, read, fresh, counted, others, numbered, rfl⟩
    exact ⟨id, others, read, fresh, counted, numbered, rfl⟩
  · rintro ⟨id, others, read, fresh, counted, numbered, rfl⟩
    exact ⟨id, read, fresh, counted, others, numbered, rfl⟩

/-- The tag of a variant, if one is given. -/
def tagOf (kind : IntKind) : Option LiteralSpec → Except SchemaError (Option Literal)
  | some l => some <$> l.literal kind
  | none => .ok none

theorem builds_arm {lookup : Lookup} {kind : IntKind} {seen : List String} {name : String}
    {tag : Option LiteralSpec} {fields : List (FieldSpec TypeSpec)}
    {rest : List (ArmSpec TypeSpec)} {made : List (String × Option Literal × List Field)} :
    Builds (TypeSpec.shapeArms lookup kind seen (⟨name, tag, fields⟩ :: rest)) g made g' ↔
      ∃ given own g₁ others, tagOf kind tag = .ok given ∧
        Builds (TypeSpec.shapeFields lookup fields) g own g₁ ∧ name ∉ seen ∧
        Builds (TypeSpec.shapeArms lookup kind (name :: seen) rest) g₁ others g' ∧
        made = (name, given, own) :: others := by
  have tail (given : Option Literal) (own : List Field) (g₁ : Nat) :
      Builds (do
        if seen.contains name then throw (.parse ("union: duplicate variant " ++ name))
        let others ← TypeSpec.shapeArms lookup kind (name :: seen) rest
        return (name, given, own) :: others) g₁ made g' ↔ name ∉ seen ∧ ∃ others,
          Builds (TypeSpec.shapeArms lookup kind (name :: seen) rest) g₁ others g' ∧
          made = (name, given, own) :: others := by
    by_cases taken : name ∈ seen
    · simp [taken]
    · simp only [List.contains_eq_mem, decide_eq_false taken, Bool.false_eq_true, if_false,
        builds_bind, builds_pure]
      constructor
      · rintro ⟨others, _, ofRest, rfl, rfl⟩
        exact ⟨taken, others, ofRest, rfl⟩
      · rintro ⟨_, others, ofRest, rfl⟩
        exact ⟨others, _, ofRest, rfl, rfl⟩
  cases tag with
  | none =>
    simp only [TypeSpec.shapeArms, builds_bind, builds_pure, tail, tagOf, Except.ok.injEq]
    constructor
    · rintro ⟨_, _, ⟨rfl, rfl⟩, own, g₁, ofFields, fresh, others, ofRest, same⟩
      exact ⟨none, own, g₁, others, rfl, ofFields, fresh, ofRest, same⟩
    · rintro ⟨_, own, g₁, others, rfl, ofFields, fresh, ofRest, same⟩
      exact ⟨none, _, ⟨rfl, rfl⟩, own, g₁, ofFields, fresh, others, ofRest, same⟩
  | some l =>
    simp only [TypeSpec.shapeArms, map_eq_pure_bind, builds_bind, builds_lift, builds_pure, tail,
      tagOf, bind_ok, pure_ok]
    constructor
    · rintro ⟨_, _, ⟨l', _, ⟨read, rfl⟩, rfl, rfl⟩, own, g₁, ofFields, fresh, others, ofRest, same⟩
      exact ⟨some l', own, g₁, others, ⟨l', read, rfl⟩, ofFields, fresh, ofRest, same⟩
    · rintro ⟨_, own, g₁, others, ⟨l', read, rfl⟩, ofFields, fresh, ofRest, same⟩
      exact ⟨some l', _, ⟨l', _, ⟨read, rfl⟩, rfl, rfl⟩, own, g₁, ofFields, fresh, others, ofRest, same⟩

/-! ### Two lookups -/

/-- The shapes unfold to the same shape, and give the tags of a union the same type. -/
structure Twins (target : String → Shape) (s s' : Shape) : Prop where
  unfold : s.unfoldWith target = s'.unfoldWith target
  tagKind : tagKind s = tagKind s'

/-- What the first lookup finds, the second finds as well. -/
def Lookup.Within (target : String → Shape) (lookup lookup' : Lookup) : Prop :=
  ∀ name s, lookup name = .ok s → ∃ s', lookup' name = .ok s' ∧ Twins target s s'

/-- The variants have the same names and tags, and fields that unfold to the same shapes. -/
def SameArms (target : String → Shape) :
    List (String × Option Literal × List Field) → List (String × Option Literal × List Field) → Prop
  | [], others => others = []
  | (name, tag, fields) :: rest, others => ∃ fields' rest', others = (name, tag, fields') :: rest' ∧
    Shape.unfoldFields target fields = Shape.unfoldFields target fields' ∧
    SameArms target rest rest'

section Lookups

variable {target : String → Shape} {lookup lookup' : Lookup}

theorem Twins.refl (s : Shape) : Twins target s s := ⟨rfl, rfl⟩

/-- The shapes of the variants, and the tags that are given, as a union has them. -/
theorem sameArms_variants {made made' : List (String × Option Literal × List Field)}
    (same : SameArms target made made') :
    Shape.unfoldVariants target (made.map fun (name, _, fields) => (name, .struct fields)) =
        Shape.unfoldVariants target (made'.map fun (name, _, fields) => (name, .struct fields)) ∧
      (made.filterMap fun (name, given, _) => given.map fun l => (name, l)) =
        made'.filterMap fun (name, given, _) => given.map fun l => (name, l) := by
  induction made generalizing made' with
  | nil =>
    cases same
    exact ⟨rfl, rfl⟩
  | cons arm rest ih =>
    obtain ⟨name, tag, fields⟩ := arm
    obtain ⟨fields', rest', rfl, sameFields, sameRest⟩ := same
    obtain ⟨variants, tags⟩ := ih sameRest
    refine ⟨?_, ?_⟩
    · simp only [List.map_cons, Shape.unfoldVariants, Shape.unfoldWith, sameFields, variants]
    · simp only [List.filterMap_cons, tags]

mutual

/-- A type that is built with one lookup is built with the other, from any group on. -/
theorem shape_within (within : lookup.Within target lookup') : ∀ (t : TypeSpec)
    {g g' : Nat} {s : Shape}, Builds (t.shape lookup) g s g' → ∀ h : Nat,
    ∃ s' h', Builds (t.shape lookup') h s' h' ∧ Twins target s s'
  | .named name, g, g', s, ran, h => by
    rw [TypeSpec.shape] at ran ⊢
    cases known : Primitive.ofName? name with
    | some p =>
      simp only [known, builds_pure] at ran ⊢
      obtain ⟨rfl, rfl⟩ := ran
      exact ⟨_, h, ⟨rfl, rfl⟩, Twins.refl _⟩
    | none =>
      simp only [known, builds_lift] at ran ⊢
      obtain ⟨s', found, twins⟩ := within name s ran.1
      exact ⟨s', h, ⟨found, rfl⟩, twins⟩
  | .bytes n, g, g', s, ran, h => by
    simp only [TypeSpec.shape, builds_lift] at ran ⊢
    exact ⟨s, h, ⟨ran.1, rfl⟩, .refl s⟩
  | .optional value, g, g', s, ran, h => by
    simp only [TypeSpec.shape, builds_bind, builds_pure] at ran ⊢
    obtain ⟨v, g₁, ofValue, rfl, rfl⟩ := ran
    obtain ⟨v', h', ofValue', twins⟩ := shape_within within value ofValue h
    refine ⟨_, h', ⟨v', h', ofValue', rfl, rfl⟩, ?_, rfl⟩
    simp only [Shape.opt, Shape.unfoldWith, twins.unfold]
  | .list item length, g, g', s, ran, h => by
    simp only [TypeSpec.shape, builds_bind, builds_lift, builds_pure] at ran ⊢
    obtain ⟨v, g₁, ofItem, p, _, ⟨counted, rfl⟩, rfl, rfl⟩ := ran
    obtain ⟨v', h', ofItem', twins⟩ := shape_within within item ofItem h
    refine ⟨_, h', ⟨v', h', ofItem', p, _, ⟨counted, rfl⟩, rfl, rfl⟩, ?_, rfl⟩
    simp only [Shape.unfoldWith, twins.unfold]
  | .map key value length, g, g', s, ran, h => by
    simp only [TypeSpec.shape, builds_bind, builds_lift, builds_pure] at ran ⊢
    obtain ⟨k, g₁, ofKey, v, g₂, ofValue, p, _, ⟨counted, rfl⟩, rfl, rfl⟩ := ran
    obtain ⟨k', h₁, ofKey', keyTwins⟩ := shape_within within key ofKey h
    obtain ⟨v', h', ofValue', twins⟩ := shape_within within value ofValue h₁
    refine ⟨_, h', ⟨k', h₁, ofKey', v', h', ofValue', p, _, ⟨counted, rfl⟩, rfl, rfl⟩, ?_, rfl⟩
    simp only [Shape.unfoldWith, keyTwins.unfold, twins.unfold]
  | .enum backing entries, g, g', s, ran, h => by
    simp only [TypeSpec.shape, builds_bind, builds_lift, builds_pure] at ran ⊢
    obtain ⟨p, _, ⟨named, rfl⟩, ids, _, ⟨numbered, rfl⟩, rfl, rfl⟩ := ran
    exact ⟨_, h, ⟨p, _, ⟨named, rfl⟩, ids, _, ⟨numbered, rfl⟩, rfl, rfl⟩, Twins.refl _⟩
  | .union tagField tag arms, g, g', s, ran, h => by
    simp only [TypeSpec.shape, builds_bind, builds_pure] at ran ⊢
    obtain ⟨t, g₁, ofTag, made, g₂, ofArms, rfl, rfl⟩ := ran
    obtain ⟨t', h₁, ofTag', twins⟩ := shape_within within tag ofTag h
    rw [twins.tagKind] at ofArms
    obtain ⟨made', h', ofArms', same⟩ := shapeArms_within within arms ofArms h₁
    obtain ⟨variants, tags⟩ := sameArms_variants same
    refine ⟨_, h', ⟨t', h₁, ofTag', made', h', ofArms', rfl, rfl⟩, ?_, rfl⟩
    simp only [Shape.unfoldWith, twins.unfold, variants, tags]
  | .struct fields, g, g', s, ran, h => by
    simp only [TypeSpec.shape, builds_bind, builds_pure] at ran ⊢
    obtain ⟨made, g₁, ofFields, rfl, rfl⟩ := ran
    obtain ⟨made', h', ofFields', same⟩ := shapeFields_within within fields ofFields h
    refine ⟨_, h', ⟨made', h', ofFields', rfl, rfl⟩, ?_, rfl⟩
    simp only [Shape.unfoldWith, same]
  | .merge parts, g, g', s, ran, h => by
    simp only [TypeSpec.shape, builds_bind, builds_pure] at ran ⊢
    obtain ⟨made, g₁, ofParts, rfl, rfl⟩ := ran
    obtain ⟨made', h', ofParts', same⟩ := shapeParts_within within parts ofParts h
    refine ⟨_, h', ⟨made', h', ofParts', rfl, rfl⟩, ?_, rfl⟩
    simp only [Shape.unfoldWith, same]
  | .packed backing slots order, g, g', s, ran, h => by
    rw [TypeSpec.shape, builds_packedShape] at ran
    obtain ⟨p, widths, kind, named, sized, ordered, known, fits, positive, rfl, rfl⟩ := ran
    refine ⟨packedOf h p (slots.map (·.1)) widths (order.getD (slots.map (·.1))), h + 1, ?_, ?_, rfl⟩
    · rw [TypeSpec.shape, builds_packedShape]
      exact ⟨p, widths, kind, named, sized, ordered, known, fits, positive, rfl, rfl⟩
    · rw [unfold_packedOf, unfold_packedOf]
  | .flags backing entries, g, g', s, ran, h => by
    rw [TypeSpec.shape, builds_flagsShape] at ran
    obtain ⟨p, masks, kind, named, read, known, fits, rfl, rfl⟩ := ran
    refine ⟨flagsOf h p masks, h + 1, ?_, ?_, rfl⟩
    · rw [TypeSpec.shape, builds_flagsShape]
      exact ⟨p, masks, kind, named, read, known, fits, rfl, rfl⟩
    · rw [unfold_flagsOf, unfold_flagsOf]
  | .literal backing value, g, g', s, ran, h => by
    simp only [TypeSpec.shape, builds_lift] at ran ⊢
    exact ⟨s, h, ⟨ran.1, rfl⟩, .refl s⟩

theorem shapeFields_within (within : lookup.Within target lookup') :
    ∀ (fields : List (FieldSpec TypeSpec)) {g g' : Nat} {made : List Field},
    Builds (TypeSpec.shapeFields lookup fields) g made g' → ∀ h : Nat,
    ∃ made' h', Builds (TypeSpec.shapeFields lookup' fields) h made' h' ∧
      Shape.unfoldFields target made = Shape.unfoldFields target made'
  | [], g, g', made, ran, h => by
    simp only [TypeSpec.shapeFields, builds_pure] at ran ⊢
    obtain ⟨rfl, rfl⟩ := ran
    exact ⟨[], h, ⟨rfl, rfl⟩, rfl⟩
  | ⟨docs, name, type⟩ :: rest, g, g', made, ran, h => by
    simp only [TypeSpec.shapeFields, builds_bind, builds_pure] at ran ⊢
    obtain ⟨s, g₁, ofType, others, g₂, ofRest, rfl, rfl⟩ := ran
    obtain ⟨s', h₁, ofType', twins⟩ := shape_within within type ofType h
    obtain ⟨others', h', ofRest', same⟩ := shapeFields_within within rest ofRest h₁
    refine ⟨_, h', ⟨s', h₁, ofType', others', h', ofRest', rfl, rfl⟩, ?_⟩
    simp only [Shape.unfoldFields, twins.unfold, same]

theorem shapeParts_within (within : lookup.Within target lookup') :
    ∀ (parts : List TypeSpec) {g g' : Nat} {made : List Shape},
    Builds (TypeSpec.shapeParts lookup parts) g made g' → ∀ h : Nat,
    ∃ made' h', Builds (TypeSpec.shapeParts lookup' parts) h made' h' ∧
      Shape.unfoldParts target made = Shape.unfoldParts target made'
  | [], g, g', made, ran, h => by
    simp only [TypeSpec.shapeParts, builds_pure] at ran ⊢
    obtain ⟨rfl, rfl⟩ := ran
    exact ⟨[], h, ⟨rfl, rfl⟩, rfl⟩
  | part :: rest, g, g', made, ran, h => by
    simp only [TypeSpec.shapeParts, builds_bind, builds_pure] at ran ⊢
    obtain ⟨s, g₁, ofPart, others, g₂, ofRest, rfl, rfl⟩ := ran
    obtain ⟨s', h₁, ofPart', twins⟩ := shape_within within part ofPart h
    obtain ⟨others', h', ofRest', same⟩ := shapeParts_within within rest ofRest h₁
    refine ⟨_, h', ⟨s', h₁, ofPart', others', h', ofRest', rfl, rfl⟩, ?_⟩
    simp only [Shape.unfoldParts, twins.unfold, same]

theorem shapeArms_within (within : lookup.Within target lookup') {kind : IntKind} :
    ∀ (arms : List (ArmSpec TypeSpec)) {seen : List String} {g g' : Nat}
    {made : List (String × Option Literal × List Field)},
    Builds (TypeSpec.shapeArms lookup kind seen arms) g made g' → ∀ h : Nat,
    ∃ made' h', Builds (TypeSpec.shapeArms lookup' kind seen arms) h made' h' ∧
      SameArms target made made'
  | [], seen, g, g', made, ran, h => by
    simp only [TypeSpec.shapeArms, builds_pure] at ran ⊢
    obtain ⟨rfl, rfl⟩ := ran
    exact ⟨[], h, ⟨rfl, rfl⟩, rfl⟩
  | ⟨name, tag, fields⟩ :: rest, seen, g, g', made, ran, h => by
    obtain ⟨given, own, g₁, others, read, ofFields, fresh, ofRest, rfl⟩ := builds_arm.mp ran
    obtain ⟨own', h₁, ofFields', sameOwn⟩ := shapeFields_within within fields ofFields h
    obtain ⟨others', h', ofRest', sameRest⟩ := shapeArms_within within rest ofRest h₁
    refine ⟨(name, given, own') :: others', h', ?_, own', others', rfl, sameOwn, sameRest⟩
    exact builds_arm.mpr ⟨given, own', h₁, others', read, ofFields', fresh, ofRest', rfl⟩

end

end Lookups

end WireSchema.Source
