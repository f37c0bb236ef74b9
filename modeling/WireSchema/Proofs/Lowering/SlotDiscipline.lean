import WireSchema.Proofs.Lowering.Flags
import WireSchema.Proofs.Lowering.Packing
import WireSchema.Proofs.Lowering.Orderly
import WireSchema.Proofs.Shape.Weight

/-!
# Every slot is used once

The slots of a packed or flag struct that is generated belong to one field each: as its type or, in a
flag struct, as the presence of an optional field. Nothing else in the fields has slots of the group,
as far as it is not behind a reference.

What is behind a reference is not looked at. A slot can be the target of a reference, and then it is
generated as if it belonged to the field that refers to it: two fields have one bit.

## Main results

* `Shape.mem_slotUses_iff`: the search for slots finds all that are not behind references.
* `Shape.slotsValid_flags_iff`, `Shape.slotsValid_packed_iff`: what the rules for bit slots ask for.
* `slotsUsedOnce_of_typeExpr`, `fieldsAreSlots_of_typeExpr`: what is generated keeps to them.
* `flag_behind_reference_is_shared`: they do not hold behind references.
-/

namespace WireSchema

open Gen Lowering

namespace Shape

variable {group index : Nat}

/-! ### Slots within a shape -/

theorem slotUsesOfFields_eq (fields : List Field) :
    slotUsesOfFields group fields = (fields.map (·.shape)).flatMap (slotUses group) := by
  induction fields with
  | nil => rfl
  | cons f rest ih => rw [slotUsesOfFields, ih, List.map_cons, List.flatMap_cons]

theorem slotUsesOfParts_eq (parts : List Shape) :
    slotUsesOfParts group parts = parts.flatMap (slotUses group) := by
  induction parts with
  | nil => rfl
  | cons s rest ih => rw [slotUsesOfParts, ih, List.flatMap_cons]

theorem slotUsesOfVariants_eq (variants : List (String × Shape)) :
    slotUsesOfVariants group variants = (variants.map (·.2)).flatMap (slotUses group) := by
  induction variants with
  | nil => rfl
  | cons v rest ih => rw [slotUsesOfVariants, ih, List.map_cons, List.flatMap_cons]

/-- The slots of a group in a shape are those of its parts, unless it is one itself. -/
theorem slotUses_eq (s : Shape) : s.slotUses group = match s.slotOf? group with
    | some (index, _) => [index]
    | none => (s.subshapes []).flatMap (slotUses group) := by
  cases s with
  | slot g index kind =>
    rw [slotUses, slotOf?]
    by_cases same : g = group
    · simp only [if_pos same]
    · simp only [if_neg same]
      rfl
  | struct | packed | flags => exact slotUsesOfFields_eq _
  | merged => exact slotUsesOfParts_eq _
  | union => simp [slotUses, slotOf?, subshapes, slotUsesOfVariants_eq]
  | prim | enum | custom | ref | literal => rfl
  | optional | map | list | «alias» | exported | transformed =>
    simp [slotUses, slotOf?, subshapes]

theorem eq_of_slotOf? {s : Shape} {kind : SlotKind} (found : s.slotOf? group = some (index, kind)) :
    s = .slot group index kind := by
  unfold slotOf? at found
  split at found
  case h_1 =>
    split at found
    case isTrue same =>
      cases found
      rw [same]
    case isFalse => cases found
  case h_2 => cases found

theorem slotOf?_slot (kind : SlotKind) :
    (slot group index kind).slotOf? group = some (index, kind) := if_pos rfl

/-- The slots of a group that are found in a shape are those that can be reached without following
a reference. -/
theorem mem_slotUses_iff {s : Shape} :
    index ∈ s.slotUses group ↔ ∃ kind, Reaches [] s (.slot group index kind) := by
  constructor
  · -- The induction is on the weight: the parts of a shape weigh less.
    intro member
    induction weight : s.weight using Nat.strongRecOn generalizing s with
    | ind n ih =>
      rw [slotUses_eq] at member
      split at member
      case h_1 found =>
        cases List.mem_singleton.mp member
        rw [eq_of_slotOf? found]
        exact ⟨_, .refl⟩
      case h_2 =>
        obtain ⟨part, among, inside⟩ := List.mem_flatMap.mp member
        have lighter : part.weight < s.weight := by
          refine weight_lt_of_part ?_ among
          rintro label rfl
          cases among
        obtain ⟨kind, reaches⟩ := ih part.weight (weight ▸ lighter) inside rfl
        exact ⟨kind, .head among reaches⟩
  · rintro ⟨kind, reaches⟩
    induction reaches using Relation.ReflTransGen.head_induction_on with
    | refl => simp [slotUses]
    | @head s part among _ ih =>
      rw [slotUses_eq]
      split
      case h_1 found =>
        cases eq_of_slotOf? found
        cases among
      case h_2 => exact List.mem_flatMap.mpr ⟨part, among, ih⟩

theorem refuseSlots_iff {owner : String} {s : Shape} : refuseSlots owner group s = .ok () ↔
    ∀ index kind, ¬ Reaches [] s (.slot group index kind) := by
  have clean : refuseSlots owner group s = .ok () ↔ s.slotUses group = [] := by
    unfold refuseSlots
    split <;> simp [*]
  rw [clean, List.eq_nil_iff_forall_not_mem]
  simp only [mem_slotUses_iff, not_exists]

/-! ### Slots that fields use -/

/-- The slot of the group that a field of a flag struct uses: as its type, or as the presence of its
optional value. -/
def usedSlot? (group : Nat) (s : Shape) : Option Nat :=
  match s with
  | .optional _ presence => (slotOf? group presence).map (·.1)
  | s => (slotOf? group s).map (·.1)

/-- What is in the type of a field besides the slot that it uses. -/
def besides (group : Nat) (s : Shape) : List Shape :=
  match s with
  | .optional value presence => if (slotOf? group presence).isSome then [value] else [s]
  | s => if (slotOf? group s).isSome then [] else [s]

theorem usedSlot?_of_other {s : Shape} (other : ∀ value presence, s ≠ .optional value presence) :
    s.usedSlot? group = (slotOf? group s).map (·.1) := by
  unfold usedSlot?
  split
  case h_1 value presence => exact (other value presence rfl).elim
  case h_2 => rfl

theorem besides_of_other {s : Shape} (other : ∀ value presence, s ≠ .optional value presence) :
    s.besides group = if (slotOf? group s).isSome then [] else [s] := by
  unfold besides
  split
  case h_1 value presence => exact (other value presence rfl).elim
  case h_2 => rfl

theorem flagFieldSlot_iff {owner : String} {f : Field} {used : Option Nat} :
    flagFieldSlot owner group f = .ok used ↔ used = f.shape.usedSlot? group ∧
      ∀ s ∈ f.shape.besides group, refuseSlots owner group s = .ok () := by
  -- What is refused decides alone; the answer is fixed.
  have guarded (s : Shape) (answer : Option Nat) :
      ((do refuseSlots owner group s; return answer) : Except SchemaError (Option Nat)) = .ok used ↔
        used = answer ∧ refuseSlots owner group s = .ok () := by
    cases refuseSlots owner group s with
    | error e => exact ⟨nofun, nofun⟩
    | ok _ => exact ⟨fun same => ⟨(Except.ok.inj same).symm, rfl⟩, fun same => by rw [same.1]; rfl⟩
  unfold flagFieldSlot
  split
  case h_1 index kind found =>
    rw [eq_of_slotOf? found]
    simp only [usedSlot?, besides, slotOf?_slot, Option.map_some, Option.isSome_some, if_true]
    exact ⟨fun same => ⟨(Except.ok.inj same).symm, nofun⟩, fun same => by rw [same.1]; rfl⟩
  case h_2 absent =>
    split
    case h_1 value presence shape =>
      rw [shape]
      cases found : slotOf? group presence with
      | some slot =>
        simp only [usedSlot?, besides, found, Option.map_some, Option.isSome_some, if_true, guarded,
          List.mem_singleton, forall_eq]
      | none =>
        simp only [usedSlot?, besides, found, guarded, Option.map_none, Option.isSome_none,
          Bool.false_eq_true, if_false, List.mem_singleton, forall_eq]
    case h_2 other =>
      rw [usedSlot?_of_other other, besides_of_other other]
      simp only [absent, guarded, Option.map_none, Option.isSome_none, Bool.false_eq_true,
        if_false, List.mem_singleton, forall_eq]

theorem packedFieldSlot_iff {owner : String} {f : Field} {index : Nat} :
    packedFieldSlot owner group f = .ok index ↔ ∃ kind, f.shape = .slot group index kind := by
  unfold packedFieldSlot
  constructor
  · intro made
    split at made
    case h_1 i kind found =>
      cases made
      exact ⟨kind, eq_of_slotOf? found⟩
    case h_2 => cases made
  · rintro ⟨kind, shape⟩
    rw [shape, slotOf?_slot]

/-! ### Slots that are used once -/

theorem checkUses_iff {owner : String} {used : List Nat} {count : Nat} :
    checkUses owner used count 0 = .ok () ↔ ∀ index < count, used.count index = 1 := by
  constructor
  · intro checked index below
    exact once_of_checkUses checked (Nat.zero_le index) (by omega)
  · intro once
    exact checkUses_of_once fun index _ below => once index (by omega)

/-- The slots that are found are checked. -/
theorem bind_checkUses_iff {α : Type} {owner : String} {found : Except SchemaError α}
    {used : α → List Nat} {count : Nat} :
    (do let a ← found; checkUses owner (used a) count 0 : Except SchemaError Unit) = .ok () ↔
      ∃ a, found = .ok a ∧ ∀ index < count, (used a).count index = 1 := by
  simp only [← @checkUses_iff owner]
  cases found with
  | error e => exact ⟨nofun, fun ⟨_, made, _⟩ => nomatch made⟩
  | ok a =>
    constructor
    · exact fun checked => ⟨a, rfl, checked⟩
    · rintro ⟨_, made, checked⟩
      cases made
      exact checked

/-- What occurs once in a list has one position there. -/
theorem count_eq_one_iff {α : Type} [BEq α] [LawfulBEq α] {a : α} {l : List α} :
    l.count a = 1 ↔ ∃! k : Nat, l[k]? = some a := by
  induction l with
  | nil => simp [ExistsUnique]
  | cons b rest ih =>
    by_cases same : b = a
    · subst same
      rw [List.count_cons_self, Nat.add_eq_right, List.count_eq_zero]
      constructor
      · intro absent
        refine ⟨0, rfl, fun k here => ?_⟩
        cases k with
        | zero => rfl
        | succ k => exact (absent (List.mem_of_getElem? here)).elim
      · rintro ⟨k, _, only⟩ member
        obtain ⟨i, here⟩ := List.getElem?_of_mem member
        have first := only 0 rfl
        have later := only (i + 1) here
        omega
    · rw [List.count_cons_of_ne same, ih]
      constructor
      · rintro ⟨k, here, only⟩
        refine ⟨k + 1, here, fun i there => ?_⟩
        cases i with
        | zero => exact (same (Option.some.inj there)).elim
        | succ i => rw [only i there]
      · rintro ⟨k, here, only⟩
        cases k with
        | zero => exact (same (Option.some.inj here)).elim
        | succ k => exact ⟨k, here, fun i there => Nat.succ.inj (only (i + 1) there)⟩

/-- Each of the first `count` slots of the group is used by one field, and besides the slots that
fields use there are none in the fields, as far as they are not behind references. -/
structure SlotsUsedOnce (group count : Nat) (fields : List Field) : Prop where
  once : ∀ index < count, ∃! k : Nat, ∃ f, fields[k]? = some f ∧
    f.shape.usedSlot? group = some index
  nowhereElse : ∀ f ∈ fields, ∀ s ∈ f.shape.besides group, ∀ index kind,
    ¬ Reaches [] s (.slot group index kind)

theorem forall₂_of_mapM_ok {α β ε : Type} {f : α → Except ε β} {items : List α} {bs : List β}
    (made : items.mapM f = .ok bs) : List.Forall₂ (fun b a => f a = .ok b) bs items := by
  have paired := forall₂_of_mapM (g := id) (R := fun b a => f a = .ok b) made fun _ _ _ same => same
  rwa [List.map_id] at paired

theorem mapM_flagFieldSlot_iff {owner : String} {fields : List Field} {used : List (Option Nat)} :
    fields.mapM (flagFieldSlot owner group) = .ok used ↔
      used = fields.map (·.shape.usedSlot? group) ∧
        ∀ f ∈ fields, ∀ s ∈ f.shape.besides group, refuseSlots owner group s = .ok () := by
  constructor
  · intro made
    have paired := forall₂_of_mapM_ok made
    constructor
    · rw [← map_eq_of_rel paired fun answer f checked => (flagFieldSlot_iff.mp checked).1]
      exact (List.map_id used).symm
    · intro f member
      obtain ⟨answer, _, checked⟩ := exists_rel_of_mem paired member
      exact (flagFieldSlot_iff.mp checked).2
  · rintro ⟨rfl, clean⟩
    exact mapM_of_forall fun f member => flagFieldSlot_iff.mpr ⟨rfl, clean f member⟩

theorem getElem?_map_eq_some {α β : Type} {f : α → β} {l : List α} {k : Nat} {b : β} :
    (l.map f)[k]? = some b ↔ ∃ a, l[k]? = some a ∧ f a = b := by
  rw [List.getElem?_map, Option.map_eq_some_iff]

/-- A flag struct is accepted exactly if its slots are used once. -/
theorem slotsValid_flags_iff {refs : Refs} {owner : String} {backing : Primitive}
    {masks : List (String × Int)} {fields : List Field} :
    (flags backing masks fields group).slotsValid refs owner = .ok () ↔
      SlotsUsedOnce group masks.length fields := by
  rw [slotsValid_flags, bind_checkUses_iff]
  simp only [mapM_flagFieldSlot_iff, refuseSlots_iff]
  constructor
  · rintro ⟨used, ⟨rfl, clean⟩, once⟩
    refine ⟨fun index below => ?_, clean⟩
    have single := once index below
    rw [List.count_filterMap] at single
    simpa only [getElem?_map_eq_some] using count_eq_one_iff.mp single
  · rintro ⟨once, clean⟩
    refine ⟨_, ⟨rfl, clean⟩, fun index below => ?_⟩
    rw [List.count_filterMap]
    exact count_eq_one_iff.mpr (by simpa only [getElem?_map_eq_some] using once index below)

theorem mapM_packedFieldSlot_iff {owner : String} {fields : List Field} {used : List Nat} :
    fields.mapM (packedFieldSlot owner group) = .ok used ↔
      used = fields.map (·.shape.slotIndex) ∧
        ∀ f ∈ fields, ∃ index kind, f.shape = .slot group index kind := by
  constructor
  · intro made
    have paired := forall₂_of_mapM_ok made
    constructor
    · rw [← map_eq_of_rel paired (f := id), List.map_id]
      intro index f checked
      obtain ⟨kind, shape⟩ := packedFieldSlot_iff.mp checked
      rw [shape]
      rfl
    · intro f member
      obtain ⟨index, _, checked⟩ := exists_rel_of_mem paired member
      exact ⟨index, packedFieldSlot_iff.mp checked⟩
  · rintro ⟨rfl, slots⟩
    refine mapM_of_forall fun f member => packedFieldSlot_iff.mpr ?_
    obtain ⟨index, kind, shape⟩ := slots f member
    exact ⟨kind, by rw [shape]; rfl⟩

/-- A packed struct is accepted exactly if its fields are its slots and each slot is used once. -/
theorem slotsValid_packed_iff {refs : Refs} {owner : String} {backing : Primitive}
    {widths : List Nat} {fields : List Field} :
    (packed backing widths fields group).slotsValid refs owner = .ok () ↔
      (∀ f ∈ fields, ∃ index kind, f.shape = .slot group index kind) ∧
        ∀ index < widths.length, ∃! k : Nat, ∃ f, fields[k]? = some f ∧
          ∃ kind, f.shape = .slot group index kind := by
  have whole : (packed backing widths fields group).slotsValid refs owner = (do
      let used ← fields.mapM (packedFieldSlot owner group)
      checkUses owner (id used) widths.length 0) := by
    unfold slotsValid
    cases refs.length <;> simp only [following, slotsValidWith, id]
  -- Once all fields are slots, the index at a position tells which slot the field is.
  have at_ {index k : Nat} (slots : ∀ f ∈ fields, ∃ index kind, f.shape = .slot group index kind) :
      (fields.map (·.shape.slotIndex))[k]? = some index ↔ ∃ f, fields[k]? = some f ∧
        ∃ kind, f.shape = .slot group index kind := by
    rw [getElem?_map_eq_some]
    refine exists_congr fun f => and_congr_right fun here => ?_
    obtain ⟨i, kind, shape⟩ := slots f (List.mem_of_getElem? here)
    rw [shape]
    constructor
    · rintro rfl
      exact ⟨kind, rfl⟩
    · rintro ⟨_, same⟩
      cases same
      rfl
  rw [whole, bind_checkUses_iff]
  simp only [mapM_packedFieldSlot_iff, id]
  constructor
  · rintro ⟨used, ⟨rfl, slots⟩, once⟩
    refine ⟨slots, fun index below => ?_⟩
    simpa only [at_ slots] using count_eq_one_iff.mp (once index below)
  · rintro ⟨slots, once⟩
    refine ⟨_, ⟨rfl, slots⟩, fun index below => count_eq_one_iff.mpr ?_⟩
    simpa only [at_ slots] using once index below

end Shape

/-! ### Generation -/

/-- A struct that is met for the first time is declared only if its slots are valid. -/
theorem slotsValid_of_structName {em : Emitter} {s : Shape} {name : String} {σ τ : Session}
    (ran : Runs (structName em s) σ name τ)
    (fresh : σ.registry.constants.lookup (s.canonicalName σ.refs) = none) :
    ∃ owner, s.slotsValid σ.refs owner = .ok () := by
  simp only [structName, runs_bind, runs_canonicalName, runs_refs, runs_pure] at ran
  obtain ⟨_, _, ⟨rfl, rfl⟩, _, _, ⟨rfl, rfl⟩, desired, _, wanted, found, _, constant, _⟩ := ran
  obtain ⟨rfl, _⟩ := asked_desiredName wanted
  rcases runs_registerConstant.mp constant with ⟨known, _⟩ | ⟨_, _, _, _, defined, _⟩
  · rw [fresh] at known
    cases known
  · simp only [runs_bind, runs_refs, runs_ofExcept] at defined
    obtain ⟨_, _, ⟨rfl, rfl⟩, _, _, ⟨valid, _⟩, _⟩ := defined
    exact ⟨_, valid⟩

section Fresh

variable {hooks : Hooks} {depth : Nat} {backing : Primitive} {fields : List Field} {group : Nat}
  {type : Ir.TypeExpr} {σ τ : Session}

/-- A flag struct for which a type is made in a new session uses each of its slots once. -/
theorem slotsUsedOnce_of_typeExpr {masks : List (String × Int)}
    (ran : Runs ((emitter hooks depth).typeExpr (.flags backing masks fields group)) σ type τ)
    (fresh : σ.registry.constants = []) : Shape.SlotsUsedOnce group masks.length fields := by
  cases depth with
  | zero => exact (runs_throw.mp ran).elim
  | succ depth =>
    obtain ⟨name, _, named, _⟩ := runs_bind.mp ran
    obtain ⟨owner, valid⟩ := slotsValid_of_structName named (by rw [fresh]; rfl)
    exact Shape.slotsValid_flags_iff.mp valid

/-- A packed struct for which a type is made in a new session has its slots as fields, each once. -/
theorem fieldsAreSlots_of_typeExpr {widths : List Nat}
    (ran : Runs ((emitter hooks depth).typeExpr (.packed backing widths fields group)) σ type τ)
    (fresh : σ.registry.constants = []) :
    (∀ f ∈ fields, ∃ index kind, f.shape = .slot group index kind) ∧
      ∀ index < widths.length, ∃! k : Nat, ∃ f, fields[k]? = some f ∧
        ∃ kind, f.shape = .slot group index kind := by
  cases depth with
  | zero => exact (runs_throw.mp ran).elim
  | succ depth =>
    obtain ⟨name, _, named, _⟩ := runs_bind.mp ran
    obtain ⟨owner, valid⟩ := slotsValid_of_structName named (by rw [fresh]; rfl)
    exact Shape.slotsValid_packed_iff.mp valid

end Fresh

/-! ### Slots behind references -/

/-- A reference to the only flag of a struct. -/
def flagBehind : Refs := [("hidden", .slot 0 0 (.flag 1 .u8))]

/-- A struct with one flag, which is a field and behind the reference that is another field. -/
def sharingFlag : Shape := .flags .u8 [("a", 1)]
  [{ name := "a", shape := .slot 0 0 (.flag 1 .u8) }, { name := "b", shape := .ref "hidden" }] 0

namespace sharingFlag

/-- Code without declarations. -/
def program : Program := Generated.programAt ⟨[], [], []⟩ .big 0 1 0

/-- What a decoder of the struct reads for a field. -/
def read (name : String) (bytes : List UInt8) : Option Bool := do
  let decoder := Gen.captureBlock ((emitter Hooks.none 4).decodeExpr sharingFlag)
  let block ← (decoder.start { refs := flagBehind }).1.toOption
  let (v, _) ← (Run.evalBlock program { block with result := .field block.result name }
    ⟨[], .input (.ofBytes bytes), []⟩).toOption
  v.asBool?

/-- What an encoder of the struct writes for its two fields. -/
def written (a b : Bool) : Option (List UInt8) := do
  let encoder := Gen.capture ((emitter Hooks.none 4).encode sharingFlag (.place ⟨0, "value"⟩))
  let (stmts, _) ← (encoder.start { refs := flagBehind }).1.toOption
  let (_, m) ← (Run.execBlock program stmts
    ⟨[(0, .plain (.struct [("a", .bool a), ("b", .bool b)]))], .output [], []⟩).toOption
  return m.stream.written

end sharingFlag

/-- The struct has a type, a decoder and an encoder; both of its fields are read from one bit, and
what the field behind the reference has is not written. -/
theorem flag_behind_reference_is_shared :
    (((emitter Hooks.none 4).typeExpr sharingFlag).start { refs := flagBehind }).1.isOk = true ∧
      sharingFlag.read "a" [1] = some true ∧ sharingFlag.read "b" [1] = some true ∧
      ∀ a b, sharingFlag.written a b = some [if a then 1 else 0] := by
  decide +kernel

end WireSchema
