import WireSchema.Proofs.Source.Assembling

/-!
# What written types stand for

A written type stands for a shape, which needs neither the types before it nor the numbers of bit
groups: a declared type is used through a reference. If the type is sound, then this is what is
built, once references are followed.
-/

namespace WireSchema.Source

/-! ### Numbers and literals -/

namespace Numeral

/-- The integer that a number stands for. -/
def int (n : Numeral) : Int := if n.negative then -n.magnitude else n.magnitude

/-- The number has a magnitude below `2 ^ 127`. -/
def IsSmall (n : Numeral) : Prop := n.magnitude < Nat.pow 2 127

theorem value_small {n : Numeral} (small : n.IsSmall) : n.value = .ok n.int := if_pos small

theorem value_ok {n : Numeral} {i : Int} : n.value = .ok i ↔ n.IsSmall ∧ i = n.int := by
  constructor
  · intro read
    by_cases small : n.IsSmall
    · rw [value_small small] at read
      exact ⟨small, (Except.ok.inj read).symm⟩
    · cases (if_neg small).symm.trans read
  · rintro ⟨small, rfl⟩
    exact value_small small

end Numeral

namespace LiteralSpec

/-- The literal that is written; an integer has the given type. -/
def meant (kind : IntKind) : LiteralSpec → Literal
  | .int n => .int n.int kind
  | .bool b => .bool b
  | .str body => .str (String.ofList body)

/-- An integer is small, and a text is what it stands for. -/
def IsPlain : LiteralSpec → Prop
  | .int n => n.IsSmall
  | .bool _ => True
  | .str body => '\\' ∉ body

end LiteralSpec

theorem replace_plain {escape : Char} {image : List Char} : ∀ {fuel : Nat} {cs : List Char},
    '\\' ∉ cs → Text.replaceFrom ['\\', escape] image fuel cs = cs
  | 0, _, _ => rfl
  | _ + 1, [], _ => rfl
  | fuel + 1, c :: cs, plain => by
    have other : ('\\' == c) = false :=
      beq_false_of_ne fun same => plain (same ▸ List.mem_cons_self ..)
    have later : '\\' ∉ cs := fun member => plain (List.mem_cons_of_mem _ member)
    rw [Text.replaceFrom, replace_plain later]
    simp [List.isPrefixOf, other]

theorem unescape_plain {body : List Char} (plain : '\\' ∉ body) : unescape body = body := by
  simp only [unescape, Text.replace, replace_plain plain]

theorem literal_plain {l : LiteralSpec} (plain : l.IsPlain) (kind : IntKind) :
    l.literal kind = .ok (l.meant kind) := by
  cases l with
  | int n => rw [LiteralSpec.literal, Numeral.value_small plain]; rfl
  | bool b => rfl
  | str body => rw [LiteralSpec.literal, unescape_plain plain]; rfl

/-! ### What written types stand for -/

/-- The primitive of that name. -/
def primitiveOf (name : String) : Primitive := (Primitive.ofName? name).getD .varint

/-- The primitive of a length, which is a varint unless said otherwise. -/
def lengthOf (name : Option String) : Primitive := (name.map primitiveOf).getD .varint

/-- The entries with their ids; `next` is the id of the next entry that has none of its own. These
are the ids of the entries as long as each of them has an id after it. -/
def numbered (next : Int) : List (String × Option Numeral) → List (String × Int)
  | [] => []
  | (name, given) :: rest =>
    let id := (given.map Numeral.int).getD next
    (name, id) :: numbered (id + 1) rest

/-- The packed struct with the given widths. Each of its fields is the slot of that name. -/
def packedNode (backing : Primitive) (slots : List (String × Numeral))
    (order : Option (List String)) : Shape :=
  let names := slots.map (·.1)
  let widths := slots.map (·.2.int.toNat)
  let slot (index : Nat) : Shape :=
    .slot 0 index (.bits (total (widths.drop (index + 1))) (widths.getD index 0) backing)
  .packed backing widths
    ((order.getD names).map fun name => { name, shape := slot (names.idxOf name) }) 0

/-- The flag struct with the given masks. -/
def flagsNode (backing : Primitive) (entries : List (String × Numeral)) : Shape :=
  .flags backing (entries.map fun (name, mask) => (name, mask.int))
    (entries.zipIdx.map fun ((name, mask), index) =>
      { name, shape := .slot 0 index (.flag mask.int backing) }) 0

namespace TypeSpec

mutual

/-- The shape that a written type stands for. A declared type is used through a reference; the name of
a primitive means the primitive, also where a type of that name is declared. -/
def node : TypeSpec → Shape
  | .named name =>
    match Primitive.ofName? name with
    | some p => .prim p
    | none => .ref name
  | .bytes n => .prim (.fixedBytes n.int.toNat)
  | .optional value => .opt (node value)
  | .list item length => .list (node item) (lengthOf length)
  | .map key value length => .map (node key) (node value) (lengthOf length)
  | .enum backing entries => .enum (primitiveOf backing) (numbered 0 entries)
  | .union tagField tag arms =>
    .union tagField (node tag) (nodeVariants arms) (nodeTags (tagKind (node tag)) arms)
  | .struct fields => .struct (nodeFields fields)
  | .merge parts => .merged (nodeParts parts)
  | .packed backing slots order => packedNode (primitiveOf backing) slots order
  | .flags backing entries => flagsNode (primitiveOf backing) entries
  | .literal backing value =>
    let backing := backing.map primitiveOf
    Shape.fixed (value.meant (fixedKind backing)) backing

def nodeFields : List (FieldSpec TypeSpec) → List Field
  | [] => []
  | ⟨docs, name, type⟩ :: rest => { name, shape := node type, doc := docOf docs } :: nodeFields rest

def nodeParts : List TypeSpec → List Shape
  | [] => []
  | part :: rest => node part :: nodeParts rest

def nodeVariants : List (ArmSpec TypeSpec) → List (String × Shape)
  | [] => []
  | ⟨name, _, fields⟩ :: rest => (name, .struct (nodeFields fields)) :: nodeVariants rest

/-- The tags that are given. -/
def nodeTags (kind : IntKind) : List (ArmSpec TypeSpec) → List (String × Literal)
  | [] => []
  | ⟨name, some l, _⟩ :: rest => (name, l.meant kind) :: nodeTags kind rest
  | ⟨_, none, _⟩ :: rest => nodeTags kind rest

end

/-- The name is that of an integer type. -/
def IsBacking (name : String) (kind : IntKind) : Prop :=
  ∃ p, Primitive.ofName? name = some p ∧ p.intKind? = some kind

section

variable (names : List String)

mutual

/-- The type is one that can be built where the given types are declared: its names are known and
come once, its numbers are small, and widths and masks fit their backing. -/
def Sound : TypeSpec → Prop
  | .named name => (Primitive.ofName? name).isSome ∨ name ∈ names
  | .bytes n => n.IsSmall ∧ 0 ≤ n.int ∧ n.int.toNat < Nat.pow 2 64
  | .optional value => Sound value
  | .list item length => Sound item ∧ ∀ name ∈ length, ∃ kind, IsBacking name kind
  | .map key value length =>
    Sound key ∧ Sound value ∧ ∀ name ∈ length, ∃ kind, IsBacking name kind
  | .enum backing entries => (∃ kind, IsBacking backing kind) ∧ (entries.map (·.1)).Nodup ∧
    ∀ entry ∈ entries, ∀ n ∈ entry.2, n.IsSmall
  | .union _ tag arms => Sound tag ∧ (arms.map (·.name)).Nodup ∧ SoundArms arms
  | .struct fields => SoundFields fields
  | .merge parts => SoundParts parts
  | .packed backing slots order => (slots.map (·.1)).Nodup ∧
    (∀ slot ∈ slots, slot.2.IsSmall ∧ 0 < slot.2.int) ∧
    (∃ kind, IsBacking backing kind ∧ total (slots.map (·.2.int.toNat)) ≤ kind.bits) ∧
    ∀ fields ∈ order, fields.Nodup ∧ fields ⊆ slots.map (·.1)
  | .flags backing entries => (∀ entry ∈ entries, entry.2.IsSmall) ∧
    ∃ kind, IsBacking backing kind ∧
      ∀ entry ∈ entries, 0 < entry.2.int ∧ entry.2.int ≤ IntKind.mask kind.bits
  | .literal backing value => value.IsPlain ∧ ∀ name ∈ backing, (Primitive.ofName? name).isSome

def SoundFields : List (FieldSpec TypeSpec) → Prop
  | [] => True
  | ⟨_, _, type⟩ :: rest => Sound type ∧ SoundFields rest

def SoundParts : List TypeSpec → Prop
  | [] => True
  | part :: rest => Sound part ∧ SoundParts rest

def SoundArms : List (ArmSpec TypeSpec) → Prop
  | [] => True
  | ⟨_, tag, fields⟩ :: rest => (∀ l ∈ tag, l.IsPlain) ∧ SoundFields fields ∧ SoundArms rest

end

end

mutual

/-- There is an id after each entry of the enumerations in the type. -/
def Counted : TypeSpec → Prop
  | .enum _ entries => ∀ entry ∈ numbered 0 entries, entry.2 + 1 < Nat.pow 2 127
  | .optional value => Counted value
  | .list item _ => Counted item
  | .map key value _ => Counted key ∧ Counted value
  | .union _ tag arms => Counted tag ∧ CountedArms arms
  | .struct fields => CountedFields fields
  | .merge parts => CountedParts parts
  | .named _ | .bytes _ | .packed _ _ _ | .flags _ _ | .literal _ _ => True

def CountedFields : List (FieldSpec TypeSpec) → Prop
  | [] => True
  | ⟨_, _, type⟩ :: rest => Counted type ∧ CountedFields rest

def CountedParts : List TypeSpec → Prop
  | [] => True
  | part :: rest => Counted part ∧ CountedParts rest

def CountedArms : List (ArmSpec TypeSpec) → Prop
  | [] => True
  | ⟨_, _, fields⟩ :: rest => CountedFields fields ∧ CountedArms rest

end

end TypeSpec

/-! ### Building what is written -/

section Builders

open TypeSpec

variable {g : Nat}

theorem integerNamed_ok {name : String} {kind : IntKind} (known : IsBacking name kind) :
    integerNamed name = .ok (primitiveOf name) ∧ (primitiveOf name).intKind? = some kind := by
  obtain ⟨p, found, integer⟩ := known
  have same : primitiveOf name = p := by rw [primitiveOf, found]; rfl
  rw [same, integerNamed, primitiveNamed, found]
  refine ⟨?_, integer⟩
  simp only [bind, Except.bind, Primitive.isInteger, integer]
  rfl

theorem lengthNamed_ok {length : Option String}
    (known : ∀ name ∈ length, ∃ kind, IsBacking name kind) :
    lengthNamed length = .ok (lengthOf length) := by
  cases length with
  | none => rfl
  | some name =>
    obtain ⟨kind, backing⟩ := known name rfl
    exact (integerNamed_ok backing).1

theorem idOf_ok {next id : Int} {given : Option Numeral} : idOf next given = .ok id ↔
    (∀ n ∈ given, n.IsSmall) ∧ id = (given.map Numeral.int).getD next := by
  cases given with
  | none => simp [idOf, eq_comm]
  | some n => simp [idOf, Numeral.value_ok]

/-- Entries have ids if and only if their names come once, their numbers are small and there is an
id after each of them. -/
theorem enumIds_ok {entries : List (String × Option Numeral)} {seen : List String} {next : Int}
    {ids : List (String × Int)} : enumIds seen next entries = .ok ids ↔
      (entries.map (·.1)).Nodup ∧ (∀ name ∈ entries.map (·.1), name ∉ seen) ∧
      (∀ entry ∈ entries, ∀ n ∈ entry.2, n.IsSmall) ∧
      (∀ entry ∈ numbered next entries, entry.2 + 1 < Nat.pow 2 127) ∧
      ids = numbered next entries := by
  induction entries generalizing seen next ids with
  | nil => simp [enumIds, numbered, eq_comm]
  | cons entry rest ih =>
    obtain ⟨name, given⟩ := entry
    simp only [enumIds_cons, idOf_ok, ih, List.map_cons, List.nodup_cons, List.forall_mem_cons,
      numbered]
    constructor
    · rintro ⟨id, others, ⟨small, rfl⟩, free, counted, ⟨nodup, fresh, smaller, later, rfl⟩, rfl⟩
      refine ⟨⟨fun twice => fresh name twice (List.mem_cons_self ..), nodup⟩,
        ⟨free, fun other member early => ?_⟩, ⟨small, smaller⟩, ⟨counted, later⟩, rfl⟩
      exact fresh other member (List.mem_cons_of_mem _ early)
    · rintro ⟨⟨once, nodup⟩, ⟨free, fresh⟩, ⟨small, smaller⟩, ⟨counted, later⟩, rfl⟩
      refine ⟨_, _, ⟨small, rfl⟩, free, counted, ⟨nodup, fun other member taken => ?_, smaller,
        later, rfl⟩, rfl⟩
      rcases List.mem_cons.mp taken with rfl | early
      · exact once member
      · exact fresh other member early

/-- After the largest id there is none, not even where no entry needs it. -/
example : enumIds [] 0 [("last", some ⟨false, none, (toString (2 ^ 127 - 1)).toList⟩)] =
    .error .overflow := by decide +kernel

theorem mapM_widths (bound : Nat) : ∀ {slots : List (String × Numeral)},
    (∀ slot ∈ slots, slot.2.IsSmall ∧ 0 < slot.2.int) →
    total (slots.map (·.2.int.toNat)) ≤ bound → bound < Nat.pow 2 32 →
    slots.mapM (fun (_, width) => slotWidth width) = .ok (slots.map (·.2.int.toNat))
  | [], _, _, _ => rfl
  | (name, width) :: rest, sound, fits, small => by
    obtain ⟨⟨isSmall, positive⟩, others⟩ := List.forall_mem_cons.mp sound
    change width.int.toNat + total (rest.map (·.2.int.toNat)) ≤ bound at fits
    refine mapM_cons_ok.mpr ⟨width.int.toNat, _, ?_, mapM_widths bound others ?_ small, rfl⟩
    · have inRange : 0 ≤ width.int ∧ width.int.toNat < Nat.pow 2 32 :=
        ⟨Int.le_of_lt positive, by omega⟩
      have read : width.value = .ok width.int := Numeral.value_small isSmall
      simp only [slotWidth, read]
      exact if_pos inRange
    · omega

theorem checkOrder_ok {names : List String} : ∀ {order seen : List String}, order.Nodup →
    order ⊆ names → (∀ name ∈ order, name ∉ seen) → checkOrder names seen order = .ok ()
  | [], _, _, _, _ => rfl
  | name :: rest, seen, nodup, inside, fresh => by
    obtain ⟨once, nodup⟩ := List.nodup_cons.mp nodup
    obtain ⟨known, inside⟩ := List.cons_subset.mp inside
    obtain ⟨free, later⟩ := List.forall_mem_cons.mp fresh
    have good : ¬((!names.contains name || seen.contains name) = true) := by
      simp [known, free]
    rw [checkOrder, if_neg good]
    refine checkOrder_ok nodup inside fun other member taken => ?_
    rcases List.mem_cons.mp taken with rfl | early
    · exact once member
    · exact later other member early

theorem lookup_zip_idxOf {α : Type} : ∀ {names : List String} {as : List α} {name : String} {a : α},
    name ∈ names → as[names.idxOf name]? = some a → (names.zip as).lookup name = some a
  | other :: names, [], name, a, _, found => by simp at found
  | other :: names, b :: as, name, a, member, found => by
    rw [List.zip_cons_cons, List.lookup_cons]
    by_cases same : name = other
    · subst same
      rw [List.idxOf_cons_self] at found
      rw [beq_self_eq_true]
      exact found
    · rw [List.idxOf_cons_ne _ (Ne.symm same), List.getElem?_cons_succ] at found
      rw [beq_false_of_ne same]
      exact lookup_zip_idxOf ((List.mem_cons.mp member).resolve_left same) found

/-- The slots are found by the places of their names. -/
theorem packedOf_eq_packedNode {backing : Primitive} {slots : List (String × Numeral)}
    {order : Option (List String)} (inside : order.getD (slots.map (·.1)) ⊆ slots.map (·.1)) :
    packedOf 0 backing (slots.map (·.1)) (slots.map (·.2.int.toNat))
      (order.getD (slots.map (·.1))) = packedNode backing slots order := by
  have sizes : (slots.map (·.2.int.toNat)).length = (slots.map (·.1)).length := by
    rw [List.length_map, List.length_map]
  rw [packedOf, packedNode]
  generalize slots.map (·.1) = names at *
  generalize slots.map (·.2.int.toNat) = widths at *
  congr 1
  generalize order.getD names = fields at *
  induction fields with
  | nil => rfl
  | cons name fields ih =>
    obtain ⟨known, inside⟩ := List.cons_subset.mp inside
    have place : names.idxOf name < widths.length := sizes ▸ List.idxOf_lt_length_of_mem known
    have slot : (slotsOfWidths 0 backing widths)[names.idxOf name]? =
        some (.slot 0 (names.idxOf name) (.bits (total (widths.drop (names.idxOf name + 1)))
          (widths.getD (names.idxOf name) 0) backing)) := by
      rw [slotsOfWidths, List.getElem?_map, List.getElem?_zipIdx, List.getElem?_eq_getElem place]
      simp [List.getElem?_eq_getElem place]
    have rest := ih inside
    rw [packedFields] at rest ⊢
    rw [List.filterMap_cons, lookup_zip_idxOf known slot, List.map_cons, ← rest]
    rfl

theorem flagsOf_eq_flagsNode (backing : Primitive) (entries : List (String × Numeral)) :
    flagsOf 0 backing (entries.map fun (name, mask) => (name, mask.int)) =
      flagsNode backing entries := by
  rw [flagsOf, flagsNode]
  congr 1
  rw [slotsOfMasks]
  apply List.ext_getElem?
  intro index
  cases here : entries[index]? with
  | none => simp [here, List.zip, List.getElem?_zipWith]
  | some entry => simp [here, List.zip, List.getElem?_zipWith]

theorem mapM_masks : ∀ {entries : List (String × Numeral)},
    (∀ entry ∈ entries, entry.2.IsSmall) →
    entries.mapM (fun (name, mask) => (do return (name, ← mask.value) : Except SchemaError _)) =
      .ok (entries.map fun (name, mask) => (name, mask.int))
  | [], _ => rfl
  | (name, mask) :: rest, small => by
    obtain ⟨own, others⟩ := List.forall_mem_cons.mp small
    refine mapM_cons_ok.mpr ⟨(name, mask.int), _, ?_, mapM_masks others, rfl⟩
    have read : mask.value = .ok mask.int := Numeral.value_small own
    simp only [read]
    rfl

theorem mapM_primitiveNamed {backing : Option String}
    (known : ∀ name ∈ backing, (Primitive.ofName? name).isSome) :
    backing.mapM primitiveNamed = .ok (backing.map primitiveOf) := by
  cases backing with
  | none => rfl
  | some name =>
    obtain ⟨p, found⟩ := Option.isSome_iff_exists.mp (known name rfl)
    simp only [Option.mapM_some, primitiveNamed, found, Option.map_some, primitiveOf]
    rfl

theorem bits_small (kind : IntKind) : kind.bits < Nat.pow 2 32 := by cases kind <;> decide

end Builders

section Sound

open TypeSpec

variable {names : List String} {target : String → Shape} {lookup : Lookup}

/-- The variants of a union as they are built, and as they are written. -/
structure ArmsMeet (target : String → Shape) (kind : IntKind) (arms : List (ArmSpec TypeSpec))
    (made : List (String × Option Literal × List Field)) : Prop where
  variants : Shape.unfoldVariants target (made.map fun (name, _, fields) => (name, .struct fields)) =
    Shape.unfoldVariants target (nodeVariants arms)
  tags : (made.filterMap fun (name, given, _) => given.map fun l => (name, l)) = nodeTags kind arms

mutual

/-- A sound type is built, and gives what it stands for. -/
theorem sound_builds (meets : Lookup.Meets target names lookup) : ∀ (t : TypeSpec),
    t.Sound names → t.Counted → ∀ g, ∃ s g', Builds (t.shape lookup) g s g' ∧ Twins target s t.node
  | .named name, sound, _, g => by
    rw [TypeSpec.shape, node]
    cases known : Primitive.ofName? name with
    | some p => exact ⟨.prim p, g, builds_pure.mpr ⟨rfl, rfl⟩, .refl _⟩
    | none =>
      have declared : name ∈ names := by
        rcases sound with primitive | declared
        · rw [known] at primitive
          cases primitive
        · exact declared
      obtain ⟨s, found, unfold, kind⟩ := meets.finds name declared
      exact ⟨s, g, builds_lift.mpr ⟨found, rfl⟩, unfold, kind⟩
  | .bytes n, ⟨small, positive, fits⟩, _, g =>
    ⟨_, g, builds_lift.mpr ⟨bytesShape_ok.mpr
      ⟨n.int, Numeral.value_small small, positive, fits, rfl⟩, rfl⟩, .refl _⟩
  | .optional value, sound, counted, g => by
    obtain ⟨s, g', builds, twins⟩ := sound_builds meets value sound counted g
    refine ⟨.opt s, g', ?_, ?_, rfl⟩
    · simp only [TypeSpec.shape, builds_bind, builds_pure]
      exact ⟨s, g', builds, rfl, rfl⟩
    · simp only [node, Shape.opt, Shape.unfoldWith, twins.unfold]
  | .list item length, ⟨sound, known⟩, counted, g => by
    obtain ⟨s, g', builds, twins⟩ := sound_builds meets item sound counted g
    refine ⟨.list s (lengthOf length), g', ?_, ?_, rfl⟩
    · simp only [TypeSpec.shape, builds_bind, builds_lift, builds_pure]
      exact ⟨s, g', builds, _, _, ⟨lengthNamed_ok known, rfl⟩, rfl, rfl⟩
    · simp only [node, Shape.unfoldWith, twins.unfold]
  | .map key value length, ⟨soundKey, soundValue, known⟩, ⟨countedKey, countedValue⟩, g => by
    obtain ⟨k, g₁, ofKey, keyTwins⟩ := sound_builds meets key soundKey countedKey g
    obtain ⟨v, g', ofValue, valueTwins⟩ := sound_builds meets value soundValue countedValue g₁
    refine ⟨.map k v (lengthOf length), g', ?_, ?_, rfl⟩
    · simp only [TypeSpec.shape, builds_bind, builds_lift, builds_pure]
      exact ⟨k, g₁, ofKey, v, g', ofValue, _, _, ⟨lengthNamed_ok known, rfl⟩, rfl, rfl⟩
    · simp only [node, Shape.unfoldWith, keyTwins.unfold, valueTwins.unfold]
  | .enum backing entries, ⟨⟨kind, known⟩, nodup, small⟩, counted, g => by
    refine ⟨_, g, ?_, .refl _⟩
    simp only [TypeSpec.shape, builds_bind, builds_lift, builds_pure]
    exact ⟨_, _, ⟨(integerNamed_ok known).1, rfl⟩, _, _,
      ⟨enumIds_ok.mpr ⟨nodup, fun _ _ => List.not_mem_nil, small, counted, rfl⟩, rfl⟩, rfl, rfl⟩
  | .union tagField tag arms, ⟨soundTag, nodup, soundArms⟩, ⟨countedTag, countedArms⟩, g => by
    obtain ⟨t, g₁, ofTag, twins⟩ := sound_builds meets tag soundTag countedTag g
    obtain ⟨made, g', ofArms, meet⟩ := soundArms_builds meets (tagKind t) arms soundArms
      countedArms nodup [] (fun _ _ => List.not_mem_nil) g₁
    refine ⟨.union tagField t (made.map fun (name, _, fields) => (name, .struct fields))
      (made.filterMap fun (name, given, _) => given.map fun l => (name, l)), g', ?_, ?_, rfl⟩
    · simp only [TypeSpec.shape, builds_bind, builds_pure]
      exact ⟨t, g₁, ofTag, made, g', ofArms, rfl, rfl⟩
    · rw [twins.tagKind] at meet
      simp only [node, Shape.unfoldWith, twins.unfold, meet.variants, meet.tags]
  | .struct fields, sound, counted, g => by
    obtain ⟨made, g', builds, same⟩ := soundFields_builds meets fields sound counted g
    refine ⟨.struct made, g', ?_, ?_, rfl⟩
    · simp only [TypeSpec.shape, builds_bind, builds_pure]
      exact ⟨made, g', builds, rfl, rfl⟩
    · simp only [node, Shape.unfoldWith, same]
  | .merge parts, sound, counted, g => by
    obtain ⟨made, g', builds, same⟩ := soundParts_builds meets parts sound counted g
    refine ⟨.merged made, g', ?_, ?_, rfl⟩
    · simp only [TypeSpec.shape, builds_bind, builds_pure]
      exact ⟨made, g', builds, rfl, rfl⟩
    · simp only [node, Shape.unfoldWith, same]
  | .packed backing slots order, ⟨nodup, widths, ⟨kind, known, fits⟩, ordered⟩, _, g => by
    obtain ⟨named, integer⟩ := integerNamed_ok known
    have inOrder : (order.getD (slots.map (·.1))).Nodup ∧
        order.getD (slots.map (·.1)) ⊆ slots.map (·.1) := by
      cases order with
      | none => exact ⟨nodup, fun _ member => member⟩
      | some fields => exact ordered fields rfl
    have positive : 0 ∉ slots.map (·.2.int.toNat) := by
      intro zero
      obtain ⟨slot, member, isZero⟩ := List.mem_map.mp zero
      have := (widths slot member).2
      omega
    refine ⟨packedOf g (primitiveOf backing) (slots.map (·.1)) (slots.map (·.2.int.toNat))
      (order.getD (slots.map (·.1))), g + 1, ?_, ?_, rfl⟩
    · rw [TypeSpec.shape, builds_packedShape]
      exact ⟨_, _, kind, named, mapM_widths kind.bits widths fits (bits_small kind),
        checkOrder_ok inOrder.1 inOrder.2 (fun _ _ => List.not_mem_nil), integer, fits, positive,
        rfl, rfl⟩
    · rw [node, ← packedOf_eq_packedNode inOrder.2, unfold_packedOf, unfold_packedOf]
  | .flags backing entries, ⟨small, kind, known, fits⟩, _, g => by
    obtain ⟨named, integer⟩ := integerNamed_ok known
    refine ⟨flagsOf g (primitiveOf backing) (entries.map fun (name, mask) => (name, mask.int)),
      g + 1, ?_, ?_, rfl⟩
    · rw [TypeSpec.shape, builds_flagsShape]
      refine ⟨_, _, kind, named, mapM_masks small, integer, fun entry member => ?_, rfl, rfl⟩
      obtain ⟨written, inside, rfl⟩ := List.mem_map.mp member
      exact fits written inside
    · rw [node, ← flagsOf_eq_flagsNode, unfold_flagsOf, unfold_flagsOf]
  | .literal backing value, ⟨plain, known⟩, _, g =>
    ⟨_, g, builds_lift.mpr ⟨literalShape_ok.mpr ⟨_, _, mapM_primitiveNamed known,
      literal_plain plain _, rfl⟩, rfl⟩, .refl _⟩

theorem soundFields_builds (meets : Lookup.Meets target names lookup) :
    ∀ (fields : List (FieldSpec TypeSpec)), SoundFields names fields → CountedFields fields →
      ∀ g, ∃ made g', Builds (shapeFields lookup fields) g made g' ∧
      Shape.unfoldFields target made = Shape.unfoldFields target (nodeFields fields)
  | [], _, _, g => ⟨[], g, builds_pure.mpr ⟨rfl, rfl⟩, rfl⟩
  | ⟨docs, name, type⟩ :: rest, ⟨sound, sound'⟩, ⟨counted, counted'⟩, g => by
    obtain ⟨s, g₁, ofType, twins⟩ := sound_builds meets type sound counted g
    obtain ⟨others, g', ofRest, same⟩ := soundFields_builds meets rest sound' counted' g₁
    refine ⟨{ name, shape := s, doc := docOf docs } :: others, g', ?_, ?_⟩
    · simp only [shapeFields, builds_bind, builds_pure]
      exact ⟨s, g₁, ofType, others, g', ofRest, rfl, rfl⟩
    · simp only [nodeFields, Shape.unfoldFields, twins.unfold, same]

theorem soundParts_builds (meets : Lookup.Meets target names lookup) :
    ∀ (parts : List TypeSpec), SoundParts names parts → CountedParts parts → ∀ g, ∃ made g',
      Builds (shapeParts lookup parts) g made g' ∧
      Shape.unfoldParts target made = Shape.unfoldParts target (nodeParts parts)
  | [], _, _, g => ⟨[], g, builds_pure.mpr ⟨rfl, rfl⟩, rfl⟩
  | part :: rest, ⟨sound, sound'⟩, ⟨counted, counted'⟩, g => by
    obtain ⟨s, g₁, ofPart, twins⟩ := sound_builds meets part sound counted g
    obtain ⟨others, g', ofRest, same⟩ := soundParts_builds meets rest sound' counted' g₁
    refine ⟨s :: others, g', ?_, ?_⟩
    · simp only [shapeParts, builds_bind, builds_pure]
      exact ⟨s, g₁, ofPart, others, g', ofRest, rfl, rfl⟩
    · simp only [nodeParts, Shape.unfoldParts, twins.unfold, same]

theorem soundArms_builds (meets : Lookup.Meets target names lookup) (kind : IntKind) :
    ∀ (arms : List (ArmSpec TypeSpec)), SoundArms names arms → CountedArms arms →
      (arms.map (·.name)).Nodup →
      ∀ seen : List String, (∀ name ∈ arms.map (·.name), name ∉ seen) → ∀ g, ∃ made g',
      Builds (shapeArms lookup kind seen arms) g made g' ∧ ArmsMeet target kind arms made
  | [], _, _, _, _, _, g => ⟨[], g, builds_pure.mpr ⟨rfl, rfl⟩, rfl, rfl⟩
  | ⟨name, tag, fields⟩ :: rest, ⟨plain, sound, sound'⟩, ⟨counted, counted'⟩, nodup, seen, fresh,
      g => by
    obtain ⟨once, nodup⟩ := List.nodup_cons.mp nodup
    obtain ⟨free, later⟩ := List.forall_mem_cons.mp fresh
    obtain ⟨own, g₁, ofFields, same⟩ := soundFields_builds meets fields sound counted g
    obtain ⟨others, g', ofRest, meet⟩ := soundArms_builds meets kind rest sound' counted' nodup
      (name :: seen) (fun other member taken => by
        rcases List.mem_cons.mp taken with rfl | early
        · exact once member
        · exact later other member early) g₁
    have read : tagOf kind tag = .ok (tag.map (·.meant kind)) := by
      cases tag with
      | none => rfl
      | some l =>
        rw [tagOf, literal_plain (plain l rfl)]
        rfl
    refine ⟨_, g', builds_arm.mpr ⟨_, own, g₁, others, read, ofFields, free, ofRest, rfl⟩, ?_, ?_⟩
    · simp only [List.map_cons, nodeVariants, Shape.unfoldVariants, Shape.unfoldWith, same,
        meet.variants]
    · cases tag with
      | none => exact meet.tags
      | some l =>
        simp only [List.filterMap_cons, Option.map_some, nodeTags, meet.tags]

end

end Sound

end WireSchema.Source
